import TrainVla.Interaction.Safety
import Mathlib.Data.List.Nodup
import Mathlib.Data.Nat.Notation

/-! An advisory lock on one file, shared by the processes of one host. The lock belongs to an open
description of the file, so that it is gone when the description is closed or its process ends. -/
namespace Interaction

/-- The open descriptions of the file, by process and descriptor, and the one that is locked. -/
structure LockFile (P : Type) where
  opened : List (P × ℕ)
  owner : Option (P × ℕ)
  owner_mem : ∀ d ∈ owner, d ∈ opened

inductive LockError
  | wouldBlock
  | os (message : String)
  deriving DecidableEq

inductive LockCall
  | openFile
  /-- `flock(fd, LOCK_EX | LOCK_NB)` -/
  | tryLock (fd : ℕ)
  | unlock (fd : ℕ)
  | close (fd : ℕ)

@[reducible] def LockCall.Resp : LockCall → Type
  | openFile => Except LockError ℕ
  | _ => Except LockError Unit

/-- What the operating system settles: the number of a new descriptor, and whether the call
fails. -/
structure LockChoice where
  fd : ℕ := 0
  fault : Option String := none

namespace LockFile

variable {P : Type}

def closed : LockFile P where
  opened := []
  owner := none
  owner_mem := nofun

/-- Nobody holds the lock. -/
def Free (f : LockFile P) : Prop := f.owner = none

def openAs (f : LockFile P) (d : P × ℕ) : LockFile P where
  opened := d :: f.opened
  owner := f.owner
  owner_mem d' h := List.mem_cons_of_mem _ (f.owner_mem d' h)

def lockAs (f : LockFile P) (d : P × ℕ) (hd : d ∈ f.opened) : LockFile P where
  opened := f.opened
  owner := some d
  owner_mem d' h := by
    rw [← Option.some.inj h]
    exact hd

/-- The descriptions that are kept, with the lock if its description is among them. -/
def keep (f : LockFile P) (kept : P × ℕ → Bool) : LockFile P where
  opened := f.opened.filter kept
  owner := f.owner.filter kept
  owner_mem d h := by
    obtain ⟨howner, hkept⟩ := Option.mem_filter_iff.mp h
    exact List.mem_filter.mpr ⟨f.owner_mem d howner, hkept⟩

section

variable {p : P} {f f' f'' : LockFile P}

/-- Nothing has changed for process `p`. -/
def KeptFor (p : P) (f f' : LockFile P) : Prop :=
  ∀ fd, ((p, fd) ∈ f'.opened ↔ (p, fd) ∈ f.opened) ∧
    (f'.owner = some (p, fd) ↔ f.owner = some (p, fd))

theorem KeptFor.refl (p : P) (f : LockFile P) : KeptFor p f f := fun _ => ⟨.rfl, .rfl⟩

theorem KeptFor.trans (h : KeptFor p f f') (h' : KeptFor p f' f'') :
    KeptFor p f f'' :=
  fun fd => ⟨(h' fd).1.trans (h fd).1, (h' fd).2.trans (h fd).2⟩

/-- Process `p` has the file not open. -/
def Absent (p : P) (f : LockFile P) : Prop := ∀ fd, (p, fd) ∉ f.opened

theorem Absent.keptFor (h : Absent p f) (hf : KeptFor p f f') : Absent p f' :=
  fun fd hmem => h fd ((hf fd).1.mp hmem)

theorem Absent.not_owner (h : Absent p f) (fd : ℕ) : f.owner ≠ some (p, fd) :=
  fun howner => h fd (f.owner_mem _ howner)

theorem undisturbed_keep {kept : P × ℕ → Bool} (h : ∀ fd, kept (p, fd) = true) :
    KeptFor p f (f.keep kept) := by
  intro fd
  unfold keep
  constructor
  · rw [List.mem_filter]
    exact ⟨And.left, fun hmem => ⟨hmem, h fd⟩⟩
  · rw [Option.filter_eq_some_iff]
    exact ⟨And.left, fun howner => ⟨howner, h fd⟩⟩

end

/-- A process uses only descriptors that it has open, and relies on the others leaving these and
its lock alone. -/
def outline : Outline P LockCall (LockFile P) where
  inv _ := True
  rely := KeptFor
  pre p f c :=
    match c with
    | .openFile => True
    | .tryLock fd | .unlock fd | .close fd => (p, fd) ∈ f.opened
  cond _ _ _ := True

theorem outline_preorders : (outline : Outline P LockCall (LockFile P)).Preorders where
  refl := KeptFor.refl
  trans _ _ _ _ := KeptFor.trans

variable [DecidableEq P]

def unlockAs (f : LockFile P) (d : P × ℕ) : LockFile P where
  opened := f.opened
  owner := f.owner.filter fun d' => d' ≠ d
  owner_mem d' h := f.owner_mem d' (Option.mem_filter_iff.mp h).1

def closeAs (f : LockFile P) (d : P × ℕ) : LockFile P := f.keep fun d' => d' ≠ d

/-- The end of a process, which closes what it has open. -/
def die (f : LockFile P) (p : P) : LockFile P := f.keep fun d => d.1 ≠ p

/-- The calls of process `p`. A new descriptor is not in use; a close that fails has closed the
descriptor all the same. -/
def exec (p : P) (o : LockChoice) (f : LockFile P) :
    (c : LockCall) → Option (c.Resp × LockFile P)
  | .openFile =>
    match o.fault with
    | some m => some (.error (.os m), f)
    | none => if (p, o.fd) ∈ f.opened then none else some (.ok o.fd, f.openAs (p, o.fd))
  | .tryLock fd =>
    match o.fault with
    | some m => some (.error (.os m), f)
    | none =>
      if h : (p, fd) ∈ f.opened then
        if ∀ d ∈ f.owner, d = (p, fd) then some (.ok (), f.lockAs (p, fd) h)
        else some (.error .wouldBlock, f)
      else some (.error (.os "Bad file descriptor"), f)
  | .unlock fd =>
    match o.fault with
    | some m => some (.error (.os m), f)
    | none =>
      if (p, fd) ∈ f.opened then some (.ok (), f.unlockAs (p, fd))
      else some (.error (.os "Bad file descriptor"), f)
  | .close fd =>
    if (p, fd) ∈ f.opened then
      match o.fault with
      | some m => some (.error (.os m), f.closeAs (p, fd))
      | none => some (.ok (), f.closeAs (p, fd))
    else some (.error (.os "Bad file descriptor"), f)

section

variable {p q : P} {f f' : LockFile P} {o : LockChoice}

theorem absent_die (p : P) (f : LockFile P) : Absent p (f.die p) := by
  intro fd hmem
  have hne := (List.mem_filter.mp hmem).2
  simp at hne

theorem keptFor_die (h : p ≠ q) (f : LockFile P) : KeptFor p f (f.die q) :=
  undisturbed_keep fun _ => decide_eq_true h

theorem exec_openFile {r : Except LockError ℕ} (he : exec p o f .openFile = some (r, f')) :
    (∃ m, r = .error (.os m) ∧ f' = f) ∨
      ∃ fd, r = .ok fd ∧ (p, fd) ∉ f.opened ∧ f' = f.openAs (p, fd) := by
  unfold exec at he
  dsimp only at he
  split at he
  · rename_i m _
    obtain ⟨rfl, rfl⟩ := Prod.mk.inj (Option.some.inj he)
    exact .inl ⟨m, rfl, rfl⟩
  · split at he
    · cases he
    · rename_i hnew
      obtain ⟨rfl, rfl⟩ := Prod.mk.inj (Option.some.inj he)
      exact .inr ⟨o.fd, rfl, hnew, rfl⟩

/-- An attempt to lock leaves the file as it is, unless the lock is free or held already. -/
theorem exec_tryLock {fd : ℕ} {r : Except LockError Unit}
    (he : exec p o f (.tryLock fd) = some (r, f')) :
    (r ≠ .ok () ∧ f' = f) ∨
      ∃ h : (p, fd) ∈ f.opened, r = .ok () ∧ (∀ d ∈ f.owner, d = (p, fd)) ∧
        f' = f.lockAs (p, fd) h := by
  unfold exec at he
  dsimp only at he
  split at he
  · obtain ⟨rfl, rfl⟩ := Prod.mk.inj (Option.some.inj he)
    exact .inl ⟨by simp, rfl⟩
  · split at he
    · rename_i hopen
      split at he
      · rename_i howner
        obtain ⟨rfl, rfl⟩ := Prod.mk.inj (Option.some.inj he)
        exact .inr ⟨hopen, rfl, howner, rfl⟩
      · obtain ⟨rfl, rfl⟩ := Prod.mk.inj (Option.some.inj he)
        exact .inl ⟨by simp, rfl⟩
    · obtain ⟨rfl, rfl⟩ := Prod.mk.inj (Option.some.inj he)
      exact .inl ⟨by simp, rfl⟩

theorem exec_unlock {fd : ℕ} {r : Except LockError Unit}
    (he : exec p o f (.unlock fd) = some (r, f')) :
    f' = f ∧ r ≠ .ok () ∨ f' = f.unlockAs (p, fd) ∧ r = .ok () := by
  unfold exec at he
  dsimp only at he
  split at he
  · obtain ⟨rfl, rfl⟩ := Prod.mk.inj (Option.some.inj he)
    exact .inl ⟨rfl, by simp⟩
  · split at he <;> obtain ⟨rfl, rfl⟩ := Prod.mk.inj (Option.some.inj he)
    · exact .inr ⟨rfl, rfl⟩
    · exact .inl ⟨rfl, by simp⟩

theorem exec_close {fd : ℕ} {r : Except LockError Unit} (hopen : (p, fd) ∈ f.opened)
    (he : exec p o f (.close fd) = some (r, f')) : f' = f.closeAs (p, fd) := by
  unfold exec at he
  dsimp only at he
  rw [if_pos hopen] at he
  split at he <;> exact (Prod.mk.inj (Option.some.inj he)).2.symm

theorem exec_openFile_new {fd : ℕ} (h : (p, fd) ∉ f.opened) :
    exec p { fd } f .openFile = some (.ok fd, f.openAs (p, fd)) := by
  simp [exec, h]

theorem exec_tryLock_free {fd : ℕ} (hopen : (p, fd) ∈ f.opened) (hfree : f.Free) :
    exec p {} f (.tryLock fd) = some (.ok (), f.lockAs (p, fd) hopen) := by
  have howner : f.owner = none := hfree
  simp [exec, hopen, howner]

theorem exec_tryLock_taken {fd : ℕ} {d : P × ℕ} (hopen : (p, fd) ∈ f.opened)
    (howner : f.owner = some d) (hne : d ≠ (p, fd)) :
    exec p {} f (.tryLock fd) = some (.error .wouldBlock, f) := by
  simp [exec, hopen, howner, hne]

theorem exec_close_opened {fd : ℕ} (hopen : (p, fd) ∈ f.opened) :
    exec p {} f (.close fd) = some (.ok (), f.closeAs (p, fd)) := by
  simp [exec, hopen]

/-- What a process does about its descriptors is nothing to the others. -/
theorem undisturbed_exec {c : LockCall} {r : c.Resp} (hne : p ≠ q)
    (he : exec q o f c = some (r, f')) : KeptFor p f f' := by
  have hother : ∀ fd fd' : ℕ, (p, fd) ≠ (q, fd') := fun fd fd' heq => hne (Prod.mk.inj heq).1
  cases c with
  | openFile =>
    rcases exec_openFile he with ⟨m, -, rfl⟩ | ⟨fd, -, -, rfl⟩
    · exact .refl p _
    · intro fd'
      refine ⟨?_, .rfl⟩
      unfold openAs
      rw [List.mem_cons]
      exact ⟨fun hmem => hmem.resolve_left (hother fd' fd), .inr⟩
  | tryLock fd =>
    rcases exec_tryLock he with ⟨-, rfl⟩ | ⟨hopen, -, howner, rfl⟩
    · exact .refl p _
    · intro fd'
      refine ⟨.rfl, fun hlocked => ?_, fun hlocked => ?_⟩
      · exact absurd (Option.some.inj hlocked).symm (hother fd' fd)
      · exact absurd (howner _ hlocked) (hother fd' fd)
  | unlock fd =>
    rcases exec_unlock he with ⟨rfl, -⟩ | ⟨rfl, -⟩
    · exact .refl p _
    · intro fd'
      refine ⟨.rfl, ?_⟩
      unfold unlockAs
      rw [Option.filter_eq_some_iff]
      exact ⟨And.left, fun howner => ⟨howner, decide_eq_true (hother fd' fd)⟩⟩
  | close fd =>
    by_cases hopen : (q, fd) ∈ f.opened
    · rw [exec_close hopen he]
      exact undisturbed_keep fun fd' => decide_eq_true (hother fd' fd)
    · unfold exec at he
      dsimp only at he
      rw [if_neg hopen] at he
      rw [← (Prod.mk.inj (Option.some.inj he)).2]
      exact .refl p f

end

end LockFile

end Interaction
