import TrainVla.System.Installation

/-! The walk through the lock file, whatever other processes do meanwhile. -/
namespace TrainVla

open Interaction LockFile

variable {P : Type} {p : P} {f f' : LockFile P} {fd : ℕ}

/-- The only descriptor of process `p`. -/
def OpensOnly (p : P) (fd : ℕ) (f : LockFile P) : Prop := ∀ n, (p, n) ∈ f.opened ↔ n = fd

theorem OpensOnly.keptFor (h : OpensOnly p fd f) (hf : KeptFor p f f') : OpensOnly p fd f' :=
  fun n => (hf n).1.trans (h n)

theorem OpensOnly.opened (h : OpensOnly p fd f) : (p, fd) ∈ f.opened := (h fd).mpr rfl

theorem opensOnly_openAs (h : Absent p f) : OpensOnly p fd (f.openAs (p, fd)) := by
  intro n
  unfold openAs
  rw [List.mem_cons]
  constructor
  · rintro (heq | hmem)
    · exact (Prod.mk.inj heq).2
    · exact absurd hmem (h n)
  · rintro rfl
    exact .inl rfl

variable [DecidableEq P]

theorem absent_closeAs (h : OpensOnly p fd f) : Absent p (f.closeAs (p, fd)) := by
  intro n hmem
  obtain ⟨hopen, hne⟩ := List.mem_filter.mp hmem
  rw [(h n).mp hopen] at hne
  simp at hne

namespace WorkerLock

/-- What has become of an attempt to take the lock: it is held, or somebody else has it and nothing
is left open, or a system call failed. -/
def Acquired (path : String) (p : P) : Except WorkerLockError WorkerLock → LockFile P → Prop
  | .ok lock, f => ∃ fd, lock = { path, fd := some fd } ∧ f.owner = some (p, fd) ∧ OpensOnly p fd f
  | .error (.lockAcquisition message), f =>
    Absent p f ∧ message = s!"Worker lock already held: {path}"
  | .error (.os _), f => ∀ fd, f.owner ≠ some (p, fd)

theorem safe_acquire {path : String} (h : Absent p f) :
    Safe (exec p) outline p (Acquired path p) (acquire { path }) f := by
  unfold acquire
  refine Safe.perform fun f₁ hf₁ _ => ⟨trivial, fun _ o r f₂ he => ?_⟩
  have habsent : Absent p f₁ := h.keptFor hf₁
  rcases exec_openFile he with ⟨m, rfl, rfl⟩ | ⟨fd, rfl, -, rfl⟩
  · exact fun f₃ hf₃ _ => (habsent.keptFor hf₃).not_owner
  -- from here on the descriptor is open, and it does not own the lock
  have honly : OpensOnly p fd (f₁.openAs (p, fd)) := opensOnly_openAs habsent
  have hfree : ∀ n, (f₁.openAs (p, fd)).owner ≠ some (p, n) := habsent.not_owner
  refine Safe.perform fun f₂ hf₂ _ => ⟨(honly.keptFor hf₂).opened, fun _ o r f₃ he => ?_⟩
  have honly₂ := honly.keptFor hf₂
  have hfree₂ : ∀ n, f₂.owner ≠ some (p, n) := fun n howner => hfree n ((hf₂ n).2.mp howner)
  rcases exec_tryLock he with ⟨hr, rfl⟩ | ⟨hopen, rfl, -, rfl⟩
  · cases r with
    | ok u => exact absurd rfl hr
    | error e =>
      cases e with
      | os m => exact fun f₄ hf₄ _ n howner => hfree₂ n ((hf₄ n).2.mp howner)
      | wouldBlock =>
        refine Safe.perform fun f₄ hf₄ _ => ⟨(honly₂.keptFor hf₄).opened,
          fun _ o r f₅ he => ?_⟩
        have honly₄ := honly₂.keptFor hf₄
        have hclosed : Absent p f₅ := by
          rw [exec_close honly₄.opened he]
          exact absent_closeAs honly₄
        cases r with
        | ok u => exact fun f₆ hf₆ _ => ⟨hclosed.keptFor hf₆, rfl⟩
        | error e => exact fun f₆ hf₆ _ => (hclosed.keptFor hf₆).not_owner
  · have hlocked : OpensOnly p fd (f₂.lockAs (p, fd) hopen) := honly₂
    intro f₄ hf₄ _
    exact ⟨fd, rfl, (hf₄ fd).2.mpr rfl, hlocked.keptFor hf₄⟩

/-- A lock that is held is given back, and nothing is left open. -/
theorem safe_release {lock : WorkerLock} (hfd : lock.fd = some fd) (honly : OpensOnly p fd f) :
    Safe (exec p) outline p
      (fun r f' => ∀ lock', r = .ok lock' → lock'.isHeld = false ∧ Absent p f') lock.release f := by
  unfold release
  rw [hfd]
  refine Safe.perform fun f₁ hf₁ _ => ⟨(honly.keptFor hf₁).opened, fun _ o r f₂ he => ?_⟩
  have honly₁ := honly.keptFor hf₁
  rcases exec_unlock he with ⟨rfl, hr⟩ | ⟨rfl, rfl⟩
  · cases r with
    | ok u => exact absurd rfl hr
    | error e =>
      intro f₃ _ _ lock' heq
      cases heq
  have honly₂ : OpensOnly p fd (f₁.unlockAs (p, fd)) := honly₁
  refine Safe.perform fun f₂ hf₂ _ => ⟨(honly₂.keptFor hf₂).opened, fun _ o r f₃ he => ?_⟩
  have hclosed : Absent p f₃ := by
    rw [exec_close (honly₂.keptFor hf₂).opened he]
    exact absent_closeAs (honly₂.keptFor hf₂)
  cases r with
  | ok u =>
    intro f₄ hf₄ _ lock' heq
    obtain rfl := Except.ok.inj heq
    exact ⟨rfl, hclosed.keptFor hf₄⟩
  | error e =>
    intro f₄ _ _ lock' heq
    cases heq

end WorkerLock

namespace Installation

variable (I : Installation)

theorem lawful (P : Type) [DecidableEq P] : I.fleet.Lawful P where
  first := rfl
  next r h := by
    cases r with
    | startup => rfl
    | pollerTick => rfl
    | completionTick => rfl
    | _ => cases h
  enter p f h := by
    refine (WorkerLock.safe_acquire h).mono fun r f' _ hr => ?_
    cases r with
    | ok lock =>
      obtain ⟨fd, rfl, howner, honly⟩ := hr
      exact ⟨fd, rfl, howner, fun n hmem => (honly n).mp hmem⟩
    | error e =>
      cases e with
      | lockAcquisition message => exact hr.1.not_owner
      | os e => exact hr
  leave p lock f fd h := by
    have honly : OpensOnly p fd f := by
      refine fun n => ⟨h.only n, ?_⟩
      rintro rfl
      exact f.owner_mem _ h.owner
    refine Safe.bind outline_preorders ?_
    refine (WorkerLock.safe_release h.descriptor honly).mono fun r f' _ hr => ?_
    cases r with
    | ok lock' => exact fun f'' hf'' _ => (hr lock' rfl).2.keptFor hf''
    | error e => trivial

end Installation

end TrainVla
