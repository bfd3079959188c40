import TrainVla.Interaction.FileLock
import TrainVla.Interaction.System
import Mathlib.Logic.Function.Basic

/-! Many processes that share the thread of a system: each of them runs its programs only between
taking an advisory lock and releasing it, and may end at any moment. -/
namespace Interaction

/-- What every process does: it gets through `enter`, runs `first` and then one program after the
other, and goes through `leave` when it cannot go on. `descriptor` is that of the lock. -/
structure Fleet (Op C : Type) (R : C → Type) (E F L σ X V : Type) where
  machine : Machine Op C R E σ X V
  enter : Prog LockCall LockCall.Resp F L
  leave : L → Prog LockCall LockCall.Resp F Unit
  descriptor : L → Option ℕ
  first : Op
  next : Op → Op

/-- Where a process is. -/
inductive Process (Op C : Type) (R : C → Type) (E F L : Type) : Type
  | entering (q : Prog LockCall LockCall.Resp F L)
  | inside (l : L) (op : Op) (p : Prog C R E Unit)
  | leaving (q : Prog LockCall LockCall.Resp F Unit)

/-- The shared state, the requests of others, the lock, and the processes that are alive. -/
structure FleetConf (P Op C : Type) (R : C → Type) (E F L σ : Type) where
  state : σ
  pool : List (Op × Prog C R E Unit)
  lock : LockFile P
  procs : P → Option (Process Op C R E F L)

/-- The steps of a process, and those of the surroundings. `letIn` ends the entering of a process,
`abort` too, but with an exception before anything ran; `unwind` ends its run by an exception, and
`exit` its life. -/
inductive FleetLabel (P Op X V : Type) : Type
  | boot (p : P)
  | sync (p : P) (y : LockChoice)
  | letIn (p : P)
  | abort (p : P)
  | work (p : P) (x : X)
  | next (p : P)
  | unwind (p : P)
  | exit (p : P)
  | outer (l : Label Op X V)

/-- The process runs its programs. -/
def Process.runs {Op C : Type} {R : C → Type} {E F L : Type} : Process Op C R E F L → Bool
  | inside _ _ _ => true
  | _ => false

/-- Labels that leave the thread alone. -/
def Label.outer {Op X V : Type} (threaded : Op → Bool) : Label Op X V → Bool
  | spawn _ => true
  | serve _ _ => true
  | whole op _ => !threaded op
  | event _ => true
  | _ => false

/-- The thread is set to a program, or loses the one it has. -/
def Label.turns {Op X V : Type} : Label Op X V → Bool
  | start _ => true
  | crash => true
  | _ => false

variable {P Op C : Type} {R : C → Type} {E F L α σ X V : Type}

namespace LockFile

/-- The next call of a process on the lock file. -/
def advance [DecidableEq P] (p : P) (y : LockChoice) (f : LockFile P) :
    Prog LockCall LockCall.Resp F α → Option (Prog LockCall LockCall.Resp F α × LockFile P)
  | .call c k => (exec p y f c).map fun out => (k out.1, out.2)
  | _ => none

/-- One call of a program that is safe. The others do not notice. -/
theorem safe_advance [DecidableEq P] {p : P} {y : LockChoice} {f f' : LockFile P}
    {q q' : Prog LockCall LockCall.Resp F α} {post : Except F α → LockFile P → Prop}
    (hsafe : Safe (exec p) outline p post q f) (h : advance p y f q = some (q', f')) :
    Safe (exec p) outline p post q' f' ∧ ∀ p' ≠ p, KeptFor p' f f' := by
  cases q with
  | pure a => cases h
  | raise e => cases h
  | call c k =>
    obtain ⟨⟨a, f₁⟩, he, heq⟩ := Option.map_eq_some_iff.mp h
    obtain ⟨rfl, rfl⟩ := Prod.mk.inj heq
    exact ⟨(hsafe f (.refl p f) trivial).2 trivial y a f₁ he,
      fun p' hne => undisturbed_exec hne he⟩

end LockFile

namespace FleetConf

def initial (s : σ) : FleetConf P Op C R E F L σ where
  state := s
  pool := []
  lock := .closed
  procs _ := none

/-- Process `p` runs its programs. -/
def Inside (c : FleetConf P Op C R E F L σ) (p : P) : Prop :=
  ∃ l op q, c.procs p = some (.inside l op q)

theorem inside_iff {c : FleetConf P Op C R E F L σ} {p : P} :
    c.Inside p ↔ (c.procs p).any Process.runs = true := by
  constructor
  · rintro ⟨l, op, q, hp⟩
    rw [hp]
    rfl
  · intro h
    obtain ⟨proc, hp, hruns⟩ := (Option.any_eq_true _ _).mp h
    cases proc with
    | inside l op q => exact ⟨l, op, q, hp⟩
    | entering q => cases hruns
    | leaving q => cases hruns

/-- Everything but the thread. -/
def outside (c : FleetConf P Op C R E F L σ) : Conf Op C R E σ where
  state := c.state
  pool := c.pool
  thread := none

variable [DecidableEq P]

def set (c : FleetConf P Op C R E F L σ) (p : P) (proc : Option (Process Op C R E F L)) :
    FleetConf P Op C R E F L σ :=
  { c with procs := Function.update c.procs p proc }

end FleetConf

namespace Fleet

/-- The process has the lock, under the descriptor of `l`, and no other descriptor. -/
structure Holds (W : Fleet Op C R E F L σ X V) (p : P) (l : L) (f : LockFile P) (fd : ℕ) : Prop where
  descriptor : W.descriptor l = some fd
  owner : f.owner = some (p, fd)
  only : ∀ n, (p, n) ∈ f.opened → n = fd

theorem Holds.keptFor {W : Fleet Op C R E F L σ X V} {p : P} {l : L} {f f' : LockFile P} {fd : ℕ}
    (h : W.Holds p l f fd) (hf : LockFile.KeptFor p f f') : W.Holds p l f' fd where
  descriptor := h.descriptor
  owner := (hf fd).2.mpr h.owner
  only n hmem := h.only n ((hf n).1.mp hmem)

/-- Who gets through `enter` has the lock, and who does not get through has not. -/
def Entered (W : Fleet Op C R E F L σ X V) (p : P) : Except F L → LockFile P → Prop
  | .ok l, f => ∃ fd, W.Holds p l f fd
  | .error _, f => ∀ fd, f.owner ≠ some (p, fd)

/-- Who gets through `leave` has the file not open any more. -/
def Left (p : P) : Except F Unit → LockFile P → Prop
  | .ok (), f => LockFile.Absent p f
  | .error _, _ => True

/-- `view` says what is known of the program that a process runs, and `rest` what is known when
none does. -/
structure Shows (c : FleetConf P Op C R E F L σ) (view : Op → Prog C R E Unit → Prop)
    (rest : Prop) : Prop where
  inside : ∀ p l op q, c.procs p = some (.inside l op q) → view op q
  none : (∀ p, ¬ c.Inside p) → rest

theorem Shows.initial {s : σ} {view : Op → Prog C R E Unit → Prop} {rest : Prop} (h : rest) :
    Shows (.initial s : FleetConf P Op C R E F L σ) view rest where
  inside _ _ _ _ hp := by cases hp
  none _ := h

/-- A configuration as a system with one thread sees it. -/
structure Matches (c : FleetConf P Op C R E F L σ) (a : Conf Op C R E σ) : Prop where
  state : a.state = c.state
  pool : a.pool = c.pool
  thread : Shows c (fun op q => a.thread = some (op, q)) (a.idle = true)

theorem Matches.initial (s : σ) :
    Matches (.initial s : FleetConf P Op C R E F L σ) (.initial s) where
  state := rfl
  pool := rfl
  thread := .initial rfl

/-- What the thread was last set to. -/
def Turn (c : FleetConf P Op C R E F L σ) (last : Label Op X V) : Prop :=
  Shows c (fun op _ => last = .start op) (last = .crash)

theorem not_inside_of_outside {c : FleetConf P Op C R E F L σ} {p : P}
    (h : c.procs p = none ∨ (∃ q, c.procs p = some (.entering q)) ∨
      ∃ q, c.procs p = some (.leaving q)) : ¬ c.Inside p := by
  rintro ⟨l, op, q, hp⟩
  rw [hp] at h
  rcases h with h | ⟨q', h⟩ | ⟨q', h⟩ <;> cases h

variable [DecidableEq P] (W : Fleet Op C R E F L σ X V)

def step (c : FleetConf P Op C R E F L σ) :
    FleetLabel P Op X V → Option (List (Record Op C σ) × FleetConf P Op C R E F L σ)
  | .boot p =>
    match c.procs p with
    | none => some ([], c.set p (some (.entering W.enter)))
    | some _ => none
  | .sync p y =>
    match c.procs p with
    | some (.entering q) => (LockFile.advance p y c.lock q).map fun (q', f) =>
        ([], { c.set p (some (.entering q')) with lock := f })
    | some (.leaving q) => (LockFile.advance p y c.lock q).map fun (q', f) =>
        ([], { c.set p (some (.leaving q')) with lock := f })
    | _ => none
  | .letIn p =>
    match c.procs p with
    | some (.entering (.pure l)) =>
      some ([], c.set p (some (.inside l W.first (W.machine.code W.first))))
    | _ => none
  | .abort p =>
    match c.procs p with
    | some (.entering (.pure l)) => some ([], c.set p (some (.leaving (W.leave l))))
    | _ => none
  | .work p x =>
    match c.procs p with
    | some (.inside l op q) => (W.machine.advance op x c.state q).map fun (r, q', s) =>
        ([r], { c.set p (some (.inside l op q')) with state := s })
    | _ => none
  | .next p =>
    match c.procs p with
    | some (.inside l op (.pure ())) =>
      some ([], c.set p (some (.inside l (W.next op) (W.machine.code (W.next op)))))
    | _ => none
  | .unwind p =>
    match c.procs p with
    | some (.inside l _ _) => some ([], c.set p (some (.leaving (W.leave l))))
    | _ => none
  | .exit p =>
    match c.procs p with
    | some _ => some ([], { c.set p none with lock := c.lock.die p })
    | none => none
  | .outer l =>
    if l.outer W.machine.threaded then
      (W.machine.step c.outside l).map fun (rs, c') =>
        (rs, { c with state := c'.state, pool := c'.pool })
    else none

/-- A run, with the calls performed along it in order. -/
def run (c : FleetConf P Op C R E F L σ) : List (FleetLabel P Op X V) →
    Option (List (Record Op C σ) × FleetConf P Op C R E F L σ)
  | [] => some ([], c)
  | l :: ls => do
    let (rs, c') ← W.step c l
    let (rs', c'') ← run c' ls
    some (rs ++ rs', c'')

/-- What a step is to a system with one thread. -/
def shown (c : FleetConf P Op C R E F L σ) : FleetLabel P Op X V → List (Label Op X V)
  | .letIn _ => [.start W.first]
  | .work _ x => [.work x]
  | .next p =>
    match c.procs p with
    | some (.inside _ op _) => [.start (W.next op)]
    | _ => []
  | .unwind _ => [.crash]
  | .exit p =>
    match c.procs p with
    | some (.inside _ _ _) => [.crash]
    | _ => []
  | .outer l => [l]
  | _ => []

/-- What a run is to a system with one thread. -/
def schedule (c : FleetConf P Op C R E F L σ) : List (FleetLabel P Op X V) → List (Label Op X V)
  | [] => []
  | l :: ls => W.shown c l ++
      match W.step c l with
      | some (_, c') => schedule c' ls
      | none => []

variable {W}

/-- What a step can do, label by label. -/
inductive Stepped (W : Fleet Op C R E F L σ X V) (c : FleetConf P Op C R E F L σ) :
    FleetLabel P Op X V → List (Record Op C σ) → FleetConf P Op C R E F L σ → Prop
  | boot {p : P} (hp : c.procs p = none) : Stepped W c (.boot p) [] (c.set p (some (.entering W.enter)))
  | syncEntering {p : P} {y : LockChoice} {q q' : Prog LockCall LockCall.Resp F L} {f : LockFile P}
      (hp : c.procs p = some (.entering q)) (ha : LockFile.advance p y c.lock q = some (q', f)) :
    Stepped W c (.sync p y) [] { c.set p (some (.entering q')) with lock := f }
  | syncLeaving {p : P} {y : LockChoice} {q q' : Prog LockCall LockCall.Resp F Unit} {f : LockFile P}
      (hp : c.procs p = some (.leaving q)) (ha : LockFile.advance p y c.lock q = some (q', f)) :
    Stepped W c (.sync p y) [] { c.set p (some (.leaving q')) with lock := f }
  | letIn {p : P} {l : L} (hp : c.procs p = some (.entering (.pure l))) :
    Stepped W c (.letIn p) [] (c.set p (some (.inside l W.first (W.machine.code W.first))))
  | abort {p : P} {l : L} (hp : c.procs p = some (.entering (.pure l))) :
    Stepped W c (.abort p) [] (c.set p (some (.leaving (W.leave l))))
  | work {p : P} {x : X} {l : L} {op : Op} {q q' : Prog C R E Unit} {r : Record Op C σ} {s : σ}
      (hp : c.procs p = some (.inside l op q))
      (ha : W.machine.advance op x c.state q = some (r, q', s)) :
    Stepped W c (.work p x) [r] { c.set p (some (.inside l op q')) with state := s }
  | next {p : P} {l : L} {op : Op} (hp : c.procs p = some (.inside l op (.pure ()))) :
    Stepped W c (.next p) []
      (c.set p (some (.inside l (W.next op) (W.machine.code (W.next op)))))
  | unwind {p : P} {l : L} {op : Op} {q : Prog C R E Unit}
      (hp : c.procs p = some (.inside l op q)) :
    Stepped W c (.unwind p) [] (c.set p (some (.leaving (W.leave l))))
  | exit {p : P} {proc : Process Op C R E F L} (hp : c.procs p = some proc) :
    Stepped W c (.exit p) [] { c.set p none with lock := c.lock.die p }
  | outer {l : Label Op X V} {rs : List (Record Op C σ)} {c' : Conf Op C R E σ}
      (hl : l.outer W.machine.threaded = true) (hs : W.machine.step c.outside l = some (rs, c')) :
    Stepped W c (.outer l) rs { c with state := c'.state, pool := c'.pool }

theorem stepped_of_step {c c' : FleetConf P Op C R E F L σ} {l : FleetLabel P Op X V}
    {rs : List (Record Op C σ)} (h : W.step c l = some (rs, c')) : Stepped W c l rs c' := by
  cases l with
  | boot p =>
    simp only [step] at h
    split at h
    · rename_i hp
      obtain ⟨rfl, rfl⟩ := Prod.mk.inj (Option.some.inj h)
      exact .boot hp
    · cases h
  | sync p y =>
    simp only [step] at h
    split at h
    · rename_i q hp
      obtain ⟨⟨q', f⟩, ha, heq⟩ := Option.map_eq_some_iff.mp h
      obtain ⟨rfl, rfl⟩ := Prod.mk.inj heq
      exact .syncEntering hp ha
    · rename_i q hp
      obtain ⟨⟨q', f⟩, ha, heq⟩ := Option.map_eq_some_iff.mp h
      obtain ⟨rfl, rfl⟩ := Prod.mk.inj heq
      exact .syncLeaving hp ha
    · cases h
  | letIn p =>
    simp only [step] at h
    split at h
    · rename_i l hp
      obtain ⟨rfl, rfl⟩ := Prod.mk.inj (Option.some.inj h)
      exact .letIn hp
    · cases h
  | abort p =>
    simp only [step] at h
    split at h
    · rename_i l hp
      obtain ⟨rfl, rfl⟩ := Prod.mk.inj (Option.some.inj h)
      exact .abort hp
    · cases h
  | work p x =>
    simp only [step] at h
    split at h
    · rename_i l op q hp
      obtain ⟨⟨r, q', s⟩, ha, heq⟩ := Option.map_eq_some_iff.mp h
      obtain ⟨rfl, rfl⟩ := Prod.mk.inj heq
      exact .work hp ha
    · cases h
  | next p =>
    simp only [step] at h
    split at h
    · rename_i l op hp
      obtain ⟨rfl, rfl⟩ := Prod.mk.inj (Option.some.inj h)
      exact .next hp
    · cases h
  | unwind p =>
    simp only [step] at h
    split at h
    · rename_i l op q hp
      obtain ⟨rfl, rfl⟩ := Prod.mk.inj (Option.some.inj h)
      exact .unwind hp
    · cases h
  | exit p =>
    simp only [step] at h
    split at h
    · rename_i proc hp
      obtain ⟨rfl, rfl⟩ := Prod.mk.inj (Option.some.inj h)
      exact .exit hp
    · cases h
  | outer l =>
    simp only [step] at h
    split at h
    · rename_i hl
      obtain ⟨⟨rs', c₁⟩, hs, heq⟩ := Option.map_eq_some_iff.mp h
      obtain ⟨rfl, rfl⟩ := Prod.mk.inj heq
      exact .outer hl hs
    · cases h

theorem procs_set (c : FleetConf P Op C R E F L σ) (p : P)
    (proc : Option (Process Op C R E F L)) : (c.set p proc).procs p = proc :=
  Function.update_self ..

theorem procs_set_of_ne (c : FleetConf P Op C R E F L σ) {p p' : P} (h : p' ≠ p)
    (proc : Option (Process Op C R E F L)) : (c.set p proc).procs p' = c.procs p' :=
  Function.update_of_ne h ..

theorem step_boot {c : FleetConf P Op C R E F L σ} {p : P} (hp : c.procs p = none) :
    W.step c (.boot p) = some ([], c.set p (some (.entering W.enter))) := by
  simp only [step, hp]

theorem step_sync {c : FleetConf P Op C R E F L σ} {p : P} {y : LockChoice} {call : LockCall}
    {k : call.Resp → Prog LockCall LockCall.Resp F L} {r : call.Resp} {f : LockFile P}
    (hp : c.procs p = some (.entering (.call call k)))
    (he : LockFile.exec p y c.lock call = some (r, f)) :
    W.step c (.sync p y) = some ([], { c.set p (some (.entering (k r))) with lock := f }) := by
  simp only [step, hp, LockFile.advance, he, Option.map_some]

theorem step_letIn {c : FleetConf P Op C R E F L σ} {p : P} {l : L}
    (hp : c.procs p = some (.entering (.pure l))) :
    W.step c (.letIn p) =
      some ([], c.set p (some (.inside l W.first (W.machine.code W.first)))) := by
  simp only [step, hp]

theorem run_cons_of_step {c c' c'' : FleetConf P Op C R E F L σ} {l : FleetLabel P Op X V}
    {ls : List (FleetLabel P Op X V)} {rs rs' : List (Record Op C σ)}
    (hs : W.step c l = some (rs, c')) (hr : W.run c' ls = some (rs', c'')) :
    W.run c (l :: ls) = some (rs ++ rs', c'') := by
  simp [run, hs, hr]

theorem run_append {c c₁ c₂ : FleetConf P Op C R E F L σ} {ls₁ ls₂ : List (FleetLabel P Op X V)}
    {rs₁ rs₂ : List (Record Op C σ)} (h₁ : W.run c ls₁ = some (rs₁, c₁))
    (h₂ : W.run c₁ ls₂ = some (rs₂, c₂)) :
    W.run c (ls₁ ++ ls₂) = some (rs₁ ++ rs₂, c₂) := by
  induction ls₁ generalizing c rs₁ with
  | nil =>
    simp only [run, Option.some.injEq, Prod.mk.injEq] at h₁
    obtain ⟨rfl, rfl⟩ := h₁
    exact h₂
  | cons l ls ih =>
    simp only [run, Option.bind_eq_bind, Option.bind_eq_some_iff, Option.some.injEq,
      Prod.mk.injEq, Prod.exists] at h₁
    obtain ⟨rs, c', hs, rs', c'', hr, rfl, rfl⟩ := h₁
    rw [List.append_assoc]
    exact run_cons_of_step hs (ih hr)

/-- Who gets through `enter` has the lock, and all the programs are those of the thread. -/
structure Lawful (P : Type) [DecidableEq P] (W : Fleet Op C R E F L σ X V) : Prop where
  first : W.machine.threaded W.first = true
  next : ∀ op, W.machine.threaded op = true → W.machine.threaded (W.next op) = true
  enter : ∀ (p : P) f, LockFile.Absent p f →
    Safe (LockFile.exec p) LockFile.outline p (W.Entered p) W.enter f
  leave : ∀ (p : P) l f fd, W.Holds p l f fd →
    Safe (LockFile.exec p) LockFile.outline p (Left p) (W.leave l) f

/-- What is known about a process, wherever it is. -/
def Good (W : Fleet Op C R E F L σ X V) (p : P) (f : LockFile P) :
    Option (Process Op C R E F L) → Prop
  | none => LockFile.Absent p f
  | some (.entering q) => Safe (LockFile.exec p) LockFile.outline p (W.Entered p) q f
  | some (.inside l op _) => (∃ fd, W.Holds p l f fd) ∧ W.machine.threaded op = true
  | some (.leaving q) => Safe (LockFile.exec p) LockFile.outline p (Left p) q f

def Inv (W : Fleet Op C R E F L σ X V) (c : FleetConf P Op C R E F L σ) : Prop :=
  ∀ p, W.Good p c.lock (c.procs p)

section

variable {p : P} {f f' : LockFile P} {c c' : FleetConf P Op C R E F L σ}

theorem Good.keptFor {proc : Option (Process Op C R E F L)} (h : W.Good p f proc)
    (hf : LockFile.KeptFor p f f') : W.Good p f' proc := by
  cases proc with
  | none => exact LockFile.Absent.keptFor h hf
  | some proc =>
    cases proc with
    | entering q => exact Safe.stable LockFile.outline_preorders h hf
    | inside l op q =>
      obtain ⟨⟨fd, hfd⟩, hop⟩ := h
      exact ⟨⟨fd, hfd.keptFor hf⟩, hop⟩
    | leaving q => exact Safe.stable LockFile.outline_preorders h hf

theorem Inv.initial (s : σ) : W.Inv (.initial s : FleetConf P Op C R E F L σ) :=
  fun _ _ => List.not_mem_nil

/-- One process moves, and the others do not notice. -/
theorem Inv.moved (hc : W.Inv c) {proc : Option (Process Op C R E F L)} (hp : W.Good p f proc)
    (hothers : ∀ p' ≠ p, LockFile.KeptFor p' c.lock f) :
    W.Inv { c.set p proc with lock := f } := by
  intro p'
  unfold FleetConf.set
  dsimp only
  by_cases hne : p' = p
  · rw [hne, Function.update_self]
    exact hp
  · rw [Function.update_of_ne hne]
    exact (hc p').keptFor (hothers p' hne)

/-- At most one process runs its programs. -/
theorem Inv.inside_unique (hc : W.Inv c) {p' : P} (hp : c.Inside p) (hp' : c.Inside p') : p = p' := by
  obtain ⟨l, op, q, hproc⟩ := hp
  obtain ⟨l', op', q', hproc'⟩ := hp'
  have hgood := hc p
  have hgood' := hc p'
  rw [hproc] at hgood
  rw [hproc'] at hgood'
  obtain ⟨⟨fd, hfd⟩, -⟩ := hgood
  obtain ⟨⟨fd', hfd'⟩, -⟩ := hgood'
  have howner := hfd.owner.symm.trans hfd'.owner
  exact (Prod.mk.inj (Option.some.inj howner)).1

/-- A process that has got through `enter` has the lock. -/
theorem Inv.holds_of_entered (hc : W.Inv c) {l : L} (hp : c.procs p = some (.entering (.pure l))) :
    ∃ fd, W.Holds p l c.lock fd := by
  have hgood := hc p
  rw [hp] at hgood
  exact hgood c.lock (.refl p _) trivial

theorem Inv.step (hW : W.Lawful P) (hc : W.Inv c) {l : FleetLabel P Op X V}
    {rs : List (Record Op C σ)} (hs : Stepped W c l rs c') : W.Inv c' := by
  cases hs with
  | @boot p hp =>
    have habsent := hc p
    rw [hp] at habsent
    exact hc.moved (hW.enter p _ habsent) fun p' _ => .refl p' _
  | @syncEntering p y q q' f hp ha =>
    have hsafe := hc p
    rw [hp] at hsafe
    obtain ⟨hsafe', hothers⟩ := LockFile.safe_advance hsafe ha
    exact hc.moved hsafe' hothers
  | @syncLeaving p y q q' f hp ha =>
    have hsafe := hc p
    rw [hp] at hsafe
    obtain ⟨hsafe', hothers⟩ := LockFile.safe_advance hsafe ha
    exact hc.moved hsafe' hothers
  | @letIn p l hp =>
    have hgood : W.Good p c.lock (some (.inside l W.first (W.machine.code W.first))) :=
      ⟨hc.holds_of_entered hp, hW.first⟩
    exact hc.moved hgood fun p' _ => .refl p' _
  | @abort p l hp =>
    obtain ⟨fd, hfd⟩ := hc.holds_of_entered hp
    exact hc.moved (hW.leave p l _ fd hfd) fun p' _ => .refl p' _
  | @work p x l op q q' r s hp ha =>
    have hgood := hc p
    rw [hp] at hgood
    have hgood' : W.Good p c.lock (some (.inside l op q')) := hgood
    exact hc.moved hgood' fun p' _ => .refl p' _
  | @next p l op hp =>
    have hgood := hc p
    rw [hp] at hgood
    have hgood' : W.Good p c.lock
        (some (.inside l (W.next op) (W.machine.code (W.next op)))) := ⟨hgood.1, hW.next op hgood.2⟩
    exact hc.moved hgood' fun p' _ => .refl p' _
  | @unwind p l op q hp =>
    have hgood := hc p
    rw [hp] at hgood
    obtain ⟨⟨fd, hfd⟩, -⟩ := hgood
    exact hc.moved (hW.leave p l _ fd hfd) fun p' _ => .refl p' _
  | @exit p proc hp =>
    exact hc.moved (LockFile.absent_die p _) fun p' hne => LockFile.keptFor_die hne _
  | outer hl hs => exact hc

end

section

variable {p : P} {f : LockFile P} {c c' : FleetConf P Op C R E F L σ} {a : Conf Op C R E σ}
  {view : Op → Prog C R E Unit → Prop} {rest : Prop}

/-- A process moves that does not run its programs, neither before nor after. -/
theorem Shows.aside (h : Shows c view rest) {proc : Option (Process Op C R E F L)}
    (hp : ¬ c.Inside p) (hproc : ∀ l op q, proc ≠ some (.inside l op q)) :
    Shows { c.set p proc with lock := f } view rest where
  inside p' l op q hp' := by
    have hp' : (c.set p proc).procs p' = some (.inside l op q) := hp'
    have hne : p' ≠ p := by
      rintro rfl
      rw [procs_set] at hp'
      exact hproc l op q hp'
    rw [procs_set_of_ne c hne] at hp'
    exact h.inside p' l op q hp'
  none hnone := by
    apply h.none
    rintro p' ⟨l, op, q, hp'⟩
    have hne : p' ≠ p := by
      rintro rfl
      exact hp ⟨l, op, q, hp'⟩
    exact hnone p' ⟨l, op, q, by rw [← hp']; exact procs_set_of_ne c hne proc⟩

/-- The one process that runs its programs moves on. -/
theorem Shows.onward {l : L} {op : Op} {q : Prog C R E Unit} {s : σ}
    (hothers : ∀ p', p' ≠ p → ¬ c.Inside p') (h : view op q) :
    Shows { c.set p (some (.inside l op q)) with state := s } view rest where
  inside p' l' op' q' hp' := by
    have hp' : (c.set p (some (.inside l op q))).procs p' = some (.inside l' op' q') := hp'
    by_cases hne : p' = p
    · rw [hne, procs_set] at hp'
      obtain ⟨-, rfl, rfl⟩ := Process.inside.inj (Option.some.inj hp')
      exact h
    · rw [procs_set_of_ne c hne] at hp'
      exact absurd ⟨l', op', q', hp'⟩ (hothers p' hne)
  none hnone := absurd ⟨l, op, q, procs_set c p _⟩ (hnone p)

/-- The one process that runs its programs stops. -/
theorem Shows.stop {proc : Option (Process Op C R E F L)}
    (hproc : ∀ l op q, proc ≠ some (.inside l op q)) (hothers : ∀ p', p' ≠ p → ¬ c.Inside p')
    (h : rest) : Shows { c.set p proc with lock := f } view rest where
  inside p' l' op' q' hp' := by
    have hp' : (c.set p proc).procs p' = some (.inside l' op' q') := hp'
    by_cases hne : p' = p
    · rw [hne, procs_set] at hp'
      exact absurd hp' (hproc l' op' q')
    · rw [procs_set_of_ne c hne] at hp'
      exact absurd ⟨l', op', q', hp'⟩ (hothers p' hne)
  none _ := h

theorem Inv.others (hc : W.Inv c) (hp : c.Inside p) (p' : P) (hne : p' ≠ p) : ¬ c.Inside p' :=
  fun hp' => hne (hc.inside_unique hp' hp)

/-- Before a process is let in nobody runs a program. -/
theorem Inv.none_of_entered (hc : W.Inv c) {l : L} (hp : c.procs p = some (.entering (.pure l)))
    (p' : P) : ¬ c.Inside p' := by
  rintro ⟨l', op, q, hp'⟩
  obtain ⟨fd, hfd⟩ := hc.holds_of_entered hp
  have hgood := hc p'
  rw [hp'] at hgood
  obtain ⟨⟨fd', hfd'⟩, -⟩ := hgood
  have howner := hfd.owner.symm.trans hfd'.owner
  obtain ⟨rfl, -⟩ := Prod.mk.inj (Option.some.inj howner)
  rw [hp] at hp'
  cases hp'

/-- Labels that leave the thread alone do the same whatever the thread is at. -/
theorem step_outer {M : Machine Op C R E σ X V} {c c' : Conf Op C R E σ} {l : Label Op X V}
    {rs : List (Record Op C σ)} (hl : l.outer M.threaded = true) (hs : M.step c l = some (rs, c'))
    (thread : Option (Op × Prog C R E Unit)) :
    M.step { c with thread := thread } l = some (rs, { c' with thread := thread }) := by
  cases l with
  | spawn op =>
    obtain ⟨hop, rfl, rfl⟩ := Machine.step_spawn hs
    simp [Machine.step, hop]
  | serve i x =>
    obtain ⟨op, p, r, p', s, hp, ha, rfl, rfl⟩ := Machine.step_serve hs
    simp [Machine.step, hp, ha]
  | whole op xs =>
    obtain ⟨-, p, s, hd, hfinished, rfl⟩ := Machine.step_whole hs
    have hop : M.threaded op = false := by simpa [Label.outer] using hl
    simp [Machine.step, hop, hd, hfinished]
  | event v =>
    obtain ⟨s, hv, rfl, rfl⟩ := Machine.step_event hs
    simp [Machine.step, hv]
  | _ => cases hl

/-- A step of the processes is what the system with one thread makes of what is shown of it. -/
theorem Matches.step (hW : W.Lawful P) (hc : W.Inv c) (hm : Matches c a)
    {l : FleetLabel P Op X V} {rs : List (Record Op C σ)} (hs : Stepped W c l rs c') :
    ∃ a', W.machine.run a (W.shown c l) = some (rs, a') ∧ Matches c' a' := by
  have haside : ∀ {p : P} {proc : Option (Process Op C R E F L)} {f : LockFile P},
      (c.procs p = none ∨ (∃ q, c.procs p = some (.entering q)) ∨
        ∃ q, c.procs p = some (.leaving q)) → (∀ l op q, proc ≠ some (.inside l op q)) →
      Matches { c.set p proc with lock := f } a := fun hp hproc =>
    ⟨hm.state, hm.pool, hm.thread.aside (not_inside_of_outside hp) hproc⟩
  cases hs with
  | boot hp => exact ⟨a, rfl, haside (.inl hp) (by simp)⟩
  | syncEntering hp ha => exact ⟨a, rfl, haside (.inr (.inl ⟨_, hp⟩)) (by simp)⟩
  | syncLeaving hp ha => exact ⟨a, rfl, haside (.inr (.inr ⟨_, hp⟩)) (by simp)⟩
  | @letIn p l hp =>
    have hidle := hm.thread.none (hc.none_of_entered hp)
    refine ⟨{ a with thread := some (W.first, W.machine.code W.first) }, ?_, hm.state, hm.pool, ?_⟩
    · simp [shown, Machine.run, Machine.step, hW.first, hidle]
    · exact .onward (fun p' _ => hc.none_of_entered hp p') rfl
  | abort hp => exact ⟨a, rfl, haside (.inr (.inl ⟨_, hp⟩)) (by simp)⟩
  | @work p x l op q q' r s hp ha =>
    have hthread := hm.thread.inside p l op q hp
    refine ⟨{ a with state := s, thread := some (op, q') }, ?_, rfl, hm.pool, ?_⟩
    · rw [← hm.state] at ha
      simp [shown, Machine.run, Machine.step, hthread, ha]
    · exact .onward (hc.others ⟨l, op, q, hp⟩) rfl
  | @next p l op hp =>
    have hthread := hm.thread.inside p l op _ hp
    have hop := hc p
    rw [hp] at hop
    refine ⟨{ a with thread := some (W.next op, W.machine.code (W.next op)) }, ?_, hm.state,
      hm.pool, ?_⟩
    · simp [shown, hp, Machine.run, Machine.step, hW.next op hop.2, Conf.idle, hthread]
    · exact .onward (hc.others ⟨l, op, _, hp⟩) rfl
  | @unwind p l op q hp =>
    exact ⟨{ a with thread := none }, by simp [shown, Machine.run, Machine.step], hm.state, hm.pool,
      .stop (by simp) (hc.others ⟨l, op, q, hp⟩) rfl⟩
  | @exit p proc hp =>
    cases proc with
    | inside l op q =>
      exact ⟨{ a with thread := none }, by simp [shown, hp, Machine.run, Machine.step], hm.state,
        hm.pool, .stop (by simp) (hc.others ⟨l, op, q, hp⟩) rfl⟩
    | entering q =>
      exact ⟨a, by simp [shown, hp, Machine.run], haside (.inr (.inl ⟨q, hp⟩)) (by simp)⟩
    | leaving q =>
      exact ⟨a, by simp [shown, hp, Machine.run], haside (.inr (.inr ⟨q, hp⟩)) (by simp)⟩
  | @outer l rs c₁ hl hs =>
    have houter := step_outer hl hs a.thread
    have ha : { c.outside with thread := a.thread } = a := by
      unfold FleetConf.outside
      rw [← hm.state, ← hm.pool]
    rw [ha] at houter
    refine ⟨{ c₁ with thread := a.thread }, by simp [shown, Machine.run, houter], rfl, rfl, ?_⟩
    exact ⟨hm.thread.inside, hm.thread.none⟩

/-- However many processes there are, they do what one thread could do that crashes at times. -/
theorem run_refines (hW : W.Lawful P) {ls : List (FleetLabel P Op X V)}
    {rs : List (Record Op C σ)} (hc : W.Inv c) (hm : Matches c a)
    (hr : W.run c ls = some (rs, c')) :
    W.Inv c' ∧ ∃ a', W.machine.run a (W.schedule c ls) = some (rs, a') ∧ Matches c' a' := by
  induction ls generalizing c a rs with
  | nil =>
    simp only [run, Option.some.injEq, Prod.mk.injEq] at hr
    obtain ⟨rfl, rfl⟩ := hr
    exact ⟨hc, a, rfl, hm⟩
  | cons l ls ih =>
    simp only [run, Option.bind_eq_bind, Option.bind_eq_some_iff, Option.some.injEq,
      Prod.mk.injEq, Prod.exists] at hr
    obtain ⟨rs₁, c₁, hs, rs₂, c₂, hr', rfl, rfl⟩ := hr
    have hstepped := stepped_of_step hs
    obtain ⟨a₁, hfirst, hm₁⟩ := hm.step hW hc hstepped
    obtain ⟨hc', a', hrest, hm'⟩ := ih (hc.step hW hstepped) hm₁ hr'
    refine ⟨hc', a', ?_, hm'⟩
    unfold schedule
    rw [hs]
    exact Machine.run_append hfirst hrest

/-- Everything that is shown of a run belongs to the thread or to the surroundings. -/
theorem mem_schedule {ls : List (FleetLabel P Op X V)} {l' : Label Op X V}
    (h : l' ∈ W.schedule c ls) :
    (∃ op, l' = .start op) ∨ (∃ x, l' = .work x) ∨ l' = .crash ∨ .outer l' ∈ ls := by
  induction ls generalizing c with
  | nil => cases h
  | cons l ls ih =>
    rcases List.mem_append.mp h with hfirst | hrest
    · cases l with
      | letIn p => exact .inl ⟨_, List.mem_singleton.mp hfirst⟩
      | work p x => exact .inr (.inl ⟨x, List.mem_singleton.mp hfirst⟩)
      | unwind p => exact .inr (.inr (.inl (List.mem_singleton.mp hfirst)))
      | outer l =>
        obtain rfl := List.mem_singleton.mp hfirst
        exact .inr (.inr (.inr List.mem_cons_self))
      | next p =>
        simp only [shown] at hfirst
        split at hfirst
        · exact .inl ⟨_, List.mem_singleton.mp hfirst⟩
        · cases hfirst
      | exit p =>
        simp only [shown] at hfirst
        split at hfirst
        · exact .inr (.inr (.inl (List.mem_singleton.mp hfirst)))
        · cases hfirst
      | _ => cases hfirst
    · split at hrest
      · rcases ih hrest with hop | hx | hcrash | houter
        · exact .inl hop
        · exact .inr (.inl hx)
        · exact .inr (.inr (.inl hcrash))
        · exact .inr (.inr (.inr (List.mem_cons_of_mem _ houter)))
      · cases hrest

/-- In which order the thread is set to programs: to `first` after a crash, and to the next one
after the one before. -/
def Follows (W : Fleet Op C R E F L σ X V) : Label Op X V → Label Op X V → Prop
  | .crash, .start op => op = W.first
  | .start op, .start op' => op' = W.next op
  | .start _, .crash => True
  | _, _ => False

/-- A step either leaves the thread at what it is at, or sets it to what comes next. -/
theorem Turn.step (hc : W.Inv c) {last : Label Op X V} (ht : Turn c last)
    {l : FleetLabel P Op X V} {rs : List (Record Op C σ)} (hs : Stepped W c l rs c') :
    (W.shown c l).filter Label.turns = [] ∧ Turn c' last ∨
      ∃ now, (W.shown c l).filter Label.turns = [now] ∧ W.Follows last now ∧ Turn c' now := by
  cases hs with
  | boot hp => exact .inl ⟨rfl, ht.aside (not_inside_of_outside (.inl hp)) (by simp)⟩
  | syncEntering hp ha =>
    exact .inl ⟨rfl, ht.aside (not_inside_of_outside (.inr (.inl ⟨_, hp⟩))) (by simp)⟩
  | syncLeaving hp ha =>
    exact .inl ⟨rfl, ht.aside (not_inside_of_outside (.inr (.inr ⟨_, hp⟩))) (by simp)⟩
  | @letIn p l hp =>
    obtain rfl := ht.none (hc.none_of_entered hp)
    exact .inr ⟨.start W.first, rfl, rfl, .onward (fun p' _ => hc.none_of_entered hp p') rfl⟩
  | abort hp =>
    exact .inl ⟨rfl, ht.aside (not_inside_of_outside (.inr (.inl ⟨_, hp⟩))) (by simp)⟩
  | @work p x l op q q' r s hp ha =>
    obtain rfl := ht.inside p l op q hp
    exact .inl ⟨rfl, .onward (hc.others ⟨l, op, q, hp⟩) rfl⟩
  | @next p l op hp =>
    obtain rfl := ht.inside p l op _ hp
    exact .inr ⟨.start (W.next op), by simp [shown, hp, Label.turns], rfl,
      .onward (hc.others ⟨l, op, _, hp⟩) rfl⟩
  | @unwind p l op q hp =>
    obtain rfl := ht.inside p l op q hp
    exact .inr ⟨.crash, rfl, trivial, .stop (by simp) (hc.others ⟨l, op, q, hp⟩) rfl⟩
  | @exit p proc hp =>
    cases proc with
    | inside l op q =>
      obtain rfl := ht.inside p l op q hp
      exact .inr ⟨.crash, by simp [shown, hp, Label.turns], trivial,
        .stop (by simp) (hc.others ⟨l, op, q, hp⟩) rfl⟩
    | entering q =>
      exact .inl ⟨by simp [shown, hp],
        ht.aside (not_inside_of_outside (.inr (.inl ⟨q, hp⟩))) (by simp)⟩
    | leaving q =>
      exact .inl ⟨by simp [shown, hp],
        ht.aside (not_inside_of_outside (.inr (.inr ⟨q, hp⟩))) (by simp)⟩
  | @outer l rs c₁ hl hs =>
    have hturns : Label.turns l = false := by cases l <;> first | rfl | cases hl
    exact .inl ⟨by simp [shown, hturns], ht.inside, ht.none⟩

/-- Along a run the thread goes from one program to the next, and back to the first one only
after a crash. -/
theorem schedule_follows (hW : W.Lawful P) {ls : List (FleetLabel P Op X V)}
    {rs : List (Record Op C σ)} (hc : W.Inv c) {last : Label Op X V} (ht : Turn c last)
    (hr : W.run c ls = some (rs, c')) :
    (last :: (W.schedule c ls).filter Label.turns).IsChain W.Follows := by
  induction ls generalizing c rs last with
  | nil => exact .singleton last
  | cons l ls ih =>
    simp only [run, Option.bind_eq_bind, Option.bind_eq_some_iff, Option.some.injEq,
      Prod.mk.injEq, Prod.exists] at hr
    obtain ⟨rs₁, c₁, hs, rs₂, c₂, hr', rfl, rfl⟩ := hr
    have hstepped := stepped_of_step hs
    unfold schedule
    rw [hs, List.filter_append]
    rcases ht.step hc hstepped with ⟨hsame, ht₁⟩ | ⟨now, hnow, hfollows, ht₁⟩
    · rw [hsame]
      exact ih (hc.step hW hstepped) ht₁ hr'
    · rw [hnow]
      exact .cons_cons hfollows (ih (hc.step hW hstepped) ht₁ hr')

end

end Fleet

end Interaction
