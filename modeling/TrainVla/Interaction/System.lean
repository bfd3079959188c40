import TrainVla.Interaction.Program
import Mathlib.Data.Nat.Notation

/-! Many parties over one shared state: a pool of independent requests, and one
thread that runs its programs one after the other and may crash. -/
namespace Interaction

/-- `exec` answers a call, the environment settling what is open by an `X`; `occur`
is a change made by the environment itself; `code` is what a party runs. -/
structure Machine (Op C : Type) (R : C → Type) (E σ X V : Type) where
  exec : X → σ → (c : C) → Option (R c × σ)
  occur : V → σ → Option σ
  code : Op → Prog C R E Unit
  threaded : Op → Bool

/-- The shared state, the requests in flight or done, and the program of the thread. -/
structure Conf (Op C : Type) (R : C → Type) (E σ : Type) where
  state : σ
  pool : List (Op × Prog C R E Unit)
  thread : Option (Op × Prog C R E Unit)

/-- A call that was performed: by whom, and the states around it. -/
structure Record (Op C σ : Type) where
  op : Op
  before : σ
  call : C
  after : σ

/-- The steps of the system. `spawn` and `serve` belong to the pool, `start`, `work` and
`crash` to the thread; `whole` runs a program without interruption and `cut` runs one
until it crashes. -/
inductive Label (Op X V : Type) : Type
  | spawn (op : Op)
  | serve (i : ℕ) (x : X)
  | start (op : Op)
  | work (x : X)
  | crash
  | whole (op : Op) (xs : List X)
  | cut (op : Op) (xs : List X)
  | event (v : V)

variable {Op C : Type} {R : C → Type} {E α σ X V : Type}

/-- Labels of schedules in which every program runs to its end before anything else happens. -/
def Label.Uninterrupted : Label Op X V → Prop
  | whole _ _ => True
  | event _ => True
  | _ => False

namespace Conf

/-- No requests, and a thread that has nothing to do. -/
def initial (s : σ) : Conf Op C R E σ := { state := s, pool := [], thread := none }

def idle (c : Conf Op C R E σ) : Bool :=
  match c.thread with
  | none => true
  | some (_, p) => p.finished

end Conf

namespace Machine

variable (M : Machine Op C R E σ X V)

/-- The next call of a program in flight. -/
def advance (op : Op) (x : X) (s : σ) :
    Prog C R E α → Option (Record Op C σ × Prog C R E α × σ)
  | .call c k => (M.exec x s c).map fun (r, s') => (⟨op, s, c, s'⟩, k r, s')
  | _ => none

/-- As many calls as there are answers, without interruption. -/
def drive (op : Op) : List X → σ → Prog C R E α →
    Option (List (Record Op C σ) × Prog C R E α × σ)
  | [], s, p => some ([], p, s)
  | x :: xs, s, p => do
    let (r, p', s') ← M.advance op x s p
    let (rs, out) ← drive op xs s' p'
    some (r :: rs, out)

def step (c : Conf Op C R E σ) : Label Op X V → Option (List (Record Op C σ) × Conf Op C R E σ)
  | .spawn op =>
    if M.threaded op then none
    else some ([], { c with pool := c.pool ++ [(op, M.code op)] })
  | .serve i x => do
    let (op, p) ← c.pool[i]?
    let (r, p', s) ← M.advance op x c.state p
    some ([r], { c with state := s, pool := c.pool.set i (op, p') })
  | .start op =>
    if M.threaded op && c.idle then some ([], { c with thread := some (op, M.code op) })
    else none
  | .work x => do
    let (op, p) ← c.thread
    let (r, p', s) ← M.advance op x c.state p
    some ([r], { c with state := s, thread := some (op, p') })
  | .crash => some ([], { c with thread := none })
  | .whole op xs =>
    if M.threaded op && !c.idle then none
    else do
      let (rs, p, s) ← M.drive op xs c.state (M.code op)
      if p.finished then some (rs, { c with state := s }) else none
  | .cut op xs =>
    if M.threaded op && c.idle then do
      let (rs, _, s) ← M.drive op xs c.state (M.code op)
      some (rs, { c with state := s })
    else none
  | .event v => (M.occur v c.state).map fun s => ([], { c with state := s })

/-- A run, with the calls performed along it in order. -/
def run (c : Conf Op C R E σ) : List (Label Op X V) →
    Option (List (Record Op C σ) × Conf Op C R E σ)
  | [] => some ([], c)
  | l :: ls => do
    let (rs, c') ← M.step c l
    let (rs', c'') ← run c' ls
    some (rs ++ rs', c'')

variable {M}

theorem advance_eq_some {op : Op} {x : X} {s s' : σ} {p p' : Prog C R E α}
    {r : Record Op C σ} (h : M.advance op x s p = some (r, p', s')) :
    ∃ c k a, p = .call c k ∧ M.exec x s c = some (a, s') ∧ r = ⟨op, s, c, s'⟩ ∧ p' = k a := by
  cases p with
  | pure a => simp [advance] at h
  | raise e => simp [advance] at h
  | call c k =>
    simp only [advance, Option.map_eq_some_iff, Prod.mk.injEq, Prod.exists] at h
    obtain ⟨a, t, he, rfl, rfl, rfl⟩ := h
    exact ⟨c, k, a, rfl, he, rfl, rfl⟩

theorem drive_cons {op : Op} {x : X} {xs : List X} {s s'' : σ} {p p'' : Prog C R E α}
    {rs : List (Record Op C σ)} (h : M.drive op (x :: xs) s p = some (rs, p'', s'')) :
    ∃ r p' s' rs', M.advance op x s p = some (r, p', s') ∧
      M.drive op xs s' p' = some (rs', p'', s'') ∧ rs = r :: rs' := by
  simp only [drive, Option.bind_eq_bind, Option.bind_eq_some_iff, Option.some.injEq,
    Prod.mk.injEq, Prod.exists] at h
  obtain ⟨r, p', s', ha, rs', p₂, s₂, hd, rfl, rfl, rfl⟩ := h
  exact ⟨r, p', s', rs', ha, hd, rfl⟩

/-- What one step can do, label by label. -/
theorem step_spawn {c c' : Conf Op C R E σ} {op : Op} {rs : List (Record Op C σ)}
    (h : M.step c (.spawn op) = some (rs, c')) :
    M.threaded op = false ∧ rs = [] ∧ c' = { c with pool := c.pool ++ [(op, M.code op)] } := by
  simp only [step] at h
  split at h
  · simp at h
  · rename_i ht
    simp only [Option.some.injEq, Prod.mk.injEq] at h
    exact ⟨by simpa using ht, h.1.symm, h.2.symm⟩

theorem step_serve {c c' : Conf Op C R E σ} {i : ℕ} {x : X} {rs : List (Record Op C σ)}
    (h : M.step c (.serve i x) = some (rs, c')) :
    ∃ op p r p' s, c.pool[i]? = some (op, p) ∧ M.advance op x c.state p = some (r, p', s) ∧
      rs = [r] ∧ c' = { c with state := s, pool := c.pool.set i (op, p') } := by
  simp only [step, Option.bind_eq_bind, Option.bind_eq_some_iff, Option.some.injEq,
    Prod.mk.injEq, Prod.exists] at h
  obtain ⟨op, p, hp, r, p', s, ha, h₁, h₂⟩ := h
  exact ⟨op, p, r, p', s, hp, ha, h₁.symm, h₂.symm⟩

theorem step_start {c c' : Conf Op C R E σ} {op : Op} {rs : List (Record Op C σ)}
    (h : M.step c (.start op) = some (rs, c')) :
    M.threaded op = true ∧ rs = [] ∧ c' = { c with thread := some (op, M.code op) } := by
  simp only [step] at h
  split at h
  · rename_i ht
    simp only [Option.some.injEq, Prod.mk.injEq] at h
    exact ⟨(Bool.and_eq_true_iff.mp ht).1, h.1.symm, h.2.symm⟩
  · simp at h

theorem step_work {c c' : Conf Op C R E σ} {x : X} {rs : List (Record Op C σ)}
    (h : M.step c (.work x) = some (rs, c')) :
    ∃ op p r p' s, c.thread = some (op, p) ∧ M.advance op x c.state p = some (r, p', s) ∧
      rs = [r] ∧ c' = { c with state := s, thread := some (op, p') } := by
  simp only [step, Option.bind_eq_bind, Option.bind_eq_some_iff, Option.some.injEq,
    Prod.mk.injEq, Prod.exists] at h
  obtain ⟨op, p, hp, r, p', s, ha, h₁, h₂⟩ := h
  exact ⟨op, p, r, p', s, hp, ha, h₁.symm, h₂.symm⟩

theorem step_whole {c c' : Conf Op C R E σ} {op : Op} {xs : List X}
    {rs : List (Record Op C σ)} (h : M.step c (.whole op xs) = some (rs, c')) :
    (M.threaded op = true → c.idle = true) ∧
      ∃ p s, M.drive op xs c.state (M.code op) = some (rs, p, s) ∧ p.finished = true ∧
        c' = { c with state := s } := by
  simp only [step] at h
  split at h
  · simp at h
  · rename_i ht
    simp only [Option.bind_eq_bind, Option.bind_eq_some_iff, Prod.exists] at h
    obtain ⟨rs', p, s, hd, hf⟩ := h
    split at hf
    · rename_i hp
      simp only [Option.some.injEq, Prod.mk.injEq] at hf
      obtain ⟨rfl, rfl⟩ := hf
      exact ⟨fun h' => by simpa [h'] using ht, p, s, hd, hp, rfl⟩
    · simp at hf

theorem step_cut {c c' : Conf Op C R E σ} {op : Op} {xs : List X}
    {rs : List (Record Op C σ)} (h : M.step c (.cut op xs) = some (rs, c')) :
    M.threaded op = true ∧ c.idle = true ∧
      ∃ p s, M.drive op xs c.state (M.code op) = some (rs, p, s) ∧ c' = { c with state := s } := by
  simp only [step] at h
  split at h
  · rename_i ht
    simp only [Option.bind_eq_bind, Option.bind_eq_some_iff, Option.some.injEq, Prod.mk.injEq,
      Prod.exists] at h
    obtain ⟨rs', p, s, hd, rfl, rfl⟩ := h
    exact ⟨(Bool.and_eq_true_iff.mp ht).1, (Bool.and_eq_true_iff.mp ht).2, p, s, hd, rfl⟩
  · simp at h

theorem step_event {c c' : Conf Op C R E σ} {v : V} {rs : List (Record Op C σ)}
    (h : M.step c (.event v) = some (rs, c')) :
    ∃ s, M.occur v c.state = some s ∧ rs = [] ∧ c' = { c with state := s } := by
  simp only [step, Option.map_eq_some_iff, Prod.mk.injEq] at h
  obtain ⟨s, hs, h₁, h₂⟩ := h
  exact ⟨s, hs, h₁.symm, h₂.symm⟩

theorem run_cons {c c'' : Conf Op C R E σ} {l : Label Op X V} {ls : List (Label Op X V)}
    {rs : List (Record Op C σ)} (h : M.run c (l :: ls) = some (rs, c'')) :
    ∃ rs₁ c' rs₂, M.step c l = some (rs₁, c') ∧ M.run c' ls = some (rs₂, c'') ∧
      rs = rs₁ ++ rs₂ := by
  simp only [run, Option.bind_eq_bind, Option.bind_eq_some_iff, Option.some.injEq,
    Prod.mk.injEq, Prod.exists] at h
  obtain ⟨rs₁, c', hs, rs₂, c₂, hr, rfl, rfl⟩ := h
  exact ⟨rs₁, c', rs₂, hs, hr, rfl⟩

theorem run_append {c c₁ c₂ : Conf Op C R E σ} {ls₁ ls₂ : List (Label Op X V)}
    {rs₁ rs₂ : List (Record Op C σ)} (h₁ : M.run c ls₁ = some (rs₁, c₁))
    (h₂ : M.run c₁ ls₂ = some (rs₂, c₂)) :
    M.run c (ls₁ ++ ls₂) = some (rs₁ ++ rs₂, c₂) := by
  induction ls₁ generalizing c rs₁ with
  | nil =>
    simp only [run, Option.some.injEq, Prod.mk.injEq] at h₁
    obtain ⟨rfl, rfl⟩ := h₁
    exact h₂
  | cons l ls ih =>
    obtain ⟨rs, c', rs', hs, hr, rfl⟩ := run_cons h₁
    simp [run, hs, ih hr]

theorem advance_after {op : Op} {x : X} {s s' : σ} {p p' : Prog C R E α} {r : Record Op C σ}
    (h : M.advance op x s p = some (r, p', s')) : r.before = s ∧ r.after = s' := by
  obtain ⟨c, k, a, -, -, rfl, -⟩ := advance_eq_some h
  exact ⟨rfl, rfl⟩

/-- Where a call stands among the calls of two stretches. -/
theorem append_eq_split {h t rs₁ rs₂ : List β} {r : β} (heq : rs₁ ++ rs₂ = h ++ r :: t) :
    (∃ t', rs₁ = h ++ r :: t') ∨ ∃ h', h = rs₁ ++ h' ∧ rs₂ = h' ++ r :: t := by
  rcases List.append_eq_append_iff.mp heq with ⟨h', hh, hrs₂⟩ | ⟨front, hrs₁, hrest⟩
  · exact .inr ⟨h', hh, hrs₂⟩
  · cases front with
    | nil => exact .inr ⟨[], by simpa using hrs₁.symm, by simpa using hrest.symm⟩
    | cons r' t' =>
      obtain ⟨rfl, -⟩ := List.cons.inj hrest
      exact .inl ⟨t', hrs₁⟩

theorem drive_history {I : List (Record Op C σ) → σ → Prop} {op : Op} {xs : List X} {s s' : σ}
    {p p' : Prog C R E α} {rs : List (Record Op C σ)} (past : List (Record Op C σ))
    (hd : M.drive op xs s p = some (rs, p', s'))
    (hrec : ∀ h r t, rs = h ++ r :: t → I (past ++ h) r.before → I (past ++ h ++ [r]) r.after)
    (hs : I past s) :
    (∀ h r t, rs = h ++ r :: t → I (past ++ h) r.before) ∧ I (past ++ rs) s' := by
  induction xs generalizing s p rs past with
  | nil =>
    simp only [drive, Option.some.injEq, Prod.mk.injEq] at hd
    obtain ⟨rfl, -, rfl⟩ := hd
    exact ⟨by simp, by simpa using hs⟩
  | cons x xs ih =>
    obtain ⟨r, p₁, s₁, rs', ha, hd', rfl⟩ := drive_cons hd
    obtain ⟨rfl, rfl⟩ := advance_after ha
    have hfirst : I (past ++ [r]) r.after := by
      have := hrec [] r rs' rfl (by simpa using hs)
      simpa using this
    have hrest : ∀ h r' t, rs' = h ++ r' :: t → I (past ++ [r] ++ h) r'.before →
        I (past ++ [r] ++ h ++ [r']) r'.after := by
      intro h r' t heq hi
      have := hrec (r :: h) r' t (by rw [heq, List.cons_append]) (by simpa using hi)
      simpa using this
    obtain ⟨hbefore, hlast⟩ := ih _ hd' hrest hfirst
    refine ⟨fun h r' t heq => ?_, by simpa using hlast⟩
    cases h with
    | nil =>
      obtain ⟨rfl, -⟩ := List.cons.inj heq
      simpa using hs
    | cons r₁ h =>
      obtain ⟨rfl, htail⟩ := List.cons.inj heq
      simpa using hbefore h r' t htail

/-- One step, whose calls and events keep an invariant that speaks of the calls so far. -/
theorem step_history {I : List (Record Op C σ) → σ → Prop} {c c₁ : Conf Op C R E σ}
    {l : Label Op X V} {rs₁ : List (Record Op C σ)} (past : List (Record Op C σ))
    (hs : M.step c l = some (rs₁, c₁))
    (hone : ∀ h r t, rs₁ = h ++ r :: t → I (past ++ h) r.before → I (past ++ h ++ [r]) r.after)
    (hoccur : ∀ h v s s', M.occur v s = some s' → I h s → I h s') (hc : I past c.state) :
    (∀ h r t, rs₁ = h ++ r :: t → I (past ++ h) r.before) ∧ I (past ++ rs₁) c₁.state := by
  -- a single call, or none at all
  have hnothing : rs₁ = [] → c₁.state = c.state →
      (∀ h r t, rs₁ = h ++ r :: t → I (past ++ h) r.before) ∧ I (past ++ rs₁) c₁.state := by
    rintro rfl hstate
    rw [hstate]
    exact ⟨by simp, by simpa using hc⟩
  have hsingle : ∀ r, rs₁ = [r] → r.before = c.state → r.after = c₁.state →
      (∀ h r t, rs₁ = h ++ r :: t → I (past ++ h) r.before) ∧ I (past ++ rs₁) c₁.state := by
    rintro r rfl hbefore hafter
    have hi : I (past ++ []) r.before := by simpa [hbefore] using hc
    refine ⟨fun h r' t heq => ?_, ?_⟩
    · rcases List.singleton_eq_append_iff.mp heq with ⟨rfl, heq⟩ | ⟨-, heq⟩
      · obtain ⟨rfl, -⟩ := List.cons.inj heq
        exact hi
      · cases heq
    · rw [← hafter]
      simpa using hone [] r [] rfl hi
  cases l with
  | spawn op =>
    obtain ⟨-, rfl, rfl⟩ := step_spawn hs
    exact hnothing rfl rfl
  | serve i x =>
    obtain ⟨op, p, r, p', s, -, ha, rfl, rfl⟩ := step_serve hs
    exact hsingle r rfl (advance_after ha).1 (advance_after ha).2
  | start op =>
    obtain ⟨-, rfl, rfl⟩ := step_start hs
    exact hnothing rfl rfl
  | work x =>
    obtain ⟨op, p, r, p', s, -, ha, rfl, rfl⟩ := step_work hs
    exact hsingle r rfl (advance_after ha).1 (advance_after ha).2
  | crash =>
    simp only [step, Option.some.injEq, Prod.mk.injEq] at hs
    obtain ⟨rfl, rfl⟩ := hs
    exact hnothing rfl rfl
  | whole op xs =>
    obtain ⟨-, p, s, hd, -, rfl⟩ := step_whole hs
    exact drive_history past hd hone hc
  | cut op xs =>
    obtain ⟨-, -, p, s, hd, rfl⟩ := step_cut hs
    exact drive_history past hd hone hc
  | event v =>
    obtain ⟨s, hv, rfl, rfl⟩ := step_event hs
    exact ⟨by simp, by simpa using hoccur past v _ s hv hc⟩

/-- An invariant that speaks of the calls so far: what every call of a run keeps, and the
environment too, holds before every call and at the end. -/
theorem run_history {I : List (Record Op C σ) → σ → Prop} {c c' : Conf Op C R E σ}
    {ls : List (Label Op X V)} {rs : List (Record Op C σ)} (past : List (Record Op C σ))
    (hr : M.run c ls = some (rs, c'))
    (hrec : ∀ h r t, rs = h ++ r :: t → I (past ++ h) r.before → I (past ++ h ++ [r]) r.after)
    (hoccur : ∀ h v s s', M.occur v s = some s' → I h s → I h s') (hc : I past c.state) :
    (∀ h r t, rs = h ++ r :: t → I (past ++ h) r.before) ∧ I (past ++ rs) c'.state := by
  induction ls generalizing c rs past with
  | nil =>
    simp only [run, Option.some.injEq, Prod.mk.injEq] at hr
    obtain ⟨rfl, rfl⟩ := hr
    exact ⟨by simp, by simpa using hc⟩
  | cons l ls ih =>
    obtain ⟨rs₁, c₁, rs₂, hs, hr', rfl⟩ := run_cons hr
    have hone : ∀ h r t, rs₁ = h ++ r :: t → I (past ++ h) r.before →
        I (past ++ h ++ [r]) r.after := by
      intro h r t heq
      exact hrec h r (t ++ rs₂) (by rw [heq, List.append_assoc, List.cons_append])
    have hmore : ∀ h r t, rs₂ = h ++ r :: t → I (past ++ rs₁ ++ h) r.before →
        I (past ++ rs₁ ++ h ++ [r]) r.after := by
      intro h r t heq hi
      have := hrec (rs₁ ++ h) r t (by rw [heq, List.append_assoc])
      simp only [← List.append_assoc] at this
      exact this hi
    have hfirst := step_history past hs hone hoccur hc
    obtain ⟨h₂, hlast⟩ := ih _ hr' hmore hfirst.2
    refine ⟨fun h r t heq => ?_, by simpa using hlast⟩
    rcases append_eq_split heq with ⟨t', heq₁⟩ | ⟨h', rfl, heq₂⟩
    · exact hfirst.1 h r t' heq₁
    · simpa using h₂ h' r t heq₂

/-- What the calls of a run and the environment keep holds at every call and at the end. -/
theorem run_states {I : σ → Prop} {c c' : Conf Op C R E σ} {ls : List (Label Op X V)}
    {rs : List (Record Op C σ)} (hr : M.run c ls = some (rs, c'))
    (hrec : ∀ r ∈ rs, I r.before → I r.after)
    (hoccur : ∀ v s s', M.occur v s = some s' → I s → I s') (hc : I c.state) :
    (∀ r ∈ rs, I r.before) ∧ I c'.state := by
  have hkeep : ∀ h r t, rs = h ++ r :: t → I r.before → I r.after := by
    rintro h r t rfl
    exact hrec r (by simp)
  have hrun := run_history (I := fun _ => I) [] hr hkeep (fun _ => hoccur) hc
  refine ⟨fun r hmem => ?_, hrun.2⟩
  obtain ⟨h, t, rfl⟩ := List.append_of_mem hmem
  exact hrun.1 h r t rfl

theorem drive_states {I : σ → Prop} {op : Op} {xs : List X} {s s' : σ} {p p' : Prog C R E α}
    {rs : List (Record Op C σ)} (hd : M.drive op xs s p = some (rs, p', s'))
    (hrec : ∀ r ∈ rs, I r.before → I r.after) (hs : I s) : I s' := by
  have hkeep : ∀ h r t, rs = h ++ r :: t → I r.before → I r.after := by
    rintro h r t rfl
    exact hrec r (by simp)
  exact (drive_history (I := fun _ => I) [] hd hkeep hs).2

/-- In schedules without interruption it is enough that whole programs and the environment keep
an invariant. -/
theorem run_wholes {I : σ → Prop} {c c' : Conf Op C R E σ} {ls : List (Label Op X V)}
    {rs : List (Record Op C σ)} (hl : ∀ l ∈ ls, l.Uninterrupted) (hr : M.run c ls = some (rs, c'))
    (hwhole : ∀ op xs s rs' p s', M.drive op xs s (M.code op) = some (rs', p, s') →
      p.finished = true → (∀ r ∈ rs', r ∈ rs) → I s → I s')
    (hoccur : ∀ v s s', M.occur v s = some s' → I s → I s') (hc : I c.state) : I c'.state := by
  induction ls generalizing c rs with
  | nil =>
    simp only [run, Option.some.injEq, Prod.mk.injEq] at hr
    rw [← hr.2]
    exact hc
  | cons l ls ih =>
    obtain ⟨rs₁, c₁, rs₂, hs, hr', rfl⟩ := run_cons hr
    have hfirst : I c₁.state := by
      have hwholeLabel := hl l List.mem_cons_self
      cases l with
      | whole op xs =>
        obtain ⟨-, p, s, hd, hfinished, rfl⟩ := step_whole hs
        exact hwhole op xs _ rs₁ p s hd hfinished (fun r => List.mem_append_left _) hc
      | event v =>
        obtain ⟨s, hv, -, rfl⟩ := step_event hs
        exact hoccur v _ s hv hc
      | _ => exact hwholeLabel.elim
    exact ih (fun l' hmem => hl l' (List.mem_cons_of_mem _ hmem)) hr'
      (fun op xs s rs' p s' hd hfinished hsub =>
        hwhole op xs s rs' p s' hd hfinished fun r hmem => List.mem_append_right _ (hsub r hmem))
      hfirst

theorem drive_op {P : Op → Prop} {op : Op} {xs : List X} {s s' : σ} {p p' : Prog C R E α}
    {rs : List (Record Op C σ)} (hd : M.drive op xs s p = some (rs, p', s')) (hop : P op) :
    ∀ r ∈ rs, P r.op := by
  induction xs generalizing s p rs with
  | nil =>
    simp only [drive, Option.some.injEq, Prod.mk.injEq] at hd
    rw [← hd.1]
    simp
  | cons x xs ih =>
    obtain ⟨r, p₁, s₁, rs', ha, hd', rfl⟩ := drive_cons hd
    obtain ⟨call, k, a, -, -, rfl, -⟩ := advance_eq_some ha
    exact List.forall_mem_cons.mpr ⟨hop, ih hd'⟩

/-- Calls are performed by those who were let in. -/
theorem run_op {P : Op → Prop} {c c' : Conf Op C R E σ} {ls : List (Label Op X V)}
    {rs : List (Record Op C σ)} (hr : M.run c ls = some (rs, c'))
    (hspawn : ∀ op, .spawn op ∈ ls → P op) (hwhole : ∀ op xs, .whole op xs ∈ ls → P op)
    (hthreaded : ∀ op, M.threaded op = true → P op) (hpool : ∀ entry ∈ c.pool, P entry.1)
    (hthread : ∀ op p, c.thread = some (op, p) → P op) : ∀ r ∈ rs, P r.op := by
  induction ls generalizing c rs with
  | nil =>
    simp only [run, Option.some.injEq, Prod.mk.injEq] at hr
    rw [← hr.1]
    simp
  | cons l ls ih =>
    obtain ⟨rs₁, c₁, rs₂, hs, hr', rfl⟩ := run_cons hr
    have hrest := ih hr' (fun op h => hspawn op (List.mem_cons_of_mem _ h))
      (fun op xs h => hwhole op xs (List.mem_cons_of_mem _ h))
    suffices h : (∀ r ∈ rs₁, P r.op) ∧ (∀ entry ∈ c₁.pool, P entry.1) ∧
        ∀ op p, c₁.thread = some (op, p) → P op by
      intro r hmem
      exact (List.mem_append.mp hmem).elim (h.1 r) (hrest h.2.1 h.2.2 r)
    cases l with
    | spawn op =>
      obtain ⟨-, rfl, rfl⟩ := step_spawn hs
      refine ⟨by simp, fun entry hmem => ?_, hthread⟩
      rcases List.mem_append.mp hmem with hmem | hmem
      · exact hpool entry hmem
      · rw [List.mem_singleton.mp hmem]
        exact hspawn op (List.mem_cons_self ..)
    | serve i x =>
      obtain ⟨op, p, r, p', s, hi, ha, rfl, rfl⟩ := step_serve hs
      have hop : P op := hpool _ (List.mem_of_getElem? hi)
      obtain ⟨call, k, a, -, -, rfl, -⟩ := advance_eq_some ha
      refine ⟨by simpa using hop, fun entry hmem => ?_, hthread⟩
      rcases List.mem_or_eq_of_mem_set hmem with hmem | rfl
      · exact hpool entry hmem
      · exact hop
    | start op =>
      obtain ⟨hop, rfl, rfl⟩ := step_start hs
      refine ⟨by simp, hpool, fun op' p heq => ?_⟩
      obtain ⟨rfl, -⟩ := Prod.mk.inj (Option.some.inj heq)
      exact hthreaded _ hop
    | work x =>
      obtain ⟨op, p, r, p', s, hi, ha, rfl, rfl⟩ := step_work hs
      have hop : P op := hthread op p hi
      obtain ⟨call, k, a, -, -, rfl, -⟩ := advance_eq_some ha
      refine ⟨by simpa using hop, hpool, fun op' q heq => ?_⟩
      obtain ⟨rfl, -⟩ := Prod.mk.inj (Option.some.inj heq)
      exact hop
    | crash =>
      simp only [step, Option.some.injEq, Prod.mk.injEq] at hs
      obtain ⟨rfl, rfl⟩ := hs
      exact ⟨by simp, hpool, nofun⟩
    | whole op xs =>
      obtain ⟨-, p, s, hd, -, rfl⟩ := step_whole hs
      exact ⟨drive_op hd (hwhole op xs (List.mem_cons_self ..)), hpool, hthread⟩
    | cut op xs =>
      obtain ⟨hop, -, p, s, hd, rfl⟩ := step_cut hs
      exact ⟨drive_op hd (hthreaded op hop), hpool, hthread⟩
    | event v =>
      obtain ⟨s, -, rfl, rfl⟩ := step_event hs
      exact ⟨by simp, hpool, hthread⟩

/-- What a step can do to the pool: nothing, a new request, or one call of a request that is not
done. -/
inductive PoolStep (c : Conf Op C R E σ) (l : Label Op X V) : List (Op × Prog C R E Unit) → Prop
  | same : PoolStep c l c.pool
  | spawned (entry : Op × Prog C R E Unit) : PoolStep c l (c.pool ++ [entry])
  | served {i : ℕ} {x : X} {op : Op} {p : Prog C R E Unit} (hl : l = .serve i x)
    (hp : c.pool[i]? = some (op, p)) (hunfinished : p.finished = false) (p' : Prog C R E Unit) :
    PoolStep c l (c.pool.set i (op, p'))

theorem poolStep_of_step {c c' : Conf Op C R E σ} {l : Label Op X V} {rs : List (Record Op C σ)}
    (hs : M.step c l = some (rs, c')) : PoolStep c l c'.pool := by
  cases l with
  | spawn op =>
    obtain ⟨-, -, rfl⟩ := step_spawn hs
    exact .spawned _
  | serve i x =>
    obtain ⟨op, p, r, p', s, hp, ha, -, rfl⟩ := step_serve hs
    obtain ⟨call, k, a, rfl, -⟩ := advance_eq_some ha
    exact .served rfl hp rfl p'
  | start op =>
    obtain ⟨-, -, rfl⟩ := step_start hs
    exact .same
  | work x =>
    obtain ⟨op, p, r, p', s, -, -, -, rfl⟩ := step_work hs
    exact .same
  | crash =>
    simp only [step, Option.some.injEq, Prod.mk.injEq] at hs
    obtain ⟨-, rfl⟩ := hs
    exact .same
  | whole op xs =>
    obtain ⟨-, p, s, -, -, rfl⟩ := step_whole hs
    exact .same
  | cut op xs =>
    obtain ⟨-, -, p, s, -, rfl⟩ := step_cut hs
    exact .same
  | event v =>
    obtain ⟨s, -, -, rfl⟩ := step_event hs
    exact .same

/-- A request that is not served stays in the pool as it is. -/
theorem pool_of_not_served {c c' : Conf Op C R E σ} {ls : List (Label Op X V)}
    {rs : List (Record Op C σ)} (hr : M.run c ls = some (rs, c')) {i : ℕ}
    {entry : Op × Prog C R E Unit} (hi : c.pool[i]? = some entry) (hls : ∀ x, .serve i x ∉ ls) :
    c'.pool[i]? = some entry := by
  induction ls generalizing c rs with
  | nil =>
    simp only [run, Option.some.injEq, Prod.mk.injEq] at hr
    rwa [← hr.2]
  | cons l ls ih =>
    obtain ⟨rs₁, c₁, rs₂, hs, hr', -⟩ := run_cons hr
    refine ih hr' ?_ fun x h => hls x (List.mem_cons_of_mem _ h)
    have hpool := poolStep_of_step hs
    generalize c₁.pool = pool at hpool
    cases hpool with
    | same => exact hi
    | spawned new => rw [List.getElem?_append_left (List.getElem?_eq_some_iff.mp hi).1, hi]
    | @served j x op p hl hp hunfinished p' =>
      have hne : j ≠ i := by
        rintro rfl
        exact hls x (hl ▸ List.mem_cons_self)
      rw [List.getElem?_set_ne hne, hi]

/-- A request that is done stays in the pool as it is. -/
theorem mem_pool_of_finished {c c' : Conf Op C R E σ} {ls : List (Label Op X V)}
    {rs : List (Record Op C σ)} (hr : M.run c ls = some (rs, c')) {op : Op} {p : Prog C R E Unit}
    (hp : p.finished = true) (hmem : (op, p) ∈ c.pool) : (op, p) ∈ c'.pool := by
  induction ls generalizing c rs with
  | nil =>
    simp only [run, Option.some.injEq, Prod.mk.injEq] at hr
    rwa [← hr.2]
  | cons l ls ih =>
    obtain ⟨rs₁, c₁, rs₂, hs, hr', -⟩ := run_cons hr
    refine ih hr' ?_
    have hpool := poolStep_of_step hs
    generalize c₁.pool = pool at hpool
    cases hpool with
    | same => exact hmem
    | spawned new => exact List.mem_append_left _ hmem
    | @served i x op' q hl hq hunfinished q' =>
      obtain ⟨j, hj⟩ := List.mem_iff_getElem?.mp hmem
      -- the request that was served was not done
      have hne : i ≠ j := by
        rintro rfl
        rw [hq] at hj
        obtain ⟨-, rfl⟩ := Prod.mk.inj (Option.some.inj hj)
        rw [hp] at hunfinished
        cases hunfinished
      exact List.mem_iff_getElem?.mpr ⟨j, by rw [List.getElem?_set_ne hne, hj]⟩

end Machine

end Interaction
