import TrainVla.Interaction.System
import TrainVla.Interaction.EvalsTo
import TrainVla.Interaction.Outcomes

/-! Programs that have to pass a gate before they may perform whatever they like. -/
namespace Interaction

variable {Op C : Type} {R : C → Type} {E α β σ X V : Type}

/-- The calls that are harmless, and those that open the gate. -/
structure Gate (Op C σ : Type) where
  harmless : Op → C → Prop
  opens : Record Op C σ → Prop

/-- A gate that nothing opens: all calls have to be harmless. -/
def Gate.closed (harmless : Op → C → Prop) : Gate Op C σ := { harmless, opens := fun _ => False }

/-- On every path, as long as no call opens the gate, the program performs harmless calls only. -/
def Gated (exec : X → σ → (c : C) → Option (R c × σ)) (G : Gate Op C σ) (op : Op) :
    Prog C R E α → Prop
  | .pure _ => True
  | .raise _ => True
  | .call c k => G.harmless op c ∧
      ∀ x s a s', exec x s c = some (a, s') → G.opens ⟨op, s, c, s'⟩ ∨ Gated exec G op (k a)

namespace Gated

variable {exec : X → σ → (c : C) → Option (R c × σ)} {G : Gate Op C σ} {op : Op}

/-- A call that opens the gate, or goes on with a program that has it before it. -/
theorem perform {c : C} {f : R c → Prog C R E β} (hc : G.harmless op c)
    (h : ∀ x s a s', exec x s c = some (a, s') → G.opens ⟨op, s, c, s'⟩ ∨ Gated exec G op (f a)) :
    Gated exec G op (Prog.perform c >>= f) := ⟨hc, h⟩

theorem bind {p : Prog C R E α} {f : α → Prog C R E β} (hp : Gated exec G op p)
    (hf : ∀ a, Gated exec G op (f a)) : Gated exec G op (p >>= f) := by
  induction p with
  | pure a => exact hf a
  | raise e => trivial
  | call c k ih =>
    refine ⟨hp.1, fun x s a s' he => ?_⟩
    rcases hp.2 x s a s' he with hopen | hrest
    · exact .inl hopen
    · exact .inr (ih a hrest)

theorem ofExcept (r : Except E α) : Gated exec G op (Prog.ofExcept r : Prog C R E α) := by
  cases r <;> trivial

theorem of_within {P : C → Prop} {p : Prog C R E α} (hp : p.Within P)
    (h : ∀ c, P c → G.harmless op c) : Gated exec G op p := by
  induction p with
  | pure a => trivial
  | raise e => trivial
  | call c k ih => exact ⟨h c hp.1, fun x s a s' _ => .inr (ih a (hp.2 a))⟩

/-- What follows a first part, for the outcomes that it may come to. -/
theorem attempt {P : C → Prop} {Q : Except E α → Prop} {p : Prog C R E α}
    {f : Except E α → Prog C R E β} (hp : p.Within P) (hharmless : ∀ c, P c → G.harmless op c)
    (hQ : Yields (fun _ _ => True) Q p) (hf : ∀ r, Q r → Gated exec G op (f r)) :
    Gated exec G op (p.attempt >>= f) := by
  induction p with
  | pure a => exact hf _ hQ
  | raise e => exact hf _ hQ
  | call c k ih =>
    exact ⟨hharmless c hp.1, fun x s a s' _ => .inr (ih a (hp.2 a) (hQ a trivial))⟩

theorem of_harmless (h : ∀ c, G.harmless op c) (p : Prog C R E α) : Gated exec G op p := by
  induction p with
  | pure a => trivial
  | raise e => trivial
  | call c k ih => exact ⟨h c, fun x s a s' _ => .inr (ih a)⟩

end Gated

namespace Gate

variable (G : Gate Op C σ)

/-- Among these calls is one of `op` that opened the gate. -/
def Passed (h : List (Record Op C σ)) (op : Op) : Prop := ∃ r ∈ h, r.op = op ∧ G.opens r

/-- The call is harmless, or comes after one that opened the gate. -/
def Heeded (h : List (Record Op C σ)) (r : Record Op C σ) : Prop :=
  G.harmless r.op r.call ∨ G.Passed h r.op

variable {G}

theorem Passed.append {h : List (Record Op C σ)} {op : Op} (hp : G.Passed h op)
    (t : List (Record Op C σ)) : G.Passed (h ++ t) op := by
  obtain ⟨r, hmem, hr⟩ := hp
  exact ⟨r, List.mem_append_left t hmem, hr⟩

/-- All calls of a stretch that comes after the calls `past`. -/
def Obeyed (G : Gate Op C σ) (past rs : List (Record Op C σ)) : Prop :=
  ∀ h r t, rs = h ++ r :: t → G.Heeded (past ++ h) r

theorem obeyed_nil (past : List (Record Op C σ)) : G.Obeyed past [] := by
  intro h r t heq
  exact absurd heq.symm (by simp)

theorem obeyed_singleton {past : List (Record Op C σ)} {r : Record Op C σ} (hr : G.Heeded past r) :
    G.Obeyed past [r] := by
  intro h r' t heq
  rcases List.singleton_eq_append_iff.mp heq with ⟨rfl, hrest⟩ | ⟨-, hrest⟩
  · obtain ⟨rfl, -⟩ := List.cons.inj hrest
    rwa [List.append_nil]
  · cases hrest

theorem Obeyed.append {past rs rs' : List (Record Op C σ)} (h₁ : G.Obeyed past rs)
    (h₂ : G.Obeyed (past ++ rs) rs') : G.Obeyed past (rs ++ rs') := by
  intro h r t heq
  rcases Machine.append_eq_split heq with ⟨t', hfirst⟩ | ⟨h', rfl, hsecond⟩
  · exact h₁ h r t' hfirst
  · rw [← List.append_assoc]
    exact h₂ h' r t hsecond

end Gate

variable {M : Machine Op C R E σ X V} {G : Gate Op C σ}

/-- A program in flight has passed the gate, or has it before it. -/
def Guarded (M : Machine Op C R E σ X V) (G : Gate Op C σ) (past : List (Record Op C σ)) (op : Op)
    (p : Prog C R E α) : Prop := G.Passed past op ∨ Gated M.exec G op p

theorem Guarded.append {past : List (Record Op C σ)} {op : Op} {p : Prog C R E α}
    (h : Guarded M G past op p) (rs : List (Record Op C σ)) : Guarded M G (past ++ rs) op p := by
  rcases h with hpassed | hgated
  · exact .inl (hpassed.append rs)
  · exact .inr hgated

theorem Guarded.advance {past : List (Record Op C σ)} {op : Op} {x : X} {s s' : σ}
    {p p' : Prog C R E α} {r : Record Op C σ} (h : Guarded M G past op p)
    (ha : M.advance op x s p = some (r, p', s')) :
    G.Heeded past r ∧ Guarded M G (past ++ [r]) op p' := by
  obtain ⟨c, k, a, rfl, he, rfl, rfl⟩ := Machine.advance_eq_some ha
  rcases h with hpassed | ⟨hc, hk⟩
  · exact ⟨.inr hpassed, .inl (hpassed.append _)⟩
  · refine ⟨.inl hc, ?_⟩
    rcases hk x s a s' he with hopen | hrest
    · exact .inl ⟨_, List.mem_append_right past (List.mem_singleton_self _), rfl, hopen⟩
    · exact .inr hrest

theorem Guarded.drive {past : List (Record Op C σ)} {op : Op} {xs : List X} {s s' : σ}
    {p p' : Prog C R E α} {rs : List (Record Op C σ)} (h : Guarded M G past op p)
    (hd : M.drive op xs s p = some (rs, p', s')) :
    G.Obeyed past rs ∧ Guarded M G (past ++ rs) op p' := by
  induction xs generalizing s p rs past with
  | nil =>
    simp only [Machine.drive, Option.some.injEq, Prod.mk.injEq] at hd
    obtain ⟨rfl, rfl, -⟩ := hd
    exact ⟨Gate.obeyed_nil past, by rwa [List.append_nil]⟩
  | cons x xs ih =>
    obtain ⟨r, p₁, s₁, rs', ha, hd', rfl⟩ := Machine.drive_cons hd
    obtain ⟨hr, h₁⟩ := h.advance ha
    obtain ⟨hrs, h'⟩ := ih h₁ hd'
    refine ⟨(Gate.obeyed_singleton hr).append hrs, ?_⟩
    rw [List.append_assoc] at h'
    exact h'

/-- All programs in flight. -/
structure Conf.Guarded (M : Machine Op C R E σ X V) (G : Gate Op C σ)
    (past : List (Record Op C σ)) (c : Conf Op C R E σ) : Prop where
  pool : ∀ entry ∈ c.pool, Interaction.Guarded M G past entry.1 entry.2
  thread : ∀ op p, c.thread = some (op, p) → Interaction.Guarded M G past op p

namespace Conf.Guarded

variable {past : List (Record Op C σ)} {c c' : Conf Op C R E σ}

theorem append (h : c.Guarded M G past) (rs : List (Record Op C σ)) :
    c.Guarded M G (past ++ rs) where
  pool entry hmem := (h.pool entry hmem).append rs
  thread op p hp := (h.thread op p hp).append rs

/-- One step, if every program begins at the gate. -/
theorem step (hcode : ∀ op, Gated M.exec G op (M.code op)) {l : Label Op X V}
    {rs : List (Record Op C σ)} (h : c.Guarded M G past) (hs : M.step c l = some (rs, c')) :
    G.Obeyed past rs ∧ c'.Guarded M G (past ++ rs) := by
  have hrest := h.append rs
  cases l with
  | spawn op =>
    obtain ⟨-, rfl, rfl⟩ := Machine.step_spawn hs
    refine ⟨Gate.obeyed_nil past, fun entry hmem => ?_, hrest.thread⟩
    rcases List.mem_append.mp hmem with hold | hnew
    · exact hrest.pool entry hold
    · rw [List.mem_singleton.mp hnew]
      exact .inr (hcode op)
  | serve i x =>
    obtain ⟨op, p, r, p', s, hp, ha, rfl, rfl⟩ := Machine.step_serve hs
    have hentry : Interaction.Guarded M G past op p := h.pool _ (List.mem_of_getElem? hp)
    obtain ⟨hr, hp'⟩ := hentry.advance ha
    refine ⟨Gate.obeyed_singleton hr, fun entry hmem => ?_, hrest.thread⟩
    rcases List.mem_or_eq_of_mem_set hmem with hold | rfl
    · exact hrest.pool entry hold
    · exact hp'
  | start op =>
    obtain ⟨-, rfl, rfl⟩ := Machine.step_start hs
    refine ⟨Gate.obeyed_nil past, hrest.pool, fun op' p heq => ?_⟩
    obtain ⟨rfl, rfl⟩ := Prod.mk.inj (Option.some.inj heq)
    exact .inr (hcode _)
  | work x =>
    obtain ⟨op, p, r, p', s, hp, ha, rfl, rfl⟩ := Machine.step_work hs
    obtain ⟨hr, hp'⟩ := (h.thread op p hp).advance ha
    refine ⟨Gate.obeyed_singleton hr, hrest.pool, fun op' q heq => ?_⟩
    obtain ⟨rfl, rfl⟩ := Prod.mk.inj (Option.some.inj heq)
    exact hp'
  | crash =>
    simp only [Machine.step, Option.some.injEq, Prod.mk.injEq] at hs
    obtain ⟨rfl, rfl⟩ := hs
    exact ⟨Gate.obeyed_nil past, hrest.pool, fun op p hp => by cases hp⟩
  | whole op xs =>
    obtain ⟨-, p, s, hd, -, rfl⟩ := Machine.step_whole hs
    have hbegin : Interaction.Guarded M G past op (M.code op) := .inr (hcode op)
    exact ⟨(hbegin.drive hd).1, hrest.pool, hrest.thread⟩
  | cut op xs =>
    obtain ⟨-, -, p, s, hd, rfl⟩ := Machine.step_cut hs
    have hbegin : Interaction.Guarded M G past op (M.code op) := .inr (hcode op)
    exact ⟨(hbegin.drive hd).1, hrest.pool, hrest.thread⟩
  | event v =>
    obtain ⟨s, -, rfl, rfl⟩ := Machine.step_event hs
    exact ⟨Gate.obeyed_nil past, hrest.pool, hrest.thread⟩

/-- Whole runs, by induction on the labels. -/
theorem run (hcode : ∀ op, Gated M.exec G op (M.code op)) {ls : List (Label Op X V)}
    {rs : List (Record Op C σ)} (h : c.Guarded M G past) (hr : M.run c ls = some (rs, c')) :
    G.Obeyed past rs := by
  induction ls generalizing c rs past with
  | nil =>
    simp only [Machine.run, Option.some.injEq, Prod.mk.injEq] at hr
    obtain ⟨rfl, -⟩ := hr
    exact Gate.obeyed_nil past
  | cons l ls ih =>
    obtain ⟨rs₁, c₁, rs₂, hs, hr', rfl⟩ := Machine.run_cons hr
    obtain ⟨hfirst, h₁⟩ := h.step hcode hs
    exact hfirst.append (ih h₁ hr')

end Conf.Guarded

/-- Where every program begins at the gate, every call is harmless or comes after one of the same
operation that opened the gate. -/
theorem Machine.run_gated (hcode : ∀ op, Gated M.exec G op (M.code op)) {s : σ}
    {ls : List (Label Op X V)} {rs : List (Record Op C σ)} {c : Conf Op C R E σ}
    (hr : M.run (.initial s) ls = some (rs, c)) (h t : List (Record Op C σ)) (r : Record Op C σ)
    (heq : rs = h ++ r :: t) : G.Heeded h r := by
  have hinitial : Conf.Guarded M G [] (.initial s : Conf Op C R E σ) :=
    ⟨fun entry hmem => absurd hmem List.not_mem_nil, fun op p hp => by cases hp⟩
  exact hinitial.run hcode hr h r t heq

end Interaction
