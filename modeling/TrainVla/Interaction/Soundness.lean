import TrainVla.Interaction.Safety
import TrainVla.Interaction.System

/-! From programs that are safe one by one to runs of the whole system. A schedule is
restricted by a predicate on labels, so that one outline can assume, say, that requests
are never interrupted. -/
namespace Interaction

variable {Op C : Type} {R : C → Type} {E α σ X V : Type}

/-- Can `op` be in flight, in the pool or on the thread? -/
def InFlight (M : Machine Op C R E σ X V) (permit : Label Op X V → Prop) (op : Op) : Prop :=
  M.threaded op = false ∧ permit (.spawn op) ∨ M.threaded op = true ∧ permit (.start op)

/-- May `op'` be in flight while `op` performs a call? The thread does one thing at a time. -/
def Overlap (M : Machine Op C R E σ X V) (permit : Label Op X V → Prop) (op op' : Op) : Prop :=
  InFlight M permit op' ∧ (M.threaded op = true → M.threaded op' = false)

/-- Which parties the labels allow to run at all. -/
def Active (permit : Label Op X V → Prop) (op : Op) : Prop :=
  permit (.spawn op) ∨ permit (.start op) ∨ ∃ xs, permit (.whole op xs) ∨ permit (.cut op xs)

/-- What the parties do under their preconditions keeps the invariant and is within the
rely of the others. -/
structure Outline.Steps (O : Outline Op C σ) (M : Machine Op C R E σ X V)
    (permit : Label Op X V → Prop) : Prop where
  preorders : O.Preorders
  exec : ∀ op x s c r s', Active permit op → O.inv s → O.pre op s c → O.cond op s c →
    M.exec x s c = some (r, s') → O.inv s' ∧ ∀ op', Overlap M permit op op' → O.rely op' s s'
  occur : ∀ v s s', permit (.event v) → O.inv s → M.occur v s = some s' → O.inv s' ∧
    ∀ op', InFlight M permit op' → O.rely op' s s'

/-- The proof obligations of an outline: what its steps do, and that every program is safe. -/
structure Outline.Sound (O : Outline Op C σ) (M : Machine Op C R E σ X V)
    (permit : Label Op X V → Prop) (post : Op → Except E Unit → σ → Prop) : Prop extends
    O.Steps M permit where
  code : ∀ op, Active permit op → ∀ s, O.inv s → Safe M.exec O op (post op) (M.code op) s

/-- What is known of a call that was performed. -/
structure Record.Known (M : Machine Op C R E σ X V) (O : Outline Op C σ)
    (r : Record Op C σ) : Prop where
  inv : O.inv r.before
  pre : O.pre r.op r.before r.call
  exec : ∃ x a, M.exec x r.before r.call = some (a, r.after)

/-- A configuration all of whose unfinished programs are safe. -/
structure Conf.Good (M : Machine Op C R E σ X V) (O : Outline Op C σ)
    (permit : Label Op X V → Prop) (post : Op → Except E Unit → σ → Prop)
    (c : Conf Op C R E σ) : Prop where
  inv : O.inv c.state
  pool : ∀ op p, (op, p) ∈ c.pool → permit (.spawn op) ∧ M.threaded op = false ∧
    Safe M.exec O op (post op) p c.state
  thread : ∀ op p, c.thread = some (op, p) → permit (.start op) ∧ M.threaded op = true ∧
    (p.finished = false → Safe M.exec O op (post op) p c.state)

section

variable {M : Machine Op C R E σ X V} {O : Outline Op C σ} {permit : Label Op X V → Prop}

theorem Conf.Good.initial {post : Op → Except E Unit → σ → Prop} {s : σ} (hs : O.inv s) :
    Conf.Good M O permit post (Conf.initial s : Conf Op C R E σ) where
  inv := hs
  pool := by simp [Conf.initial]
  thread := by simp [Conf.initial]

namespace Outline.Steps

/-- One call of a safe program. -/
theorem advance (hO : O.Steps M permit) {op : Op} {x : X} {s s' : σ}
    {p p' : Prog C R E α} {r : Record Op C σ} {Q : Except E α → σ → Prop}
    (hop : Active permit op) (hinv : O.inv s) (hsafe : Safe M.exec O op Q p s)
    (ha : M.advance op x s p = some (r, p', s'))
    (hcond : r.Known M O → O.cond r.op r.before r.call) :
    r.Known M O ∧ O.inv s' ∧ Safe M.exec O op Q p' s' ∧
      ∀ op', Overlap M permit op op' → O.rely op' s s' := by
  obtain ⟨c, k, a, rfl, he, rfl, rfl⟩ := Machine.advance_eq_some ha
  obtain ⟨hpre, hk⟩ := hsafe s (hO.preorders.refl _ _) hinv
  have hr : Record.Known M O ⟨op, s, c, s'⟩ := ⟨hinv, hpre, x, a, he⟩
  have hc := hcond hr
  obtain ⟨hinv', hrely⟩ := hO.exec op x s c a s' hop hinv hpre hc he
  exact ⟨hr, hinv', hk hc x a s' he, hrely⟩

/-- Many calls of a safe program, without interruption. -/
theorem drive (hO : O.Steps M permit) {op : Op} {xs : List X} {s s' : σ}
    {p p' : Prog C R E α} {rs : List (Record Op C σ)} {Q : Except E α → σ → Prop}
    (hop : Active permit op) (hinv : O.inv s) (hsafe : Safe M.exec O op Q p s)
    (hd : M.drive op xs s p = some (rs, p', s'))
    (hcond : ∀ r ∈ rs, r.Known M O → O.cond r.op r.before r.call) :
    (∀ r ∈ rs, r.Known M O) ∧ O.inv s' ∧ Safe M.exec O op Q p' s' ∧
      ∀ op', Overlap M permit op op' → O.rely op' s s' := by
  induction xs generalizing s p rs with
  | nil =>
    simp only [Machine.drive, Option.some.injEq, Prod.mk.injEq] at hd
    obtain ⟨rfl, rfl, rfl⟩ := hd
    exact ⟨by simp, hinv, hsafe, fun op' _ => hO.preorders.refl _ _⟩
  | cons x xs ih =>
    obtain ⟨r, p₁, s₁, rs', ha, hd', rfl⟩ := Machine.drive_cons hd
    obtain ⟨hr, hinv₁, hsafe₁, hrely₁⟩ :=
      hO.advance hop hinv hsafe ha (hcond r (List.mem_cons_self ..))
    obtain ⟨hrs, hinv', hsafe', hrely'⟩ :=
      ih hinv₁ hsafe₁ hd' fun r' hr' => hcond r' (List.mem_cons_of_mem _ hr')
    exact ⟨List.forall_mem_cons.mpr ⟨hr, hrs⟩, hinv', hsafe', fun op' h =>
      hO.preorders.trans _ _ _ _ (hrely₁ op' h) (hrely' op' h)⟩

/-- Schedules without interruption. The invariant may be weaker than what holds at `rest`,
that is, between two programs. -/
theorem run_uninterrupted (hO : O.Steps M permit) {rest : σ → Prop}
    (hinv : ∀ s, rest s → O.inv s)
    (hcode : ∀ op, Active permit op → ∀ s, rest s →
      Safe M.exec O op (fun _ => rest) (M.code op) s)
    (hoccur : ∀ v s s', permit (.event v) → rest s → M.occur v s = some s' → rest s')
    {c c' : Conf Op C R E σ} {ls : List (Label Op X V)} {rs : List (Record Op C σ)}
    (hrest : rest c.state) (hl : ∀ l ∈ ls, permit l ∧ l.Uninterrupted)
    (hr : M.run c ls = some (rs, c'))
    (hcond : ∀ r ∈ rs, r.Known M O → O.cond r.op r.before r.call) :
    (∀ r ∈ rs, r.Known M O) ∧ rest c'.state := by
  induction ls generalizing c rs with
  | nil =>
    simp only [Machine.run, Option.some.injEq, Prod.mk.injEq] at hr
    obtain ⟨rfl, rfl⟩ := hr
    exact ⟨by simp, hrest⟩
  | cons l ls ih =>
    obtain ⟨rs₁, c₁, rs₂, hs, hr', rfl⟩ := Machine.run_cons hr
    have hfirst : (∀ r ∈ rs₁, r.Known M O) ∧ rest c₁.state := by
      obtain ⟨hpermit, hwhole⟩ := hl l (List.mem_cons_self ..)
      cases l with
      | whole op xs =>
        obtain ⟨-, p, s, hd, hf, rfl⟩ := Machine.step_whole hs
        have hop : Active permit op := .inr (.inr ⟨xs, .inl hpermit⟩)
        obtain ⟨hrs, hi, hsafe, -⟩ := hO.drive hop (hinv _ hrest) (hcode op hop _ hrest) hd
          fun r h => hcond r (List.mem_append_left _ h)
        have hout := Safe.outcome_of_finished hO.preorders hi hsafe
        cases p with
        | call c k => simp at hf
        | _ => exact ⟨hrs, hout⟩
      | event v =>
        obtain ⟨s, hv, rfl, rfl⟩ := Machine.step_event hs
        exact ⟨by simp, hoccur v _ _ hpermit hrest hv⟩
      | _ => exact hwhole.elim
    obtain ⟨h₂, hrest'⟩ := ih hfirst.2 (fun l' h => hl l' (List.mem_cons_of_mem _ h)) hr'
      fun r h => hcond r (List.mem_append_right _ h)
    exact ⟨fun r h => (List.mem_append.mp h).elim (hfirst.1 r) (h₂ r), hrest'⟩

end Outline.Steps

end

namespace Outline.Sound

variable {M : Machine Op C R E σ X V} {O : Outline Op C σ} {permit : Label Op X V → Prop}
  {post : Op → Except E Unit → σ → Prop}

/-- The state moved on within the rely of everything in flight. -/
theorem good_of_rely (hO : O.Sound M permit post) {c : Conf Op C R E σ} {s : σ}
    (hg : c.Good M O permit post) (hs : O.inv s)
    (hpool : ∀ op, permit (.spawn op) → M.threaded op = false → O.rely op c.state s)
    (hthread : ∀ op p, c.thread = some (op, p) → p.finished = false → O.rely op c.state s) :
    Conf.Good M O permit post { c with state := s } where
  inv := hs
  pool op p h := by
    obtain ⟨h₁, h₂, h₃⟩ := hg.pool op p h
    exact ⟨h₁, h₂, h₃.stable hO.preorders (hpool op h₁ h₂)⟩
  thread op p h := by
    obtain ⟨h₁, h₂, h₃⟩ := hg.thread op p h
    exact ⟨h₁, h₂, fun hf => (h₃ hf).stable hO.preorders (hthread op p h hf)⟩

/-- An uninterrupted stretch of `op`, which is not itself in flight. -/
private theorem good_of_drive (hO : O.Sound M permit post) {c : Conf Op C R E σ} {op : Op}
    {xs : List X} {s : σ} {p : Prog C R E Unit} {rs : List (Record Op C σ)}
    (hg : c.Good M O permit post) (hop : Active permit op)
    (hidle : M.threaded op = true → c.idle = true)
    (hd : M.drive op xs c.state (M.code op) = some (rs, p, s))
    (hcond : ∀ r ∈ rs, r.Known M O → O.cond r.op r.before r.call) :
    (∀ r ∈ rs, r.Known M O) ∧ Conf.Good M O permit post { c with state := s } := by
  obtain ⟨hrs, hinv, -, hrely⟩ :=
    hO.drive hop hg.inv (hO.code op hop _ hg.inv) hd hcond
  refine ⟨hrs, hO.good_of_rely hg hinv (fun op' h ht => hrely op' ⟨.inl ⟨ht, h⟩, fun _ => ht⟩) ?_⟩
  intro op' p' hc hf
  refine hrely op' ⟨.inr ⟨(hg.thread op' p' hc).2.1, (hg.thread op' p' hc).1⟩, fun ht => ?_⟩
  have := hidle ht
  simp [Conf.idle, hc, hf] at this

/-- One step of the system. The side condition on calls may use what is known of them. -/
theorem step (hO : O.Sound M permit post) {c c' : Conf Op C R E σ} {l : Label Op X V}
    {rs : List (Record Op C σ)} (hg : c.Good M O permit post) (hl : permit l)
    (hs : M.step c l = some (rs, c'))
    (hcond : ∀ r ∈ rs, r.Known M O → O.cond r.op r.before r.call) :
    (∀ r ∈ rs, r.Known M O) ∧ c'.Good M O permit post := by
  cases l with
  | spawn op =>
    obtain ⟨ht, rfl, rfl⟩ := Machine.step_spawn hs
    refine ⟨by simp, ⟨hg.inv, fun op' p' h => ?_, hg.thread⟩⟩
    rcases List.mem_append.mp h with h | h
    · exact hg.pool op' p' h
    · obtain ⟨rfl, rfl⟩ := Prod.mk.inj (List.mem_singleton.mp h)
      exact ⟨hl, ht, hO.code _ (.inl hl) _ hg.inv⟩
  | serve i x =>
    obtain ⟨op, p, r, p', s, hi, ha, rfl, rfl⟩ := Machine.step_serve hs
    obtain ⟨hl', ht, hsafe⟩ := hg.pool op p (List.mem_of_getElem? hi)
    obtain ⟨hr, hinv, hsafe', hrely⟩ :=
      hO.advance (.inl hl') hg.inv hsafe ha (hcond r (List.mem_singleton_self r))
    have hmove := hO.good_of_rely hg hinv
      (fun op' h ht' => hrely op' ⟨.inl ⟨ht', h⟩, by simp [ht]⟩)
      fun op' q hc _ =>
        hrely op' ⟨.inr ⟨(hg.thread op' q hc).2.1, (hg.thread op' q hc).1⟩, by simp [ht]⟩
    refine ⟨by simpa using hr, ⟨hinv, fun op' q h => ?_, hmove.thread⟩⟩
    rcases List.mem_or_eq_of_mem_set h with h | h
    · exact hmove.pool op' q h
    · obtain ⟨rfl, rfl⟩ := Prod.mk.inj h
      exact ⟨hl', ht, hsafe'⟩
  | start op =>
    obtain ⟨ht, rfl, rfl⟩ := Machine.step_start hs
    refine ⟨by simp, ⟨hg.inv, hg.pool, fun op' p' h => ?_⟩⟩
    obtain ⟨rfl, rfl⟩ := Prod.mk.inj (Option.some.inj h)
    exact ⟨hl, ht, fun _ => hO.code _ (.inr (.inl hl)) _ hg.inv⟩
  | work x =>
    obtain ⟨op, p, r, p', s, hc, ha, rfl, rfl⟩ := Machine.step_work hs
    obtain ⟨hl', ht, hsafe⟩ := hg.thread op p hc
    obtain ⟨q, k, a, rfl, -⟩ := Machine.advance_eq_some ha
    obtain ⟨hr, hinv, hsafe', hrely⟩ := hO.advance (.inr (.inl hl')) hg.inv (hsafe rfl) ha
      (hcond r (List.mem_singleton_self r))
    refine ⟨by simpa using hr, ⟨hinv, fun op' q h => ?_, fun op' q h => ?_⟩⟩
    · obtain ⟨h₁, h₂, h₃⟩ := hg.pool op' q h
      exact ⟨h₁, h₂, h₃.stable hO.preorders (hrely op' ⟨.inl ⟨h₂, h₁⟩, fun _ => h₂⟩)⟩
    · obtain ⟨rfl, rfl⟩ := Prod.mk.inj (Option.some.inj h)
      exact ⟨hl', ht, fun _ => hsafe'⟩
  | crash =>
    simp only [Machine.step, Option.some.injEq, Prod.mk.injEq] at hs
    obtain ⟨rfl, rfl⟩ := hs
    exact ⟨by simp, ⟨hg.inv, hg.pool, by simp⟩⟩
  | whole op xs =>
    obtain ⟨hidle, p, s, hd, -, rfl⟩ := Machine.step_whole hs
    exact hO.good_of_drive hg (.inr (.inr ⟨xs, .inl hl⟩)) hidle hd hcond
  | cut op xs =>
    obtain ⟨-, hidle, p, s, hd, rfl⟩ := Machine.step_cut hs
    exact hO.good_of_drive hg (.inr (.inr ⟨xs, .inr hl⟩)) (fun _ => hidle) hd hcond
  | event v =>
    obtain ⟨s, hv, rfl, rfl⟩ := Machine.step_event hs
    obtain ⟨hinv, hrely⟩ := hO.occur v _ _ hl hg.inv hv
    exact ⟨by simp, hO.good_of_rely hg hinv (fun op h ht => hrely op (.inl ⟨ht, h⟩))
      fun op p hc _ => hrely op (.inr ⟨(hg.thread op p hc).2.1, (hg.thread op p hc).1⟩)⟩

/-- Whole runs, by induction on the labels. -/
theorem run (hO : O.Sound M permit post) {c c' : Conf Op C R E σ} {ls : List (Label Op X V)}
    {rs : List (Record Op C σ)} (hg : c.Good M O permit post) (hl : ∀ l ∈ ls, permit l)
    (hr : M.run c ls = some (rs, c'))
    (hcond : ∀ r ∈ rs, r.Known M O → O.cond r.op r.before r.call) :
    (∀ r ∈ rs, r.Known M O) ∧ c'.Good M O permit post := by
  induction ls generalizing c rs with
  | nil =>
    simp only [Machine.run, Option.some.injEq, Prod.mk.injEq] at hr
    obtain ⟨rfl, rfl⟩ := hr
    exact ⟨by simp, hg⟩
  | cons l ls ih =>
    obtain ⟨rs₁, c₁, rs₂, hs, hr', rfl⟩ := Machine.run_cons hr
    obtain ⟨h₁, hg₁⟩ := hO.step hg (hl l (List.mem_cons_self ..)) hs
      fun r h => hcond r (List.mem_append_left _ h)
    obtain ⟨h₂, hg₂⟩ := ih hg₁ (fun l' h => hl l' (List.mem_cons_of_mem _ h)) hr'
      fun r h => hcond r (List.mem_append_right _ h)
    exact ⟨fun r h => (List.mem_append.mp h).elim (h₁ r) (h₂ r), hg₂⟩

/-- What the program of the thread has come to, if it is done. -/
def Concluded (Q : Op → Except E Unit → Prop) (c : Conf Op C R E σ) : Prop :=
  ∀ op p r, c.thread = some (op, p) → p.outcome? = some r → Q op r

theorem outcome_of_safe (hO : O.Sound M permit post) {op : Op} {p : Prog C R E Unit} {s : σ}
    {r : Except E Unit} (hi : O.inv s) (hsafe : Safe M.exec O op (post op) p s)
    (hr : p.outcome? = some r) : post op r s := by
  have hout := Safe.outcome_of_finished hO.preorders hi hsafe
  cases p with
  | pure a => rwa [← Option.some.inj hr]
  | raise e => rwa [← Option.some.inj hr]
  | call c k => cases hr

theorem concluded_step (hO : O.Sound M permit post) {Q : Op → Except E Unit → Prop}
    (hQ : ∀ op r s, post op r s → Q op r) {c c' : Conf Op C R E σ} {l : Label Op X V}
    {rs : List (Record Op C σ)} (hg : c.Good M O permit post) (hl : permit l)
    (hs : M.step c l = some (rs, c'))
    (hcond : ∀ r ∈ rs, r.Known M O → O.cond r.op r.before r.call) (hc : Concluded Q c) :
    Concluded Q c' := by
  cases l with
  | spawn op =>
    obtain ⟨-, -, rfl⟩ := Machine.step_spawn hs
    exact hc
  | serve i x =>
    obtain ⟨op, p, r, p', s, -, -, -, rfl⟩ := Machine.step_serve hs
    exact hc
  | start op =>
    obtain ⟨ht, -, rfl⟩ := Machine.step_start hs
    intro op' p r hthread hout
    obtain ⟨rfl, rfl⟩ := Prod.mk.inj (Option.some.inj hthread)
    exact hQ _ _ _ (hO.outcome_of_safe hg.inv (hO.code _ (.inr (.inl hl)) _ hg.inv) hout)
  | work x =>
    obtain ⟨op, p, r, p', s, hthread, ha, rfl, rfl⟩ := Machine.step_work hs
    obtain ⟨hl', -, hsafe⟩ := hg.thread op p hthread
    obtain ⟨q, k, a, rfl, -⟩ := Machine.advance_eq_some ha
    obtain ⟨-, hi, hsafe', -⟩ := hO.advance (.inr (.inl hl')) hg.inv (hsafe rfl) ha
      (hcond r (List.mem_singleton_self r))
    intro op' p'' r' hthread' hout
    obtain ⟨rfl, rfl⟩ := Prod.mk.inj (Option.some.inj hthread')
    exact hQ _ _ _ (hO.outcome_of_safe hi hsafe' hout)
  | crash =>
    simp only [Machine.step, Option.some.injEq, Prod.mk.injEq] at hs
    obtain ⟨-, rfl⟩ := hs
    exact fun op p r hthread => by cases hthread
  | whole op xs =>
    obtain ⟨-, p, s, -, -, rfl⟩ := Machine.step_whole hs
    exact hc
  | cut op xs =>
    obtain ⟨-, -, p, s, -, rfl⟩ := Machine.step_cut hs
    exact hc
  | event v =>
    obtain ⟨s, -, -, rfl⟩ := Machine.step_event hs
    exact hc

/-- The program of the thread meets its postcondition when it is done, as far as that does not
depend on the state. -/
theorem concluded_run (hO : O.Sound M permit post) {Q : Op → Except E Unit → Prop}
    (hQ : ∀ op r s, post op r s → Q op r) {c c' : Conf Op C R E σ} {ls : List (Label Op X V)}
    {rs : List (Record Op C σ)} (hg : c.Good M O permit post) (hl : ∀ l ∈ ls, permit l)
    (hr : M.run c ls = some (rs, c'))
    (hcond : ∀ r ∈ rs, r.Known M O → O.cond r.op r.before r.call) (hc : Concluded Q c) :
    Concluded Q c' := by
  induction ls generalizing c rs with
  | nil =>
    simp only [Machine.run, Option.some.injEq, Prod.mk.injEq] at hr
    rwa [← hr.2]
  | cons l ls ih =>
    obtain ⟨rs₁, c₁, rs₂, hs, hr', rfl⟩ := Machine.run_cons hr
    rw [List.forall_mem_cons] at hl
    have hcond₁ : ∀ r ∈ rs₁, r.Known M O → O.cond r.op r.before r.call :=
      fun r h => hcond r (List.mem_append_left _ h)
    have hg₁ := (hO.step hg hl.1 hs hcond₁).2
    have hc₁ := hO.concluded_step hQ hg hl.1 hs hcond₁ hc
    exact ih hg₁ hl.2 hr' (fun r h => hcond r (List.mem_append_right _ h)) hc₁

end Outline.Sound

end Interaction
