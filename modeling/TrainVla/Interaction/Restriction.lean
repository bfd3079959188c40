import TrainVla.Interaction.Soundness

/-! Runs in which the environment settles calls only in some of the ways it could. -/
namespace Interaction

variable {Op C : Type} {R : C → Type} {E α σ X V : Type}

/-- The environment settles the calls of this label as `ok` allows. -/
def Label.Settles (ok : X → Prop) : Label Op X V → Prop
  | serve _ x => ok x
  | work x => ok x
  | whole _ xs => ∀ x ∈ xs, ok x
  | cut _ xs => ∀ x ∈ xs, ok x
  | _ => True

namespace Machine

variable (M : Machine Op C R E σ X V) (ok : X → Prop) [DecidablePred ok]

/-- The machine in an environment that never settles a call otherwise. -/
def restrict : Machine Op C R E σ X V :=
  { M with exec := fun x s c => if ok x then M.exec x s c else none }

variable {M ok}

theorem exec_of_restrict {x : X} {s : σ} {c : C} {out : R c × σ}
    (h : (M.restrict ok).exec x s c = some out) : ok x ∧ M.exec x s c = some out := by
  unfold restrict at h
  dsimp only at h
  split at h
  · rename_i hx
    exact ⟨hx, h⟩
  · cases h

theorem advance_restrict {op : Op} {x : X} (hx : ok x) (s : σ) (p : Prog C R E α) :
    (M.restrict ok).advance op x s p = M.advance op x s p := by
  cases p with
  | call c k =>
    unfold advance restrict
    dsimp only
    rw [if_pos hx]
  | _ => rfl

theorem drive_restrict {op : Op} {xs : List X} (hxs : ∀ x ∈ xs, ok x) (s : σ)
    (p : Prog C R E α) : (M.restrict ok).drive op xs s p = M.drive op xs s p := by
  induction xs generalizing s p with
  | nil => rfl
  | cons x xs ih =>
    rw [List.forall_mem_cons] at hxs
    unfold drive
    rw [advance_restrict hxs.1]
    simp only [ih hxs.2]

theorem step_restrict {l : Label Op X V} (hl : l.Settles ok) (c : Conf Op C R E σ) :
    (M.restrict ok).step c l = M.step c l := by
  cases l with
  | serve i x =>
    unfold step
    simp only [advance_restrict (show ok x from hl)]
  | work x =>
    unfold step
    simp only [advance_restrict (show ok x from hl)]
  | whole op xs =>
    unfold step
    simp only [drive_restrict hl]
    rfl
  | cut op xs =>
    unfold step
    simp only [drive_restrict hl]
    rfl
  | _ => rfl

/-- A run in which all calls are settled as `ok` allows is one of the restricted machine. -/
theorem run_restrict {ls : List (Label Op X V)} (hls : ∀ l ∈ ls, l.Settles ok)
    (c : Conf Op C R E σ) : (M.restrict ok).run c ls = M.run c ls := by
  induction ls generalizing c with
  | nil => rfl
  | cons l ls ih =>
    rw [List.forall_mem_cons] at hls
    unfold run
    rw [step_restrict hls.1]
    simp only [ih hls.2]

end Machine

theorem Safe.restrict {M : Machine Op C R E σ X V} {ok : X → Prop} [DecidablePred ok]
    {O : Outline Op C σ} {op : Op} {post : Except E α → σ → Prop} {p : Prog C R E α} {s : σ}
    (h : Safe M.exec O op post p s) : Safe (M.restrict ok).exec O op post p s := by
  induction p generalizing s with
  | pure a => exact h
  | raise e => exact h
  | call c k ih =>
    intro t ht hi
    obtain ⟨hpre, hk⟩ := h t ht hi
    exact ⟨hpre, fun hc x r t' he => ih r (hk hc x r t' (Machine.exec_of_restrict he).2)⟩

theorem Outline.Steps.restrict {M : Machine Op C R E σ X V} {ok : X → Prop} [DecidablePred ok]
    {O : Outline Op C σ} {permit : Label Op X V → Prop} (h : O.Steps M permit) :
    O.Steps (M.restrict ok) permit where
  preorders := h.preorders
  exec op x s c r s' hop hi hpre hc he :=
    h.exec op x s c r s' hop hi hpre hc (Machine.exec_of_restrict he).2
  occur := h.occur

end Interaction
