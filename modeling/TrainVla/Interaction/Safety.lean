import TrainVla.Interaction.Program

/-! Rely-guarantee reasoning for a single program. The program is interleaved with
surroundings that may change the state between any two of its calls. -/
namespace Interaction

variable {Op C : Type} {R : C → Type} {E α β σ X : Type}

/-- The assertions of one proof about many parties. `inv` holds in every state;
`rely op` bounds what the others do while `op` is in flight; `pre op` is what `op`
knows when it performs a call; `cond op` restricts the calls that are considered. -/
structure Outline (Op C σ : Type) where
  inv : σ → Prop
  rely : Op → σ → σ → Prop
  pre : Op → σ → C → Prop
  cond : Op → σ → C → Prop

/-- Rely relations have to be preorders. -/
structure Outline.Preorders (O : Outline Op C σ) : Prop where
  refl : ∀ op s, O.rely op s s
  trans : ∀ op s₁ s₂ s₃, O.rely op s₁ s₂ → O.rely op s₂ s₃ → O.rely op s₁ s₃

/-- Whatever the others do within the rely, the program meets the precondition of
each of its calls, and its outcome meets `post` for good. -/
def Safe (exec : X → σ → (c : C) → Option (R c × σ)) (O : Outline Op C σ) (op : Op)
    (post : Except E α → σ → Prop) : Prog C R E α → σ → Prop
  | .pure a, s => ∀ s', O.rely op s s' → O.inv s' → post (.ok a) s'
  | .raise e, s => ∀ s', O.rely op s s' → O.inv s' → post (.error e) s'
  | .call c k, s => ∀ s', O.rely op s s' → O.inv s' → O.pre op s' c ∧
      (O.cond op s' c → ∀ x r s'', exec x s' c = some (r, s'') → Safe exec O op post (k r) s'')

namespace Safe

variable {exec : X → σ → (c : C) → Option (R c × σ)} {O : Outline Op C σ} {op : Op}
  {post : Except E α → σ → Prop}

theorem stable (hO : O.Preorders) {p : Prog C R E α} {s s' : σ} (h : Safe exec O op post p s)
    (hs : O.rely op s s') : Safe exec O op post p s' := by
  cases p <;> exact fun t ht hi => h t (hO.trans _ _ _ _ hs ht) hi

/-- A program is safe as soon as it is safe wherever the rely leads. -/
theorem of_rely (hO : O.Preorders) {p : Prog C R E α} {s : σ}
    (h : ∀ s', O.rely op s s' → O.inv s' → Safe exec O op post p s') :
    Safe exec O op post p s := by
  cases p <;> exact fun t ht hi => h t ht hi t (hO.refl _ _) hi

theorem mono {post' : Except E α → σ → Prop} {p : Prog C R E α} {s : σ}
    (h : Safe exec O op post p s) (hp : ∀ r s, O.inv s → post r s → post' r s) :
    Safe exec O op post' p s := by
  induction p generalizing s with
  | pure a => exact fun t ht hi => hp _ _ hi (h t ht hi)
  | raise e => exact fun t ht hi => hp _ _ hi (h t ht hi)
  | call c k ih =>
    intro t ht hi
    obtain ⟨hpre, hk⟩ := h t ht hi
    exact ⟨hpre, fun hc x r t' he => ih r (hk hc x r t' he)⟩

/-- The outcome of a finished program. -/
def outcome (post : Except E α → σ → Prop) : Prog C R E α → σ → Prop
  | .pure a, s => post (.ok a) s
  | .raise e, s => post (.error e) s
  | .call _ _, _ => True

theorem outcome_of_finished (hO : O.Preorders) {p : Prog C R E α} {s : σ} (hi : O.inv s)
    (h : Safe exec O op post p s) : outcome post p s := by
  cases p with
  | pure a => exact h s (hO.refl _ _) hi
  | raise e => exact h s (hO.refl _ _) hi
  | call c k => trivial

/-- The outcome of the first part hands over to the second. -/
def andThen (exec : X → σ → (c : C) → Option (R c × σ)) (O : Outline Op C σ) (op : Op)
    (post : Except E β → σ → Prop) (f : α → Prog C R E β) : Except E α → σ → Prop
  | .ok a, s => Safe exec O op post (f a) s
  | .error e, s => post (.error e) s

theorem bind (hO : O.Preorders) {post : Except E β → σ → Prop} {p : Prog C R E α}
    {f : α → Prog C R E β} {s : σ} (h : Safe exec O op (andThen exec O op post f) p s) :
    Safe exec O op post (p >>= f) s := by
  induction p generalizing s with
  | pure a => exact of_rely hO fun t ht hi => h t ht hi
  | raise e => exact fun t ht hi => h t ht hi
  | call c k ih =>
    intro t ht hi
    obtain ⟨hpre, hk⟩ := h t ht hi
    exact ⟨hpre, fun hc x r t' he => ih r (hk hc x r t' he)⟩

theorem attempt {post : Except E (Except E α) → σ → Prop} {p : Prog C R E α} {s : σ}
    (h : Safe exec O op (fun r => post (.ok r)) p s) : Safe exec O op post p.attempt s := by
  induction p generalizing s with
  | pure a => exact fun t ht hi => h t ht hi
  | raise e => exact fun t ht hi => h t ht hi
  | call c k ih =>
    intro t ht hi
    obtain ⟨hpre, hk⟩ := h t ht hi
    exact ⟨hpre, fun hc x r t' he => ih r (hk hc x r t' he)⟩

/-- One call followed by a continuation. -/
theorem perform {post : Except E β → σ → Prop} {c : C} {f : R c → Prog C R E β} {s : σ}
    (h : ∀ s', O.rely op s s' → O.inv s' → O.pre op s' c ∧
      (O.cond op s' c → ∀ x r s'', exec x s' c = some (r, s'') →
        Safe exec O op post (f r) s'')) :
    Safe exec O op post (Prog.perform c >>= f) s := h

theorem pure_of {a : α} {s : σ} (h : ∀ s', O.rely op s s' → O.inv s' → post (.ok a) s') :
    Safe exec O op post (Pure.pure a) s := h

end Safe

end Interaction
