import TrainVla.Interaction.Safety

/-! What a program can come to, judged by the answers that it may get. -/
namespace Interaction

variable {Op C : Type} {R : C → Type} {E α β σ X : Type}

/-- Whatever answers it gets that `A` admits, the program comes to an outcome in `Q`. -/
def Yields (A : (c : C) → R c → Prop) (Q : Except E α → Prop) : Prog C R E α → Prop
  | .pure a => Q (.ok a)
  | .raise e => Q (.error e)
  | .call c k => ∀ r, A c r → Yields A Q (k r)

namespace Yields

variable {A : (c : C) → R c → Prop} {Q : Except E α → Prop}

/-- The outcome of the first part hands over to the second. -/
def andThen (A : (c : C) → R c → Prop) (Q : Except E β → Prop) (f : α → Prog C R E β) :
    Except E α → Prop
  | .ok a => Yields A Q (f a)
  | .error e => Q (.error e)

theorem pure {a : α} (h : Q (.ok a)) : Yields A Q (Pure.pure a : Prog C R E α) := h

theorem raise {e : E} (h : Q (.error e)) : Yields A Q (.raise e : Prog C R E α) := h

theorem perform {c : C} {k : R c → Prog C R E α} (h : ∀ r, A c r → Yields A Q (k r)) :
    Yields A Q (Prog.perform c >>= k) := h

theorem last {c : C} {Q : Except E (R c) → Prop} (h : ∀ r, A c r → Q (.ok r)) :
    Yields A Q (Prog.perform c) := h

theorem bind {Q : Except E β → Prop} {p : Prog C R E α} {f : α → Prog C R E β}
    (h : Yields A (andThen A Q f) p) : Yields A Q (p >>= f) := by
  induction p with
  | pure a => exact h
  | raise e => exact h
  | call c k ih => exact fun r hr => ih r (h r hr)

theorem attempt {Q : Except E (Except E α) → Prop} {p : Prog C R E α}
    (h : Yields A (fun r => Q (.ok r)) p) : Yields A Q p.attempt := by
  induction p with
  | pure a => exact h
  | raise e => exact h
  | call c k ih => exact fun r hr => ih r (h r hr)

/-- The outcome of a pure computation: go on with it, or raise. -/
theorem ofExcept {r : Except E β} {f : β → Prog C R E α}
    (hok : ∀ b, r = .ok b → Yields A Q (f b)) (herr : ∀ e, r = .error e → Q (.error e)) :
    Yields A Q (Prog.ofExcept r >>= f) := by
  cases r with
  | ok b => exact hok b rfl
  | error e => exact herr e rfl

theorem outcome {r : Except E α} (h : Q r) : Yields A Q (Prog.ofExcept r) := by
  cases r <;> exact h

theorem mono {Q' : Except E α → Prop} {p : Prog C R E α} (h : Yields A Q p)
    (hQ : ∀ r, Q r → Q' r) : Yields A Q' p := by
  induction p with
  | pure a => exact hQ _ h
  | raise e => exact hQ _ h
  | call c k ih => exact fun r hr => ih r (h r hr)

end Yields

/-- If the program returns at all, it returns this value. -/
def Returns (a : α) (p : Prog C R E α) : Prop :=
  Yields (fun _ _ => True) (fun r => ∀ b, r = .ok b → b = a) p

namespace Returns

variable {a : α}

theorem pure (a : α) : Returns a (Pure.pure a : Prog C R E α) := fun _ h => (Except.ok.inj h).symm

theorem raise (e : E) : Returns a (.raise e : Prog C R E α) := fun _ h => by cases h

/-- Only the last part matters. -/
theorem bind {p : Prog C R E β} {f : β → Prog C R E α} (hf : ∀ b, Returns a (f b)) :
    Returns a (p >>= f) := by
  induction p with
  | pure b => exact hf b
  | raise e => exact .raise e
  | call c k ih => exact fun r _ => ih r

theorem bind_of {b : β} {p : Prog C R E β} {f : β → Prog C R E α} (hp : Returns b p)
    (hf : Returns a (f b)) : Returns a (p >>= f) := by
  induction p with
  | pure b' =>
    obtain rfl : b' = b := hp b' rfl
    exact hf
  | raise e => exact .raise e
  | call c k ih => exact fun r hr => ih r (hp r hr)

end Returns

namespace Outline

/-- The outline without preconditions on calls. -/
def unconditional (O : Outline Op C σ) : Outline Op C σ := { O with pre := fun _ _ _ => True }

end Outline

namespace Safe

variable {exec : X → σ → (c : C) → Option (R c × σ)} {O : Outline Op C σ} {op : Op}
  {post : Except E α → σ → Prop}

/-- Where calls need no precondition, the answers are all there is to know. -/
theorem of_yields {A : (c : C) → R c → Prop} {Q : Except E α → Prop} {p : Prog C R E α} {s : σ}
    (hA : ∀ x s c r s', exec x s c = some (r, s') → A c r) (hp : Yields A Q p) :
    Safe exec O.unconditional op (fun r _ => Q r) p s := by
  induction p generalizing s with
  | pure a => exact fun t ht hi => hp
  | raise e => exact fun t ht hi => hp
  | call c k ih => exact fun t ht hi =>
      ⟨trivial, fun hc x r t' he => ih r (hp r (hA x t c r t' he))⟩

/-- What is shown without preconditions adds to what is shown with them. -/
theorem and_unconditional {post' : Except E α → σ → Prop} {p : Prog C R E α} {s : σ}
    (h : Safe exec O op post p s) (h' : Safe exec O.unconditional op post' p s) :
    Safe exec O op (fun r s => post r s ∧ post' r s) p s := by
  induction p generalizing s with
  | pure a => exact fun t ht hi => ⟨h t ht hi, h' t ht hi⟩
  | raise e => exact fun t ht hi => ⟨h t ht hi, h' t ht hi⟩
  | call c k ih =>
    intro t ht hi
    obtain ⟨hpre, hk⟩ := h t ht hi
    obtain ⟨-, hk'⟩ := h' t ht hi
    exact ⟨hpre, fun hc x r t' he => ih r (hk hc x r t' he) (hk' hc x r t' he)⟩

end Safe

end Interaction
