import TrainVla.Interaction.Safety
import Mathlib.Data.Nat.Notation

/-! Programs that run to their end without interruption. -/
namespace Interaction

variable {Op C : Type} {R : C → Type} {E α β σ X V : Type}

/-- Evaluation in an environment that settles the calls one after the other. -/
def eval (exec : X → σ → (c : C) → Option (R c × σ)) :
    (ℕ → X) → σ → Prog C R E α → Option (Except E α × σ)
  | _, s, .pure a => some (.ok a, s)
  | _, s, .raise e => some (.error e, s)
  | xs, s, .call c k =>
    (exec (xs 0) s c).bind fun out => eval exec (fun n => xs (n + 1)) out.2 (k out.1)

section

variable {exec : X → σ → (c : C) → Option (R c × σ)} {s s' : σ}

@[simp] theorem eval_pure (xs : ℕ → X) (a : α) :
    eval exec xs s (Pure.pure a : Prog C R E α) = some (.ok a, s) := rfl

@[simp] theorem eval_raise (xs : ℕ → X) (e : E) :
    eval exec xs s (.raise e : Prog C R E α) = some (.error e, s) := rfl

theorem eval_perform (xs : ℕ → X) (c : C) (k : R c → Prog C R E α) :
    eval exec xs s (Prog.perform c >>= k) =
      (exec (xs 0) s c).bind fun out => eval exec (fun n => xs (n + 1)) out.2 (k out.1) := rfl

theorem eval_perform_bind (xs : ℕ → X) (c : C) (k : R c → Prog C R E α) (f : α → Prog C R E β) :
    eval exec xs s ((Prog.perform c >>= k) >>= f) =
      (exec (xs 0) s c).bind fun out => eval exec (fun n => xs (n + 1)) out.2 (k out.1 >>= f) := rfl

theorem eval_attempt_perform (xs : ℕ → X) (c : C) (k : R c → Prog C R E α)
    (f : Except E α → Prog C R E β) :
    eval exec xs s (Prog.attempt (Prog.perform c >>= k) >>= f) =
      (exec (xs 0) s c).bind fun out =>
        eval exec (fun n => xs (n + 1)) out.2 (Prog.attempt (k out.1) >>= f) := rfl

theorem eval_attempt_ofExcept (xs : ℕ → X) (r : Except E α) (f : Except E α → Prog C R E β) :
    eval exec xs s (Prog.attempt (Prog.ofExcept r : Prog C R E α) >>= f) = eval exec xs s (f r) := by
  cases r <;> rfl

/-- A safe program that is evaluated on its own meets its postcondition. -/
theorem eval_safe {O : Outline Op C σ} {op : Op} {post : Except E α → σ → Prop}
    {p : Prog C R E α} {xs : ℕ → X} {r : Except E α} (hO : O.Preorders)
    (hcond : ∀ s c, O.cond op s c)
    (hexec : ∀ x s c r s', O.inv s → O.pre op s c → exec x s c = some (r, s') → O.inv s')
    (hsafe : Safe exec O op post p s) (hi : O.inv s)
    (h : Interaction.eval exec xs s p = some (r, s')) : O.inv s' ∧ post r s' := by
  induction p generalizing s xs with
  | pure a =>
    obtain ⟨rfl, rfl⟩ := Prod.mk.inj (Option.some.inj h)
    exact ⟨hi, hsafe s (hO.refl _ _) hi⟩
  | raise e =>
    obtain ⟨rfl, rfl⟩ := Prod.mk.inj (Option.some.inj h)
    exact ⟨hi, hsafe s (hO.refl _ _) hi⟩
  | call c k ih =>
    obtain ⟨⟨a, s₁⟩, he, hrest⟩ := Option.bind_eq_some_iff.mp h
    obtain ⟨hpre, hk⟩ := hsafe s (hO.refl _ _) hi
    exact ih a (hk (hcond s c) _ a s₁ he) (hexec _ s c a s₁ hi hpre he) hrest

end

end Interaction
