import TrainVla.Interaction.Evaluation

/-! How the evaluation of a program is put together from those of its parts. -/
namespace Interaction

variable {C : Type} {R : C → Type} {E α β σ X : Type}

/-- The calls of an evaluation, each with its answer. -/
def exchanges (exec : X → σ → (c : C) → Option (R c × σ)) :
    (ℕ → X) → σ → Prog C R E α → List (Sigma R)
  | _, _, .pure _ => []
  | _, _, .raise _ => []
  | xs, s, .call c k =>
    match exec (xs 0) s c with
    | none => []
    | some (a, s') => ⟨c, a⟩ :: exchanges exec (fun n => xs (n + 1)) s' (k a)

/-- Evaluation from `s` with the settlements `xs` makes the calls `t`, ends with `r` in `s'`, and
leaves the settlements `ys`. -/
inductive EvalsTo (exec : X → σ → (c : C) → Option (R c × σ)) :
    (ℕ → X) → σ → Prog C R E α → List (Sigma R) → Except E α → σ → (ℕ → X) → Prop
  | pure {xs : ℕ → X} {s : σ} {a : α} : EvalsTo exec xs s (.pure a) [] (.ok a) s xs
  | raise {xs : ℕ → X} {s : σ} {e : E} : EvalsTo exec xs s (.raise e) [] (.error e) s xs
  | call {xs ys : ℕ → X} {s s₁ s' : σ} {c : C} {k : R c → Prog C R E α} {a : R c}
      {t : List (Sigma R)} {r : Except E α} (he : exec (xs 0) s c = some (a, s₁))
      (hk : EvalsTo exec (fun n => xs (n + 1)) s₁ (k a) t r s' ys) :
      EvalsTo exec xs s (.call c k) (⟨c, a⟩ :: t) r s' ys

namespace EvalsTo

variable {exec : X → σ → (c : C) → Option (R c × σ)} {xs ys zs : ℕ → X} {s s₁ s' : σ}
  {p : Prog C R E α} {t t' : List (Sigma R)} {r : Except E α}

theorem eval (h : EvalsTo exec xs s p t r s' ys) :
    Interaction.eval exec xs s p = some (r, s') := by
  induction h with
  | pure => rfl
  | raise => rfl
  | call he _ ih =>
    rw [Interaction.eval, he]
    exact ih

theorem exchanges (h : EvalsTo exec xs s p t r s' ys) : Interaction.exchanges exec xs s p = t := by
  induction h with
  | pure => rfl
  | raise => rfl
  | call he _ ih =>
    rw [Interaction.exchanges, he]
    exact congrArg _ ih

/-- What evaluation says about a program that ends. -/
theorem of_eval (h : Interaction.eval exec xs s p = some (r, s')) :
    ∃ t ys, EvalsTo exec xs s p t r s' ys := by
  induction p generalizing xs s with
  | pure a =>
    obtain ⟨rfl, rfl⟩ := Prod.mk.inj (Option.some.inj h)
    exact ⟨[], xs, .pure⟩
  | raise e =>
    obtain ⟨rfl, rfl⟩ := Prod.mk.inj (Option.some.inj h)
    exact ⟨[], xs, .raise⟩
  | call c k ih =>
    obtain ⟨⟨a, s₁⟩, he, hrest⟩ := Option.bind_eq_some_iff.mp h
    obtain ⟨t, ys, hk⟩ := ih a hrest
    exact ⟨⟨c, a⟩ :: t, ys, .call he hk⟩

theorem perform {c : C} {a : R c} (he : exec (xs 0) s c = some (a, s')) :
    EvalsTo exec xs s (Prog.perform c : Prog C R E (R c)) [⟨c, a⟩] (.ok a) s' fun n => xs (n + 1) :=
  .call he .pure

theorem ofExcept : EvalsTo exec xs s (Prog.ofExcept r : Prog C R E α) [] r s xs := by
  cases r with
  | ok a => exact .pure
  | error e => exact .raise

theorem ofExcept_eq {r' : Except E α} (h : r = r') :
    EvalsTo exec xs s (Prog.ofExcept r : Prog C R E α) [] r' s xs := by
  rw [h]
  exact ofExcept

theorem bind {f : α → Prog C R E β} {a : α} {r' : Except E β} (h : EvalsTo exec xs s p t (.ok a) s₁ ys)
    (hf : EvalsTo exec ys s₁ (f a) t' r' s' zs) : EvalsTo exec xs s (p >>= f) (t ++ t') r' s' zs := by
  generalize hr : Except.ok a = r at h
  induction h with
  | pure =>
    obtain rfl := Except.ok.inj hr
    exact hf
  | raise => cases hr
  | call he _ ih => exact .call he (ih hf hr)

theorem bind_error {f : α → Prog C R E β} {e : E} (h : EvalsTo exec xs s p t (.error e) s' ys) :
    EvalsTo exec xs s (p >>= f) t (.error e) s' ys := by
  generalize hr : Except.error e = r at h
  induction h with
  | pure => cases hr
  | raise =>
    obtain rfl := Except.error.inj hr
    exact .raise
  | call he _ ih => exact .call he (ih hr)

theorem attempt (h : EvalsTo exec xs s p t r s' ys) :
    EvalsTo exec xs s (Prog.attempt p) t (.ok r) s' ys := by
  induction h with
  | pure => exact .pure
  | raise => exact .pure
  | call he _ ih => exact .call he ih

/-- Evaluation is deterministic. -/
theorem unique {r' : Except E α} {s₂ : σ} (h : EvalsTo exec xs s p t r s' ys)
    (h' : EvalsTo exec xs s p t' r' s₂ zs) : t = t' ∧ r = r' ∧ s' = s₂ ∧ ys = zs := by
  induction h generalizing t' r' s₂ zs with
  | pure =>
    cases h'
    exact ⟨rfl, rfl, rfl, rfl⟩
  | raise =>
    cases h'
    exact ⟨rfl, rfl, rfl, rfl⟩
  | call he _ ih =>
    obtain _ | _ | ⟨he', hk'⟩ := h'
    obtain ⟨rfl, rfl⟩ := Prod.mk.inj (Option.some.inj (he.symm.trans he'))
    obtain ⟨rfl, rfl, rfl, rfl⟩ := ih hk'
    exact ⟨rfl, rfl, rfl, rfl⟩

/-- One settlement is used for each call. -/
theorem rest (h : EvalsTo exec xs s p t r s' ys) : ys = fun n => xs (n + t.length) := by
  induction h with
  | pure => rfl
  | raise => rfl
  | call he _ ih =>
    rw [ih]
    funext n
    exact congrArg _ (Nat.add_assoc n _ 1)

/-- A call, and what follows it. -/
theorem step {c : C} {a : R c} {f : R c → Prog C R E β} {r' : Except E β}
    (he : exec (xs 0) s c = some (a, s₁))
    (hf : EvalsTo exec (fun n => xs (n + 1)) s₁ (f a) t' r' s' zs) :
    EvalsTo exec xs s (Prog.perform c >>= f) (⟨c, a⟩ :: t') r' s' zs :=
  .call he hf

end EvalsTo

namespace Prog

/-- All calls that the program can make are of this kind. -/
def Within (P : C → Prop) : Prog C R E α → Prop
  | .pure _ => True
  | .raise _ => True
  | .call c k => P c ∧ ∀ a, Within P (k a)

namespace Within

variable {P : C → Prop}

theorem pure (a : α) : Within P (Pure.pure a : Prog C R E α) := trivial

theorem raise (e : E) : Within P (.raise e : Prog C R E α) := trivial

theorem perform {c : C} {k : R c → Prog C R E α} (hc : P c) (hk : ∀ a, Within P (k a)) :
    Within P (Prog.perform c >>= k) := ⟨hc, hk⟩

theorem ofExcept (r : Except E α) : Within P (Prog.ofExcept r : Prog C R E α) := by
  cases r <;> trivial

theorem bind {p : Prog C R E α} {f : α → Prog C R E β} (hp : Within P p)
    (hf : ∀ a, Within P (f a)) : Within P (p >>= f) := by
  induction p with
  | pure a => exact hf a
  | raise e => trivial
  | call c k ih => exact ⟨hp.1, fun a => ih a (hp.2 a)⟩

theorem attempt {p : Prog C R E α} (hp : Within P p) : Within P p.attempt := by
  induction p with
  | pure a => trivial
  | raise e => trivial
  | call c k ih => exact ⟨hp.1, fun a => ih a (hp.2 a)⟩

end Within

theorem bind_assoc {γ : Type} (p : Prog C R E α) (f : α → Prog C R E β) (g : β → Prog C R E γ) :
    (p >>= f) >>= g = p >>= fun a => f a >>= g := by
  induction p with
  | pure a => rfl
  | raise e => rfl
  | call c k ih => exact congrArg (Prog.call c) (funext fun a => ih a)

end Prog

namespace EvalsTo

variable {exec : X → σ → (c : C) → Option (R c × σ)} {xs ys : ℕ → X} {s s' : σ}
  {p : Prog C R E α} {t : List (Sigma R)} {r : Except E α} {P : C → Prop}

theorem within (h : EvalsTo exec xs s p t r s' ys) (hp : p.Within P) : ∀ x ∈ t, P x.1 := by
  induction h with
  | pure => simp
  | raise => simp
  | call he _ ih =>
    intro x hx
    rcases List.mem_cons.mp hx with rfl | hx
    · exact hp.1
    · exact ih (hp.2 _) x hx

/-- What every call of a kind keeps, a program of such calls keeps. -/
theorem keeps {I : σ → Prop} (hI : ∀ x s c a s', P c → exec x s c = some (a, s') → I s → I s')
    (h : EvalsTo exec xs s p t r s' ys) (hp : p.Within P) (hi : I s) : I s' := by
  induction h with
  | pure => exact hi
  | raise => exact hi
  | call he _ ih => exact ih (hp.2 _) (hI _ _ _ _ _ hp.1 he hi)

/-- A program whose calls are all answered comes to an end. -/
theorem total (hexec : ∀ x s c, P c → ∃ out, exec x s c = some out) (hp : p.Within P)
    (xs : ℕ → X) (s : σ) : ∃ t r s' ys, EvalsTo exec xs s p t r s' ys := by
  induction p generalizing xs s with
  | pure a => exact ⟨[], .ok a, s, xs, .pure⟩
  | raise e => exact ⟨[], .error e, s, xs, .raise⟩
  | call c k ih =>
    obtain ⟨⟨a, s₁⟩, he⟩ := hexec (xs 0) s c hp.1
    obtain ⟨t, r, s', ys, hrest⟩ := ih a (hp.2 a) (fun n => xs (n + 1)) s₁
    exact ⟨⟨c, a⟩ :: t, r, s', ys, .call he hrest⟩

end EvalsTo

end Interaction
