import TrainVla.Interaction.System

/-! What programs keep that nobody interrupts. In the middle of the program the invariant may
fail. -/
namespace Interaction

variable {Op C : Type} {R : C → Type} {E α β σ X V : Type}

/-- From `s` the program can end with `r` in `s'`. -/
inductive Ends (exec : X → σ → (c : C) → Option (R c × σ)) :
    σ → Prog C R E α → Except E α → σ → Prop
  | pure {s : σ} {a : α} : Ends exec s (.pure a) (.ok a) s
  | raise {s : σ} {e : E} : Ends exec s (.raise e) (.error e) s
  | call {s s₁ s' : σ} {c : C} {k : R c → Prog C R E α} {x : X} {a : R c} {r : Except E α}
      (he : exec x s c = some (a, s₁)) (h : Ends exec s₁ (k a) r s') : Ends exec s (.call c k) r s'

/-- The program keeps the invariant, whether it raises or returns something that `Q` allows. -/
def Keeps (exec : X → σ → (c : C) → Option (R c × σ)) (I : σ → Prop) (p : Prog C R E α)
    (Q : α → Prop) : Prop :=
  ∀ s r s', I s → Ends exec s p r s' → I s' ∧ ∀ a, r = .ok a → Q a

section

variable {exec : X → σ → (c : C) → Option (R c × σ)} {s s' : σ}

theorem Ends.of_perform {c : C} {k : R c → Prog C R E α} {r : Except E α}
    (h : Ends exec s (Prog.perform c >>= k) r s') :
    ∃ x a s₁, exec x s c = some (a, s₁) ∧ Ends exec s₁ (k a) r s' := by
  obtain _ | _ | ⟨he, hrest⟩ := h
  exact ⟨_, _, _, he, hrest⟩

theorem Ends.of_bind {p : Prog C R E α} {f : α → Prog C R E β} {r : Except E β}
    (h : Ends exec s (p >>= f) r s') :
    (∃ a s₁, Ends exec s p (.ok a) s₁ ∧ Ends exec s₁ (f a) r s') ∨
      ∃ e, r = .error e ∧ Ends exec s p (.error e) s' := by
  induction p generalizing s with
  | pure a => exact .inl ⟨a, s, .pure, h⟩
  | raise e =>
    cases h
    exact .inr ⟨e, rfl, .raise⟩
  | call c k ih =>
    obtain _ | _ | ⟨he, hrest⟩ := h
    rcases ih _ hrest with ⟨a, s₁, hp, hf⟩ | ⟨e, hr, hp⟩
    · exact .inl ⟨a, s₁, .call he hp, hf⟩
    · exact .inr ⟨e, hr, .call he hp⟩

end

namespace Keeps

variable {exec : X → σ → (c : C) → Option (R c × σ)} {I : σ → Prop} {Q : α → Prop}

theorem pure {a : α} (h : Q a) : Keeps exec I (Pure.pure a : Prog C R E α) Q := by
  intro s r s' hi hends
  cases hends
  refine ⟨hi, fun a' heq => ?_⟩
  rw [← Except.ok.inj heq]
  exact h

theorem raise {e : E} : Keeps exec I (.raise e : Prog C R E α) Q := by
  intro s r s' hi hends
  cases hends
  exact ⟨hi, nofun⟩

/-- A call that keeps the invariant. The rest may rely on its answer being possible. -/
theorem perform {c : C} {k : R c → Prog C R E α}
    (hc : ∀ x s a s', I s → exec x s c = some (a, s') → I s')
    (hk : ∀ a, (∃ x s s', exec x s c = some (a, s')) → Keeps exec I (k a) Q) :
    Keeps exec I (Prog.perform c >>= k) Q := by
  intro s r s' hi hends
  obtain ⟨x, a, s₁, he, hrest⟩ := hends.of_perform
  exact hk a ⟨x, s, s₁, he⟩ s₁ r s' (hc x s a s₁ hi he) hrest

theorem bind {Q' : β → Prop} {p : Prog C R E α} {f : α → Prog C R E β} (hp : Keeps exec I p Q)
    (hf : ∀ a, Q a → Keeps exec I (f a) Q') : Keeps exec I (p >>= f) Q' := by
  intro s r s' hi hends
  rcases hends.of_bind with ⟨a, s₁, hfirst, hrest⟩ | ⟨e, rfl, hfirst⟩
  · obtain ⟨hi₁, ha⟩ := hp s _ s₁ hi hfirst
    exact hf a (ha a rfl) s₁ r s' hi₁ hrest
  · exact ⟨(hp s _ s' hi hfirst).1, nofun⟩

theorem ofExcept {r : Except E β} {f : β → Prog C R E α}
    (h : ∀ b, r = .ok b → Keeps exec I (f b) Q) : Keeps exec I (Prog.ofExcept r >>= f) Q := by
  cases r with
  | ok b => exact h b rfl
  | error e => exact raise

end Keeps

/-- A program that a machine drives to its end. -/
theorem ends_of_drive {M : Machine Op C R E σ X V} {op : Op} {xs : List X} {s s' : σ}
    {p p' : Prog C R E α} {rs : List (Record Op C σ)}
    (hd : M.drive op xs s p = some (rs, p', s')) (hfinished : p'.finished = true) :
    ∃ r, Ends M.exec s p r s' := by
  induction xs generalizing s p rs with
  | nil =>
    simp only [Machine.drive, Option.some.injEq, Prod.mk.injEq] at hd
    obtain ⟨-, rfl, rfl⟩ := hd
    cases p with
    | pure a => exact ⟨_, .pure⟩
    | raise e => exact ⟨_, .raise⟩
    | call c k => cases hfinished
  | cons x xs ih =>
    obtain ⟨r, p₁, s₁, rs', ha, hd', rfl⟩ := Machine.drive_cons hd
    obtain ⟨c, k, a, rfl, he, -, rfl⟩ := Machine.advance_eq_some ha
    obtain ⟨out, hends⟩ := ih hd'
    exact ⟨out, .call he hends⟩

end Interaction
