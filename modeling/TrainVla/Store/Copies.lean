import TrainVla.Store.Table

/-! Readers keep copies of rows while others write. `Evolves R` bounds what the writes do to
each row; `Copy R` relates a copy to the row that has become of it. -/
namespace Store

namespace Table

variable {α κ : Type} {key : α → κ} [DecidableEq κ] {R S : α → α → Prop}

/-- Every row stays under its key, changed at most by `R`. -/
def Evolves (R : α → α → Prop) (before after : Table α κ key) : Prop :=
  ∀ k a, before.get? k = some a → ∃ b, after.get? k = some b ∧ R a b

/-- The row under the key of `a` is what `R` may make of `a`. -/
def Copy (R : α → α → Prop) (a : α) (t : Table α κ key) : Prop :=
  ∃ b, t.get? (key a) = some b ∧ R a b

theorem Evolves.rfl (hR : ∀ a, R a a) {t : Table α κ key} : Evolves R t t :=
  fun _ a h => ⟨a, h, hR a⟩

theorem Evolves.trans (hR : ∀ a b c, R a b → R b c → R a c) {t₁ t₂ t₃ : Table α κ key}
    (h₁₂ : Evolves R t₁ t₂) (h₂₃ : Evolves R t₂ t₃) : Evolves R t₁ t₃ := by
  intro k a ha
  obtain ⟨b, hb, hab⟩ := h₁₂ k a ha
  obtain ⟨c, hc, hbc⟩ := h₂₃ k b hb
  exact ⟨c, hc, hR a b c hab hbc⟩

/-- A write changes one row. -/
theorem evolves_put (hR : ∀ a, R a a) {t : Table α κ key} {b : α}
    (h : ∀ a, t.get? (key b) = some a → R a b) : Evolves R t (t.put b) := by
  intro k a ha
  rw [get?_put]
  by_cases hk : k = key b
  · rw [if_pos hk]
    rw [hk] at ha
    exact ⟨b, Eq.refl _, h a ha⟩
  · rw [if_neg hk]
    exact ⟨a, ha, hR a⟩

theorem evolves_put_fresh (hR : ∀ a, R a a) {t : Table α κ key} {b : α}
    (h : t.get? (key b) = none) : Evolves R t (t.put b) :=
  evolves_put hR fun a ha => by rw [h] at ha; cases ha

theorem Evolves.of_put {t : Table α κ key} {a b : α} (h : Evolves R t (t.put b))
    (ha : t.get? (key b) = some a) : R a b := by
  obtain ⟨c, hc, hac⟩ := h (key b) a ha
  rw [get?_put_self] at hc
  obtain rfl := Option.some.inj hc
  exact hac

theorem Copy.of_mem (hR : ∀ a, R a a) {t : Table α κ key} {a : α} (h : a ∈ t) : Copy R a t :=
  ⟨a, get?_of_mem h, hR a⟩

theorem Copy.evolve {t t' : Table α κ key} {a : α} (h : Copy R a t) (ht : Evolves S t t')
    (hRS : ∀ a b c, R a b → S b c → R a c) : Copy R a t' := by
  obtain ⟨b, hb, hab⟩ := h
  obtain ⟨c, hc, hbc⟩ := ht (key a) b hb
  exact ⟨c, hc, hRS a b c hab hbc⟩

theorem Copy.put_self (hR : ∀ a, R a a) (t : Table α κ key) (a : α) : Copy R a (t.put a) :=
  ⟨a, get?_put_self t a, hR a⟩

theorem Copy.put_of_ne {t : Table α κ key} {a b : α} (h : Copy R a t) (hk : key a ≠ key b) :
    Copy R a (t.put b) := by
  obtain ⟨c, hc, hac⟩ := h
  exact ⟨c, (get?_put_of_ne hk).trans hc, hac⟩

/-- The row that is overwritten by a changed copy. -/
theorem Copy.stored {t : Table α κ key} {a b c : α} (h : Copy R a t) (hk : key b = key a)
    (hc : t.get? (key b) = some c) : R a c := by
  obtain ⟨d, hd, had⟩ := h
  rw [hk, hd] at hc
  obtain rfl := Option.some.inj hc
  exact had

end Table

end Store
