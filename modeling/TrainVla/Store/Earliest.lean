import Mathlib.Data.List.Sort
import Mathlib.Order.Defs.LinearOrder

/-! What a stable sort puts first, and where it puts what was last. -/
namespace Store

/-- The first of the smallest elements. -/
theorem first_of_insertionSort {α β : Type} [LinearOrder β] (f : α → β) {l rest : List α} {a : α}
    (h : l.insertionSort (fun x y => f x ≤ f y) = a :: rest) :
    ∃ before after, l = before ++ a :: after ∧ (∀ b ∈ before, f a < f b) ∧
      ∀ b ∈ after, f a ≤ f b := by
  induction l generalizing a rest with
  | nil => cases h
  | cons b l ih =>
    rw [List.insertionSort_cons] at h
    cases hsort : l.insertionSort (fun x y => f x ≤ f y) with
    | nil =>
      rw [hsort, List.orderedInsert_nil] at h
      obtain ⟨rfl, -⟩ := List.cons.inj h
      have hlength := List.length_insertionSort (r := fun x y => f x ≤ f y) l
      rw [hsort] at hlength
      have hnil : l = [] := List.eq_nil_of_length_eq_zero hlength.symm
      exact ⟨[], [], by rw [hnil]; rfl, by simp, by simp⟩
    | cons c rest' =>
      obtain ⟨before, after, hl, hbefore, hafter⟩ := ih hsort
      rw [hsort, List.orderedInsert_cons] at h
      split at h
      · rename_i hbc
        obtain ⟨rfl, -⟩ := List.cons.inj h
        refine ⟨[], l, rfl, by simp, fun x hx => ?_⟩
        rw [hl, List.mem_append, List.mem_cons] at hx
        rcases hx with hx | rfl | hx
        · exact hbc.trans (hbefore x hx).le
        · exact hbc
        · exact hbc.trans (hafter x hx)
      · rename_i hbc
        obtain ⟨rfl, -⟩ := List.cons.inj h
        refine ⟨b :: before, after, by rw [hl]; rfl, fun x hx => ?_, hafter⟩
        rcases List.mem_cons.mp hx with rfl | hx
        · exact not_le.mp hbc
        · exact hbefore x hx

/-- And conversely, such an element comes first. -/
theorem insertionSort_of_first {α β : Type} [LinearOrder β] (f : α → β) {a : α}
    {before after : List α} (hbefore : ∀ b ∈ before, f a < f b) (hafter : ∀ b ∈ after, f a ≤ f b) :
    ∃ rest, (before ++ a :: after).insertionSort (fun x y => f x ≤ f y) = a :: rest := by
  induction before with
  | nil =>
    rw [List.nil_append, List.insertionSort_cons]
    cases hsort : after.insertionSort (fun x y => f x ≤ f y) with
    | nil => exact ⟨[], rfl⟩
    | cons c rest =>
      have hmem : c ∈ after := by
        rw [← List.mem_insertionSort fun x y => f x ≤ f y, hsort]
        exact List.mem_cons_self
      have hle : f a ≤ f c := hafter c hmem
      exact ⟨c :: rest, by rw [List.orderedInsert_cons, if_pos hle]⟩
  | cons b before ih =>
    rw [List.forall_mem_cons] at hbefore
    obtain ⟨rest, hrest⟩ := ih hbefore.2
    have hnot : ¬ f b ≤ f a := not_le.mpr hbefore.1
    rw [List.cons_append, List.insertionSort_cons, hrest, List.orderedInsert_cons, if_neg hnot]
    exact ⟨_, rfl⟩

section

variable {α β : Type} [LinearOrder β] {f : α → β} {a x : α}

/-- An element that may go before `a` is inserted before it. -/
theorem orderedInsert_before (before after : List α) (h : f x ≤ f a) :
    ∃ before', (before ++ a :: after).orderedInsert (fun x y => f x ≤ f y) x =
      before' ++ a :: after ∧ before'.Perm (x :: before) := by
  induction before with
  | nil =>
    refine ⟨[x], ?_, .refl _⟩
    rw [List.nil_append, List.orderedInsert_cons, if_pos h]
    rfl
  | cons b before ih =>
    rw [List.cons_append, List.orderedInsert_cons]
    by_cases hb : f x ≤ f b
    · rw [if_pos hb]
      exact ⟨x :: b :: before, rfl, .refl _⟩
    · obtain ⟨before', hinsert, hperm⟩ := ih
      rw [if_neg hb, hinsert]
      exact ⟨b :: before', rfl, (hperm.cons b).trans (.swap x b before)⟩

/-- And one that may not go before any of these is inserted after them. -/
theorem orderedInsert_after {before after : List α} (hbefore : ∀ b ∈ before, f b ≤ f a)
    (h : f a < f x) : (before ++ a :: after).orderedInsert (fun x y => f x ≤ f y) x =
      before ++ a :: after.orderedInsert (fun x y => f x ≤ f y) x := by
  induction before with
  | nil =>
    have hnot : ¬ f x ≤ f a := not_le.mpr h
    rw [List.nil_append, List.orderedInsert_cons, if_neg hnot]
    rfl
  | cons b before ih =>
    rw [List.forall_mem_cons] at hbefore
    have hnot : ¬ f x ≤ f b := not_le.mpr (hbefore.1.trans_lt h)
    rw [List.cons_append, List.orderedInsert_cons, if_neg hnot, ih hbefore.2]
    rfl

/-- Smaller first; of equal ones, the one that comes first in `l`. -/
def Precedes (f : α → β) (l : List α) (a b : α) : Prop := f a < f b ∨ f a = f b ∧ [a, b].Sublist l

theorem Precedes.le {l : List α} {b : α} (h : Precedes f l a b) : f a ≤ f b := by
  rcases h with hlt | ⟨heq, -⟩
  · exact hlt.le
  · exact heq.le

theorem pairwise_orderedInsert {l sorted : List α} (hsorted : sorted.Pairwise (Precedes f (x :: l)))
    (hmem : ∀ b ∈ sorted, b ∈ l) :
    (sorted.orderedInsert (fun x y => f x ≤ f y) x).Pairwise (Precedes f (x :: l)) := by
  induction sorted with
  | nil =>
    rw [List.orderedInsert_nil]
    exact List.pairwise_singleton _ x
  | cons c sorted ih =>
    rw [List.pairwise_cons] at hsorted
    rw [List.forall_mem_cons] at hmem
    rw [List.orderedInsert_cons]
    by_cases h : f x ≤ f c
    · rw [if_pos h, List.pairwise_cons]
      refine ⟨?_, List.pairwise_cons.mpr hsorted⟩
      intro b hb
      have hle : f x ≤ f b := by
        rcases List.mem_cons.mp hb with rfl | hb
        · exact h
        · exact h.trans (hsorted.1 b hb).le
      have hlisted : b ∈ l := by
        rcases List.mem_cons.mp hb with rfl | hb
        · exact hmem.1
        · exact hmem.2 b hb
      rcases hle.lt_or_eq with hlt | heq
      · exact .inl hlt
      · exact .inr ⟨heq, (List.singleton_sublist.mpr hlisted).cons_cons x⟩
    · rw [if_neg h, List.pairwise_cons]
      refine ⟨?_, ih hsorted.2 hmem.2⟩
      intro b hb
      rcases (List.mem_orderedInsert _).mp hb with rfl | hb
      · exact .inl (not_le.mp h)
      · exact hsorted.1 b hb

/-- The sort is stable. -/
theorem pairwise_precedes (f : α → β) (l : List α) :
    (l.insertionSort fun x y => f x ≤ f y).Pairwise (Precedes f l) := by
  induction l with
  | nil => exact List.Pairwise.nil
  | cons x l ih =>
    rw [List.insertionSort_cons]
    apply pairwise_orderedInsert
    · apply List.Pairwise.imp _ ih
      rintro a b (hlt | ⟨heq, hsub⟩)
      · exact .inl hlt
      · exact .inr ⟨heq, hsub.cons x⟩
    · intro b hb
      exact (List.mem_insertionSort _).mp hb

/-- In a sorted list, an element is inserted before those that are not smaller. -/
theorem orderedInsert_of_sorted {l : List α} (h : l.Pairwise fun x y => f x ≤ f y) (a : α) :
    l.orderedInsert (fun x y => f x ≤ f y) a =
      l.filter (fun b => f b < f a) ++ a :: l.filter fun b => f a ≤ f b := by
  induction l with
  | nil => rfl
  | cons c l ih =>
    rw [List.pairwise_cons] at h
    rw [List.orderedInsert_cons]
    by_cases hle : f a ≤ f c
    · have hall : ∀ b ∈ c :: l, f a ≤ f b := by
        intro b hb
        rcases List.mem_cons.mp hb with rfl | hb
        · exact hle
        · exact hle.trans (h.1 b hb)
      have hnone : (c :: l).filter (fun b => f b < f a) = [] := by
        rw [List.filter_eq_nil_iff]
        intro b hb
        simpa using hall b hb
      have hself : (c :: l).filter (fun b => f a ≤ f b) = c :: l := by
        rw [List.filter_eq_self]
        intro b hb
        simpa using hall b hb
      rw [if_pos hle, hnone, hself]
      rfl
    · have hlt : f c < f a := not_le.mp hle
      rw [if_neg hle, ih h.2, List.filter_cons_of_pos (by simpa using hlt),
        List.filter_cons_of_neg (by simpa using hle)]
      rfl

/-- An element comes after those that are smaller and those of the same size before it. -/
theorem insertionSort_split (f : α → β) (front : List α) (a : α) (back : List α) :
    ∃ before after,
      (front ++ a :: back).insertionSort (fun x y => f x ≤ f y) = before ++ a :: after ∧
      before.Perm (front.filter (fun b => f b ≤ f a) ++ back.filter fun b => f b < f a) ∧
      after.Perm (front.filter (fun b => f a < f b) ++ back.filter fun b => f a ≤ f b) := by
  induction front with
  | nil =>
    have hsorted : (back.insertionSort fun x y => f x ≤ f y).Pairwise fun x y => f x ≤ f y :=
      (pairwise_precedes f back).imp Precedes.le
    have hperm : (back.insertionSort fun x y => f x ≤ f y).Perm back := List.perm_insertionSort _ _
    refine ⟨_, _, ?_, hperm.filter _, hperm.filter _⟩
    rw [List.nil_append, List.insertionSort_cons]
    exact orderedInsert_of_sorted hsorted a
  | cons x front ih =>
    obtain ⟨before, after, hsort, hbefore, hafter⟩ := ih
    rw [List.cons_append, List.insertionSort_cons, hsort]
    by_cases h : f x ≤ f a
    · obtain ⟨before', hinsert, hperm⟩ := orderedInsert_before before after h
      refine ⟨before', after, hinsert, ?_, ?_⟩
      · rw [List.filter_cons_of_pos (by simpa using h)]
        exact hperm.trans (hbefore.cons x)
      · rw [List.filter_cons_of_neg (by simpa using h)]
        exact hafter
    · have hle : ∀ b ∈ before, f b ≤ f a := by
        intro b hb
        rcases List.mem_append.mp (hbefore.mem_iff.mp hb) with hb | hb
        · exact of_decide_eq_true (List.mem_filter.mp hb).2
        · exact (of_decide_eq_true (List.mem_filter.mp hb).2).le
      have hlt : f a < f x := not_le.mp h
      refine ⟨before, _, orderedInsert_after hle hlt, ?_, ?_⟩
      · rw [List.filter_cons_of_neg (by simpa using hlt)]
        exact hbefore
      · rw [List.filter_cons_of_pos (by simpa using hlt)]
        exact (List.perm_orderedInsert _ x after).trans (hafter.cons x)

/-- What comes after `a` by `f`, and by `g` where `f` does not tell. -/
theorem perm_filter_lex {γ : Type} [LinearOrder γ] (f : α → β) (g : α → γ) (l : List α) (a : α) :
    ((l.filter fun b => g b ≤ g a).filter (fun b => f a < f b) ++
      (l.filter fun b => g a < g b).filter fun b => f a ≤ f b).Perm
      (l.filter fun b => f a < f b ∨ f b = f a ∧ g a < g b) := by
  have hsplit := List.filter_append_perm (fun b => decide (g b ≤ g a))
    (l.filter fun b => f a < f b ∨ f b = f a ∧ g a < g b)
  rw [List.filter_filter, List.filter_filter] at hsplit ⊢
  refine List.Perm.trans (.of_eq ?_) hsplit
  congr 1 <;> apply List.filter_congr <;> intro b _ <;> rw [Bool.eq_iff_iff]
  · simp only [Bool.and_eq_true, decide_eq_true_eq]
    constructor
    · exact fun h => ⟨h.2, .inl h.1⟩
    · rintro ⟨hg, hf | ⟨-, hlt⟩⟩
      · exact ⟨hf, hg⟩
      · exact absurd hg (not_le.mpr hlt)
  · simp only [Bool.and_eq_true, Bool.not_eq_true', decide_eq_true_eq, decide_eq_false_iff_not,
      not_le]
    constructor
    · rintro ⟨hf, hg⟩
      rcases hf.lt_or_eq with hlt | heq
      · exact ⟨hg, .inl hlt⟩
      · exact ⟨hg, .inr ⟨heq.symm, hg⟩⟩
    · rintro ⟨hg, hf | ⟨heq, -⟩⟩
      · exact ⟨hf.le, hg⟩
      · exact ⟨heq.symm.le, hg⟩

end

end Store
