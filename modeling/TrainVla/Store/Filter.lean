import TrainVla.Store.Table

/-! The part of a table whose rows satisfy a condition. -/
namespace Store.Table

variable {α κ : Type} {key : α → κ}

theorem ext_rows {t u : Table α κ key} (h : t.rows = u.rows) : t = u := by
  cases t
  cases u
  congr

def filter (p : α → Bool) (t : Table α κ key) : Table α κ key where
  rows := t.rows.filter p
  nodup := t.nodup.sublist (List.filter_sublist.map key)

variable {p : α → Bool} {t : Table α κ key} {a : α}

theorem mem_filter : a ∈ t.filter p ↔ a ∈ t ∧ p a = true := by
  simp [filter, mem_def]

theorem find?_filter_of_imp {q : α → Bool} (h : ∀ a ∈ t, q a = true → p a = true) :
    (t.filter p).rows.find? q = t.rows.find? q := by
  have hsame : ∀ rows : List α, (∀ a ∈ rows, q a = true → p a = true) →
      (rows.filter p).find? q = rows.find? q := by
    intro rows
    induction rows with
    | nil => exact fun _ => rfl
    | cons a rows ih =>
      intro hrows
      have htail := ih fun b hb => hrows b (List.mem_cons_of_mem _ hb)
      by_cases hp : p a = true
      · rw [List.filter_cons_of_pos hp, List.find?_cons, List.find?_cons, htail]
      · have hq : q a = false := by
          have := hrows a (List.mem_cons_self ..)
          grind
        rw [List.filter_cons_of_neg hp, List.find?_cons, hq, htail]
  exact hsame t.rows h

variable [DecidableEq κ]

theorem get?_filter (k : κ) : (t.filter p).get? k = (t.get? k).filter p := by
  cases h : t.get? k with
  | none =>
    rw [Option.filter_none, get?_eq_none]
    intro b hb
    exact get?_eq_none.mp h b (mem_filter.mp hb).1
  | some a =>
    obtain ⟨ha, rfl⟩ := get?_eq_some.mp h
    by_cases hp : p a = true
    · rw [Option.filter_some, if_pos hp]
      exact get?_of_mem (mem_filter.mpr ⟨ha, hp⟩)
    · rw [Option.filter_some, if_neg hp, get?_eq_none]
      intro b hb heq
      obtain ⟨hmem, hpb⟩ := mem_filter.mp hb
      obtain rfl := eq_of_key_eq hmem ha heq
      exact hp hpb

/-- A write that replaces no row of the other side falls to the side of its own row. -/
theorem filter_put (h : ∀ b, t.get? (key a) = some b → p b = p a) :
    (t.put a).filter p = if p a = true then (t.filter p).put a else t.filter p := by
  cases hget : t.get? (key a) with
  | none =>
    have hpart : (t.filter p).get? (key a) = none := by
      rw [get?_filter, hget, Option.filter_none]
    apply ext_rows
    by_cases hp : p a = true
    · rw [if_pos hp, rows_put_of_fresh hpart]
      simp [filter, rows_put_of_fresh hget, hp]
    · rw [if_neg hp]
      simp [filter, rows_put_of_fresh hget, hp]
  | some b =>
    have hside := h b hget
    have hmem := mem_of_get? hget
    have hkey : key b = key a := key_of_get? hget
    have hrow : ∀ c ∈ t.rows, key c = key a → c = b := fun c hc heq =>
      eq_of_key_eq hc hmem (heq.trans hkey.symm)
    have hrows : ((t.put a).filter p).rows =
        (t.filter p).rows.map fun c => if key c = key a then a else c := by
      unfold filter
      dsimp only
      rw [rows_put_of_mem hmem hkey, List.filter_map]
      congr 1
      refine List.filter_congr fun c hc => ?_
      by_cases heq : key c = key a
      · rw [Function.comp_apply, if_pos heq, hrow c hc heq, hside]
      · rw [Function.comp_apply, if_neg heq]
    apply ext_rows
    rw [hrows]
    by_cases hp : p a = true
    · have hkept : b ∈ t.filter p := mem_filter.mpr ⟨hmem, hside.trans hp⟩
      rw [if_pos hp, rows_put_of_mem hkept hkey]
    · rw [if_neg hp]
      -- the row that is replaced is not in this part
      refine (List.map_congr_left fun c hc => ?_).trans (List.map_id _)
      rw [if_neg, id_eq]
      intro heq
      obtain ⟨hc, hpc⟩ := mem_filter.mp hc
      rw [hrow c hc heq, hside] at hpc
      exact hp hpc

end Store.Table
