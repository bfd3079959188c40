import Mathlib.Data.List.Nodup

/-! Keyed tables that remember the order in which their keys first appeared, as the
dictionaries of many languages do: writing an existing key replaces in place. -/
namespace Store

/-- Rows with pairwise distinct keys, in order of first insertion. -/
structure Table (α κ : Type) (key : α → κ) where
  rows : List α
  nodup : (rows.map key).Nodup

namespace Table

variable {α κ : Type} {key : α → κ}

def empty : Table α κ key := ⟨[], List.nodup_nil⟩

instance : Inhabited (Table α κ key) := ⟨empty⟩

instance : Membership α (Table α κ key) := ⟨fun t a => a ∈ t.rows⟩

theorem mem_def {t : Table α κ key} {a : α} : a ∈ t ↔ a ∈ t.rows := Iff.rfl

@[simp] theorem not_mem_empty (a : α) : a ∉ (empty : Table α κ key) := by
  simp [mem_def, empty]

theorem eq_of_key_eq {t : Table α κ key} {a b : α} (ha : a ∈ t) (hb : b ∈ t)
    (h : key a = key b) : a = b :=
  List.inj_on_of_nodup_map t.nodup ha hb h

variable [DecidableEq κ]

def get? (t : Table α κ key) (k : κ) : Option α := t.rows.find? fun a => key a = k

def putRows (key : α → κ) (rows : List α) (a : α) : List α :=
  if key a ∈ rows.map key then rows.map fun b => if key b = key a then a else b
  else rows ++ [a]

theorem map_key_replace (rows : List α) (a : α) :
    (rows.map fun b => if key b = key a then a else b).map key = rows.map key := by
  rw [List.map_map]
  refine List.map_congr_left fun b _ => ?_
  by_cases h : key b = key a <;> simp [h]

theorem nodup_putRows {rows : List α} (h : (rows.map key).Nodup) (a : α) :
    ((putRows key rows a).map key).Nodup := by
  unfold putRows
  split
  · rwa [map_key_replace]
  · rename_i ha
    rw [List.map_append, List.nodup_append]
    exact ⟨h, by simp, by rintro k hk _ hb rfl; simp at hb; exact ha (hb ▸ hk)⟩

/-- Write a row under its key. -/
def put (t : Table α κ key) (a : α) : Table α κ key :=
  ⟨putRows key t.rows a, nodup_putRows t.nodup a⟩

def erase (t : Table α κ key) (k : κ) : Table α κ key :=
  ⟨t.rows.filter fun a => key a ≠ k, t.nodup.sublist (List.filter_sublist.map key)⟩

theorem get?_eq_some {t : Table α κ key} {k : κ} {a : α} :
    t.get? k = some a ↔ a ∈ t ∧ key a = k := by
  constructor
  · intro h
    exact ⟨List.mem_of_find?_eq_some h, by simpa using List.find?_some h⟩
  · rintro ⟨ha, rfl⟩
    cases hf : t.get? (key a) with
    | none =>
      have := List.find?_eq_none.mp hf a ha
      simp at this
    | some b =>
      have hb : b ∈ t := List.mem_of_find?_eq_some hf
      have hk : key b = key a := by simpa using List.find?_some hf
      rw [eq_of_key_eq hb ha hk]

theorem get?_eq_none {t : Table α κ key} {k : κ} : t.get? k = none ↔ ∀ a ∈ t, key a ≠ k := by
  unfold get?
  rw [List.find?_eq_none]
  simp [mem_def]

theorem mem_of_get? {t : Table α κ key} {k : κ} {a : α} (h : t.get? k = some a) : a ∈ t :=
  (get?_eq_some.mp h).1

theorem key_of_get? {t : Table α κ key} {k : κ} {a : α} (h : t.get? k = some a) : key a = k :=
  (get?_eq_some.mp h).2

theorem key_getD {t : Table α κ key} {k : κ} {a : α} (h : key a = k) :
    key ((t.get? k).getD a) = k := by
  cases hget : t.get? k with
  | none => exact h
  | some b => exact key_of_get? hget

theorem get?_of_mem {t : Table α κ key} {a : α} (h : a ∈ t) : t.get? (key a) = some a :=
  get?_eq_some.mpr ⟨h, rfl⟩

@[simp] theorem get?_empty (k : κ) : (empty : Table α κ key).get? k = none := rfl

/-- The rows after a write to a key that is present. -/
theorem rows_put_of_mem {t : Table α κ key} {a b : α} (hb : b ∈ t) (h : key b = key a) :
    (t.put a).rows = t.rows.map fun c => if key c = key a then a else c := by
  have : key a ∈ t.rows.map key := List.mem_map.mpr ⟨b, hb, h⟩
  simp [put, putRows, this]

/-- The rows after a write to a fresh key. -/
theorem rows_put_of_fresh {t : Table α κ key} {a : α} (h : t.get? (key a) = none) :
    (t.put a).rows = t.rows ++ [a] := by
  have : key a ∉ t.rows.map key := by
    intro hm
    obtain ⟨b, hb, hk⟩ := List.mem_map.mp hm
    exact get?_eq_none.mp h b hb hk
  simp [put, putRows, this]

/-- A write that does not change `f` of its row does not change it anywhere. -/
theorem map_rows_put {β : Type} {t : Table α κ key} {a b : α} (f : α → β)
    (hb : t.get? (key a) = some b) (hf : f a = f b) : (t.put a).rows.map f = t.rows.map f := by
  have hmem := mem_of_get? hb
  have hk := key_of_get? hb
  rw [rows_put_of_mem hmem hk, List.map_map]
  refine List.map_congr_left fun c hc => ?_
  by_cases h : key c = key a
  · rw [Function.comp_apply, if_pos h, hf, eq_of_key_eq hc hmem (h.trans hk.symm)]
  · rw [Function.comp_apply, if_neg h]

theorem mem_put {t : Table α κ key} {a b : α} :
    b ∈ t.put a ↔ b = a ∨ b ∈ t ∧ key b ≠ key a := by
  by_cases h : key a ∈ t.rows.map key
  · obtain ⟨c, hc, hk⟩ := List.mem_map.mp h
    rw [mem_def, rows_put_of_mem hc hk, List.mem_map]
    constructor
    · rintro ⟨d, hd, rfl⟩
      by_cases hda : key d = key a
      · exact .inl (by rw [if_pos hda])
      · exact .inr ⟨by rwa [if_neg hda], by rwa [if_neg hda]⟩
    · rintro (rfl | ⟨hb, hne⟩)
      · exact ⟨c, hc, by rw [if_pos hk]⟩
      · exact ⟨b, hb, by rw [if_neg hne]⟩
  · have hf : t.get? (key a) = none :=
      get?_eq_none.mpr fun c hc hk => h (List.mem_map.mpr ⟨c, hc, hk⟩)
    rw [mem_def, rows_put_of_fresh hf, List.mem_append, List.mem_singleton]
    constructor
    · rintro (hb | rfl)
      · exact .inr ⟨hb, get?_eq_none.mp hf b hb⟩
      · exact .inl rfl
    · rintro (rfl | ⟨hb, -⟩)
      · exact .inr rfl
      · exact .inl hb

theorem mem_put_self (t : Table α κ key) (a : α) : a ∈ t.put a := mem_put.mpr (.inl rfl)

@[simp] theorem get?_put_self (t : Table α κ key) (a : α) : (t.put a).get? (key a) = some a :=
  get?_of_mem (mem_put_self t a)

theorem get?_put_of_ne {t : Table α κ key} {a : α} {k : κ} (h : k ≠ key a) :
    (t.put a).get? k = t.get? k := by
  cases hk : t.get? k with
  | none =>
    rw [get?_eq_none] at hk ⊢
    intro b hb
    rcases mem_put.mp hb with rfl | ⟨hb', -⟩
    · exact h.symm
    · exact hk b hb'
  | some b =>
    obtain ⟨hb, rfl⟩ := get?_eq_some.mp hk
    exact get?_eq_some.mpr ⟨mem_put.mpr (.inr ⟨hb, h⟩), rfl⟩

theorem get?_put (t : Table α κ key) (a : α) (k : κ) :
    (t.put a).get? k = if k = key a then some a else t.get? k := by
  by_cases h : k = key a
  · rw [if_pos h, h, get?_put_self]
  · rw [if_neg h, get?_put_of_ne h]

/-- A write removes nothing. -/
theorem isSome_get?_put {t : Table α κ key} {k : κ} (a : α) (h : (t.get? k).isSome = true) :
    ((t.put a).get? k).isSome = true := by
  rw [get?_put]
  split
  · rfl
  · exact h

theorem mem_erase {t : Table α κ key} {k : κ} {a : α} : a ∈ t.erase k ↔ a ∈ t ∧ key a ≠ k := by
  simp [mem_def, erase]

theorem get?_erase (t : Table α κ key) (k j : κ) :
    (t.erase k).get? j = if j = k then none else t.get? j := by
  by_cases h : j = k
  · rw [if_pos h, get?_eq_none]
    intro a ha
    rw [h]
    exact (mem_erase.mp ha).2
  · rw [if_neg h]
    cases hj : t.get? j with
    | none =>
      rw [get?_eq_none] at hj ⊢
      exact fun a ha => hj a (mem_erase.mp ha).1
    | some a =>
      obtain ⟨ha, rfl⟩ := get?_eq_some.mp hj
      exact get?_eq_some.mpr ⟨mem_erase.mpr ⟨ha, h⟩, rfl⟩

/-- A row that was written last leaves nothing behind when it is erased. -/
theorem rows_erase_put (t : Table α κ key) (a : α) :
    ((t.put a).erase (key a)).rows = t.rows.filter fun c => key c ≠ key a := by
  unfold erase
  dsimp only
  cases hget : t.get? (key a) with
  | none =>
    rw [rows_put_of_fresh hget, List.filter_append]
    simp
  | some b =>
    rw [rows_put_of_mem (mem_of_get? hget) (key_of_get? hget)]
    induction t.rows with
    | nil => rfl
    | cons c rows ih =>
      rw [List.map_cons, List.filter_cons, List.filter_cons, ih]
      by_cases hk : key c = key a
      · simp [hk]
      · simp [hk]

/-- Write several rows, one after the other. -/
def putAll (t : Table α κ key) (rows : List α) : Table α κ key := rows.foldl put t

theorem get?_putAll_of_notMem {t : Table α κ key} {rows : List α} {k : κ}
    (h : k ∉ rows.map key) : (t.putAll rows).get? k = t.get? k := by
  induction rows generalizing t with
  | nil => rfl
  | cons a rows ih =>
    rw [List.map_cons, List.mem_cons, not_or] at h
    have hrest : ((t.put a).putAll rows).get? k = (t.put a).get? k := ih h.2
    rw [get?_put, if_neg h.1] at hrest
    exact hrest

theorem get?_putAll_of_mem {t : Table α κ key} {rows : List α} {a : α}
    (hnodup : (rows.map key).Nodup) (h : a ∈ rows) : (t.putAll rows).get? (key a) = some a := by
  induction rows generalizing t with
  | nil => cases h
  | cons b rows ih =>
    rw [List.map_cons, List.nodup_cons] at hnodup
    rcases List.mem_cons.mp h with rfl | h
    · have hrest : ((t.put a).putAll rows).get? (key a) = (t.put a).get? (key a) :=
        get?_putAll_of_notMem hnodup.1
      rw [get?_put_self] at hrest
      exact hrest
    · exact ih (t := t.put b) hnodup.2 h

/-- Rewriting rows that are there keeps the order of the rows. -/
theorem rows_putAll {t : Table α κ key} {rows : List α} {f : α → α} (hkey : ∀ a, key (f a) = key a)
    (hmem : ∀ a ∈ rows, a ∈ t) (hnodup : (rows.map key).Nodup) :
    (t.putAll (rows.map f)).rows =
      t.rows.map fun b => if key b ∈ rows.map key then f b else b := by
  induction rows generalizing t with
  | nil =>
    have hsame : (fun b : α => if key b ∈ [].map key then f b else b) = id := by
      funext b
      simp
    rw [hsame, List.map_id]
    rfl
  | cons a rows ih =>
    rw [List.map_cons, List.nodup_cons] at hnodup
    rw [List.forall_mem_cons] at hmem
    have hstill : ∀ b ∈ rows, b ∈ t.put (f a) := by
      intro b hb
      refine mem_put.mpr (.inr ⟨hmem.2 b hb, ?_⟩)
      rw [hkey]
      intro heq
      exact hnodup.1 (heq ▸ List.mem_map_of_mem hb)
    have hrest : (t.putAll ((a :: rows).map f)).rows = _ := ih hstill hnodup.2
    rw [hrest, rows_put_of_mem hmem.1 (hkey a).symm, List.map_map]
    refine List.map_congr_left fun b hb => ?_
    rw [Function.comp_apply, hkey]
    by_cases hba : key b = key a
    · rw [eq_of_key_eq hb hmem.1 hba]
      simp [hkey, hnodup.1]
    · simp [hba]

end Table

end Store
