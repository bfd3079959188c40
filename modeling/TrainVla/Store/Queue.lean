import TrainVla.Store.Table
import Mathlib.Data.List.Basic

/-! The rows of a table that satisfy a predicate, as a queue in the order of insertion. Rows
leave the queue and new ones are appended, but none overtakes another. -/
namespace Store

/-- In a list without repetitions, leaving out other elements only brings an element forward. -/
theorem idxOf_le_of_sublist {α : Type} [DecidableEq α] {l l' : List α} {a : α} (h : l'.Sublist l)
    (hl : l.Nodup) (ha : a ∈ l') : l'.idxOf a ≤ l.idxOf a := by
  induction h with
  | slnil => exact Nat.le_refl _
  | @cons l' l b h ih =>
    obtain ⟨hb, hl⟩ := List.nodup_cons.mp hl
    have hne : b ≠ a := by
      rintro rfl
      exact hb (h.subset ha)
    have hle := ih hl ha
    rw [List.idxOf_cons_ne l hne]
    omega
  | @cons_cons l' l b h ih =>
    obtain ⟨-, hl⟩ := List.nodup_cons.mp hl
    by_cases hba : b = a
    · rw [List.idxOf_cons_eq l' hba]
      omega
    · have ha' : a ∈ l' := by
        rcases List.mem_cons.mp ha with rfl | ha
        · exact absurd rfl hba
        · exact ha
      have hle := ih hl ha'
      rw [List.idxOf_cons_ne l' hba, List.idxOf_cons_ne l hba]
      omega

namespace Table

variable {α κ : Type} {key : α → κ}

def queue (t : Table α κ key) (p : α → Bool) : List α := t.rows.filter p

theorem mem_queue {t : Table α κ key} {p : α → Bool} {a : α} :
    a ∈ t.queue p ↔ a ∈ t ∧ p a = true := List.mem_filter

def queueKeys (t : Table α κ key) (p : α → Bool) : List κ := (t.queue p).map key

theorem queueKeys_nodup (t : Table α κ key) (p : α → Bool) : (t.queueKeys p).Nodup :=
  t.nodup.sublist (List.filter_sublist.map key)

theorem mem_queueKeys {t : Table α κ key} {p : α → Bool} {k : κ} :
    k ∈ t.queueKeys p ↔ ∃ a ∈ t, p a = true ∧ key a = k := by
  unfold queueKeys
  rw [List.mem_map]
  constructor
  · rintro ⟨a, ha, rfl⟩
    obtain ⟨hmem, hp⟩ := mem_queue.mp ha
    exact ⟨a, hmem, hp, rfl⟩
  · rintro ⟨a, hmem, hp, rfl⟩
    exact ⟨a, mem_queue.mpr ⟨hmem, hp⟩, rfl⟩

/-- The place of a row is the place of its key. -/
theorem getElem?_queueKeys {t : Table α κ key} {p : α → Bool} {a : α} {i : ℕ} (ha : a ∈ t) :
    (t.queueKeys p)[i]? = some (key a) ↔ (t.queue p)[i]? = some a := by
  unfold queueKeys
  rw [List.getElem?_map, Option.map_eq_some_iff]
  constructor
  · rintro ⟨b, hb, hk⟩
    have hmem := (mem_queue.mp (List.mem_of_getElem? hb)).1
    rw [hb, eq_of_key_eq hmem ha hk]
  · intro h
    exact ⟨a, h, rfl⟩

variable [DecidableEq κ]

theorem queueKeys_put_fresh {t : Table α κ key} {a : α} (p : α → Bool)
    (h : t.get? (key a) = none) :
    (t.put a).queueKeys p = t.queueKeys p ++ ([a].filter p).map key := by
  unfold queueKeys queue
  rw [rows_put_of_fresh h, List.filter_append, List.map_append]

/-- A row that is overwritten by one that does not queue leaves the queue. -/
theorem queue_put_of_not {t : Table α κ key} {a b : α} {p : α → Bool}
    (hb : t.get? (key a) = some b) (hp : p a = false) :
    (t.put a).queue p = (t.queue p).filter fun c => key c ≠ key a := by
  unfold queue
  rw [rows_put_of_mem (mem_of_get? hb) (key_of_get? hb), List.filter_filter]
  induction t.rows with
  | nil => rfl
  | cons c rows ih =>
    rw [List.map_cons, List.filter_cons, List.filter_cons]
    by_cases hk : key c = key a
    · simpa [hk, hp] using ih
    · cases hc : p c with
      | true => simpa [hk, hc] using ih
      | false => simpa [hk, hc] using ih

theorem queueKeys_put_of_not {t : Table α κ key} {a b : α} {p : α → Bool}
    (hb : t.get? (key a) = some b) (hp : p a = false) :
    (t.put a).queueKeys p = (t.queueKeys p).filter (· ≠ key a) := by
  unfold queueKeys
  rw [queue_put_of_not hb hp, List.filter_map]
  rfl

/-- A row that is overwritten by one that queues as little or as much keeps its place. -/
theorem queueKeys_put_of_same {t : Table α κ key} {a b : α} {p : α → Bool}
    (hb : t.get? (key a) = some b) (hp : p a = p b) : (t.put a).queueKeys p = t.queueKeys p := by
  have hrow : ∀ c ∈ t.rows, key c = key a → p c = p a := by
    intro c hc hk
    rw [eq_of_key_eq hc (mem_of_get? hb) (hk.trans (key_of_get? hb).symm), hp]
  unfold queueKeys queue
  rw [rows_put_of_mem (mem_of_get? hb) (key_of_get? hb)]
  generalize t.rows = rows at hrow ⊢
  induction rows with
  | nil => rfl
  | cons c rows ih =>
    rw [List.forall_mem_cons] at hrow
    have hrest := ih hrow.2
    rw [List.map_cons, List.filter_cons, List.filter_cons]
    by_cases hk : key c = key a
    · rw [if_pos hk, hrow.1 hk]
      split
      · rw [List.map_cons, List.map_cons, hrest, hk]
      · exact hrest
    · rw [if_neg hk]
      split
      · rw [List.map_cons, List.map_cons, hrest]
      · exact hrest

/-- A row that is overwritten keeps its place or leaves the queue. -/
theorem queueKeys_put_sublist {t : Table α κ key} {a b : α} {p : α → Bool}
    (hb : t.get? (key a) = some b) (hp : p a = true → p b = true) :
    ((t.put a).queueKeys p).Sublist (t.queueKeys p) := by
  have hrow : ∀ c ∈ t.rows, key c = key a → p a = true → p c = true := by
    intro c hc hk
    rw [eq_of_key_eq hc (mem_of_get? hb) (hk.trans (key_of_get? hb).symm)]
    exact hp
  unfold queueKeys queue
  rw [rows_put_of_mem (mem_of_get? hb) (key_of_get? hb)]
  generalize t.rows = rows at hrow ⊢
  induction rows with
  | nil => exact .slnil
  | cons c rows ih =>
    rw [List.forall_mem_cons] at hrow
    have hrest := ih hrow.2
    rw [List.map_cons, List.filter_cons, List.filter_cons]
    by_cases hk : key c = key a
    · rw [if_pos hk]
      cases hpa : p a with
      | true =>
        rw [hrow.1 hk hpa, if_pos rfl, if_pos rfl, List.map_cons, List.map_cons, hk]
        exact hrest.cons_cons _
      | false =>
        rw [if_neg (by simp)]
        split
        · exact hrest.trans (List.sublist_cons_self _ _)
        · exact hrest
    · rw [if_neg hk]
      split
      · exact hrest.cons_cons _
      · exact hrest

/-- Between the two tables no row was dropped, and the queue lost some of its members and
gained new ones at its end. -/
def Advances (p : α → Bool) (before after : Table α κ key) : Prop :=
  (∀ k, after.get? k = none → before.get? k = none) ∧
    ∃ kept added, after.queueKeys p = kept ++ added ∧ kept.Sublist (before.queueKeys p) ∧
      ∀ k ∈ added, before.get? k = none

namespace Advances

variable {p : α → Bool} {t t' : Table α κ key}

theorem rfl : Advances p t t :=
  ⟨fun _ => id, t.queueKeys p, [], (List.append_nil _).symm, .refl _, by simp⟩

theorem put_fresh (h : Advances p t t') {a : α} (ha : t'.get? (key a) = none) :
    Advances p t (t'.put a) := by
  obtain ⟨hkeys, kept, added, hqueue, hkept, hadded⟩ := h
  refine ⟨fun k hk => ?_, kept, added ++ ([a].filter p).map key, ?_, hkept, fun k hk => ?_⟩
  · rw [get?_put] at hk
    split at hk
    · cases hk
    · exact hkeys k hk
  · rw [queueKeys_put_fresh p ha, hqueue, List.append_assoc]
  · rcases List.mem_append.mp hk with hk | hk
    · exact hadded k hk
    · obtain ⟨b, hb, rfl⟩ := List.mem_map.mp hk
      obtain rfl := List.mem_singleton.mp (List.mem_filter.mp hb).1
      exact hkeys _ ha

theorem put (h : Advances p t t') {a b : α} (hb : t'.get? (key a) = some b)
    (hp : p a = true → p b = true) : Advances p t (t'.put a) := by
  obtain ⟨hkeys, kept, added, hqueue, hkept, hadded⟩ := h
  have hsub := queueKeys_put_sublist hb hp
  rw [hqueue, List.sublist_append_iff] at hsub
  obtain ⟨kept', added', hqueue', hkept', hadded'⟩ := hsub
  refine ⟨fun k hk => ?_, kept', added', hqueue', hkept'.trans hkept,
    fun k hk => hadded k (hadded'.subset hk)⟩
  rw [get?_put] at hk
  split at hk
  · cases hk
  · exact hkeys k hk

/-- Whoever stays in the queue never falls back. -/
theorem idxOf_le (h : Advances p t t') {k : κ} (hk : k ∈ t.queueKeys p)
    (hk' : k ∈ t'.queueKeys p) : (t'.queueKeys p).idxOf k ≤ (t.queueKeys p).idxOf k := by
  obtain ⟨-, kept, added, hqueue, hkept, hadded⟩ := h
  have hstored : t.get? k ≠ none := by
    obtain ⟨a, ha, -, rfl⟩ := mem_queueKeys.mp hk
    rw [get?_of_mem ha]
    exact nofun
  have hmem : k ∈ kept := by
    rw [hqueue] at hk'
    rcases List.mem_append.mp hk' with hk' | hk'
    · exact hk'
    · exact absurd (hadded k hk') hstored
  rw [hqueue, List.idxOf_append_of_mem hmem]
  exact idxOf_le_of_sublist hkept (t.queueKeys_nodup p) hmem

end Advances

end Table

end Store
