import TrainVla.Store.Table

/-! A table that holds the encoded rows of another one, and what is read back from it. -/
namespace Store

variable {α β κ : Type} {key : α → κ} {docKey : β → κ}

/-- The rows of `u` are those of `t`, encoded, in the same order. -/
def Encodes (encode : α → β) (t : Table α κ key) (u : Table β κ docKey) : Prop :=
  u.rows = t.rows.map encode

theorem Encodes.empty (encode : α → β) :
    Encodes encode (Table.empty : Table α κ key) (Table.empty : Table β κ docKey) := rfl

/-- Decoding each of the encoded rows gives the rows again. -/
theorem mapM_encoded {ε : Type} {encode : α → β} {decode : β → Except ε α}
    (h : ∀ a, decode (encode a) = .ok a) (rows : List α) :
    (rows.map encode).mapM decode = .ok rows := by
  induction rows with
  | nil => rfl
  | cons a rows ih =>
    rw [List.map_cons, List.mapM_cons, h a, ih]
    rfl

section

variable [DecidableEq κ] {encode : α → β} (hkey : ∀ a, docKey (encode a) = key a)
include hkey

theorem putRows_encoded (rows : List α) (a : α) :
    Table.putRows docKey (rows.map encode) (encode a) = (Table.putRows key rows a).map encode := by
  have hkeys : (rows.map encode).map docKey = rows.map key := by
    rw [List.map_map]
    exact List.map_congr_left fun b _ => hkey b
  unfold Table.putRows
  rw [hkeys, hkey]
  by_cases h : key a ∈ rows.map key
  · rw [if_pos h, if_pos h, List.map_map, List.map_map]
    apply List.map_congr_left
    intro b _
    simp only [Function.comp_apply, hkey, apply_ite encode]
  · rw [if_neg h, if_neg h, List.map_append, List.map_singleton]

namespace Encodes

variable {t : Table α κ key} {u : Table β κ docKey}

theorem put (h : Encodes encode t u) (a : α) : Encodes encode (t.put a) (u.put (encode a)) := by
  unfold Encodes at h
  have hput := putRows_encoded hkey t.rows a
  rw [← h] at hput
  exact hput

theorem get? (h : Encodes encode t u) (k : κ) : u.get? k = (t.get? k).map encode := by
  unfold Encodes at h
  unfold Table.get?
  rw [h, List.find?_map]
  simp only [Function.comp_def, hkey]

end Encodes

end

end Store
