import TrainVla.Common.Validation

/-! The check against decompression bombs is exact, whatever the order of the entries. -/
namespace TrainVla

/-- The whole archive is within each of the limits. -/
structure WithinBombLimits (limits : ValidationLimits) (entries : List ZipEntryMeta) : Prop where
  count : (entries.length : ℤ) ≤ limits.maxFileCount
  single : ∀ entry ∈ entries, entry.uncompressedSize ≤ limits.maxSingleFileBytes
  total : (entries.map ZipEntryMeta.uncompressedSize).sum ≤ limits.maxTotalUncompressedBytes

namespace DecompressionBomb

variable {limits : ValidationLimits} {entries kept : List ZipEntryMeta}

theorem ok_iff (hlimit : 0 ≤ limits.maxTotalUncompressedBytes)
    (hsizes : ∀ entry ∈ entries, 0 ≤ entry.uncompressedSize) :
    (checkDecompressionBomb entries limits).ok = true ↔ WithinBombLimits limits entries := by
  rw [checkDecompressionBomb_ok hsizes (.inr hlimit)]
  constructor
  · rintro ⟨hcount, hsingle, htotal⟩
    exact ⟨hcount, hsingle, htotal⟩
  · intro h
    exact ⟨h.count, h.single, h.total⟩

/-- Fewer entries, in any order, stay within the limits. -/
theorem withinBombLimits_of_subperm (hsizes : ∀ entry ∈ entries, 0 ≤ entry.uncompressedSize)
    (hkept : kept.Subperm entries) (h : WithinBombLimits limits entries) :
    WithinBombLimits limits kept := by
  obtain ⟨sub, hperm, hsub⟩ := hkept
  have hlength : kept.length ≤ entries.length := by
    rw [← hperm.length_eq]
    exact hsub.length_le
  have hsum : (kept.map ZipEntryMeta.uncompressedSize).sum ≤
      (entries.map ZipEntryMeta.uncompressedSize).sum := by
    rw [← (hperm.map ZipEntryMeta.uncompressedSize).sum_eq]
    apply (hsub.map ZipEntryMeta.uncompressedSize).sum_le_sum
    intro size hsize
    obtain ⟨entry, hentry, rfl⟩ := List.mem_map.mp hsize
    exact hsizes entry hentry
  have hcount := h.count
  have htotal := h.total
  constructor
  case count => omega
  case single =>
    intro entry hentry
    exact h.single entry (hsub.subset (hperm.mem_iff.mpr hentry))
  case total => omega

end DecompressionBomb

/-- The check passes if and only if the archive is within the limits. So the order of the entries
does not matter, and an archive that passes still does when entries are removed. -/
theorem decompression_bomb_exact (limits : ValidationLimits) (entries : List ZipEntryMeta)
    (hlimit : 0 ≤ limits.maxTotalUncompressedBytes)
    (hsizes : ∀ entry ∈ entries, 0 ≤ entry.uncompressedSize) :
    ((checkDecompressionBomb entries limits).ok = true ↔ WithinBombLimits limits entries) ∧
      (∀ other : List ZipEntryMeta, other.Perm entries →
        (checkDecompressionBomb other limits).ok = (checkDecompressionBomb entries limits).ok) ∧
      ∀ kept : List ZipEntryMeta, kept.Subperm entries →
        (checkDecompressionBomb entries limits).ok = true →
        (checkDecompressionBomb kept limits).ok = true := by
  have hok := DecompressionBomb.ok_iff hlimit hsizes
  have hfewer : ∀ kept : List ZipEntryMeta, kept.Subperm entries →
      ∀ entry ∈ kept, 0 ≤ entry.uncompressedSize :=
    fun kept hkept entry hentry => hsizes entry (hkept.subset hentry)
  refine ⟨hok, ?_, ?_⟩
  · intro other hperm
    have hother := DecompressionBomb.ok_iff hlimit (hfewer other hperm.subperm)
    rw [Bool.eq_iff_iff, hother, hok]
    constructor
    · exact DecompressionBomb.withinBombLimits_of_subperm (hfewer other hperm.subperm)
        hperm.symm.subperm
    · exact DecompressionBomb.withinBombLimits_of_subperm hsizes hperm.subperm
  · intro kept hkept hpass
    rw [DecompressionBomb.ok_iff hlimit (hfewer kept hkept)]
    exact DecompressionBomb.withinBombLimits_of_subperm hsizes hkept (hok.mp hpass)

/-- An archive of two files that reach the limit on the total together. -/
theorem decompression_bomb_exact_reached :
    (checkDecompressionBomb [⟨"meta/info.json", 1⟩, ⟨"data/chunk", 2⟩]
      { maxTotalUncompressedBytes := 3, maxSingleFileBytes := 2, maxFileCount := 2 }).ok = true := by
  have hsizes : ∀ entry ∈ [ZipEntryMeta.mk "meta/info.json" 1, ⟨"data/chunk", 2⟩],
      0 ≤ entry.uncompressedSize := by
    simp
  obtain ⟨hok, -, -⟩ := decompression_bomb_exact
    { maxTotalUncompressedBytes := 3, maxSingleFileBytes := 2, maxFileCount := 2 }
    [⟨"meta/info.json", 1⟩, ⟨"data/chunk", 2⟩] (by decide) hsizes
  apply hok.mpr
  constructor <;> simp

end TrainVla
