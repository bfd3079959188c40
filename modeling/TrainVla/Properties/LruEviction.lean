import TrainVla.Properties.CacheEviction

/-! The eviction removes the entries that were not used for the longest time, and no more of them
than it must. -/
namespace TrainVla

open Interaction Store DiskManager DatasetFetcher

/-- The entries of the cache, in the order of the listing. -/
def cacheEntries (order : List String) (w : World) : List CacheEntry :=
  (listed order w).map cacheEntry

def totalBytes (entries : List CacheEntry) : ℕ := (entries.map CacheEntry.sizeBytes).sum

/-- What an eviction does to the cache. `gone` and `left` are the entries, oldest first. -/
structure EvictedExactly (order : List String) (maxBytes : ℤ) (w w' : World) (removed : List String)
    (gone left : List CacheEntry) : Prop where
  entries : (gone ++ left).Perm (cacheEntries order w)
  oldest : (gone ++ left).Pairwise (Precedes CacheEntry.mtime (cacheEntries order w))
  removed_eq : removed = gone.map CacheEntry.name
  left_entries : (cacheEntries order w').Perm left
  enough : totalBytes left ≤ maxBytes
  needed : ∀ front last, gone = front ++ [last] → maxBytes < last.sizeBytes + totalBytes left
  rows : w'.cache.rows = w.cache.rows.filter fun child => child.name ∉ removed
  others : ∀ child ∈ w.cache, child ∉ listed order w → child.name ∉ removed ∧ child ∈ w'.cache
  frame : w' = { w with cache := w'.cache }

namespace LruEviction

/-- The loop removes a prefix: after it the rest fits, and before its last step it did not. -/
theorem evicted_split {maxBytes : ℤ} (hmax : 0 ≤ maxBytes) (entries : List CacheEntry) :
    ∃ gone left, entries = gone ++ left ∧
      evicted maxBytes (totalBytes entries) entries = gone.map CacheEntry.name ∧
      totalBytes left ≤ maxBytes ∧
      ∀ front last, gone = front ++ [last] → maxBytes < last.sizeBytes + totalBytes left := by
  induction entries with
  | nil =>
    refine ⟨[], [], rfl, rfl, hmax, ?_⟩
    intro front last h
    exact absurd h (List.append_ne_nil_of_right_ne_nil front (List.cons_ne_nil last [])).symm
  | cons entry entries ih =>
    have htotal : totalBytes (entry :: entries) = entry.sizeBytes + totalBytes entries :=
      List.sum_cons
    by_cases hfits : (totalBytes (entry :: entries) : ℤ) ≤ maxBytes
    · refine ⟨[], entry :: entries, rfl, ?_, hfits, ?_⟩
      · rw [evicted, if_pos hfits]
        rfl
      · intro front last h
        exact absurd h (List.append_ne_nil_of_right_ne_nil front (List.cons_ne_nil last [])).symm
    · obtain ⟨gone, left, hsplit, hevicted, henough, hneeded⟩ := ih
      have hrest : (totalBytes (entry :: entries) : ℤ) - entry.sizeBytes = totalBytes entries := by
        omega
      refine ⟨entry :: gone, left, by rw [hsplit]; rfl, ?_, henough, ?_⟩
      · rw [evicted, if_neg hfits, hrest, hevicted]
        rfl
      · intro front last h
        cases front with
        | nil =>
          -- the only entry that goes: without it, the rest is all that is left
          obtain ⟨rfl, rfl⟩ := List.cons.inj h
          have hsame : totalBytes entries = totalBytes left := congrArg totalBytes hsplit
          omega
        | cons first front =>
          obtain ⟨rfl, hgone⟩ := List.cons.inj h
          exact hneeded front last hgone

theorem evicted_of_fits {maxBytes total : ℤ} (h : total ≤ maxBytes) (entries : List CacheEntry) :
    evicted maxBytes total entries = [] := by
  cases entries with
  | nil => rfl
  | cons entry entries => rw [evicted, if_pos h]

theorem rows_without (w : World) (names : List String) :
    (without w names).cache.rows = w.cache.rows.filter fun child => child.name ∉ names := by
  unfold without
  dsimp only
  generalize w.cache = cache
  induction names generalizing cache with
  | nil => simp
  | cons name names ih =>
    have herase : (cache.erase name).rows = cache.rows.filter fun child => child.name ≠ name := rfl
    rw [List.foldl_cons, ih, herase, List.filter_filter]
    apply List.filter_congr
    intro child _
    simp [Bool.and_comm]

theorem cacheEntries_without (order : List String) (w : World) (names : List String) :
    (cacheEntries order (without w names)).Perm
      ((cacheEntries order w).filter fun entry => entry.name ∉ names) := by
  have hlisting : ((without w names).listing order).Perm
      ((w.listing order).filter fun child => child.name ∉ names) := by
    apply List.Perm.trans (List.perm_insertionSort _ _)
    rw [rows_without]
    exact (List.perm_insertionSort _ _).symm.filter _
  unfold cacheEntries listed
  rw [List.filter_map, List.filter_comm]
  exact (hlisting.filter _).map cacheEntry

/-- Another listing shows the same entries. -/
theorem perm_cacheEntries (order order' : List String) (w : World) :
    (cacheEntries order w).Perm (cacheEntries order' w) := by
  have hlisting : (w.listing order).Perm (w.listing order') :=
    (List.perm_insertionSort _ _).trans (List.perm_insertionSort _ _).symm
  exact (hlisting.filter _).map cacheEntry

theorem nodup_cacheEntries (order : List String) (w : World) :
    ((cacheEntries order w).map CacheEntry.name).Nodup := by
  have hperm : (entriesOf order w).Perm (cacheEntries order w) := List.perm_insertionSort _ _
  exact (hperm.map CacheEntry.name).nodup_iff.mp (nodup_entriesOf order w)

/-- Without the names of the first part, the second part is left. -/
theorem filter_append_right {gone left : List CacheEntry}
    (h : ((gone ++ left).map CacheEntry.name).Nodup) :
    (gone ++ left).filter (fun entry => entry.name ∉ gone.map CacheEntry.name) = left := by
  rw [List.map_append, List.nodup_append] at h
  rw [List.filter_append]
  have hgone : gone.filter (fun entry => entry.name ∉ gone.map CacheEntry.name) = [] := by
    rw [List.filter_eq_nil_iff]
    intro entry hentry
    simpa using ⟨entry, hentry, rfl⟩
  have hleft : left.filter (fun entry => entry.name ∉ gone.map CacheEntry.name) = left := by
    rw [List.filter_eq_self]
    intro entry hentry
    apply decide_eq_true
    intro hmem
    exact h.2.2 _ hmem _ (List.mem_map_of_mem hentry) rfl
  rw [hgone, hleft, List.nil_append]

theorem evictedExactly {maxBytes : ℤ} (hmax : 0 ≤ maxBytes) (order : List String) (w : World) :
    ∃ gone left, EvictedExactly order maxBytes w (without w (evictedFrom order maxBytes w))
      (evictedFrom order maxBytes w) gone left := by
  obtain ⟨gone, left, hsplit, hremoved, henough, hneeded⟩ := evicted_split hmax (entriesOf order w)
  have hevicted : evictedFrom order maxBytes w = gone.map CacheEntry.name := hremoved
  have hperm : (gone ++ left).Perm (cacheEntries order w) := by
    rw [← hsplit]
    exact List.perm_insertionSort _ _
  have hnodup : ((gone ++ left).map CacheEntry.name).Nodup :=
    (hperm.map CacheEntry.name).nodup_iff.mpr (nodup_cacheEntries order w)
  refine ⟨gone, left, ?_⟩
  constructor
  case entries => exact hperm
  case oldest =>
    rw [← hsplit]
    exact pairwise_precedes CacheEntry.mtime (cacheEntries order w)
  case removed_eq => exact hevicted
  case left_entries =>
    have hfilter := hperm.filter fun entry => entry.name ∉ gone.map CacheEntry.name
    rw [filter_append_right hnodup] at hfilter
    rw [hevicted]
    exact (cacheEntries_without order w _).trans hfilter.symm
  case enough => exact henough
  case needed => exact hneeded
  case rows => exact rows_without w _
  case others =>
    intro child hchild hunlisted
    have hspared : child.name ∉ evictedFrom order maxBytes w := by
      rw [hevicted]
      intro hmem
      obtain ⟨entry, hentry, hname⟩ := List.mem_map.mp hmem
      have hlisted : entry ∈ cacheEntries order w :=
        hperm.mem_iff.mp (List.mem_append_left left hentry)
      obtain ⟨other, hother, rfl⟩ := List.mem_map.mp hlisted
      have hsame : other = child := Table.eq_of_key_eq (mem_listed.mp hother).1 hchild hname
      rw [hsame] at hother
      exact hunlisted hother
    refine ⟨hspared, ?_⟩
    rw [Table.mem_def, rows_without, List.mem_filter]
    exact ⟨hchild, decide_eq_true hspared⟩
  case frame => rfl

/-- Where the entries fit, an eviction changes nothing. -/
theorem evalsTo_evict_of_fits {maxBytes : ℤ} {w : World} (xs : ℕ → Choice)
    (hlist : (xs 0).fault = none) (h : totalBytes (cacheEntries (xs 0).order w) ≤ maxBytes) :
    ∃ t ys, EvalsTo (World.exec false) xs w (evictLruUntilUnderCap maxBytes) t (.ok []) w ys := by
  obtain ⟨t, ys, hrun, -⟩ := evalsTo_evict xs w maxBytes hlist
  have hperm : (entriesOf (xs 0).order w).Perm (cacheEntries (xs 0).order w) := List.perm_insertionSort _ _
  have hsum : ((entriesOf (xs 0).order w).map CacheEntry.sizeBytes).sum = totalBytes (cacheEntries (xs 0).order w) :=
    (hperm.map CacheEntry.sizeBytes).sum_eq
  have hnone : evictedFrom (xs 0).order maxBytes w = [] := by
    unfold evictedFrom
    rw [hsum]
    exact evicted_of_fits h (entriesOf (xs 0).order w)
  rw [hnone] at hrun
  exact ⟨t, ys, hrun⟩

/-- Two datasets of the same age, beside an unfinished download and a plain file. -/
def crowded : World :=
  { cache := Table.empty
      |>.put { name := "a", files := Table.empty.put ⟨"data", "a", [1, 2]⟩ }
      |>.put { name := "b.tmp", files := Table.empty.put ⟨"data", "b", [1, 2, 3]⟩ }
      |>.put { name := "c", files := Table.empty.put ⟨"data", "c", [1, 2]⟩ }
      |>.put { name := "d", isDir := false } }

end LruEviction

open LruEviction

/-- Whatever is in the cache: an eviction removes the oldest entries, as few as are enough, and a
second one removes nothing. -/
theorem lru_eviction_exact {maxBytes : ℤ} (hmax : 0 ≤ maxBytes) (w : World) (xs : ℕ → Choice)
    (hlist : (xs 0).fault = none) :
    ∃ removed w' gone left,
      eval (World.exec false) xs w (evictLruUntilUnderCap maxBytes) = some (.ok removed, w') ∧
      EvictedExactly (xs 0).order maxBytes w w' removed gone left ∧
      ∀ ys : ℕ → Choice, (ys 0).fault = none →
        eval (World.exec false) ys w' (evictLruUntilUnderCap maxBytes) = some (.ok [], w') := by
  obtain ⟨t, zs, hrun, -⟩ := evalsTo_evict xs w maxBytes hlist
  obtain ⟨gone, left, h⟩ := evictedExactly hmax (xs 0).order w
  refine ⟨_, _, gone, left, hrun.eval, h, ?_⟩
  intro ys hlist'
  have hfits : (totalBytes (cacheEntries (ys 0).order (without w (evictedFrom (xs 0).order maxBytes w))) : ℤ) ≤ maxBytes := by
    have hsum : totalBytes (cacheEntries (ys 0).order (without w (evictedFrom (xs 0).order maxBytes w))) = totalBytes left :=
      (((perm_cacheEntries _ _ _).trans h.left_entries).map CacheEntry.sizeBytes).sum_eq
    rw [hsum]
    exact h.enough
  obtain ⟨t', zs', hagain⟩ := evalsTo_evict_of_fits ys hlist' hfits
  exact hagain.eval

/-- The one that is listed first goes. -/
theorem lru_eviction_exact_crowded : ∃ w' gone left,
    EvictedExactly [] 2 crowded w' ["a"] gone left := by
  obtain ⟨removed, w', gone, left, heval, h, -⟩ := lru_eviction_exact (show (0 : ℤ) ≤ 2 by decide)
    crowded (fun _ => {}) rfl
  have hremoved : (eval (World.exec false) (fun _ => {}) crowded
      (evictLruUntilUnderCap 2)).map (fun out => out.1.toOption) = some (some ["a"]) := by rfl
  rw [heval] at hremoved
  obtain rfl := Option.some.inj (Option.some.inj hremoved)
  exact ⟨w', gone, left, h⟩

end TrainVla
