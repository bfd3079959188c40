import TrainVla.System.FetchRun
import TrainVla.Properties.DatasetCache
import Mathlib.Algebra.Ring.Int.Defs
import Mathlib.Algebra.Order.Ring.Int

/-! The eviction after a download, and the dataset that was just downloaded. -/
namespace TrainVla

open Interaction Store DiskManager DatasetFetcher

/-- The staging directory after a download, with what was left in it before. -/
def staged (w : World) (mtime : ℤ) (repoId : String) (files : List (String × Bytes)) : CacheChild :=
  let child := (w.cache.get? (tmpNameFor repoId)).getD { name := tmpNameFor repoId }
  let written := files.foldl (fun kept file => kept.put ⟨file.1, repoId, file.2⟩) child.files
  { child with mtime := mtime, files := written }

def published (w : World) (mtime : ℤ) (repoId : String) (files : List (String × Bytes)) :
    CacheChild :=
  { staged w mtime repoId files with name := finalNameFor repoId }

/-- The size of the datasets that an eviction considers after a directory with this name and time:
those that were used later, and of the same time those that come later in the listing. -/
def usedSince (order : List String) (w : World) (mtime : ℤ) (name : String) : ℕ :=
  (((listed order w).filter fun child => mtime < child.mtime ∨
    child.mtime = mtime ∧ order.idxOf name < order.idxOf child.name).map directorySizeBytes).sum

/-- The download fits into the cache beside the datasets that are considered after it, or it is not
counted because its name looks like that of an unfinished one. -/
def Spared (order : List String) (maxBytes : ℤ) (w : World) (mtime : ℤ) (repoId : String)
    (files : List (String × Bytes)) : Prop :=
  endsWith (finalNameFor repoId) tmpSuffix = true ∨
    (directorySizeBytes (published w mtime repoId files) +
      usedSince order w mtime (finalNameFor repoId) : ℕ) ≤ maxBytes

/-- The fetch returns a directory that is there, with the files in it. -/
def StillThere (D : Deployment) (xs : ℕ → Choice) (w : World) (job : Job)
    (files : List (String × Bytes)) : Prop :=
  ∃ dataset w' child, eval (World.exec D.steady) xs w
      (fetchForJob D.lib D.settings job s!"{D.settings.workdir}/{job.id}") = some (.ok dataset, w') ∧
    dataset.inputDir = finalPathFor D.settings.hfCacheDir job.sourceRef ∧
    w'.cache.get? (finalNameFor job.sourceRef) = some child ∧ child.isDir = true ∧
    ∀ file ∈ downloadedFiles job.sourceRef files, file ∈ child.files

namespace CacheEviction

variable {w : World} {mtime : ℤ} {repoId : String} {files : List (String × Bytes)}

section

variable {maxBytes : ℤ} {before after : List CacheEntry} {entry : CacheEntry}

theorem evicted_subset (total : ℤ) (entries : List CacheEntry) :
    evicted maxBytes total entries ⊆ entries.map CacheEntry.name := by
  induction entries generalizing total with
  | nil => exact List.Subset.refl []
  | cons entry entries ih =>
    unfold evicted
    split
    · exact List.nil_subset _
    · exact List.cons_subset_cons entry.name (ih (total - entry.sizeBytes))

/-- An entry is removed if it does not fit beside those that come after it. -/
theorem mem_evicted_iff (h : entry.name ∉ before.map CacheEntry.name) :
    entry.name ∈ evicted maxBytes ((before ++ entry :: after).map CacheEntry.sizeBytes).sum
        (before ++ entry :: after) ↔
      maxBytes < (entry.sizeBytes + (after.map CacheEntry.sizeBytes).sum : ℕ) := by
  induction before with
  | nil =>
    rw [List.nil_append, List.map_cons, List.sum_cons]
    unfold evicted
    split
    · rename_i hfits
      simpa using hfits
    · rename_i hfull
      exact iff_of_true List.mem_cons_self (not_le.mp hfull)
  | cons first before ih =>
    rw [List.map_cons, List.mem_cons, not_or] at h
    have hrest := ih h.2
    have hsum : ((before ++ entry :: after).map CacheEntry.sizeBytes).sum =
        (before.map CacheEntry.sizeBytes).sum +
          (entry.sizeBytes + (after.map CacheEntry.sizeBytes).sum) := by
      rw [List.map_append, List.sum_append, List.map_cons, List.sum_cons]
    rw [List.cons_append, List.map_cons, List.sum_cons]
    unfold evicted
    split
    · rename_i hfits
      apply iff_of_false List.not_mem_nil
      rw [hsum] at hfits
      omega
    · have hleft : ((first.sizeBytes + ((before ++ entry :: after).map CacheEntry.sizeBytes).sum :
          ℕ) : ℤ) - first.sizeBytes =
          ((before ++ entry :: after).map CacheEntry.sizeBytes).sum := by omega
      rw [List.mem_cons, hleft, hrest]
      exact or_iff_right h.1

end

/-- The state when the download is published. -/
def afterPublish (w : World) (mtime : ℤ) (repoId : String) (files : List (String × Bytes)) : World :=
  let downloaded := (w.download mtime repoId (tmpNameFor repoId) files).record
    (.downloaded repoId files)
  { downloaded with
    cache := (downloaded.cache.erase (tmpNameFor repoId)).put (published w mtime repoId files) }

theorem staged_name : (staged w mtime repoId files).name = tmpNameFor repoId := by
  have hname : ((w.cache.get? (tmpNameFor repoId)).getD { name := tmpNameFor repoId }).name =
      tmpNameFor repoId := Table.key_getD rfl
  exact hname

theorem endsWith_tmpNameFor (repoId : String) : endsWith (tmpNameFor repoId) tmpSuffix = true := by
  unfold endsWith tmpNameFor
  rw [String.toList_append, List.isSuffixOf_iff_suffix]
  exact List.suffix_append _ _

theorem get?_without (w : World) (names : List String) (name : String) :
    (without w names).cache.get? name = if name ∈ names then none else w.cache.get? name := by
  unfold without
  dsimp only
  generalize w.cache = cache
  induction names generalizing cache with
  | nil => rfl
  | cons first names ih =>
    rw [List.foldl_cons, ih, Table.get?_erase]
    by_cases hrest : name ∈ names
    · rw [if_pos hrest, if_pos (List.mem_cons_of_mem _ hrest)]
    · rw [if_neg hrest]
      by_cases hfirst : name = first
      · rw [if_pos hfirst, if_pos (by rw [hfirst]; exact List.mem_cons_self)]
      · rw [if_neg hfirst, if_neg (by simp [hfirst, hrest])]

theorem isDir_published
    (h : ∀ child, w.cache.get? (tmpNameFor repoId) = some child → child.isDir = true) :
    (published w mtime repoId files).isDir = true := by
  unfold published staged
  cases hget : w.cache.get? (tmpNameFor repoId) with
  | none => rfl
  | some child => exact h child hget

theorem mem_published {file : CachedFile} (h : file ∈ downloadedFiles repoId files) :
    file ∈ (published w mtime repoId files).files :=
  DatasetCache.mem_write_of_downloaded _ h

/-- The published directory is the last row, and the staging directory is gone. -/
theorem rows_afterPublish (mtime : ℤ) (files : List (String × Bytes))
    (hmiss : w.cache.get? (finalNameFor repoId) = none) :
    (afterPublish w mtime repoId files).cache.rows =
      (w.cache.rows.filter fun child => child.name ≠ tmpNameFor repoId) ++
        [published w mtime repoId files] := by
  have hcache : (afterPublish w mtime repoId files).cache =
      ((w.cache.put (staged w mtime repoId files)).erase (tmpNameFor repoId)).put
        (published w mtime repoId files) := rfl
  have herased : ((w.cache.put (staged w mtime repoId files)).erase (tmpNameFor repoId)).rows =
      w.cache.rows.filter fun child => child.name ≠ tmpNameFor repoId := by
    have hrows := Table.rows_erase_put w.cache (staged w mtime repoId files)
    rw [staged_name] at hrows
    exact hrows
  have hfresh : ((w.cache.put (staged w mtime repoId files)).erase (tmpNameFor repoId)).get?
      (published w mtime repoId files).name = none := by
    apply Table.get?_eq_none.mpr
    intro child hchild
    rw [Table.mem_def, herased] at hchild
    exact Table.get?_eq_none.mp hmiss child (List.mem_filter.mp hchild).1
  rw [hcache, Table.rows_put_of_fresh hfresh, herased]

/-- An unfinished download is not counted. -/
theorem listed_staging (order : List String) (w : World) (repoId : String) :
    ((w.cache.rows.filter fun child => child.name ≠ tmpNameFor repoId).filter
      fun child => child.isDir && !endsWith child.name tmpSuffix).Perm (listed order w) := by
  have hkept : (w.cache.rows.filter fun child => child.name ≠ tmpNameFor repoId).filter
      (fun child => child.isDir && !endsWith child.name tmpSuffix) =
        w.cache.rows.filter fun child => child.isDir && !endsWith child.name tmpSuffix := by
    rw [List.filter_filter]
    apply List.filter_congr
    intro child _
    by_cases htmp : child.name = tmpNameFor repoId
    · rw [htmp, endsWith_tmpNameFor]
      simp
    · simp [htmp]
  rw [hkept]
  exact ((List.perm_insertionSort _ _).filter _).symm

/-- The entries after the download, and what comes after the new one when they are sorted. -/
theorem entriesOf_afterPublish (order : List String) (mtime : ℤ) (files : List (String × Bytes))
    (hmiss : w.cache.get? (finalNameFor repoId) = none)
    (hstaging : ∀ child, w.cache.get? (tmpNameFor repoId) = some child → child.isDir = true)
    (htmp : endsWith (finalNameFor repoId) tmpSuffix = false) :
    ∃ before after, entriesOf order (afterPublish w mtime repoId files) =
        before ++ cacheEntry (published w mtime repoId files) :: after ∧
      (after.map CacheEntry.sizeBytes).sum = usedSince order w mtime (finalNameFor repoId) := by
  let new := published w mtime repoId files
  let others := w.cache.rows.filter fun child => child.name ≠ tmpNameFor repoId
  let counts : CacheChild → Bool := fun child => child.isDir && !endsWith child.name tmpSuffix
  have hcounts : counts new = true := by
    have hdir : new.isDir = true := isDir_published hstaging
    have hname : new.name = finalNameFor repoId := rfl
    simp [counts, hdir, hname, htmp]
  -- the listing, and then the sort by time
  obtain ⟨front, back, hlisting, hfront, hback⟩ :=
    insertionSort_split (fun child : CacheChild => order.idxOf child.name) others new []
  rw [List.filter_nil, List.append_nil] at hfront hback
  have hlisted : (listed order (afterPublish w mtime repoId files)).map cacheEntry =
      (front.filter counts).map cacheEntry ++ cacheEntry new :: (back.filter counts).map cacheEntry := by
    unfold listed World.listing
    rw [rows_afterPublish mtime files hmiss, hlisting, List.filter_append,
      List.filter_cons_of_pos hcounts, List.map_append, List.map_cons]
  obtain ⟨before, after, hsort, -, hafter⟩ := insertionSort_split CacheEntry.mtime
    ((front.filter counts).map cacheEntry) (cacheEntry new) ((back.filter counts).map cacheEntry)
  refine ⟨before, after, ?_, ?_⟩
  · unfold entriesOf
    rw [hlisted]
    exact hsort
  have hcomm : ∀ (p : CacheChild → Bool) (l : List CacheChild), l.Perm (others.filter p) →
      (l.filter counts).Perm ((others.filter counts).filter p) := by
    intro p l hl
    rw [List.filter_comm]
    exact hl.filter counts
  have hlater : after.Perm (((listed order w).filter fun child => mtime < child.mtime ∨
      child.mtime = mtime ∧ order.idxOf (finalNameFor repoId) < order.idxOf child.name).map
        cacheEntry) := by
    rw [List.filter_map, List.filter_map, ← List.map_append] at hafter
    apply hafter.trans
    apply List.Perm.map
    apply List.Perm.trans (((hcomm _ front hfront).filter _).append ((hcomm _ back hback).filter _))
    apply List.Perm.trans (perm_filter_lex CacheChild.mtime
      (fun child : CacheChild => order.idxOf child.name) (others.filter counts) new)
    exact (listed_staging order w repoId).filter _
  rw [(hlater.map CacheEntry.sizeBytes).sum_eq, List.map_map]
  rfl

/-- The download is removed at once unless there is room for it. -/
theorem mem_evictedFrom_iff {order : List String} {maxBytes : ℤ}
    (hmiss : w.cache.get? (finalNameFor repoId) = none)
    (hstaging : ∀ child, w.cache.get? (tmpNameFor repoId) = some child → child.isDir = true) :
    finalNameFor repoId ∈ evictedFrom order maxBytes (afterPublish w mtime repoId files) ↔
      ¬ Spared order maxBytes w mtime repoId files := by
  unfold evictedFrom
  cases htmp : endsWith (finalNameFor repoId) tmpSuffix with
  | true =>
    apply iff_of_false
    · intro hmem
      obtain ⟨entry, hentry, hid⟩ := List.mem_map.mp (evicted_subset _ _ hmem)
      rw [entriesOf, List.mem_insertionSort] at hentry
      obtain ⟨child, hchild, rfl⟩ := List.mem_map.mp hentry
      have hsame : child.name = finalNameFor repoId := hid
      have hcounted := (mem_listed.mp hchild).2.2
      rw [hsame, htmp] at hcounted
      cases hcounted
    · exact fun hnot => hnot (.inl htmp)
  | false =>
    obtain ⟨before, after, hsort, hsize⟩ :=
      entriesOf_afterPublish order mtime files hmiss hstaging htmp
    have hother : (cacheEntry (published w mtime repoId files)).name ∉
        before.map CacheEntry.name := by
      have hnodup := nodup_entriesOf order (afterPublish w mtime repoId files)
      rw [hsort, List.map_append, List.map_cons] at hnodup
      intro hmem
      exact (List.nodup_append.mp hnodup).2.2 _ hmem _ List.mem_cons_self rfl
    rw [hsort]
    apply (mem_evicted_iff hother).trans
    rw [hsize]
    unfold Spared
    rw [not_or, not_le, htmp]
    exact (and_iff_right Bool.false_ne_true).symm

/-- The fetch of a dataset that is not in the cache, when nothing fails. -/
theorem evalsTo_fetch {D : Deployment} {xs : ℕ → Choice} {job : Job}
    (hjob : job.sourceType = .hfHub) (hmiss : w.cache.get? (finalNameFor job.sourceRef) = none)
    (hrepo : w.repoFiles job.sourceRef = .ok files) (hfaults : ∀ n, (xs n).fault = none)
    (jobDir : String) :
    ∃ t ys, EvalsTo (World.exec false) xs w (fetchForJob D.lib D.settings job jobDir) t
      (.ok { inputDir := finalPathFor D.settings.hfCacheDir job.sourceRef, readOnly := true })
      (without (afterPublish w (xs 2).time job.sourceRef files)
        (evictedFrom (xs 4).order D.settings.hfCacheMaxBytes
          (afterPublish w (xs 2).time job.sourceRef files)))
      ys := by
  let repoId := job.sourceRef
  let downloaded := (w.download (xs 2).time repoId (tmpNameFor repoId) files).record
    (.downloaded repoId files)
  have hexists : World.exec false (xs 0) w (.cacheExists (finalNameFor repoId)) =
      some (.ok false, w) := by
    simp only [World.exec, Choice.outcome, hfaults, repoId, hmiss, Option.isSome_none]
  have hmkdir : World.exec false (xs 1) w .cacheMkdir = some (.ok (), w) := by
    simp only [World.exec, Choice.outcome, hfaults]
  have hdownload : World.exec false (xs 2) w (.hubDownloadDataset repoId (tmpNameFor repoId)) =
      some (.ok (), downloaded) := by
    simp only [World.exec, hfaults, repoId, hrepo]
    rfl
  have hsource : downloaded.cache.get? (tmpNameFor repoId) =
      some (staged w (xs 2).time repoId files) := by
    have hself := Table.get?_put_self w.cache (staged w (xs 2).time repoId files)
    rw [staged_name] at hself
    exact hself
  have htarget : downloaded.cache.get? (finalNameFor repoId) = none := by
    have hne : finalNameFor repoId ≠ (staged w (xs 2).time repoId files).name := by
      rw [staged_name]
      exact DatasetCache.finalNameFor_ne_tmpNameFor repoId
    exact (Table.get?_put_of_ne hne).trans hmiss
  have hreplace : World.exec false (xs 3) downloaded
      (.cacheReplace (tmpNameFor repoId) (finalNameFor repoId)) =
        some (.ok (), afterPublish w (xs 2).time repoId files) := by
    simp only [World.exec, hfaults, hsource, htarget]
    rfl
  obtain ⟨t, ys, hevict, -⟩ := evalsTo_evict (fun n => xs (n + 4))
    (afterPublish w (xs 2).time repoId files) D.settings.hfCacheMaxBytes (hfaults 4)
  have hpublish : EvalsTo (World.exec false) (fun n => xs (n + 3)) downloaded
      (finalizeDownload (tmpNameFor repoId) (finalNameFor repoId)) _ (.ok ())
      (afterPublish w (xs 2).time repoId files) fun n => xs (n + 4) := .step hreplace .pure
  have hknown : EvalsTo (World.exec false) (fun n => xs (n + 1)) w
      (Prog.ofExcept (.ok false) : Service Bool) [] (.ok false) w fun n => xs (n + 1) := .pure
  have hmade : EvalsTo (World.exec false) (fun n => xs (n + 2)) w
      (Prog.ofExcept (.ok ()) : Service Unit) [] (.ok ()) w fun n => xs (n + 2) := .pure
  have hfetch : EvalsTo (World.exec false) xs w (fetchHfDataset D.settings repoId) _
      (.ok (finalPathFor D.settings.hfCacheDir repoId)) _ ys :=
    .step hexists (hknown.bind (.step hmkdir (hmade.bind (.step hdownload
      (hpublish.bind (hevict.bind .pure))))))
  unfold fetchForJob
  rw [hjob]
  exact ⟨_, ys, hfetch.bind .pure⟩

end CacheEviction

open CacheEviction

/-- The download is the third call of the fetch and leaves a directory of this time; the listing of
the cache is the fifth one. -/
theorem fetched_still_there_iff (D : Deployment) {xs : ℕ → Choice} {w : World} {job : Job}
    {files : List (String × Bytes)} (hclock : D.steady = true → ClockRuns w xs)
    (hjob : job.sourceType = .hfHub) (hmiss : w.cache.get? (finalNameFor job.sourceRef) = none)
    (hstaging : ∀ child, w.cache.get? (tmpNameFor job.sourceRef) = some child → child.isDir = true)
    (hrepo : w.repoFiles job.sourceRef = .ok files) (hfaults : ∀ n, (xs n).fault = none) :
    StillThere D xs w job files ↔
      Spared (xs 4).order D.settings.hfCacheMaxBytes w (xs 2).time job.sourceRef files := by
  obtain ⟨t, ys, hrun⟩ := evalsTo_fetch (D := D) hjob hmiss hrepo hfaults
    s!"{D.settings.workdir}/{job.id}"
  have hevicted : finalNameFor job.sourceRef ∈ evictedFrom (xs 4).order D.settings.hfCacheMaxBytes
      (afterPublish w (xs 2).time job.sourceRef files) ↔
      ¬ Spared (xs 4).order D.settings.hfCacheMaxBytes w (xs 2).time job.sourceRef files :=
    mem_evictedFrom_iff hmiss hstaging
  unfold StillThere
  rw [World.eval_steady hclock, hrun.eval]
  constructor
  · rintro ⟨dataset, w', child, heval, -, hchild, -⟩
    obtain ⟨-, rfl⟩ := Prod.mk.inj (Option.some.inj heval)
    rw [get?_without] at hchild
    by_contra hnot
    rw [if_pos (hevicted.mpr hnot)] at hchild
    cases hchild
  · intro hspared
    have hkept : finalNameFor job.sourceRef ∉ evictedFrom (xs 4).order D.settings.hfCacheMaxBytes
        (afterPublish w (xs 2).time job.sourceRef files) := fun hmem => hevicted.mp hmem hspared
    refine ⟨_, _, published w (xs 2).time job.sourceRef files, rfl, rfl, ?_,
      isDir_published hstaging, fun file hfile => mem_published hfile⟩
    rw [get?_without, if_neg hkept]
    exact Table.get?_put_self _ (published w (xs 2).time job.sourceRef files)

namespace CacheEviction

/-- A repository of two bytes, and a job that trains on it. -/
def trainsOnPair : Job :=
  { id := "j", userId := "user", policy := .act, sourceType := .hfHub, sourceRef := "org/pair",
    trainingSteps := 100, createdAt := 0, updatedAt := 0 }

def pair : List (String × Bytes) := [("data", [1, 2])]

def withPair : World := { World.sample with repos := Table.empty.put ("org/pair", pair) }

/-- A cache of this many bytes. -/
def capped (maxBytes : ℤ) : Deployment :=
  { Deployment.sample with settings := { hfCacheMaxBytes := maxBytes } }

theorem unstaged {child : CacheChild} (h : withPair.cache.get? (tmpNameFor "org/pair") = some child) :
    child.isDir = true := by
  have hnone : withPair.cache.get? (tmpNameFor "org/pair") = none := by rfl
  rw [hnone] at h
  cases h

end CacheEviction

/-- The download alone exceeds the cap. -/
theorem fetched_still_there_fails : ¬ ∀ (D : Deployment) (xs : ℕ → Choice) (w : World) (job : Job)
    (files : List (String × Bytes)), 0 ≤ D.settings.hfCacheMaxBytes →
    (D.steady = true → ClockRuns w xs) → job.sourceType = .hfHub →
    w.cache.get? (finalNameFor job.sourceRef) = none →
    (∀ child, w.cache.get? (tmpNameFor job.sourceRef) = some child → child.isDir = true) →
    w.repoFiles job.sourceRef = .ok files → (∀ n, (xs n).fault = none) →
    StillThere D xs w job files := by
  intro h
  obtain ⟨dataset, w', child, heval, -, hchild, -⟩ := h (capped 1) (fun _ => {}) withPair trainsOnPair
    pair (by decide) (fun h => by cases h) rfl rfl (fun _ hchild => unstaged hchild) rfl fun _ => rfl
  have hgone : (eval (World.exec (capped 1).steady) (fun _ => {}) withPair
      (fetchForJob (capped 1).lib (capped 1).settings trainsOnPair
        s!"{(capped 1).settings.workdir}/{trainsOnPair.id}")).any
      (fun out => out.2.cache.get? (finalNameFor trainsOnPair.sourceRef) |>.isSome) = false := by rfl
  rw [heval] at hgone
  simp [hchild] at hgone

theorem fetched_still_there_iff_capped :
    StillThere (capped 2) (fun _ => {}) withPair trainsOnPair pair ↔
      Spared [] 2 withPair 0 "org/pair" pair :=
  fetched_still_there_iff (capped 2) (fun _ => ⟨le_refl 0, fun _ => le_refl 0⟩) rfl rfl
    (fun _ hchild => unstaged hchild) rfl fun _ => rfl

end TrainVla
