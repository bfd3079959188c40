import TrainVla.System.PollerRun
import Mathlib.Algebra.Ring.Int.Defs

/-! What goes wrong while a dataset is made available, and what of it is handled. -/
namespace TrainVla.DatasetFetcher

open Interaction Store DiskManager JobPoller

/-- Where an exception was raised: by the download from the hub, between opening an archive and
having it extracted, or by the file system elsewhere. -/
inductive Origin
  | download
  | archive
  | disk
  deriving DecidableEq

/-- The exception that an answer amounts to. -/
def raised? (lib : Library) : Sigma Call.Resp → Option (Origin × Exc)
  | ⟨.hubDownloadDataset _ _, .error e⟩ => some (.download, e)
  | ⟨.storageOpenReadStream _ _, .error e⟩ => some (.archive, e)
  | ⟨.storageOpenReadStream _ _, .ok data⟩ =>
    match lib.zipInfolist data with
    | .error e => some (.archive, e)
    | .ok _ => none
  | ⟨.extractAll _ _, .error e⟩ => some (.archive, e)
  | ⟨.cacheExists _, .error e⟩ => some (.disk, e)
  | ⟨.cacheTouch _, .error e⟩ => some (.disk, e)
  | ⟨.cacheMkdir, .error e⟩ => some (.disk, e)
  | ⟨.cacheReplace _ _, .error e⟩ => some (.disk, e)
  | ⟨.cacheIterdir, .error e⟩ => some (.disk, e)
  | ⟨.makeJobDir _, .error e⟩ => some (.disk, e)
  | _ => none

def raisedIn (lib : Library) (t : List (Sigma Call.Resp)) : List (Origin × Exc) :=
  t.filterMap (raised? lib)

theorem raisedIn_append (lib : Library) (t t' : List (Sigma Call.Resp)) :
    raisedIn lib (t ++ t') = raisedIn lib t ++ raisedIn lib t' := List.filterMap_append

/-- The exceptions that some handler turns into a failure of the job. -/
def Caught : Origin → Exc → Prop
  | _, .datasetFetch _ => True
  | .download, .fileNotFound _ => True
  | .archive, .fileNotFound _ => True
  | .archive, .badZipFile _ => True
  | _, _ => False

/-- A result that fits what was raised on the way to it. -/
def Fits {α : Type} (lib : Library) (t : List (Sigma Call.Resp)) (r : Except Exc α) : Prop :=
  (raisedIn lib t = [] ∧ ∃ a, r = .ok a) ∨ ∃ origin e, raisedIn lib t = [(origin, e)] ∧
    ((Caught origin e ∧ ∃ m, r = .error (.datasetFetch m)) ∨ (¬ Caught origin e ∧ r = .error e))

section

variable {α β : Type} {lib : Library} {t t' : List (Sigma Call.Resp)} {origin : Origin} {e : Exc}

theorem Fits.ok (h : raisedIn lib t = []) (a : α) : Fits lib t (.ok a : Except Exc α) :=
  .inl ⟨h, a, rfl⟩

theorem Fits.caught (h : raisedIn lib t = [(origin, e)]) (he : Caught origin e) (m : String) :
    Fits lib t (.error (.datasetFetch m) : Except Exc α) :=
  .inr ⟨origin, e, h, .inl ⟨he, m, rfl⟩⟩

/-- An exception that goes through. -/
theorem Fits.passed (h : raisedIn lib t = [(origin, e)])
    (he : Caught origin e → ∃ m, e = .datasetFetch m) : Fits lib t (.error e : Except Exc α) := by
  right
  by_cases hhandled : Caught origin e
  · obtain ⟨m, rfl⟩ := he hhandled
    exact ⟨origin, _, h, .inl ⟨hhandled, m, rfl⟩⟩
  · exact ⟨origin, e, h, .inr ⟨hhandled, rfl⟩⟩

theorem handled_disk (h : Caught .disk e) : ∃ m, e = .datasetFetch m := by
  cases e with
  | datasetFetch m => exact ⟨m, rfl⟩
  | _ => exact h.elim

end

variable (lib : Library) (settings : WorkerSettings) (xs : ℕ → Choice) (w : World)

/-- The entries that an eviction removes. -/
def evicted (maxBytes total : ℤ) : List CacheEntry → List String
  | [] => []
  | entry :: entries =>
    if total ≤ maxBytes then []
    else entry.name :: evicted maxBytes (total - entry.sizeBytes) entries

/-- What an eviction counts. -/
def listed (order : List String) (w : World) : List CacheChild :=
  (w.listing order).filter fun child => child.isDir && !endsWith child.name tmpSuffix

/-- The entries of the cache, least recently used first. -/
def entriesOf (order : List String) (w : World) : List CacheEntry :=
  ((listed order w).map cacheEntry).insertionSort fun a b => a.mtime ≤ b.mtime

theorem mem_listed {order : List String} {w : World} {child : CacheChild} :
    child ∈ listed order w ↔
      child ∈ w.cache ∧ child.isDir = true ∧ endsWith child.name tmpSuffix = false := by
  unfold listed World.listing
  rw [List.mem_filter, List.mem_insertionSort]
  simp [Table.mem_def]

theorem nodup_entriesOf (order : List String) (w : World) :
    ((entriesOf order w).map CacheEntry.name).Nodup := by
  have hperm : (entriesOf order w).Perm ((listed order w).map cacheEntry) :=
    List.perm_insertionSort _ _
  have hnodup : (((listed order w).map cacheEntry).map CacheEntry.name).Nodup := by
    have hlisting : ((w.listing order).map CacheChild.name).Nodup :=
      ((List.perm_insertionSort _ w.cache.rows).map CacheChild.name).nodup_iff.mpr w.cache.nodup
    rw [List.map_map]
    exact hlisting.sublist (List.filter_sublist.map CacheChild.name)
  exact (hperm.map CacheEntry.name).nodup_iff.mpr hnodup

/-- The names that an eviction removes from the cache. -/
def evictedFrom (order : List String) (maxBytes : ℤ) (w : World) : List String :=
  evicted maxBytes ((entriesOf order w).map CacheEntry.sizeBytes).sum (entriesOf order w)

def without (w : World) (names : List String) : World :=
  { w with cache := names.foldl Table.erase w.cache }

theorem evalsTo_evictEntries (maxBytes total : ℤ) (entries : List CacheEntry) :
    ∃ t ys, EvalsTo (World.exec false) xs w (evictEntries maxBytes total entries) t
        (.ok (evicted maxBytes total entries))
        (without w (evicted maxBytes total entries)) ys ∧ ∀ lib, raisedIn lib t = [] := by
  induction entries generalizing total xs w with
  | nil => exact ⟨[], xs, .pure, fun _ => rfl⟩
  | cons entry entries ih =>
    unfold evictEntries evicted
    split
    · exact ⟨[], xs, .pure, fun _ => rfl⟩
    · obtain ⟨t, ys, hrest, hnone⟩ := ih (fun n => xs (n + 1))
        { w with cache := w.cache.erase entry.name } (total - entry.sizeBytes)
      refine ⟨_, _, .step rfl (hrest.bind .pure), ?_⟩
      rw [List.append_nil]
      exact hnone

theorem evalsTo_evict (maxBytes : ℤ) (h : (xs 0).fault = none) :
    ∃ t ys, EvalsTo (World.exec false) xs w (evictLruUntilUnderCap maxBytes) t
      (.ok (evictedFrom (xs 0).order maxBytes w))
      (without w (evictedFrom (xs 0).order maxBytes w)) ys ∧
      ∀ lib, raisedIn lib t = [] := by
  have hexec : World.exec false (xs 0) w .cacheIterdir =
      some (.ok (w.listing (xs 0).order), w) := by
    simp only [World.exec, Choice.outcome, h]
  obtain ⟨t, ys, hrun, hnone⟩ := evalsTo_evictEntries (fun n => xs (n + 1)) w maxBytes
    ((entriesOf (xs 0).order w).map CacheEntry.sizeBytes).sum (entriesOf (xs 0).order w)
  exact ⟨_, ys, .step hexec hrun, hnone⟩

theorem evalsTo_evict_error (maxBytes : ℤ) {e : Exc} (h : (xs 0).fault = some e) :
    EvalsTo (World.exec false) xs w (evictLruUntilUnderCap maxBytes) [⟨.cacheIterdir, .error e⟩]
      (.error e) w fun n => xs (n + 1) := by
  have hexec : World.exec false (xs 0) w .cacheIterdir = some (.error e, w) := by
    simp only [World.exec, Choice.outcome, h]
  exact .step hexec .raise

/-- The steps after a download. -/
theorem evalsTo_publish (repoId : String) :
    ∃ t r w' ys, EvalsTo (World.exec false) xs w (do
        finalizeDownload (tmpNameFor repoId) (finalNameFor repoId)
        let _ ← evictLruUntilUnderCap settings.hfCacheMaxBytes
        pure (finalPathFor settings.hfCacheDir repoId)) t r w' ys ∧ Fits lib t r := by
  obtain ⟨⟨r, w₁⟩, hreplace⟩ := exec_of_aloof
    (c := .cacheReplace (tmpNameFor repoId) (finalNameFor repoId)) ⟨rfl, rfl, rfl⟩ (xs 0) w
  have hfinalize : EvalsTo (World.exec false) xs w
      (finalizeDownload (tmpNameFor repoId) (finalNameFor repoId))
      [⟨.cacheReplace (tmpNameFor repoId) (finalNameFor repoId), r⟩] r w₁ (fun n => xs (n + 1)) :=
    .step hreplace .ofExcept
  cases r with
  | error e => exact ⟨_, _, _, _, hfinalize.bind_error, .passed rfl handled_disk⟩
  | ok u =>
    cases hfault : (xs 1).fault with
    | some e =>
      have hevict := evalsTo_evict_error (fun n => xs (n + 1)) w₁ settings.hfCacheMaxBytes hfault
      exact ⟨_, _, _, _, hfinalize.bind hevict.bind_error, .passed rfl handled_disk⟩
    | none =>
      obtain ⟨t, ys, hevict, hnone⟩ := evalsTo_evict (fun n => xs (n + 1)) w₁
        settings.hfCacheMaxBytes hfault
      refine ⟨_, _, _, _, hfinalize.bind (hevict.bind .pure), ?_⟩
      apply Fits.ok
      rw [List.append_nil]
      exact hnone lib

theorem evalsTo_fetchHfDataset (repoId : String) :
    ∃ t r w' ys, EvalsTo (World.exec false) xs w (fetchHfDataset settings repoId) t r w' ys ∧
      Fits lib t r := by
  unfold fetchHfDataset
  obtain ⟨⟨hit, w₁⟩, hexists⟩ := exec_of_aloof (c := .cacheExists (finalNameFor repoId))
    ⟨rfl, rfl, rfl⟩ (xs 0) w
  have hknown : EvalsTo (World.exec false) (fun n => xs (n + 1)) w₁
      (Prog.ofExcept hit : Service Bool) [] hit w₁ (fun n => xs (n + 1)) := .ofExcept
  cases hit with
  | error e => exact ⟨_, _, _, _, .step hexists hknown.bind_error, .passed rfl handled_disk⟩
  | ok hit =>
    cases hit with
    | true =>
      obtain ⟨⟨r, w₂⟩, htouch⟩ := exec_of_aloof (c := .cacheTouch (finalNameFor repoId))
        ⟨rfl, rfl, rfl⟩ (xs 1) w₁
      have htouched : EvalsTo (World.exec false) (fun n => xs (n + 2)) w₂
          (Prog.ofExcept r : Service Unit) [] r w₂ (fun n => xs (n + 2)) := .ofExcept
      cases r with
      | error e =>
        exact ⟨_, _, _, _, .step hexists (hknown.bind (.step htouch htouched.bind_error)),
          .passed rfl handled_disk⟩
      | ok u =>
        exact ⟨_, _, _, _, .step hexists (hknown.bind (.step htouch (htouched.bind .pure))),
          .ok rfl _⟩
    | false =>
      obtain ⟨⟨r, w₂⟩, hmkdir⟩ := exec_of_aloof (c := .cacheMkdir) ⟨rfl, rfl, rfl⟩ (xs 1) w₁
      have hmade : EvalsTo (World.exec false) (fun n => xs (n + 2)) w₂
          (Prog.ofExcept r : Service Unit) [] r w₂ (fun n => xs (n + 2)) := .ofExcept
      cases r with
      | error e =>
        exact ⟨_, _, _, _, .step hexists (hknown.bind (.step hmkdir hmade.bind_error)),
          .passed rfl handled_disk⟩
      | ok u =>
        obtain ⟨⟨r, w₃⟩, hdownload⟩ := exec_of_aloof
          (c := .hubDownloadDataset repoId (tmpNameFor repoId)) ⟨rfl, rfl, rfl⟩ (xs 2) w₂
        cases r with
        | error e =>
          cases e with
          | fileNotFound m =>
            have hhandled : Caught .download (.fileNotFound m) := trivial
            exact ⟨_, _, _, _, .step hexists (hknown.bind (.step hmkdir (hmade.bind
              (.step hdownload .raise)))), .caught rfl hhandled _⟩
          | datasetFetch m =>
            have hhandled : Caught .download (.datasetFetch m) := trivial
            exact ⟨_, _, _, _, .step hexists (hknown.bind (.step hmkdir (hmade.bind
              (.step hdownload .raise)))), .caught rfl hhandled _⟩
          | _ =>
            exact ⟨_, _, _, _, .step hexists (hknown.bind (.step hmkdir (hmade.bind
              (.step hdownload .raise)))), .passed rfl fun h => h.elim⟩
        | ok u =>
          obtain ⟨t, r, w', ys, hpublish, hfits⟩ := evalsTo_publish lib settings
            (fun n => xs (n + 3)) w₃ repoId
          exact ⟨_, _, _, _, .step hexists (hknown.bind (.step hmkdir (hmade.bind
            (.step hdownload hpublish)))), hfits⟩

/-- Opening and extracting an archive raises what one of its steps raises. -/
theorem evalsTo_openAndExtract (jobId objectPath : String) :
    ∃ t r w' ys, EvalsTo (World.exec false) xs w (openAndExtract lib jobId objectPath) t r w' ys ∧
      ((raisedIn lib t = [] ∧ r = .ok ()) ∨
        ∃ e, raisedIn lib t = [(.archive, e)] ∧ r = .error e) := by
  unfold openAndExtract
  obtain ⟨⟨r, w₁⟩, hopen⟩ := exec_of_aloof (c := .storageOpenReadStream .extraction objectPath)
    ⟨rfl, rfl, rfl⟩ (xs 0) w
  cases r with
  | error e =>
    exact ⟨_, _, _, _, .step hopen (EvalsTo.ofExcept (r := .error e)).bind_error, .inr ⟨e, rfl, rfl⟩⟩
  | ok data =>
    have hdata : EvalsTo (World.exec false) (fun n => xs (n + 1)) w₁
        (Prog.ofExcept (.ok data) : Service Bytes) [] (.ok data) w₁ (fun n => xs (n + 1)) := .pure
    cases hzip : lib.zipInfolist data with
    | error e =>
      refine ⟨_, _, _, _, .step hopen (hdata.bind (EvalsTo.ofExcept_eq hzip).bind_error),
        .inr ⟨e, ?_, rfl⟩⟩
      simp [raisedIn, raised?, hzip]
    | ok entries =>
      obtain ⟨⟨r, w₂⟩, hextract⟩ := exec_of_aloof (c := .extractAll jobId data) ⟨rfl, rfl, rfl⟩
        (xs 1) w₁
      refine ⟨_, r, _, _, .step hopen (hdata.bind
        ((EvalsTo.ofExcept_eq hzip).bind (.step hextract .ofExcept))), ?_⟩
      cases r with
      | error e =>
        right
        refine ⟨e, ?_, rfl⟩
        simp [raisedIn, raised?, hzip]
      | ok u =>
        left
        refine ⟨?_, rfl⟩
        simp [raisedIn, raised?, hzip]

theorem evalsTo_extractZipUpload (jobId objectPath targetDir : String) :
    ∃ t r w' ys, EvalsTo (World.exec false) xs w
        (extractZipUpload lib jobId objectPath targetDir) t r w' ys ∧ Fits lib t r := by
  unfold extractZipUpload
  obtain ⟨⟨r, w₁⟩, hmkdir⟩ := exec_of_aloof (c := .makeJobDir jobId) ⟨rfl, rfl, rfl⟩ (xs 0) w
  have hmade : EvalsTo (World.exec false) (fun n => xs (n + 1)) w₁
      (Prog.ofExcept r : Service Unit) [] r w₁ (fun n => xs (n + 1)) := .ofExcept
  cases r with
  | error e => exact ⟨_, _, _, _, .step hmkdir hmade.bind_error, .passed rfl handled_disk⟩
  | ok u =>
    obtain ⟨t, r, w₂, ys, hopen, hcases⟩ := evalsTo_openAndExtract lib
      (fun n => xs (n + 1)) w₁ jobId objectPath
    have hfirst : raisedIn lib [⟨.makeJobDir jobId, .ok u⟩] = [] := rfl
    rcases hcases with ⟨hnone, rfl⟩ | ⟨e, hraised, rfl⟩
    · refine ⟨_, _, _, _, .step hmkdir (hmade.bind (hopen.attempt.bind (.step rfl .pure))), ?_⟩
      have hrest : raisedIn lib (t ++ [⟨.storageDelete objectPath, ()⟩]) = [] := by
        rw [raisedIn_append, hnone]
        rfl
      exact .ok hrest _
    · have hall : raisedIn lib (⟨.makeJobDir jobId, .ok u⟩ :: ([] ++ (t ++ []))) =
          [(.archive, e)] := by
        rw [List.append_nil]
        exact hraised
      cases e with
      | fileNotFound m =>
        have hhandled : Caught .archive (.fileNotFound m) := trivial
        exact ⟨_, _, _, _, .step hmkdir (hmade.bind (hopen.attempt.bind .raise)),
          .caught hall hhandled _⟩
      | badZipFile m =>
        have hhandled : Caught .archive (.badZipFile m) := trivial
        exact ⟨_, _, _, _, .step hmkdir (hmade.bind (hopen.attempt.bind .raise)),
          .caught hall hhandled _⟩
      | datasetFetch m =>
        have hhandled : Caught .archive (.datasetFetch m) := trivial
        exact ⟨_, _, _, _, .step hmkdir (hmade.bind (hopen.attempt.bind .raise)),
          .caught hall hhandled _⟩
      | _ =>
        exact ⟨_, _, _, _, .step hmkdir (hmade.bind (hopen.attempt.bind .raise)),
          .passed hall fun h => h.elim⟩

/-- A fetch comes to an end, with a result that fits what was raised in it. -/
theorem evalsTo_fetchForJob_fits (job : Job) (jobDir : String) :
    ∃ t r w' ys, EvalsTo (World.exec false) xs w (fetchForJob lib settings job jobDir) t r w' ys ∧
      Fits lib t r := by
  have hresult : ∀ {t : List (Sigma Call.Resp)} {r : Except Exc String} {w' ys}
      {p : Service String} {readOnly : Bool}, EvalsTo (World.exec false) xs w p t r w' ys →
      Fits lib t r → ∃ t r w' ys, EvalsTo (World.exec false) xs w (do
        let inputDir ← p
        pure { inputDir, readOnly := readOnly }) t r w' ys ∧
        Fits lib t (r : Except Exc FetchedDataset) := by
    intro t r w' ys p readOnly hrun hfits
    rcases hfits with ⟨hnone, dir, rfl⟩ | ⟨origin, e, hraised, ⟨hhandled, m, rfl⟩ | ⟨hnot, rfl⟩⟩
    · refine ⟨_, _, _, _, hrun.bind .pure, .ok ?_ _⟩
      rw [List.append_nil]
      exact hnone
    · exact ⟨_, _, _, _, hrun.bind_error, .caught hraised hhandled m⟩
    · exact ⟨_, _, _, _, hrun.bind_error, .passed hraised fun h => absurd h hnot⟩
  unfold fetchForJob
  split
  · obtain ⟨t, r, w', ys, hrun, hfits⟩ := evalsTo_fetchHfDataset lib settings xs w
      job.sourceRef
    exact hresult hrun hfits
  · obtain ⟨t, r, w', ys, hrun, hfits⟩ := evalsTo_extractZipUpload lib xs w
      job.id job.sourceRef s!"{jobDir}/input"
    exact hresult hrun hfits

end TrainVla.DatasetFetcher
