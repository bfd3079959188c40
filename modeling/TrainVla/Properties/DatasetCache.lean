import TrainVla.Interaction.Evaluation
import TrainVla.Interaction.Soundness
import TrainVla.System.Operations
import TrainVla.World.Frame
import Mathlib.Data.Set.Pairwise.Basic

/-! The cache of datasets from the hub. A directory that is handed to a job holds one complete
download of the repository that the job asks for, as long as the names of the directories of
different repositories differ, and no container is started for a dataset that is gone. -/
namespace TrainVla

open Interaction Store DiskManager DatasetFetcher

/-- What the worker does with the cache: it fetches the dataset of a job and starts its container, and
it sweeps when it restarts. -/
inductive CacheOp
  | launch (job : Job)
  | restart

def CacheOp.code (D : Deployment) : CacheOp → Service Unit
  | launch job => (JobPoller.launch D.lib D.settings job).discard
  | restart => (cleanupStaleTmpDirs D.settings.tmpStaleAfterSeconds).discard

def Deployment.cacheMachine (D : Deployment) :
    Machine CacheOp Call Call.Resp Exc World Choice Event where
  exec := World.exec D.steady
  occur := World.occur
  code := CacheOp.code D
  threaded _ := true

/-- Jobs on datasets of the hub, from these repositories. -/
def CacheOp.Fetches (repoIds : Set String) : CacheOp → Prop
  | launch job => job.sourceType = .hfHub ∧ job.sourceRef ∈ repoIds
  | restart => True

/-- One thing after the other, each of which may be cut short by a crash. -/
def FetchesOnly (repoIds : Set String) : Label CacheOp Choice Event → Prop
  | .whole op _ => op.Fetches repoIds
  | .cut op _ => op.Fetches repoIds
  | .event _ => True
  | _ => False

/-- Whoever starts a container for a job has its dataset still there. -/
def DatasetThere (op : CacheOp) (w : World) (c : Call) : Prop :=
  ∀ job spec, op = .launch job → c = .dockerRun spec →
    (w.cache.get? (finalNameFor job.sourceRef)).isSome = true

/-- What a download writes into an empty directory. -/
def downloadedFiles (repoId : String) (files : List (String × Bytes)) :
    Table CachedFile String CachedFile.path :=
  files.foldl (fun kept file => kept.put ⟨file.1, repoId, file.2⟩) Table.empty

/-- All files of one complete download of the repository, and none of another one. -/
structure HoldsDownload (w : World) (repoId : String) (child : CacheChild) : Prop where
  complete : ∃ files, .downloaded repoId files ∈ w.log ∧
    ∀ file ∈ downloadedFiles repoId files, file ∈ child.files
  only : ∀ file ∈ child.files, file.repoId = repoId

theorem HoldsDownload.mono {w : World} {repoId : String} {child : CacheChild}
    {cache : Table CacheChild String CacheChild.name} {entries : List Entry}
    (h : HoldsDownload w repoId child) :
    HoldsDownload { w with cache := cache, log := entries ++ w.log } repoId child := by
  obtain ⟨files, hlog, hfiles⟩ := h.complete
  exact ⟨⟨files, List.mem_append_right _ hlog, hfiles⟩, h.only⟩

/-- Neither repository is downloaded into a directory of the other one. -/
def Apart (repoId repoId' : String) : Prop :=
  finalNameFor repoId ≠ finalNameFor repoId' ∧ finalNameFor repoId ≠ tmpNameFor repoId'

/-- Whenever a fetch for the job returns a directory that exists, this is what it should be. -/
def FetchesRight (D : Deployment) (w : World) (job : Job) : Prop :=
  ∀ xs dataset w', eval (World.exec D.steady) xs w
      (fetchForJob D.lib D.settings job s!"{D.settings.workdir}/{job.id}") =
        some (.ok dataset, w') →
    dataset.inputDir = finalPathFor D.settings.hfCacheDir job.sourceRef ∧
      ∀ child, w'.cache.get? (finalNameFor job.sourceRef) = some child →
        HoldsDownload w' job.sourceRef child

namespace DatasetCache

theorem get?_write (files : List (String × Bytes)) (repoId path : String)
    (base : Table CachedFile String CachedFile.path) :
    (files.foldl (fun kept file => kept.put ⟨file.1, repoId, file.2⟩) base).get? path =
      ((downloadedFiles repoId files).get? path).or (base.get? path) := by
  unfold downloadedFiles
  induction files generalizing base with
  | nil => rfl
  | cons file files ih =>
    rw [List.foldl_cons, List.foldl_cons, ih, ih (Table.empty.put _), Option.or_assoc]
    congr 1
    rw [Table.get?_put, Table.get?_put]
    split <;> rfl

theorem mem_write {files : List (String × Bytes)} {repoId : String} {file : CachedFile}
    {base : Table CachedFile String CachedFile.path}
    (h : file ∈ files.foldl (fun kept file => kept.put ⟨file.1, repoId, file.2⟩) base) :
    file ∈ base ∨ file.repoId = repoId := by
  induction files generalizing base with
  | nil => exact .inl h
  | cons first files ih =>
    rcases ih h with hmem | hrepo
    · rcases Table.mem_put.mp hmem with rfl | ⟨hmem, -⟩
      · exact .inr rfl
      · exact .inl hmem
    · exact .inr hrepo

theorem mem_write_of_downloaded {files : List (String × Bytes)} {repoId : String}
    {file : CachedFile} (base : Table CachedFile String CachedFile.path)
    (h : file ∈ downloadedFiles repoId files) :
    file ∈ files.foldl (fun kept file => kept.put ⟨file.1, repoId, file.2⟩) base := by
  apply Table.mem_of_get? (k := file.path)
  rw [get?_write, Table.get?_of_mem h]
  rfl

theorem tmpNameFor_inj {repoId repoId' : String} (h : tmpNameFor repoId = tmpNameFor repoId') :
    finalNameFor repoId = finalNameFor repoId' := by
  have hlist := congrArg String.toList h
  unfold tmpNameFor at hlist
  rw [String.toList_append, String.toList_append, List.append_cancel_right_eq] at hlist
  exact String.toList_injective hlist

theorem finalNameFor_ne_tmpNameFor (repoId : String) : finalNameFor repoId ≠ tmpNameFor repoId := by
  intro h
  have hlength := congrArg (fun name => name.toList.length) h
  unfold tmpNameFor finalNameFor at hlength
  simp [tmpSuffix] at hlength

/-- Every child of the cache directory is a download under way, or a complete one. -/
def Sorted (repoIds : Set String) (w : World) : Prop :=
  ∀ child ∈ w.cache,
    (∃ repoId ∈ repoIds, child.name = tmpNameFor repoId ∧
      ∀ file ∈ child.files, file.repoId = repoId) ∨
    ∃ repoId ∈ repoIds, child.name = finalNameFor repoId ∧ HoldsDownload w repoId child

/-- What is known before a call. Only complete downloads are published, and a container gets the
dataset of its job. -/
def Informed (repoIds : Set String) (op : CacheOp) (w : World) : Call → Prop
  | .hubDownloadDataset repoId dirName => repoId ∈ repoIds ∧ dirName = tmpNameFor repoId
  | .cacheReplace source target => ∃ repoId ∈ repoIds, source = tmpNameFor repoId ∧
      target = finalNameFor repoId ∧
      ∃ child, w.cache.get? source = some child ∧ HoldsDownload w repoId child
  | .dockerRun spec => ∃ job, op = .launch job ∧ spec.cacheMounts = [finalNameFor job.sourceRef]
  | .now | .jobsUpdate _ _ => True
  | .cacheExists _ | .cacheTouch _ | .cacheMkdir | .cacheIterdir | .cacheRmtree _ => True
  | _ => False

/-- There is only one thread. -/
def outline (repoIds : Set String) : Outline CacheOp Call World where
  inv := Sorted repoIds
  rely _ w w' := w = w'
  pre := Informed repoIds
  cond := DatasetThere

theorem preorders (repoIds : Set String) : (outline repoIds).Preorders where
  refl _ _ := rfl
  trans _ _ _ _ h h' := h.trans h'

section

variable {D : Deployment} {repoIds : Set String} {o : Choice} {w w' : World} {repoId : String}
  {child : CacheChild} {op : CacheOp}

theorem Sorted.congr (h : Sorted repoIds w) (hcache : w'.cache = w.cache)
    (hlog : w.log <:+ w'.log) : Sorted repoIds w' := by
  intro child hchild
  rw [hcache] at hchild
  rcases h child hchild with htmp | ⟨repoId, hmem, hname, hholds⟩
  · exact .inl htmp
  · obtain ⟨files, hdownloaded, hfiles⟩ := hholds.complete
    exact .inr ⟨repoId, hmem, hname, ⟨files, hlog.subset hdownloaded, hfiles⟩, hholds.only⟩

/-- Starting a container for a dataset that is there leaves the cache alone. -/
theorem sorted_dockerRun {spec : ContainerSpec} {r : Except Exc String} (h : Sorted repoIds w)
    (hpresent : ∀ name ∈ spec.cacheMounts, (w.cache.get? name).isSome = true)
    (he : World.exec D.steady o w (.dockerRun spec) = some (r, w')) : Sorted repoIds w' := by
  obtain ⟨dirs, hdirs⟩ := World.prepareMounts_of_present hpresent o.time
  have hlog : w.log <:+ .ran spec.jobId? :: w.log := List.suffix_cons _ _
  rcases World.exec_dockerRun he with ⟨-, rfl⟩ | ⟨id, -, -, -, rfl⟩ <;> rw [hdirs]
  · exact h.congr rfl hlog
  · exact h.congr rfl hlog

/-- The directory of a download belongs to no other repository. -/
theorem only_of_tmpName (hapart : repoIds.Pairwise Apart) (h : Sorted repoIds w)
    (hrepo : repoId ∈ repoIds) (hchild : w.cache.get? (tmpNameFor repoId) = some child) :
    ∀ file ∈ child.files, file.repoId = repoId := by
  have hname : child.name = tmpNameFor repoId := Table.key_of_get? hchild
  rcases h child (Table.mem_of_get? hchild) with ⟨other, hother, heq, honly⟩ | ⟨other, hother, heq, -⟩
  · have hfinal := tmpNameFor_inj (heq.symm.trans hname)
    by_cases hsame : other = repoId
    · rwa [hsame] at honly
    · exact absurd hfinal (hapart hother hrepo hsame).1
  · by_cases hsame : other = repoId
    · rw [hsame] at heq
      exact absurd (heq.symm.trans hname) (finalNameFor_ne_tmpNameFor repoId)
    · exact absurd (heq.symm.trans hname) (hapart hother hrepo hsame).2

/-- And so does the directory of a finished one. -/
theorem holds_of_finalName (hapart : repoIds.Pairwise Apart) (h : Sorted repoIds w)
    (hrepo : repoId ∈ repoIds) (hchild : w.cache.get? (finalNameFor repoId) = some child) :
    HoldsDownload w repoId child := by
  have hname : child.name = finalNameFor repoId := Table.key_of_get? hchild
  rcases h child (Table.mem_of_get? hchild) with ⟨other, hother, heq, -⟩ | ⟨other, hother, heq, hholds⟩
  · by_cases hsame : repoId = other
    · rw [← hsame] at heq
      exact absurd (hname.symm.trans heq) (finalNameFor_ne_tmpNameFor repoId)
    · exact absurd (hname.symm.trans heq) (hapart hrepo hother hsame).2
  · by_cases hsame : other = repoId
    · rwa [hsame] at hholds
    · exact absurd (heq.symm.trans hname) (hapart hother hrepo hsame).1

/-- A download, complete or not, keeps to its directory. -/
theorem sorted_download {mtime : ℤ} {files : List (String × Bytes)} (entries : List Entry)
    (hapart : repoIds.Pairwise Apart) (h : Sorted repoIds w) (hrepo : repoId ∈ repoIds) :
    Sorted repoIds { w.download mtime repoId (tmpNameFor repoId) files with
      log := entries ++ w.log } := by
  intro child hchild
  rcases Table.mem_put.mp hchild with rfl | ⟨hold, -⟩
  · refine .inl ⟨repoId, hrepo, ?_, fun file hfile => ?_⟩
    · cases hget : w.cache.get? (tmpNameFor repoId) with
      | none => rfl
      | some child =>
        have hname : child.name = tmpNameFor repoId := Table.key_of_get? hget
        exact hname
    · rcases mem_write hfile with hbase | hnew
      · cases hget : w.cache.get? (tmpNameFor repoId) with
        | none =>
          rw [hget] at hbase
          exact absurd hbase (Table.not_mem_empty file)
        | some child =>
          rw [hget] at hbase
          exact only_of_tmpName hapart h hrepo hget file hbase
      · exact hnew
  · rcases h child hold with htmp | ⟨other, hmem, hname, hholds⟩
    · exact .inl htmp
    · exact .inr ⟨other, hmem, hname, hholds.mono⟩

theorem exec_download {dirName : String} {r : Except Exc Unit}
    (h : World.exec D.steady o w (.hubDownloadDataset repoId dirName) = some (r, w')) :
    (r ≠ .ok () ∧ ∃ files, w' = w ∨ w' = w.download o.time repoId dirName files) ∨
      r = .ok () ∧ ∃ files, w' =
        { w.download o.time repoId dirName files with log := .downloaded repoId files :: w.log } := by
  simp only [World.exec] at h
  split at h <;> obtain ⟨rfl, rfl⟩ := Prod.mk.inj (Option.some.inj h)
  · exact .inl ⟨by simp, [], .inl rfl⟩
  · exact .inl ⟨by simp, _, .inr rfl⟩
  · exact .inr ⟨rfl, _, rfl⟩

theorem sorted_exec {c : Call} {r : c.Resp} (hapart : repoIds.Pairwise Apart)
    (hi : Sorted repoIds w) (hpre : Informed repoIds op w c) (hcond : DatasetThere op w c)
    (he : World.exec D.steady o w c = some (r, w')) : Sorted repoIds w' := by
  cases c with
  | now =>
    obtain ⟨hclock, -⟩ := World.exec_now he
    rw [hclock]
    exact hi.congr rfl (List.suffix_refl _)
  | jobsUpdate seen job =>
    obtain rfl := World.exec_jobsUpdate he
    exact hi.congr rfl (List.suffix_cons _ _)
  | dockerRun spec =>
    obtain ⟨job, rfl, hmounts⟩ := hpre
    have hthere := hcond job spec rfl rfl
    refine sorted_dockerRun hi ?_ he
    rw [hmounts]
    exact List.forall_mem_singleton.mpr hthere
  | cacheExists name =>
    obtain ⟨-, rfl⟩ := Prod.mk.inj (Option.some.inj he)
    exact hi
  | cacheIterdir =>
    obtain ⟨-, rfl⟩ := Prod.mk.inj (Option.some.inj he)
    exact hi
  | cacheMkdir =>
    obtain ⟨-, rfl⟩ := Prod.mk.inj (Option.some.inj he)
    exact hi
  | cacheTouch name =>
    simp only [World.exec] at he
    split at he
    · obtain ⟨-, rfl⟩ := Prod.mk.inj (Option.some.inj he)
      exact hi
    · rename_i touched _ hget
      obtain ⟨-, rfl⟩ := Prod.mk.inj (Option.some.inj he)
      intro child hchild
      rcases Table.mem_put.mp hchild with rfl | ⟨hold, -⟩
      · rcases hi touched (Table.mem_of_get? hget) with htmp | ⟨repoId, hmem, hname, hholds⟩
        · exact .inl htmp
        · exact .inr ⟨repoId, hmem, hname, hholds.complete, hholds.only⟩
      · rcases hi child hold with htmp | ⟨repoId, hmem, hname, hholds⟩
        · exact .inl htmp
        · exact .inr ⟨repoId, hmem, hname, hholds.complete, hholds.only⟩
    · obtain ⟨-, rfl⟩ := Prod.mk.inj (Option.some.inj he)
      exact hi
  | cacheRmtree name =>
    obtain ⟨-, rfl⟩ := Prod.mk.inj (Option.some.inj he)
    intro child hchild
    rcases hi child (Table.mem_erase.mp hchild).1 with htmp | ⟨repoId, hmem, hname, hholds⟩
    · exact .inl htmp
    · exact .inr ⟨repoId, hmem, hname, hholds.complete, hholds.only⟩
  | cacheReplace source target =>
    obtain ⟨repoId, hrepo, rfl, rfl, published, hpublished, hholds⟩ := hpre
    simp only [World.exec, hpublished] at he
    split at he
    · obtain ⟨-, rfl⟩ := Prod.mk.inj (Option.some.inj he)
      exact hi
    · rename_i hnone
      cases hnone
    rename_i found _ hfound
    obtain rfl := Option.some.inj hfound
    split at he <;> obtain ⟨-, rfl⟩ := Prod.mk.inj (Option.some.inj he)
    · exact hi
    · intro child hchild
      rcases Table.mem_put.mp hchild with rfl | ⟨hold, -⟩
      · exact .inr ⟨repoId, hrepo, rfl, hholds.complete, hholds.only⟩
      · rcases hi child (Table.mem_erase.mp hold).1 with htmp | ⟨other, hmem, hname, hother⟩
        · exact .inl htmp
        · exact .inr ⟨other, hmem, hname, hother.complete, hother.only⟩
  | hubDownloadDataset repoId dirName =>
    obtain ⟨hrepo, rfl⟩ := hpre
    rcases exec_download he with ⟨-, files, rfl | rfl⟩ | ⟨-, files, rfl⟩
    · exact hi
    · exact sorted_download [] hapart hi hrepo
    · exact sorted_download [_] hapart hi hrepo
  | _ => exact hpre.elim

/-- A finished download is there to be published. -/
theorem published_of_download (hapart : repoIds.Pairwise Apart) (hi : Sorted repoIds w)
    (hrepo : repoId ∈ repoIds)
    (h : World.exec D.steady o w (.hubDownloadDataset repoId (tmpNameFor repoId)) =
      some (.ok (), w')) :
    ∃ child, w'.cache.get? (tmpNameFor repoId) = some child ∧ HoldsDownload w' repoId child := by
  have hpre : Informed repoIds .restart w (.hubDownloadDataset repoId (tmpNameFor repoId)) :=
    ⟨hrepo, rfl⟩
  have hi' : Sorted repoIds w' := sorted_exec hapart hi hpre (by simp [DatasetThere]) h
  rcases exec_download h with ⟨hne, -⟩ | ⟨-, files, rfl⟩
  · exact absurd rfl hne
  · have hname : ((w.cache.get? (tmpNameFor repoId)).getD { name := tmpNameFor repoId }).name =
        tmpNameFor repoId := Table.key_getD rfl
    obtain ⟨child, hchild, base, hfiles⟩ : ∃ child,
        (w.download o.time repoId (tmpNameFor repoId) files).cache.get? (tmpNameFor repoId) =
          some child ∧
        ∃ base : Table CachedFile String CachedFile.path, child.files =
          files.foldl (fun kept file => kept.put ⟨file.1, repoId, file.2⟩) base :=
      ⟨_, Table.get?_eq_some.mpr ⟨Table.mem_put_self _ _, hname⟩, _, rfl⟩
    refine ⟨child, hchild, ⟨files, List.mem_cons_self, fun file hfile => ?_⟩,
      only_of_tmpName hapart hi' hrepo hchild⟩
    rw [hfiles]
    exact mem_write_of_downloaded base hfile

/-- Nobody interferes, so a program is safe if its first call is and the rest of it after. -/
theorem safe_perform {β : Type} {post : Except Exc β → World → Prop} {c : Call}
    {f : c.Resp → Service β} (hpre : Informed repoIds op w c)
    (h : ∀ o r w', World.exec D.steady o w c = some (r, w') →
      Safe (World.exec D.steady) (outline repoIds) op post (f r) w') :
    Safe (World.exec D.steady) (outline repoIds) op post (perform c >>= f) w := by
  refine .perform ?_
  rintro w₁ rfl hi
  exact ⟨hpre, fun _ o r w' he => h o r w' he⟩

/-- An answer that may be an exception, which is passed on. -/
theorem safe_ofExcept {α β : Type} {post : Except Exc β → World → Prop} {r : Except Exc α}
    {f : α → Service β} (herror : ∀ e w, post (.error e) w)
    (h : ∀ a, r = .ok a → Safe (World.exec D.steady) (outline repoIds) op post (f a) w) :
    Safe (World.exec D.steady) (outline repoIds) op post (Prog.ofExcept r >>= f) w := by
  cases r with
  | error e => exact fun w₁ _ _ => herror e w₁
  | ok a => exact h a rfl

theorem safe_evictEntries {maxBytes total : ℤ}
    {entries : List CacheEntry} {post : Except Exc (List String) → World → Prop}
    (hpost : ∀ removed w, post (.ok removed) w) :
    Safe (World.exec D.steady) (outline repoIds) op post (evictEntries maxBytes total entries) w := by
  induction entries generalizing total post w with
  | nil => exact fun w₁ _ _ => hpost [] w₁
  | cons entry entries ih =>
    unfold evictEntries
    split
    · exact fun w₁ _ _ => hpost [] w₁
    · refine safe_perform trivial fun o r w' he => ?_
      exact .bind (preorders repoIds) (ih fun removed w₁ w₂ _ _ => hpost _ w₂)

theorem safe_evictLruUntilUnderCap {maxBytes : ℤ}
    {post : Except Exc (List String) → World → Prop} (hpost : ∀ removed w, post (.ok removed) w)
    (herror : ∀ e w, post (.error e) w) :
    Safe (World.exec D.steady) (outline repoIds) op post (evictLruUntilUnderCap maxBytes) w := by
  unfold evictLruUntilUnderCap
  refine .bind (preorders repoIds) ?_
  unfold listCacheEntries
  refine safe_perform trivial fun o children w' he => ?_
  refine safe_ofExcept herror fun children _ => ?_
  exact fun w₁ _ _ => safe_evictEntries hpost

theorem safe_cleanupChildren {olderThanSeconds now : ℤ}
    {children : List CacheChild} {post : Except Exc (List String) → World → Prop}
    (hpost : ∀ removed w, post (.ok removed) w) :
    Safe (World.exec D.steady) (outline repoIds) op post
      (cleanupChildren olderThanSeconds now children) w := by
  induction children generalizing post w with
  | nil => exact fun w₁ _ _ => hpost [] w₁
  | cons child children ih =>
    unfold cleanupChildren
    split
    · exact ih hpost
    · split
      · refine safe_perform trivial fun o r w' he => ?_
        exact .bind (preorders repoIds) (ih fun removed w₁ w₂ _ _ => hpost _ w₂)
      · exact ih hpost

theorem safe_cleanupStaleTmpDirs {olderThanSeconds : ℤ}
    {post : Except Exc (List String) → World → Prop} (hpost : ∀ removed w, post (.ok removed) w)
    (herror : ∀ e w, post (.error e) w) :
    Safe (World.exec D.steady) (outline repoIds) op post
      (cleanupStaleTmpDirs olderThanSeconds) w := by
  unfold cleanupStaleTmpDirs
  refine safe_perform trivial fun o now w₁ _ => ?_
  refine safe_perform trivial fun o' children w₂ _ => ?_
  exact safe_ofExcept herror fun children _ => safe_cleanupChildren hpost

/-- The directory is published only after its download. -/
theorem safe_fetchHfDataset (hapart : repoIds.Pairwise Apart) (hi : Sorted repoIds w)
    (hrepo : repoId ∈ repoIds) {post : Except Exc String → World → Prop}
    (hok : ∀ w, post (.ok (finalPathFor D.settings.hfCacheDir repoId)) w)
    (herror : ∀ e w, post (.error e) w) :
    Safe (World.exec D.steady) (outline repoIds) op post (fetchHfDataset D.settings repoId) w := by
  unfold fetchHfDataset
  refine safe_perform trivial fun o hit w₁ he => ?_
  have hexists : Informed repoIds op w (.cacheExists (finalNameFor repoId)) := trivial
  have hi₁ := sorted_exec hapart hi hexists (by simp [DatasetThere]) he
  refine safe_ofExcept herror fun hit _ => ?_
  split
  · refine safe_perform trivial fun o' _ w₂ _ => ?_
    exact safe_ofExcept herror fun _ _ => fun w₃ _ _ => hok w₃
  · refine safe_perform trivial fun o' _ w₁' he' => ?_
    have hmkdir : Informed repoIds op w₁ .cacheMkdir := trivial
    have hi₂ := sorted_exec hapart hi₁ hmkdir (by simp [DatasetThere]) he'
    refine safe_ofExcept herror fun _ _ => ?_
    refine safe_perform ⟨hrepo, rfl⟩ fun o' downloaded w₂ hd => ?_
    cases downloaded with
    | error e =>
      cases e <;> exact fun w₃ _ _ => herror _ w₃
    | ok u =>
      have hpublished := published_of_download hapart hi₂ hrepo hd
      refine .bind (preorders repoIds) ?_
      unfold finalizeDownload
      refine safe_perform ⟨repoId, hrepo, rfl, rfl, hpublished⟩ fun o'' replaced w₃ _ => ?_
      cases replaced with
      | error e => exact fun w₄ _ _ => herror e w₄
      | ok u' =>
        rintro w₄ rfl -
        refine .bind (preorders repoIds) (safe_evictLruUntilUnderCap ?_ herror)
        exact fun removed w₅ w₆ _ _ => hok w₆

theorem safe_fetchForJob (hapart : repoIds.Pairwise Apart) (hi : Sorted repoIds w) {job : Job}
    (hjob : job.sourceType = .hfHub) (hrepo : job.sourceRef ∈ repoIds)
    {post : Except Exc FetchedDataset → World → Prop}
    (hok : ∀ dataset w,
      dataset = ⟨finalPathFor D.settings.hfCacheDir job.sourceRef, true⟩ → post (.ok dataset) w)
    (herror : ∀ e w, post (.error e) w) {jobDir : String} :
    Safe (World.exec D.steady) (outline repoIds) op post
      (fetchForJob D.lib D.settings job jobDir) w := by
  unfold fetchForJob
  rw [hjob]
  refine .bind (preorders repoIds) (safe_fetchHfDataset hapart hi hrepo ?_ herror)
  exact fun w₁ w₂ _ _ => hok _ w₂ rfl

theorem safe_failDuringStart {job : Job} {errorMessage : String}
    {post : Except Exc (Option Job) → World → Prop} (hpost : ∀ r w, post r w) :
    Safe (World.exec D.steady) (outline repoIds) op post
      (JobPoller.failDuringStart job errorMessage) w := by
  unfold JobPoller.failDuringStart
  refine safe_perform trivial fun o now w₁ _ => ?_
  refine safe_ofExcept (fun e w => hpost _ w) fun failed _ => ?_
  refine safe_perform trivial fun o' u w₂ _ => ?_
  exact fun w₃ _ _ => hpost _ w₃

/-- The container gets the directory that the fetch returned. -/
theorem safe_launch (hapart : repoIds.Pairwise Apart) (hi : Sorted repoIds w) {job : Job}
    (hjob : job.sourceType = .hfHub) (hrepo : job.sourceRef ∈ repoIds)
    {post : Except Exc (Option Job) → World → Prop} (hpost : ∀ r w, post r w) :
    Safe (World.exec D.steady) (outline repoIds) (.launch job) post
      (JobPoller.launch D.lib D.settings job) w := by
  unfold JobPoller.launch
  refine .bind (preorders repoIds) (.attempt ?_)
  refine safe_fetchForJob hapart hi hjob hrepo (fun dataset w₁ hdataset => ?_) fun e w₁ => ?_
  · subst hdataset
    have hmounts := JobPoller.cacheMounts_buildContainerSpec D.settings job
      s!"{D.settings.workdir}/{job.id}" job.sourceRef
    refine safe_perform ⟨job, rfl, hmounts⟩ fun o r w₂ _ => ?_
    cases r with
    | error e => exact safe_failDuringStart hpost
    | ok containerId =>
      refine safe_perform trivial fun o' u w₃ _ => ?_
      exact fun w₄ _ _ => hpost _ w₄
  · cases e with
    | datasetFetch m => exact safe_failDuringStart hpost
    | _ => exact fun w₂ _ _ => hpost _ w₂

end

theorem sorted_occur {repoIds : Set String} {v : Event} {w w' : World} (hi : Sorted repoIds w)
    (h : World.occur v w = some w') : Sorted repoIds w' := by
  cases World.occurred_of_occur h with
  | put data hissued =>
    intro child hchild
    rcases hi child hchild with htmp | ⟨repoId, hmem, hname, hholds⟩
    · exact .inl htmp
    · obtain ⟨files, hlog, hfiles⟩ := hholds.complete
      exact .inr ⟨repoId, hmem, hname, ⟨files, List.mem_cons_of_mem _ hlog, hfiles⟩, hholds.only⟩
  | _ => exact hi.congr rfl (List.suffix_refl _)

theorem fetches_of_active {repoIds : Set String} {op : CacheOp}
    (h : Active (FetchesOnly repoIds) op) : op.Fetches repoIds := by
  rcases h with hspawn | hstart | ⟨xs, hwhole | hcut⟩
  · exact hspawn.elim
  · exact hstart.elim
  · exact hwhole
  · exact hcut

theorem sound (D : Deployment) {repoIds : Set String} (hapart : repoIds.Pairwise Apart) :
    (outline repoIds).Sound D.cacheMachine (FetchesOnly repoIds) fun _ _ _ => True where
  preorders := preorders repoIds
  exec op o w c r w' _ hi hpre hcond he := by
    refine ⟨sorted_exec hapart hi hpre hcond he, fun op' hoverlap => ?_⟩
    rcases hoverlap.1 with ⟨hpool, -⟩ | ⟨-, hstart⟩
    · cases hpool
    · exact hstart.elim
  occur v w w' _ hi he := by
    refine ⟨sorted_occur hi he, fun op' hflight => ?_⟩
    rcases hflight with ⟨hpool, -⟩ | ⟨-, hstart⟩
    · cases hpool
    · exact hstart.elim
  code op hop w hi := by
    have hfetches := fetches_of_active hop
    cases op with
    | launch job =>
      refine .bind (preorders repoIds) (safe_launch hapart hi hfetches.1 hfetches.2 ?_)
      intro r w₁
      cases r with
      | error e => trivial
      | ok started => exact fun w₂ _ _ => trivial
    | restart =>
      refine .bind (preorders repoIds) (safe_cleanupStaleTmpDirs ?_ fun _ _ => trivial)
      exact fun removed w₁ w₂ _ _ => trivial

end DatasetCache

open DatasetCache

/-- Every sequence of jobs, crashes and restarts from an empty cache, whatever else happens in
between: if no two of the repositories share a directory, and no container is started for a dataset
that is gone, a fetch returns what it should. -/
theorem fetches_right (D : Deployment) {repoIds : Set String} (hapart : repoIds.Pairwise Apart)
    {w : World} (hempty : w.cache = Table.empty) {ls : List (Label CacheOp Choice Event)}
    (hl : ∀ l ∈ ls, FetchesOnly repoIds l) {rs : List (Record CacheOp Call World)}
    {c : Conf CacheOp Call Call.Resp Exc World}
    (hr : D.cacheMachine.run (.initial w) ls = some (rs, c))
    (hthere : ∀ r ∈ rs, DatasetThere r.op r.before r.call) {job : Job}
    (hjob : job.sourceType = .hfHub) (hrepo : job.sourceRef ∈ repoIds) :
    FetchesRight D c.state job := by
  have hstart : Sorted repoIds w := by
    intro child hchild
    rw [hempty] at hchild
    exact absurd hchild (Table.not_mem_empty child)
  obtain ⟨-, hgood⟩ := (sound D hapart).run (.initial hstart) hl hr fun r hmem _ => hthere r hmem
  have hi : Sorted repoIds c.state := hgood.inv
  have hrestart : ∀ w c, DatasetThere .restart w c := by simp [DatasetThere]
  intro xs dataset w' heval
  have hsafe : Safe (World.exec D.steady) (outline repoIds) .restart
      (fun r _ => ∀ dataset, r = .ok dataset →
        dataset.inputDir = finalPathFor D.settings.hfCacheDir job.sourceRef)
      (fetchForJob D.lib D.settings job s!"{D.settings.workdir}/{job.id}") c.state := by
    refine safe_fetchForJob hapart hi hjob hrepo ?_ fun e w => by simp
    rintro dataset w rfl other heq
    rw [← Except.ok.inj heq]
  have hexec : ∀ o w c r w', Sorted repoIds w → Informed repoIds .restart w c →
      World.exec D.steady o w c = some (r, w') → Sorted repoIds w' := fun o w c r w' hi hpre =>
    sorted_exec hapart hi hpre (hrestart w c)
  obtain ⟨hi', hdir⟩ := eval_safe (preorders repoIds) hrestart hexec hsafe hi heval
  refine ⟨hdir dataset rfl, fun child hchild => ?_⟩
  exact holds_of_finalName hapart hi' hrepo hchild

namespace DatasetCache

/-- A job on a dataset of the hub. -/
def job (repoId : String) : Job where
  id := "job"
  userId := "user"
  policy := .act
  sourceType := .hfHub
  sourceRef := repoId
  trainingSteps := 100
  createdAt := 0
  updatedAt := 0

/-- A job on a repository of two files. -/
def pair : Job := job "org/pair"

/-- Two repositories that are downloaded into the same directory, and one of its own. -/
def twins : World where
  repos := ((Table.empty.put ("a/b__c", [("meta/info.json", [1])])).put
    ("a__b/c", [("meta/info.json", [2])])).put
    ("org/pair", [("meta/info.json", [3]), ("data/chunk", [4])])

/-- A job on this repository gets its container. -/
def launched (repoId : String) : Label CacheOp Choice Event :=
  .whole (.launch (job repoId)) (List.replicate 7 { text := "c" })

/-- A download that is cut short when the first file is written, a restart much later, and the job
once more. -/
def resumed : List (Label CacheOp Choice Event) :=
  [.cut (.launch (job "org/pair"))
      [{}, {}, { paths := ["meta/info.json"], fault := some (.other "OSError" "") }],
    .whole .restart [{ time := seconds 1000000 }, {}, {}], launched "org/pair"]

theorem launched_only {repoIds : Set String} {repoId : String} (h : repoId ∈ repoIds) :
    FetchesOnly repoIds (launched repoId) := ⟨rfl, h⟩

theorem resumed_only : ∀ l ∈ resumed, FetchesOnly {"a/b__c", "org/pair"} l := by
  unfold resumed
  rw [List.forall_mem_cons, List.forall_mem_cons, List.forall_mem_singleton]
  exact ⟨⟨rfl, by simp [job]⟩, trivial, launched_only (by simp)⟩

/-- The files that a fetch for the job returns, if it returns a directory. -/
def fetchedFiles (D : Deployment) (w : World) (job : Job) : Option (List CachedFile) :=
  (eval (World.exec D.steady) (fun _ => {}) w
      (fetchForJob D.lib D.settings job s!"{D.settings.workdir}/{job.id}")).bind fun out =>
    out.1.toOption.bind fun _ =>
      (out.2.cache.get? (finalNameFor job.sourceRef)).map fun child => child.files.rows

theorem of_fetchedFiles {D : Deployment} {w : World} {job : Job} {files : List CachedFile}
    (h : fetchedFiles D w job = some files) :
    ∃ dataset w' child, eval (World.exec D.steady) (fun _ => {}) w
        (fetchForJob D.lib D.settings job s!"{D.settings.workdir}/{job.id}") =
          some (.ok dataset, w') ∧
      w'.cache.get? (finalNameFor job.sourceRef) = some child ∧ child.files.rows = files := by
  obtain ⟨⟨r, w'⟩, heval, hrest⟩ := Option.bind_eq_some_iff.mp h
  obtain ⟨dataset, hok, hchild⟩ := Option.bind_eq_some_iff.mp hrest
  obtain ⟨child, hget, hfiles⟩ := Option.map_eq_some_iff.mp hchild
  cases r with
  | error e => cases hok
  | ok dataset' => exact ⟨dataset', w', child, heval, hget, hfiles⟩

/-- Is the dataset there when this call starts a container? -/
def checkDatasetThere (r : Record CacheOp Call World) : Bool :=
  match r.op, r.call with
  | .launch job, .dockerRun _ => (r.before.cache.get? (finalNameFor job.sourceRef)).isSome
  | _, _ => true

theorem datasetThere_of_check {r : Record CacheOp Call World} (h : checkDatasetThere r = true) :
    DatasetThere r.op r.before r.call := by
  intro job spec hop hcall
  unfold checkDatasetThere at h
  rwa [hop, hcall] at h

end DatasetCache

/-- The directory of the first repository is taken for that of the second one. -/
theorem fetches_right_fails : ¬ ∀ (D : Deployment) (repoIds : Set String) (w : World)
    (ls : List (Label CacheOp Choice Event)) (rs : List (Record CacheOp Call World))
    (c : Conf CacheOp Call Call.Resp Exc World) (job : Job), w.cache = Table.empty →
    (∀ l ∈ ls, FetchesOnly repoIds l) → D.cacheMachine.run (.initial w) ls = some (rs, c) →
    job.sourceType = .hfHub → job.sourceRef ∈ repoIds → FetchesRight D c.state job := by
  intro h
  have hrun : (Deployment.sample.cacheMachine.run (.initial twins) [launched "a/b__c"]).any
      (fun out => ((fetchedFiles .sample out.2.state (job "a__b/c")).any fun files =>
        files.any fun file => file.repoId = "a/b__c")) = true := by decide +kernel
  obtain ⟨⟨rs, c⟩, hr, hmixes⟩ := (Option.any_eq_true _ _).mp hrun
  obtain ⟨files, hfiles, hmixed⟩ := (Option.any_eq_true _ _).mp hmixes
  obtain ⟨file, hfile, hother⟩ := List.any_eq_true.mp hmixed
  obtain ⟨dataset, w', child, heval, hchild, rfl⟩ := of_fetchedFiles hfiles
  have hright : FetchesRight .sample c.state (job "a__b/c") :=
    h .sample {"a/b__c", "a__b/c"} twins [launched "a/b__c"] rs c (job "a__b/c") rfl
      (List.forall_mem_singleton.mpr (launched_only (by simp))) hr rfl (by simp [job])
  have honly := ((hright _ _ _ heval).2 child hchild).only file hfile
  rw [of_decide_eq_true hother] at honly
  exact absurd honly (by decide)

/-- After a crash in the middle of the download, and a restart, the next fetch returns a directory
with both files. -/
theorem fetches_right_cached : ∃ rs c dataset w' child,
    Deployment.sample.cacheMachine.run (.initial twins) resumed = some (rs, c) ∧
      eval (World.exec Deployment.sample.steady) (fun _ => {}) c.state
        (fetchForJob Deployment.sample.lib Deployment.sample.settings pair
          s!"{Deployment.sample.settings.workdir}/{pair.id}") =
        some (.ok dataset, w') ∧
      w'.cache.get? (finalNameFor "org/pair") = some child ∧ child.files.rows.length = 2 ∧
      HoldsDownload w' "org/pair" child := by
  have hrun : (Deployment.sample.cacheMachine.run (.initial twins) resumed).any (fun out =>
      out.1.all checkDatasetThere && (fetchedFiles .sample out.2.state pair).any fun files =>
        files.length = 2) = true := by decide +kernel
  obtain ⟨⟨rs, c⟩, hr, hout⟩ := (Option.any_eq_true _ _).mp hrun
  obtain ⟨hall, hfetched⟩ := Bool.and_eq_true_iff.mp hout
  obtain ⟨files, hfiles, hlength⟩ := (Option.any_eq_true _ _).mp hfetched
  obtain ⟨dataset, w', child, heval, hchild, rfl⟩ := of_fetchedFiles hfiles
  have hapart : Set.Pairwise {"a/b__c", "org/pair"} Apart := by
    rw [Set.pairwise_pair]
    intro _
    exact ⟨⟨by decide +kernel, by decide +kernel⟩, by decide +kernel, by decide +kernel⟩
  have hthere : ∀ r ∈ rs, DatasetThere r.op r.before r.call := fun r hmem =>
    datasetThere_of_check (List.all_eq_true.mp hall r hmem)
  have hright : FetchesRight .sample c.state pair :=
    fetches_right .sample hapart rfl resumed_only hr hthere rfl (by simp [pair, job])
  exact ⟨rs, c, dataset, w', child, hr, heval, hchild, of_decide_eq_true hlength,
    (hright _ _ _ heval).2 child hchild⟩

end TrainVla
