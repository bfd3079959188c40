import TrainVla.Worker.Settings
import Mathlib.Data.List.Sort
import Mathlib.Algebra.Ring.Nat

/-! The dataset cache on the disk of the worker. A child of the cache directory is known by its
name; downloads land in a child whose name ends in `.tmp`. -/
namespace TrainVla.DiskManager

open Interaction

def tmpSuffix : String := ".tmp"

def endsWith (name suffix : String) : Bool := suffix.toList.isSuffixOf name.toList

structure CacheEntry where
  name : String
  sizeBytes : ℕ
  mtime : ℤ

def directorySizeBytes (child : CacheChild) : ℕ :=
  (child.files.rows.map fun file => file.content.length).sum

def cacheEntry (child : CacheChild) : CacheEntry where
  name := child.name
  sizeBytes := directorySizeBytes child
  mtime := child.mtime

def listCacheEntries : Service (List CacheEntry) := do
  let children ← Prog.ofExcept (← perform .cacheIterdir)
  pure ((children.filter fun child => child.isDir && !endsWith child.name tmpSuffix).map cacheEntry)

/-- The loop of `evictLruUntilUnderCap` over the entries, oldest first. -/
def evictEntries (maxBytes total : ℤ) : List CacheEntry → Service (List String)
  | [] => pure []
  | entry :: entries =>
    if total ≤ maxBytes then pure []
    else do
      perform (.cacheRmtree entry.name)
      let removed ← evictEntries maxBytes (total - entry.sizeBytes) entries
      pure (entry.name :: removed)

def evictLruUntilUnderCap (maxBytes : ℤ) : Service (List String) := do
  let entries ← listCacheEntries
  let entries := entries.insertionSort fun a b => a.mtime ≤ b.mtime
  evictEntries maxBytes (entries.map CacheEntry.sizeBytes).sum entries

/-- The loop of `cleanupStaleTmpDirs`. -/
def cleanupChildren (olderThanSeconds now : ℤ) : List CacheChild → Service (List String)
  | [] => pure []
  | child :: children =>
    if !child.isDir || !endsWith child.name tmpSuffix then
      cleanupChildren olderThanSeconds now children
    else if now - child.mtime > seconds olderThanSeconds then do
      perform (.cacheRmtree child.name)
      let removed ← cleanupChildren olderThanSeconds now children
      pure (child.name :: removed)
    else cleanupChildren olderThanSeconds now children

def cleanupStaleTmpDirs (olderThanSeconds : ℤ) : Service (List String) := do
  let now ← perform .now
  let children ← Prog.ofExcept (← perform .cacheIterdir)
  cleanupChildren olderThanSeconds now children

/-- `repo_id.replace("/", "__")`. -/
def safeName (repoId : String) : String :=
  String.ofList (repoId.toList.flatMap fun c => if c = '/' then ['_', '_'] else [c])

theorem slash_not_mem_safeName (repoId : String) : '/' ∉ (safeName repoId).toList := by
  unfold safeName
  rw [String.toList_ofList, List.mem_flatMap]
  rintro ⟨c, -, hc⟩
  split at hc
  · simp at hc
  · rename_i hslash
    exact hslash (List.mem_singleton.mp hc).symm

def tmpNameFor (repoId : String) : String := safeName repoId ++ tmpSuffix

def finalNameFor (repoId : String) : String := safeName repoId

def finalPathFor (cacheDir repoId : String) : String :=
  let dirName := finalNameFor repoId
  s!"{cacheDir}/{dirName}"

/-- Publish a download by renaming its directory. -/
def finalizeDownload (tmpName finalName : String) : Service Unit := do
  Prog.ofExcept (← perform (.cacheReplace tmpName finalName))

end TrainVla.DiskManager
