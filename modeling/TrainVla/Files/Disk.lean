import TrainVla.Interaction.Program
import Mathlib.Data.List.Basic
import Mathlib.Logic.Function.Basic

/-! A directory of files. A name leads to a file, and a file that is open stays the same file
whatever its name leads to afterwards. -/
namespace Files

open Interaction

/-- What the names lead to, what is in the files, and the files that were put in place by a
renaming, newest first, with what was in them at the time. -/
structure Disk (N B : Type) where
  entry : N → Option ℕ
  content : ℕ → List B
  fresh : ℕ
  published : List (ℕ × List B)

inductive FileError
  | notFound
  | stillGrowing

/-- `create` is what opening for writing does first. The last two are not calls of a program: they
note how much was in place before a reader began, and what it has read since, newest first. -/
inductive FileCall (N B : Type)
  | stat (name : N)
  | create (name : N)
  | write (file : ℕ) (data : List B)
  | replace (source target : N)
  | openRead (name : N)
  | read (file position : ℕ)
  | mark
  | report (contents : List (ℕ × Option (List B)))

variable {N B : Type}

@[reducible] def FileCall.Resp : FileCall N B → Type
  | stat _ => Bool
  | create _ | write .. | mark => ℕ
  | replace .. | report _ => Unit
  | openRead _ => Option (ℕ × ℕ)
  | read .. => List B

def FileCall.replaces : FileCall N B → Bool
  | replace .. => true
  | _ => false

def FileCall.changes : FileCall N B → Bool
  | create _ | write .. | replace .. => true
  | _ => false

abbrev FileProg (N B : Type) := Prog (FileCall N B) FileCall.Resp FileError

def perform (c : FileCall N B) : FileProg N B c.Resp := Prog.perform c

namespace Disk

def empty : Disk N B where
  entry _ := none
  content _ := []
  fresh := 0
  published := []

/-- What was put in place, in order. -/
def placed (d : Disk N B) : List (List B) := (d.published.map Prod.snd).reverse

variable [DecidableEq N]

/-- An existing file is emptied, and otherwise there is a new one. -/
def create (d : Disk N B) (name : N) : ℕ × Disk N B :=
  match d.entry name with
  | some file => (file, { d with content := Function.update d.content file [] })
  | none => (d.fresh,
      { d with
        entry := Function.update d.entry name (some d.fresh)
        content := Function.update d.content d.fresh []
        fresh := d.fresh + 1 })

theorem create_of_some {d : Disk N B} {name : N} {file : ℕ} (h : d.entry name = some file) :
    d.create name = (file, { d with content := Function.update d.content file [] }) := by
  simp [create, h]

theorem create_of_none {d : Disk N B} {name : N} (h : d.entry name = none) :
    d.create name = (d.fresh,
      { d with
        entry := Function.update d.entry name (some d.fresh)
        content := Function.update d.content d.fresh []
        fresh := d.fresh + 1 }) := by
  simp [create, h]

theorem published_create (d : Disk N B) (name : N) : (d.create name).2.published = d.published := by
  cases h : d.entry name with
  | some file => rw [create_of_some h]
  | none => rw [create_of_none h]

def append (d : Disk N B) (file : ℕ) (data : List B) : Disk N B :=
  { d with content := Function.update d.content file (d.content file ++ data) }

def publish (d : Disk N B) (source target : N) (file : ℕ) : Disk N B :=
  { d with
    entry := fun name =>
      if name = target then some file else if name = source then none else d.entry name
    published := (file, d.content file) :: d.published }

/-- The system settles how much of the data a `write` takes, and how much a `read` gives; it is
nothing only where nothing is left. -/
def exec (amount : ℕ) (d : Disk N B) : (c : FileCall N B) → Option (c.Resp × Disk N B)
  | .stat name => some ((d.entry name).isSome, d)
  | .create name => some (d.create name)
  | .write file data =>
    if 0 < amount ∧ amount ≤ data.length then some (amount, d.append file (data.take amount))
    else none
  | .replace source target => (d.entry source).map fun file => ((), d.publish source target file)
  | .openRead name => some ((d.entry name).map fun file => (file, (d.content file).length), d)
  | .read file position =>
    if 0 < amount then some (((d.content file).drop position).take amount, d) else none
  | .mark => some (d.published.length, d)
  | .report _ => some ((), d)

variable {d d' : Disk N B} {amount file : ℕ}

theorem exec_create {name : N} {r : ℕ} (he : exec amount d (.create name) = some (r, d')) :
    r = (d.create name).1 ∧ d' = (d.create name).2 := by
  have h := Option.some.inj he
  rw [h]
  exact ⟨rfl, rfl⟩

theorem exec_write {data : List B} {r : ℕ} (he : exec amount d (.write file data) = some (r, d')) :
    (0 < amount ∧ amount ≤ data.length) ∧ r = amount ∧ d' = d.append file (data.take amount) := by
  unfold exec at he
  dsimp only at he
  split at he
  · rename_i hamount
    obtain ⟨rfl, rfl⟩ := Prod.mk.inj (Option.some.inj he)
    exact ⟨hamount, rfl, rfl⟩
  · cases he

theorem exec_replace {source target : N} {r : Unit}
    (he : exec amount d (.replace source target) = some (r, d')) :
    ∃ file, d.entry source = some file ∧ d' = d.publish source target file := by
  obtain ⟨file, hfile, h⟩ := Option.map_eq_some_iff.mp he
  exact ⟨file, hfile, (Prod.mk.inj h).2.symm⟩

theorem exec_read {position : ℕ} {r : List B}
    (he : exec amount d (.read file position) = some (r, d')) :
    0 < amount ∧ r = ((d.content file).drop position).take amount ∧ d' = d := by
  unfold exec at he
  dsimp only at he
  split at he
  · rename_i hamount
    obtain ⟨rfl, rfl⟩ := Prod.mk.inj (Option.some.inj he)
    exact ⟨hamount, rfl, rfl⟩
  · cases he

theorem exec_unchanged {c : FileCall N B} {r : c.Resp} (hc : c.changes = false)
    (he : exec amount d c = some (r, d')) : d' = d := by
  cases c with
  | read file position => exact (exec_read he).2.2
  | create name => cases hc
  | write file data => cases hc
  | replace source target => cases hc
  | _ => exact (Prod.mk.inj (Option.some.inj he)).2.symm

end Disk

/-- As many calls as it takes, and never more than there is to write. -/
def writeAll (file : ℕ) : ℕ → List B → FileProg N B Unit
  | 0, _ => pure ()
  | _ + 1, [] => pure ()
  | fuel + 1, b :: data => do
    let written ← perform (.write file (b :: data))
    writeAll file fuel ((b :: data).drop written)

/-- Writing to another name first, and renaming. -/
def replaceFile (tmp target : N) (data : List B) : FileProg N B Unit := do
  let file ← perform (.create tmp)
  writeAll file data.length data
  perform (.replace tmp target)

/-- Reading on to the end of the file. A file that is read to the size it had when it was opened is
read once more, and has not grown. -/
def readRest (file : ℕ) : ℕ → List B → FileProg N B (List B)
  | 0, _ => .raise .stillGrowing
  | fuel + 1, got => do
    let chunk ← perform (.read file got.length)
    if chunk.isEmpty then pure got else readRest file fuel (got ++ chunk)

/-- The content of a file, if it exists. -/
def readFile (name : N) : FileProg N B (Option (List B)) := do
  if ← perform (.stat name) then
    match ← perform (.openRead name) with
    | none => .raise .notFound
    | some (file, size) => do
      let content ← readRest file (size + 1) []
      pure (some content)
  else pure none

/-- Reading again and again. -/
def follow (name : N) : ℕ → List (ℕ × Option (List B)) → FileProg N B Unit
  | 0, _ => pure ()
  | times + 1, contents => do
    let since ← perform .mark
    let content ← readFile name
    perform (.report ((since, content) :: contents))
    follow name times ((since, content) :: contents)

end Files
