import TrainVla.Store.Table
import TrainVla.Common.Models

/-! Containers on the GPU host, and `DockerRunner` on top of them. -/
namespace TrainVla

open Store

/-- Every container of this service carries this label. -/
def lerobotJobIdLabel : String := "lerobot.job_id"

structure ContainerSpec where
  image : String
  name : String
  command : List String
  volumes : Table (String × String) String Prod.fst
  environment : List (String × String)
  labels : List (String × String)
  useGpu : Bool := true
  readOnlyPaths : List String := []

/-- The job a container is started for. -/
def ContainerSpec.jobId? (spec : ContainerSpec) : Option String :=
  spec.labels.lookup lerobotJobIdLabel

/-- The last component of a path. -/
def baseName (path : String) : String :=
  String.ofList (path.toList.reverse.takeWhile fun c => c ≠ '/').reverse

theorem baseName_append {name : String} (dir : String) (h : '/' ∉ name.toList) :
    baseName s!"{dir}/{name}" = name := by
  have hpath : s!"{dir}/{name}".toList = dir.toList ++ '/' :: name.toList := by
    simp [toString]
  have hname : ∀ c ∈ name.toList.reverse, decide (c ≠ '/') = true := by
    intro c hc
    apply decide_eq_true
    rintro rfl
    exact h (List.mem_reverse.mp hc)
  unfold baseName
  rw [hpath, List.reverse_append, List.reverse_cons, List.append_assoc,
    List.takeWhile_append_of_pos hname]
  simp

/-- The children of the dataset cache among the mounted directories. Nothing else is mounted
read-only. -/
def ContainerSpec.cacheMounts (spec : ContainerSpec) : List String :=
  (spec.volumes.rows.filter fun mount => mount.1 ∈ spec.readOnlyPaths).map fun mount =>
    baseName mount.1

inductive ContainerState
  | running
  | exited (code : ℤ)
  | removed
  deriving DecidableEq

/-- Identifiers are never used twice, so a container that was removed keeps its row. -/
structure Container where
  id : String
  spec : ContainerSpec
  state : ContainerState

abbrev Containers := Table Container String Container.id

namespace Containers

def stateOf (cs : Containers) (containerId : String) : ContainerState :=
  match cs.get? containerId with
  | some c => c.state
  | none => .removed

def setState (cs : Containers) (containerId : String) (state : ContainerState) : Containers :=
  match cs.get? containerId with
  | some c => cs.put { c with state := state }
  | none => cs

/-- `kill` raises for a container that is there but not running; one that is gone is
taken as done. -/
def kill (cs : Containers) (containerId : String) : Except Exc Containers :=
  match cs.stateOf containerId with
  | .removed => .ok cs
  | .running => .ok (cs.setState containerId (.exited 137))
  | .exited _ => .error (.other "APIError" s!"container {containerId} is not running")

/-- No exit code for a running container, nor for one that does not exist. -/
def getExitCode (cs : Containers) (containerId : String) : Option ℤ :=
  match cs.stateOf containerId with
  | .removed => none
  | .running => none
  | .exited code => some code

def listRunningContainerIds (cs : Containers) : List String :=
  (cs.rows.filter fun c => c.state = .running ∧ c.spec.jobId?.isSome).map Container.id

theorem get?_setState (cs : Containers) (containerId : String) (state : ContainerState)
    (j : String) : (cs.setState containerId state).get? j =
      (cs.get? j).map fun c => if j = containerId then { c with state := state } else c := by
  unfold setState
  cases hget : cs.get? containerId with
  | none =>
    dsimp only
    by_cases hj : j = containerId
    · rw [hj, hget]
      rfl
    · simp [hj]
  | some c =>
    dsimp only
    have hid : c.id = containerId := Table.key_of_get? hget
    rw [Table.get?_put]
    dsimp only
    rw [hid]
    by_cases hj : j = containerId
    · rw [if_pos hj, hj, hget]
      simp [hid]
    · simp [hj]

/-- What is left of the containers when these were killed. -/
def killed (cs : Containers) (ids : List String) : Containers :=
  ids.foldl (fun kept id => kept.setState id (.exited 137)) cs

theorem get?_killed (cs : Containers) (ids : List String) (j : String) : (cs.killed ids).get? j =
    (cs.get? j).map fun c => if j ∈ ids then { c with state := .exited 137 } else c := by
  induction ids generalizing cs with
  | nil => simp [killed]
  | cons id ids ih =>
    have hfirst : cs.killed (id :: ids) = (cs.setState id (.exited 137)).killed ids := rfl
    rw [hfirst, ih, get?_setState, Option.map_map]
    congr 1
    funext c
    by_cases hj : j = id
    · by_cases hrest : j ∈ ids <;> simp [hj]
    · simp [hj]

/-- Killing creates no container. -/
theorem of_mem_killed {cs : Containers} {ids : List String} {c : Container} (h : c ∈ cs.killed ids) :
    ∃ old ∈ cs, (if c.id ∈ ids then { old with state := .exited 137 } else old) = c := by
  have hget := Table.get?_of_mem h
  rw [get?_killed] at hget
  obtain ⟨old, hold, hc⟩ := Option.map_eq_some_iff.mp hget
  exact ⟨old, Table.mem_of_get? hold, hc⟩

/-- A container that is not named is kept. -/
theorem mem_killed_of_notMem {cs : Containers} {ids : List String} {c : Container} (hc : c ∈ cs)
    (h : c.id ∉ ids) : c ∈ cs.killed ids := by
  have hget : (cs.killed ids).get? c.id = some c := by
    rw [get?_killed, Table.get?_of_mem hc, Option.map_some, if_neg h]
  exact Table.mem_of_get? hget

/-- A container that runs can be killed. -/
theorem kill_running {cs : Containers} {containerId : String}
    (h : cs.stateOf containerId = .running) :
    cs.kill containerId = .ok (cs.killed [containerId]) := by
  unfold kill
  rw [h]
  rfl

theorem stateOf_killed_of_notMem {cs : Containers} {ids : List String} {j : String} (h : j ∉ ids) :
    (cs.killed ids).stateOf j = cs.stateOf j := by
  unfold stateOf
  rw [get?_killed]
  cases cs.get? j <;> simp [h]

theorem mem_listRunningContainerIds {cs : Containers} {containerId : String} :
    containerId ∈ cs.listRunningContainerIds ↔
      ∃ c ∈ cs, c.id = containerId ∧ c.state = .running ∧ c.spec.jobId?.isSome = true := by
  unfold listRunningContainerIds
  rw [List.mem_map]
  constructor
  · rintro ⟨c, hc, rfl⟩
    obtain ⟨hmem, hrunning⟩ := List.mem_filter.mp hc
    obtain ⟨hstate, hlabel⟩ := of_decide_eq_true hrunning
    exact ⟨c, hmem, rfl, hstate, hlabel⟩
  · rintro ⟨c, hmem, rfl, hstate, hlabel⟩
    exact ⟨c, List.mem_filter.mpr ⟨hmem, decide_eq_true ⟨hstate, hlabel⟩⟩, rfl⟩

theorem stateOf_of_mem {cs : Containers} {c : Container} (h : c ∈ cs) :
    cs.stateOf c.id = c.state := by
  unfold stateOf
  rw [Table.get?_of_mem h]

/-- Kill one after the other, up to the first that raises. -/
def killEach (cs : Containers) : List String → Except Exc Containers
  | [] => .ok cs
  | id :: ids => (cs.kill id).bind fun kept => killEach kept ids

theorem killEach_cons_removed {cs : Containers} {id : String} (ids : List String)
    (h : cs.stateOf id = .removed) : cs.killEach (id :: ids) = cs.killEach ids := by
  have hkill : cs.kill id = .ok cs := by
    unfold kill
    rw [h]
  rw [killEach, hkill]
  rfl

theorem killEach_cons_running {cs : Containers} {id : String} (ids : List String)
    (h : cs.stateOf id = .running) :
    cs.killEach (id :: ids) = (cs.killed [id]).killEach ids := by
  rw [killEach, kill_running h]
  rfl

theorem killEach_cons_exited {cs : Containers} {id : String} {code : ℤ} (ids : List String)
    (h : cs.stateOf id = .exited code) (kept : Containers) :
    cs.killEach (id :: ids) ≠ .ok kept := by
  have hkill : cs.kill id =
      .error (.other "APIError" s!"container {id} is not running") := by
    unfold kill
    rw [h]
  rw [killEach, hkill]
  exact nofun

theorem stateOf_killed_running {cs : Containers} {id : String} (h : cs.stateOf id = .running) :
    (cs.killed [id]).stateOf id = .exited 137 := by
  unfold stateOf at h ⊢
  rw [get?_killed]
  cases hget : cs.get? id with
  | none =>
    rw [hget] at h
    cases h
  | some c => simp

/-- What was named and ran is killed, everything else is as before. -/
theorem get?_killEach {cs kept : Containers} {ids : List String} (h : cs.killEach ids = .ok kept)
    (j : String) : kept.get? j = (cs.get? j).map fun c =>
      if j ∈ ids ∧ c.state = .running then { c with state := .exited 137 } else c := by
  induction ids generalizing cs with
  | nil =>
    obtain rfl := Except.ok.inj h
    simp
  | cons id ids ih =>
    cases hstate : cs.stateOf id with
    | removed =>
      rw [killEach_cons_removed ids hstate] at h
      rw [ih h]
      by_cases hj : j = id
      · subst hj
        unfold stateOf at hstate
        cases hget : cs.get? j with
        | none => rfl
        | some c =>
          rw [hget] at hstate
          have hremoved : c.state = .removed := hstate
          simp [hremoved]
      · simp [hj]
    | running =>
      rw [killEach_cons_running ids hstate] at h
      rw [ih h, get?_killed, Option.map_map]
      by_cases hj : j = id
      · subst hj
        unfold stateOf at hstate
        cases hget : cs.get? j with
        | none => rfl
        | some c =>
          rw [hget] at hstate
          have hrunning : c.state = .running := hstate
          simp [hrunning]
      · congr 1
        funext c
        simp [hj]
    | exited code => exact absurd h (killEach_cons_exited ids hstate kept)

/-- All are killed if none has exited and none that runs is named twice. -/
theorem killEach_ok_iff {cs : Containers} {ids : List String} :
    (∃ kept, cs.killEach ids = .ok kept) ↔ (∀ id ∈ ids, ∀ code, cs.stateOf id ≠ .exited code) ∧
      ids.Pairwise fun a b => a = b → cs.stateOf a ≠ .running := by
  induction ids generalizing cs with
  | nil => simp [killEach]
  | cons id ids ih =>
    rw [List.forall_mem_cons, List.pairwise_cons]
    cases hstate : cs.stateOf id with
    | removed =>
      rw [killEach_cons_removed ids hstate, ih]
      simp
    | running =>
      rw [killEach_cons_running ids hstate, ih]
      have hsame : id ∉ ids → ∀ j ∈ ids, (cs.killed [id]).stateOf j = cs.stateOf j := by
        intro hid j hj
        apply stateOf_killed_of_notMem
        rw [List.mem_singleton]
        rintro rfl
        exact hid hj
      constructor
      · rintro ⟨hexited, honce⟩
        have hid : id ∉ ids := fun hmem => hexited id hmem 137 (stateOf_killed_running hstate)
        refine ⟨⟨fun _ => ContainerState.noConfusion, fun j hj code => ?_⟩, fun j hj heq => ?_, ?_⟩
        · rw [← hsame hid j hj]
          exact hexited j hj code
        · exact absurd (heq ▸ hj) hid
        · apply honce.imp_of_mem
          intro a b ha _ h heq
          rw [← hsame hid a ha]
          exact h heq
      · rintro ⟨⟨-, hexited⟩, hfirst, honce⟩
        have hid : id ∉ ids := fun hmem => hfirst id hmem rfl rfl
        constructor
        · intro j hj code
          rw [hsame hid j hj]
          exact hexited j hj code
        · apply honce.imp_of_mem
          intro a b ha _ h heq
          rw [hsame hid a ha]
          exact h heq
    | exited code =>
      constructor
      · rintro ⟨kept, h⟩
        exact absurd h (killEach_cons_exited ids hstate kept)
      · rintro ⟨⟨h, -⟩, -⟩
        exact absurd rfl (h code)

end Containers

end TrainVla
