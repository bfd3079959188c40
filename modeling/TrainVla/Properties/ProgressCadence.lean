import TrainVla.Docker.TrainEntrypoint
import TrainVla.Common.Heartbeat
import Mathlib.Data.Nat.Factorization.Basic
import Mathlib.Tactic.Linarith

/-! The training loops write their progress often enough for the heartbeat rule, and not too
often. -/
namespace TrainVla

/-- What the worker reads of a write. -/
def ProgressWrite.progress (write : ProgressWrite) (updatedAt : ℤ) : Progress :=
  { step := .int write.step, totalSteps := .int write.totalSteps, loss := .float write.loss,
    updatedAt := updatedAt }

/-- This many seconds are less than the timeout of a job that trains. -/
def WithinTrainingTimeout (elapsed : ℚ) : Prop := elapsed * seconds 1 < trainingTimeout

/-- The writes that elapsed time has not forced: those that come less than a minute after the
previous one, or after the loop was entered. -/
def unforced : ℚ → List ProgressWrite → List ProgressWrite
  | _, [] => []
  | lastWriteAt, write :: writes =>
    if write.now - lastWriteAt < 60 then write :: unforced write.now writes
    else unforced write.now writes

/-- How a run of a training loop writes its progress. -/
structure Cadence (totalSteps : ℕ) (monotonic : ℕ → ℚ) (writes : List ProgressWrite) : Prop where
  read : ∀ write ∈ writes, write.now = monotonic write.step
  increasing : (writes.map ProgressWrite.step).Pairwise (· < ·)
  ends : (writes.map ProgressWrite.step).getLast? = some totalSteps
  changes : writes.IsChain fun previous current => ∀ before after,
    progressChanged (some (previous.progress before)) (current.progress after) = true
  timely : (∀ k < totalSteps, monotonic (k + 1) - monotonic k < 60) →
    (monotonic 0 :: writes.map ProgressWrite.now).IsChain fun previous current =>
      WithinTrainingTimeout (current - previous)
  forced : ∀ write ∈ unforced (monotonic 0) writes, TrainEntrypoint.Regular totalSteps write.step
  regular : (writes.filter fun write =>
    TrainEntrypoint.Regular totalSteps write.step).length ≤ 400
  bounded : (unforced (monotonic 0) writes).length ≤ 400

theorem unforced_sublist (lastWriteAt : ℚ) (writes : List ProgressWrite) :
    (unforced lastWriteAt writes).Sublist writes := by
  induction writes generalizing lastWriteAt with
  | nil => exact List.Sublist.refl []
  | cons write writes ih =>
    unfold unforced
    split
    · exact (ih write.now).cons_cons write
    · exact (ih write.now).cons write

namespace TrainEntrypoint

variable {cap : ℚ} {totalSteps : ℕ} {monotonic : ℕ → ℚ} {loss : ℕ → PyFloat}

/-- Steps are written in the order in which they are made. -/
theorem steps_sublist (lastWriteAt : ℚ) (steps : List ℕ) :
    ((trainSteps cap totalSteps monotonic loss lastWriteAt steps).map
      ProgressWrite.step).Sublist steps := by
  induction steps generalizing lastWriteAt with
  | nil => exact List.Sublist.refl []
  | cons step steps ih =>
    unfold trainSteps
    dsimp only
    split
    · exact (ih (monotonic step)).cons_cons step
    · exact (ih lastWriteAt).cons step

theorem now_of_mem {lastWriteAt : ℚ} {steps : List ℕ} {write : ProgressWrite}
    (h : write ∈ trainSteps cap totalSteps monotonic loss lastWriteAt steps) :
    write.now = monotonic write.step := by
  induction steps generalizing lastWriteAt with
  | nil => cases h
  | cons step steps ih =>
    unfold trainSteps at h
    dsimp only at h
    split at h
    · rcases List.mem_cons.mp h with rfl | h
      · rfl
      · exact ih h
    · exact ih h

/-- The last step is always written. -/
theorem getLast?_steps (lastWriteAt : ℚ) {steps : List ℕ} (h : steps.getLast? = some totalSteps) :
    ((trainSteps cap totalSteps monotonic loss lastWriteAt steps).map
      ProgressWrite.step).getLast? = some totalSteps := by
  induction steps generalizing lastWriteAt with
  | nil => cases h
  | cons step steps ih =>
    unfold trainSteps
    dsimp only
    cases steps with
    | nil =>
      have hstep : step = totalSteps := Option.some.inj h
      have hdue : Regular totalSteps step := .inr hstep
      rw [if_pos (.inl hdue), hstep]
      rfl
    | cons next steps =>
      have hrest : (next :: steps).getLast? = some totalSteps := by
        rw [List.getLast?_cons_cons] at h
        exact h
      split
      · rw [List.map_cons, List.getLast?_cons, ih (monotonic step) hrest]
        rfl
      · exact ih lastWriteAt hrest

theorem progressChanged_of_step_ne {previous current : ProgressWrite}
    (h : previous.step ≠ current.step) (before after : ℤ) :
    progressChanged (some (previous.progress before)) (current.progress after) = true := by
  have hstep : (previous.progress before).step.pyEq (current.progress after).step = false := by
    have hne : (previous.step : ℚ) ≠ current.step := Nat.cast_injective.ne h
    simpa [ProgressWrite.progress, Json.pyEq, Json.pyEqNumber, Json.number?, PyFloat.pyEq] using hne
  unfold progressChanged
  dsimp only
  rw [hstep]
  rfl

/-- After every step the last write is less than the cap ago: it is the invariant of the loop. -/
theorem timely_trainSteps {first count : ℕ} {lastWriteAt : ℚ}
    (hsteps : ∀ k < first + count, monotonic (k + 1) - monotonic k < 60)
    (hlast : monotonic first - lastWriteAt < 60) :
    (lastWriteAt :: (trainSteps 60 totalSteps monotonic loss lastWriteAt
      (List.range' (first + 1) count)).map ProgressWrite.now).IsChain fun previous current =>
        WithinTrainingTimeout (current - previous) := by
  induction count generalizing first lastWriteAt with
  | zero => exact List.IsChain.singleton lastWriteAt
  | succ count ih =>
    have hstep := hsteps first (by omega)
    have hrest : ∀ k < first + 1 + count, monotonic (k + 1) - monotonic k < 60 :=
      fun k hk => hsteps k (by omega)
    rw [List.range'_succ]
    unfold trainSteps
    dsimp only
    split
    · rw [List.map_cons, List.isChain_cons_cons]
      refine ⟨?_, ih hrest (by linarith)⟩
      unfold WithinTrainingTimeout trainingTimeout minutes seconds
      push_cast
      linarith
    · rename_i hskip
      rw [not_or, not_le] at hskip
      exact ih hrest hskip.2

/-- A step outside the cadence is written only after a minute without any write. -/
theorem regular_of_unforced {lastWriteAt : ℚ} {steps : List ℕ} : ∀ write ∈ unforced lastWriteAt
    (trainSteps 60 totalSteps monotonic loss lastWriteAt steps), Regular totalSteps write.step := by
  induction steps generalizing lastWriteAt with
  | nil => exact fun write hwrite => absurd hwrite List.not_mem_nil
  | cons step steps ih =>
    unfold trainSteps
    dsimp only
    split
    · rename_i hdue
      unfold unforced
      split
      · rename_i hsoon
        rw [List.forall_mem_cons]
        refine ⟨?_, ih⟩
        rcases hdue with hregular | hforced
        · exact hregular
        · exact absurd hforced (not_le.mpr hsoon)
      · exact ih
    · exact ih

/-- There are fewer than 400 steps, or at most 299 multiples of the cadence and the last step. -/
theorem card_regular_le (totalSteps : ℕ) :
    ((Finset.Ioc 0 totalSteps).filter (Regular totalSteps)).card ≤ 400 := by
  by_cases hfew : totalSteps < 400
  · have hall := Finset.card_filter_le (Finset.Ioc 0 totalSteps) (Regular totalSteps)
    rw [Nat.card_Ioc] at hall
    omega
  · have hevery : progressEvery totalSteps = totalSteps / 200 := by
      unfold progressEvery
      omega
    have hsubset : (Finset.Ioc 0 totalSteps).filter (Regular totalSteps) ⊆
        insert totalSteps ((Finset.Ioc 0 totalSteps).filter (totalSteps / 200 ∣ ·)) := by
      intro step hstep
      rw [Finset.mem_filter] at hstep
      rw [Finset.mem_insert, Finset.mem_filter]
      rcases hstep.2 with hmultiple | hlast
      · rw [hevery] at hmultiple
        exact .inr ⟨hstep.1, Nat.dvd_of_mod_eq_zero hmultiple⟩
      · exact .inl hlast
    have hcard := (Finset.card_le_card hsubset).trans (Finset.card_insert_le _ _)
    rw [Nat.Ioc_filter_dvd_card_eq_div] at hcard
    have hdiv : totalSteps / (totalSteps / 200) ≤ 299 := by
      apply Nat.le_of_lt_succ
      rw [Nat.div_lt_iff_lt_mul (by omega)]
      omega
    omega

/-- Writes at different steps, at most 400 of which are regular. -/
theorem length_regular_le {writes : List ProgressWrite}
    (hsteps : (writes.map ProgressWrite.step).Sublist (List.range' 1 totalSteps)) :
    (writes.filter fun write => Regular totalSteps write.step).length ≤ 400 := by
  have hincreasing : (writes.map ProgressWrite.step).Pairwise (· < ·) :=
    (List.pairwise_lt_range' 1).sublist hsteps
  have hnodup : ((writes.filter fun write =>
      Regular totalSteps write.step).map ProgressWrite.step).Nodup :=
    (hincreasing.imp Nat.ne_of_lt).sublist (List.filter_sublist.map ProgressWrite.step)
  rw [← List.length_map ProgressWrite.step, ← List.toFinset_card_of_nodup hnodup]
  apply (Finset.card_le_card _).trans (card_regular_le totalSteps)
  intro step hstep
  rw [List.mem_toFinset, List.mem_map] at hstep
  obtain ⟨write, hwrite, rfl⟩ := hstep
  obtain ⟨hwrite, hregular⟩ := List.mem_filter.mp hwrite
  have hrange := List.mem_range'_1.mp (hsteps.subset (List.mem_map_of_mem hwrite))
  rw [Finset.mem_filter, Finset.mem_Ioc]
  exact ⟨⟨by omega, by omega⟩, of_decide_eq_true hregular⟩

theorem cadence_runTrainingLoop (h : 1 ≤ totalSteps) :
    Cadence totalSteps monotonic (runTrainingLoop 60 totalSteps monotonic loss) := by
  have hsteps : ((runTrainingLoop 60 totalSteps monotonic loss).map ProgressWrite.step).Sublist
      (List.range' 1 totalSteps) := steps_sublist (monotonic 0) _
  have hincreasing : ((runTrainingLoop 60 totalSteps monotonic loss).map
      ProgressWrite.step).Pairwise (· < ·) := (List.pairwise_lt_range' 1).sublist hsteps
  have hunforced : ∀ write ∈ unforced (monotonic 0) (runTrainingLoop 60 totalSteps monotonic loss),
      Regular totalSteps write.step := regular_of_unforced
  constructor
  case read => exact fun write hwrite => now_of_mem hwrite
  case increasing => exact hincreasing
  case ends =>
    apply getLast?_steps
    obtain ⟨n, rfl⟩ := Nat.exists_eq_add_of_le' h
    rw [List.range'_concat, List.getLast?_concat]
    simp [Nat.add_comm]
  case changes =>
    rw [List.pairwise_map] at hincreasing
    apply hincreasing.isChain.imp
    intro previous current hlt
    exact progressChanged_of_step_ne hlt.ne
  case timely =>
    intro hfast
    apply timely_trainSteps
    · rw [Nat.zero_add]
      exact hfast
    · rw [sub_self]
      norm_num
  case forced => exact hunforced
  case regular => exact length_regular_le hsteps
  case bounded =>
    have hfew := length_regular_le
      (((unforced_sublist (monotonic 0) _).map ProgressWrite.step).trans hsteps)
    rwa [List.filter_eq_self.mpr fun write hwrite => decide_eq_true (hunforced write hwrite)] at hfew

end TrainEntrypoint

/-- Whatever the clock says, and so also when it never goes back. -/
theorem progress_cadence (totalSteps : ℕ) (h : 1 ≤ totalSteps) (monotonic : ℕ → ℚ)
    (loss : ℕ → PyFloat) :
    Cadence totalSteps monotonic (ActEntrypoint.runTrainingLoop totalSteps monotonic loss) ∧
      Cadence totalSteps monotonic
        (SmolvlaEntrypoint.runTrainingLoop totalSteps monotonic loss) :=
  ⟨TrainEntrypoint.cadence_runTrainingLoop h, TrainEntrypoint.cadence_runTrainingLoop h⟩

/-- Steps of 50 seconds. -/
theorem progress_cadence_slow :
    Cadence 400 (fun k => 50 * k) (ActEntrypoint.runTrainingLoop 400 (fun k => 50 * k) fun _ => .nan) :=
  (progress_cadence 400 (by decide) (fun k => 50 * k) fun _ => .nan).1

end TrainVla
