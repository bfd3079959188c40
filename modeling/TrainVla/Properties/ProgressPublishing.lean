import TrainVla.Docker.WriteProgress
import TrainVla.Properties.ProgressCadence
import TrainVla.System.Operations

/-! A container writes its progress while the worker reads it. -/
namespace TrainVla

open Interaction

/-- What the `count` reports that are in place give to a reader: the latest of the first `n`, where
it began to read when `c.1` of them were there. -/
def GaveReport (lib : Library) (P : Python.JsonText.Floats PyFloat) (written : List ProgressReport)
    (count : ℕ) (c : ℕ × Option (List Char)) (n : ℕ) : Prop :=
  c.1 ≤ n ∧ n ≤ count ∧ ProgressReader.readText lib P c.2 =
    .ok ((written.take n).getLast?.map ProgressReport.progress)

namespace ProgressPublishing

variable {lib : Library} {P : Python.JsonText.Floats PyFloat} {written : List ProgressReport}

/-- What was in place when it was read is what the worker makes of it. -/
theorem gaveReport_of_readAt (hwritable : ∀ report ∈ written, report.Writable lib P)
    {placed : List (List Char)} (hplaced : placed <+: written.map (TrainEntrypoint.progressText P))
    {c : ℕ × Option (List Char)} {n : ℕ} (h : Files.ReadAt placed c n) :
    GaveReport lib P written placed.length c n := by
  obtain ⟨hsince, hn, hcontent⟩ := h
  refine ⟨hsince, hn, ?_⟩
  have htake : placed.take n = (written.take n).map (TrainEntrypoint.progressText P) := by
    obtain ⟨more, hmore⟩ := hplaced
    rw [List.map_take, ← hmore, List.take_append_of_le_length hn]
  rw [hcontent, htake, List.getLast?_map]
  cases hlast : (written.take n).getLast? with
  | none => rfl
  | some report =>
    have hmem : report ∈ written := List.mem_of_mem_take (List.mem_of_getLast? hlast)
    exact readText_progressText (hwritable report hmem)

end ProgressPublishing

open ProgressPublishing in
/-- Whatever happens in between, a reading gives one of the reports whole, and the latest or one
that came while it was reading; successive readings never go back, and neither side fails. -/
theorem progress_is_read_whole {lib : Library} {P : Python.JsonText.Floats PyFloat} {cap : ℚ}
    {totalSteps : ℕ} {monotonic : ℕ → ℚ} {loss : ℕ → PyFloat} {reports : List ProgressReport}
    (hloop : reports.map ProgressReport.write =
      TrainEntrypoint.runTrainingLoop cap totalSteps monotonic loss)
    (hwritable : ∀ report ∈ reports, report.Writable lib P)
    {ls : List (Label (Files.Party ProgressReport) ℕ Empty)}
    {rs : List (Record (Files.Party ProgressReport) (Files.FileCall String Char)
      (Files.Disk String Char))}
    {c : Conf (Files.Party ProgressReport) (Files.FileCall String Char) Files.FileCall.Resp
      Files.FileError (Files.Disk String Char)}
    (hls : (Files.documents ls).Sublist reports)
    (hr : (progressDir P).run (.initial .empty) ls = some (rs, c)) :
    ∃ written : List ProgressReport, written.Sublist reports ∧
      (written.map fun report => report.write.step).Pairwise (· < ·) ∧
      c.state.placed = written.map (TrainEntrypoint.progressText P) ∧
      (∀ r ∈ rs, ∀ contents, r.call = .report contents →
        ∃ ns : List ℕ, ns.Pairwise (· ≥ ·) ∧
          List.Forall₂ (GaveReport lib P written r.before.placed.length) contents ns) ∧
      ∀ op p r, (op, p) ∈ c.pool ∨ c.thread = some (op, p) → p.outcome? = some r → r = .ok () := by
  have hne : TrainEntrypoint.tmpFilename ≠ ProgressReader.progressFilename := by decide
  obtain ⟨⟨written, hwritten, hplaced⟩, hreads, hended⟩ := Files.run_directory hne hr
  have hsub := hwritten.trans hls
  refine ⟨written, hsub, ?_, hplaced, fun r hmem contents hcall => ?_, hended⟩
  · have hsteps : (written.map fun report => report.write.step).Sublist
        ((reports.map ProgressReport.write).map ProgressWrite.step) := by
      rw [List.map_map]
      exact hsub.map _
    rw [hloop] at hsteps
    exact (List.pairwise_lt_range').sublist (hsteps.trans (TrainEntrypoint.steps_sublist _ _))
  · obtain ⟨hfront, hread⟩ := hreads r hmem
    obtain ⟨ns, hns, hsorted⟩ := hread contents hcall
    rw [hplaced] at hfront
    have hwritable' : ∀ report ∈ written, report.Writable lib P :=
      fun report h => hwritable report (hsub.subset h)
    exact ⟨ns, hsorted, hns.imp fun c n => gaveReport_of_readAt hwritable' hfront⟩

namespace ProgressPublishing

/-- The text and the value of one number. -/
def floats : Python.JsonText.Floats PyFloat where
  nan := .nan
  infinity := .infinity
  float text := if text = ['0', '.', '5'] then .finite (1 / 2) else .finite 0
  repr x := if x = .finite (1 / 2) then ['0', '.', '5'] else ['0', '.', '0']

def half : Python.JsonText.FloatLiteral where
  negative := false
  whole := 0
  fraction := ['5']
  exponent := none
  fraction_digits c h := by
    rw [List.mem_singleton.mp h]
    rfl
  exponent_digits e h := by cases h
  not_int := .inl (by decide)

def sinceEpoch (t : ℕ) : ℤ := t - 719162 * Calendar.microsPerDay

def library : Library where
  zipInfolist _ := .ok []
  zipRead _ _ := .error (.other "KeyError" "")
  jsonLoads _ := .ok .null
  fromIsoformat text := (Calendar.parseDateTime text.toList).map sinceEpoch
  hashpw password _ := String.ofList (password.map fun b => Char.ofNat b.toNat)
  checkpw _ _ := false

theorem library_fromIsoformat (text : List Char) :
    library.fromIsoformat (String.ofList text) = (Calendar.parseDateTime text).map sinceEpoch := by
  have hlib : library.fromIsoformat (String.ofList text) =
      (Calendar.parseDateTime (String.ofList text).toList).map sinceEpoch := rfl
  rw [hlib, String.toList_ofList]

def onlyReport : ProgressReport where
  write := { step := 1, totalSteps := 1, loss := .finite (1 / 2), now := 1 }
  timestamp := 0

/-- The worker looks before there is a file, and again while the report is written; it finds the
report. -/
def labels : List (Label (Files.Party ProgressReport) ℕ Empty) :=
  [.spawn (.read 2), .serve 0 0, .serve 0 0, .serve 0 0, .start (.write onlyReport), .work 0,
    .work 50, .serve 0 0, .work 34, .work 0, .serve 0 0, .serve 0 0, .serve 0 60, .serve 0 60,
    .serve 0 1, .serve 0 0]

def reportsTwo : Files.FileCall String Char → Bool
  | .report contents => contents.length = 2
  | _ => false

theorem writable_onlyReport : onlyReport.Writable library floats where
  step := by decide
  totalSteps := by decide
  loss := by
    have htext : half.text = ['0', '.', '5'] := rfl
    have hrepr : floats.repr (.finite (1 / 2)) = ['0', '.', '5'] := if_pos rfl
    have hfloat : floats.float ['0', '.', '5'] = .finite (1 / 2) := rfl
    rw [← htext] at hrepr hfloat
    exact .literal half hrepr hfloat
  timestamp := by
    have hrange : TrainEntrypoint.sinceYearOne 0 < 3652059 * Calendar.microsPerDay := by decide
    have hparse := Calendar.parseDateTime_dateTimeText hrange
    have htime : TrainEntrypoint.isoformat onlyReport.timestamp =
        Calendar.dateTimeText (TrainEntrypoint.sinceYearOne 0) := rfl
    rw [htime, library_fromIsoformat, hparse]
    decide

end ProgressPublishing

open ProgressPublishing in
theorem progress_is_read_whole_twice : ∃ contents written ns, contents.length = 2 ∧
    List.Forall₂ (GaveReport library floats written 1) contents ns := by
  have hrun : ((progressDir floats).run (.initial .empty) labels).any (fun out =>
      out.1.any fun r => reportsTwo r.call && r.before.placed.length == 1) = true := by
    decide +kernel
  obtain ⟨⟨rs, c⟩, hr, hany⟩ := (Option.any_eq_true _ _).mp hrun
  obtain ⟨r, hmem, hcall⟩ := List.any_eq_true.mp hany
  obtain ⟨htwo, hcount⟩ := Bool.and_eq_true_iff.mp hcall
  have hloop : [onlyReport].map ProgressReport.write =
      TrainEntrypoint.runTrainingLoop 60 1 (fun k => k) fun _ => .finite (1 / 2) := by
    simp [onlyReport, TrainEntrypoint.runTrainingLoop, TrainEntrypoint.trainSteps,
      TrainEntrypoint.Regular]
  have hwritable : ∀ report ∈ [onlyReport], report.Writable library floats := by
    intro report h
    rw [List.mem_singleton.mp h]
    exact writable_onlyReport
  obtain ⟨written, -, -, -, hreads, -⟩ :=
    progress_is_read_whole hloop hwritable (List.Sublist.refl _) hr
  obtain ⟨contents, hcontents, hlength⟩ : ∃ contents, r.call = .report contents ∧
      contents.length = 2 := by
    cases hreport : r.call with
    | report contents =>
      rw [hreport] at htwo
      exact ⟨contents, rfl, of_decide_eq_true htwo⟩
    | _ =>
      rw [hreport] at htwo
      cases htwo
  obtain ⟨ns, -, hns⟩ := hreads r hmem contents hcontents
  rw [eq_of_beq hcount] at hns
  exact ⟨contents, written, ns, hlength, hns⟩

end TrainVla
