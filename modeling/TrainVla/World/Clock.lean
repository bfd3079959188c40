import TrainVla.World.Frame
import TrainVla.World.Service
import TrainVla.Interaction.EvalsTo

/-! Evaluation under a clock that does not go back. -/
namespace TrainVla

open Interaction

/-- No reading of the clock is earlier than one before it. -/
structure ClockRuns (w : World) (xs : ℕ → Choice) : Prop where
  first : w.clock ≤ (xs 0).time
  next : ∀ n, (xs n).time ≤ (xs (n + 1)).time

namespace World

variable {w w' : World} {o : Choice} {xs : ℕ → Choice} {α : Type}

theorem exec_steady (h : w.clock ≤ o.time) (c : Call) :
    World.exec true o w c = World.exec false o w c := by
  cases c with
  | now =>
    have hlater : ¬ (true && decide (o.time < w.clock)) = true := by simpa using h
    simp only [World.exec]
    rw [if_neg hlater]
    rfl
  | _ => rfl

theorem clock_le_of_exec {c : Call} {r : c.Resp} (h : w.clock ≤ o.time)
    (he : World.exec false o w c = some (r, w')) : w'.clock ≤ o.time := by
  have hframe : c.movesClock = false → w'.clock ≤ o.time := by
    intro hc
    rw [(World.exec_frame he).clock hc]
    exact h
  cases c with
  | now =>
    obtain ⟨-, rfl⟩ := Prod.mk.inj (Option.some.inj he)
    exact le_refl _
  | _ => exact hframe rfl

/-- The clock refuses nothing to a program that runs forward in time. -/
theorem eval_steady {steady : Bool} (h : steady = true → ClockRuns w xs) (p : Service α) :
    eval (World.exec steady) xs w p = eval (World.exec false) xs w p := by
  cases steady with
  | false => rfl
  | true =>
    replace h := h rfl
    induction p generalizing w xs with
    | pure a => rfl
    | raise e => rfl
    | call c k ih =>
      unfold eval
      rw [exec_steady h.first]
      cases he : World.exec false (xs 0) w c with
      | none => rfl
      | some out =>
        have hclock := clock_le_of_exec h.first he
        exact ih out.1 ⟨hclock.trans (h.next 0), fun n => h.next (n + 1)⟩

theorem exchanges_steady {steady : Bool} (h : steady = true → ClockRuns w xs) (p : Service α) :
    exchanges (World.exec steady) xs w p = exchanges (World.exec false) xs w p := by
  cases steady with
  | false => rfl
  | true =>
    replace h := h rfl
    induction p generalizing w xs with
    | pure a => rfl
    | raise e => rfl
    | call c k ih =>
      unfold exchanges
      rw [exec_steady h.first]
      cases he : World.exec false (xs 0) w c with
      | none => rfl
      | some out =>
        have hclock := clock_le_of_exec h.first he
        have hrest : exchanges (World.exec true) (fun n => xs (n + 1)) out.2 (k out.1) =
            exchanges (World.exec false) (fun n => xs (n + 1)) out.2 (k out.1) := ih out.1
          ⟨hclock.trans (h.next 0), fun n => h.next (n + 1)⟩
        exact congrArg _ hrest

theorem exec_of_steady {steady : Bool} {c : Call} {out : c.Resp × World}
    (h : World.exec steady o w c = some out) : World.exec false o w c = some out := by
  cases steady with
  | false => exact h
  | true =>
    cases c with
    | now =>
      simp only [World.exec] at h
      split at h
      · cases h
      · exact h
    | _ => exact h

/-- Whatever is possible is possible without an order of the instants, too. -/
theorem evalsTo_of_steady {steady : Bool} {p : Service α} {r : Except Exc α}
    (h : eval (World.exec steady) xs w p = some (r, w')) :
    ∃ ys, EvalsTo (World.exec false) xs w p (exchanges (World.exec steady) xs w p) r w' ys := by
  obtain ⟨t, ys, hrun⟩ := EvalsTo.of_eval h
  rw [hrun.exchanges]
  refine ⟨ys, ?_⟩
  clear h
  induction hrun with
  | pure => exact .pure
  | raise => exact .raise
  | call he _ ih => exact .call (exec_of_steady he) ih

end World

end TrainVla
