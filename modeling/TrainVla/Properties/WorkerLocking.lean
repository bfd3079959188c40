import TrainVla.System.LockConduct

/-! One worker process runs at a time. -/
namespace TrainVla

open Interaction LockFile

abbrev WorkerFleetConf (P : Type) :=
  FleetConf P Request Call Call.Resp Exc WorkerLockError WorkerLock World

abbrev WorkerFleetLabel (P : Type) := FleetLabel P Request Choice Event

namespace WorkerLocking

variable {P : Type} [DecidableEq P]

/-- A process is born, opens the lock file and tries to lock it. -/
def attempt (p : P) (fd : ℕ) : List (WorkerFleetLabel P) := [.boot p, .sync p { fd }, .sync p {}]

/-- Who runs has the lock, who has the lock is alive, and who is not alive has nothing open. -/
structure Exclusive (c : WorkerFleetConf P) : Prop where
  single : ∀ p q, c.Inside p → c.Inside q → p = q
  holder : ∀ p lock r prog, c.procs p = some (.inside lock r prog) →
    ∃ fd, lock.fd = some fd ∧ c.lock.owner = some (p, fd)
  alive : ∀ p fd, c.lock.owner = some (p, fd) → (c.procs p).isSome = true
  closed : ∀ p, c.procs p = none → Absent p c.lock

/-- The lock can be had exactly when it is free. The end of its holder frees it, and who does not
get it leaves nothing behind. -/
structure Live (I : Installation) (c : WorkerFleetConf P) : Prop where
  freed : ∀ p fd, c.lock.owner = some (p, fd) →
    ∃ c', I.fleet.run c [.exit p] = some ([], c') ∧ c'.lock.Free
  admitted : c.lock.Free → ∀ p fd, c.procs p = none →
    ∃ c', I.fleet.run c (attempt p fd ++ [.letIn p]) = some ([], c') ∧ c'.Inside p ∧
      c'.lock.owner = some (p, fd)
  refused : ¬ c.lock.Free → ∀ p fd, c.procs p = none →
    ∃ c', I.fleet.run c (attempt p fd ++ [.sync p {}]) = some ([], c') ∧
      c'.procs p = some (.entering (.raise (.lockAcquisition
        s!"Worker lock already held: {WorkerMain.lockFilePath}"))) ∧
      Absent p c'.lock ∧ c'.lock.owner = c.lock.owner

section

variable {I : Installation} {c : WorkerFleetConf P} {p : P} {fd : ℕ}

theorem exclusive_of_inv (hc : I.fleet.Inv c) : Exclusive c where
  single p q hp hq := hc.inside_unique hp hq
  holder p lock r prog hp := by
    have hgood := hc p
    rw [hp] at hgood
    obtain ⟨⟨fd, hfd⟩, -⟩ := hgood
    exact ⟨fd, hfd.descriptor, hfd.owner⟩
  alive p fd howner := by
    cases hp : c.procs p with
    | some proc => rfl
    | none =>
      have habsent := hc p
      rw [hp] at habsent
      exact absurd howner (Absent.not_owner habsent fd)
  closed p hp := by
    have habsent := hc p
    rwa [hp] at habsent

/-- Up to the attempt to lock, and with the file open. -/
theorem run_open (I : Installation) (fd : ℕ) (hp : c.procs p = none) (habsent : Absent p c.lock) :
    ∃ c₁ k, I.fleet.run c [.boot p, .sync p { fd }] = some ([], c₁) ∧
      c₁.procs p = some (.entering (.call (.tryLock fd) k)) ∧ c₁.lock = c.lock.openAs (p, fd) ∧
      k (.ok ()) = .pure { path := WorkerMain.lockFilePath, fd := some fd } ∧
      k (.error .wouldBlock) = .call (.close fd) fun r => WorkerLock.sysUnit r >>= fun _ =>
        .raise (.lockAcquisition s!"Worker lock already held: {WorkerMain.lockFilePath}") := by
  have hentering : (c.set p (some (.entering I.fleet.enter))).procs p =
      some (.entering I.fleet.enter) := Fleet.procs_set c p _
  have hsync := Fleet.step_sync (W := I.fleet) hentering (LockFile.exec_openFile_new (habsent fd))
  refine ⟨_, _, Fleet.run_cons_of_step (Fleet.step_boot hp) (Fleet.run_cons_of_step hsync rfl),
    Fleet.procs_set .., rfl, rfl, rfl⟩

theorem live_of_inv (hc : I.fleet.Inv c) : Live I c where
  freed p fd howner := by
    have halive := (exclusive_of_inv hc).alive p fd howner
    obtain ⟨proc, hp⟩ := Option.isSome_iff_exists.mp halive
    refine ⟨{ c.set p none with lock := c.lock.die p }, ?_, ?_⟩
    · simp [Fleet.run, Fleet.step, hp]
    · simp [Free, die, keep, howner]
  admitted hfree p fd hp := by
    have habsent := (exclusive_of_inv hc).closed p hp
    obtain ⟨c₁, k, hrun, hproc, hlock, hk, -⟩ := run_open I fd hp habsent
    have hopen : (p, fd) ∈ c₁.lock.opened := by
      rw [hlock]
      exact List.mem_cons_self
    have hfree₁ : c₁.lock.Free := by
      rw [hlock]
      exact hfree
    have hsync := Fleet.step_sync (W := I.fleet) hproc (LockFile.exec_tryLock_free hopen hfree₁)
    rw [hk] at hsync
    have hlet := Fleet.step_letIn (W := I.fleet) (Fleet.procs_set { c₁ with
      lock := c₁.lock.lockAs (p, fd) hopen } p (some (.entering (.pure
        { path := WorkerMain.lockFilePath, fd := some fd }))))
    exact ⟨_, Fleet.run_append hrun (Fleet.run_cons_of_step hsync (Fleet.run_cons_of_step hlet rfl)),
      ⟨_, _, _, Fleet.procs_set ..⟩, rfl⟩
  refused htaken p fd hp := by
    have habsent := (exclusive_of_inv hc).closed p hp
    obtain ⟨c₁, k, hrun, hproc, hlock, -, hk⟩ := run_open I fd hp habsent
    obtain ⟨d, howner⟩ := Option.ne_none_iff_exists'.mp htaken
    have hne : d ≠ (p, fd) := by
      rintro rfl
      exact Absent.not_owner habsent fd howner
    have hopen : (p, fd) ∈ c₁.lock.opened := by
      rw [hlock]
      exact List.mem_cons_self
    have howner₁ : c₁.lock.owner = some d := by
      rw [hlock]
      exact howner
    have hsync := Fleet.step_sync (W := I.fleet) hproc
      (LockFile.exec_tryLock_taken hopen howner₁ hne)
    rw [hk] at hsync
    have hclose := Fleet.step_sync (W := I.fleet) (Fleet.procs_set c₁ p (some (.entering
      (.call (.close fd) fun r => WorkerLock.sysUnit r >>= fun _ => .raise (.lockAcquisition
        s!"Worker lock already held: {WorkerMain.lockFilePath}")))))
      (LockFile.exec_close_opened hopen)
    refine ⟨_, Fleet.run_append hrun (Fleet.run_cons_of_step hsync
      (Fleet.run_cons_of_step hclose rfl)), Fleet.procs_set .., ?_, ?_⟩
    · show Absent p (c₁.lock.closeAs (p, fd))
      rw [hlock]
      exact absent_closeAs (opensOnly_openAs habsent)
    · show c₁.lock.owner.filter _ = _
      rw [howner₁, howner]
      simp [hne]

end

end WorkerLocking

open WorkerLocking

/-- However many worker processes are started and however they end: one of them runs at a time, it
has the lock, and the lock can be had by the next one as soon as it is free. -/
theorem worker_lock_exclusive (I : Installation) {P : Type} [DecidableEq P] {w : World}
    {ls : List (WorkerFleetLabel P)} {rs : List (Record Request Call World)}
    {c : WorkerFleetConf P} (hr : I.fleet.run (.initial w) ls = some (rs, c)) :
    Exclusive c ∧ Live I c := by
  have hinv := (Fleet.run_refines (I.lawful P) (.initial w) (.initial w) hr).1
  exact ⟨exclusive_of_inv hinv, live_of_inv hinv⟩

/-- The second process is refused while the first one runs, and gets the lock when that is killed. -/
theorem worker_lock_exclusive_takeover : ∃ rs c,
    Installation.sample.fleet.run (.initial .sample)
      (attempt 0 3 ++ .letIn 0 :: attempt 1 3 ++ [.sync 1 {}, .exit 1, .exit 0] ++ attempt 1 4 ++
        [.letIn 1]) = some (rs, c) ∧
      c.lock.owner = some ((1 : ℕ), 4) ∧ Exclusive c ∧ Live .sample c := by
  have hrun : (Installation.sample.fleet.run (.initial .sample)
      (attempt 0 3 ++ .letIn 0 :: attempt 1 3 ++ [.sync 1 {}, .exit 1, .exit 0] ++ attempt 1 4 ++
        [.letIn 1])).any (fun out => out.2.lock.owner = some ((1 : ℕ), 4)) = true := by
    rfl
  obtain ⟨⟨rs, c⟩, hr, howner⟩ := (Option.any_eq_true _ _).mp hrun
  exact ⟨rs, c, hr, of_decide_eq_true howner, worker_lock_exclusive .sample hr⟩

end TrainVla
