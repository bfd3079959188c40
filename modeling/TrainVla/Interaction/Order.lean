import TrainVla.Interaction.System
import Mathlib.Data.List.Basic

/-! Calls that a program of the thread makes at most once come in the order in which the programs
were started. -/
namespace Interaction

variable {Op C : Type} {R : C → Type} {E α β σ X V : Type}

/-- Whatever its answers, the program makes at most that many of the selected calls. -/
def AtMost (sel : C → Bool) : Prog C R E α → ℕ → Prop
  | .pure _, _ => True
  | .raise _, _ => True
  | .call c k, n => if sel c then ∃ m, n = m + 1 ∧ ∀ r, AtMost sel (k r) m
      else ∀ r, AtMost sel (k r) n

/-- The programs that the label sets the thread to. -/
def Label.turn (threaded : Op → Bool) : Label Op X V → List Op
  | .start op => [op]
  | .whole op _ => if threaded op then [op] else []
  | .cut op _ => [op]
  | _ => []

/-- Who made the selected calls. -/
def callers (sel : C → Bool) (rs : List (Record Op C σ)) : List Op :=
  (rs.filter fun r => sel r.call).map Record.op

/-- The program of the thread may still make as many of the selected calls as it is listed here. -/
def Conf.Pending (sel : C → Bool) (c : Conf Op C R E σ) (pending : List Op) : Prop :=
  ∀ op p, c.thread = some (op, p) → ∃ n, pending = List.replicate n op ∧ AtMost sel p n

variable {M : Machine Op C R E σ X V} {sel : C → Bool}

theorem AtMost.of_finished {p : Prog C R E α} (h : p.finished = true) (n : ℕ) : AtMost sel p n := by
  cases p with
  | pure a => trivial
  | raise e => trivial
  | call c k => cases h

theorem AtMost.of_not_sel {c : C} {k : R c → Prog C R E α} {n : ℕ} (hc : sel c = false)
    (h : ∀ r, AtMost sel (k r) n) : AtMost sel (Prog.perform c >>= k) n := by
  show AtMost sel (.call c k) n
  simp only [AtMost, hc, Bool.false_eq_true, if_false]
  exact h

theorem AtMost.of_sel {c : C} {k : R c → Prog C R E α} {n : ℕ} (hc : sel c = true)
    (h : ∀ r, AtMost sel (k r) n) : AtMost sel (Prog.perform c >>= k) (n + 1) := by
  show AtMost sel (.call c k) (n + 1)
  simp only [AtMost, hc, if_true]
  exact ⟨n, rfl, h⟩

/-- The first part makes none of the calls. -/
theorem AtMost.bind {p : Prog C R E α} {f : α → Prog C R E β} {n : ℕ} (hp : AtMost sel p 0)
    (hf : ∀ a, AtMost sel (f a) n) : AtMost sel (p >>= f) n := by
  induction p with
  | pure a => exact hf a
  | raise e => trivial
  | call c k ih =>
    unfold AtMost at hp
    split at hp
    · obtain ⟨m, hm, -⟩ := hp
      cases hm
    · rename_i hc
      exact .of_not_sel (Bool.eq_false_iff.mpr hc) fun r => ih r (hp r)

theorem callers_append (rs rs' : List (Record Op C σ)) :
    callers sel (rs ++ rs') = callers sel rs ++ callers sel rs' := by
  simp [callers]

/-- One call of a program, which may be among the selected ones. -/
theorem callers_advance {op : Op} {x : X} {s s' : σ} {p p' : Prog C R E α} {r : Record Op C σ}
    {n : ℕ} (hp : AtMost sel p n) (ha : M.advance op x s p = some (r, p', s')) :
    ∃ m, AtMost sel p' m ∧ callers sel [r] ++ List.replicate m op = List.replicate n op := by
  obtain ⟨c, k, a, rfl, -, rfl, rfl⟩ := Machine.advance_eq_some ha
  unfold AtMost at hp
  split at hp
  · rename_i hsel
    obtain ⟨m, rfl, hk⟩ := hp
    refine ⟨m, hk a, ?_⟩
    simp [callers, hsel, List.replicate_succ]
  · rename_i hsel
    refine ⟨n, hp a, ?_⟩
    simp [callers, hsel]

theorem callers_drive {op : Op} {xs : List X} {s s' : σ} {p p' : Prog C R E α}
    {rs : List (Record Op C σ)} {n : ℕ} (hp : AtMost sel p n)
    (hd : M.drive op xs s p = some (rs, p', s')) :
    ∃ m, AtMost sel p' m ∧ callers sel rs ++ List.replicate m op = List.replicate n op := by
  induction xs generalizing s p rs n with
  | nil =>
    simp only [Machine.drive, Option.some.injEq, Prod.mk.injEq] at hd
    obtain ⟨rfl, rfl, -⟩ := hd
    exact ⟨n, hp, rfl⟩
  | cons x xs ih =>
    obtain ⟨r, p₁, s₁, rs', ha, hd', rfl⟩ := Machine.drive_cons hd
    obtain ⟨m, hp₁, hfirst⟩ := callers_advance hp ha
    obtain ⟨m', hp', hrest⟩ := ih hp₁ hd'
    refine ⟨m', hp', ?_⟩
    rw [← List.singleton_append, callers_append, List.append_assoc, hrest, hfirst]

theorem callers_of_one {op : Op} {xs : List X} {s s' : σ} {p p' : Prog C R E α}
    {rs : List (Record Op C σ)} (hp : AtMost sel p 1)
    (hd : M.drive op xs s p = some (rs, p', s')) : (callers sel rs).Sublist [op] := by
  obtain ⟨m, -, hm⟩ := callers_drive hp hd
  have hone : [op] = List.replicate 1 op := rfl
  rw [hone, ← hm]
  exact List.sublist_append_left ..

theorem Conf.pending_of_idle {c : Conf Op C R E σ} (h : c.idle = true) (s : σ) :
    Conf.Pending sel { c with state := s } [] := by
  intro op p hthread
  have hthread : c.thread = some (op, p) := hthread
  unfold idle at h
  rw [hthread] at h
  exact ⟨0, rfl, .of_finished h 0⟩

/-- A step may use up what is pending, or set the thread to a program. -/
theorem callers_step {c c' : Conf Op C R E σ} {l : Label Op X V} {rs : List (Record Op C σ)}
    {pending : List Op} (hthread : ∀ op, M.threaded op = true → AtMost sel (M.code op) 1)
    (hother : ∀ op, M.threaded op = false → AtMost sel (M.code op) 0)
    (hpool : ∀ entry ∈ c.pool, AtMost sel entry.2 0) (hc : c.Pending sel pending)
    (hs : M.step c l = some (rs, c')) :
    ∃ pending', (∀ entry ∈ c'.pool, AtMost sel entry.2 0) ∧ c'.Pending sel pending' ∧
      (callers sel rs ++ pending').Sublist (pending ++ l.turn M.threaded) := by
  cases l with
  | spawn op =>
    obtain ⟨hop, rfl, rfl⟩ := Machine.step_spawn hs
    refine ⟨pending, fun entry hmem => ?_, hc, by simp [callers, Label.turn]⟩
    rcases List.mem_append.mp hmem with hmem | hmem
    · exact hpool entry hmem
    · rw [List.mem_singleton.mp hmem]
      exact hother op hop
  | serve i x =>
    obtain ⟨op, p, r, p', s, hi, ha, rfl, rfl⟩ := Machine.step_serve hs
    obtain ⟨m, hp', hm⟩ := callers_advance (hpool _ (List.mem_of_getElem? hi)) ha
    obtain ⟨hnone, hzero⟩ := List.append_eq_nil_iff.mp hm
    obtain rfl : m = 0 := by simpa using hzero
    refine ⟨pending, fun entry hmem => ?_, hc, by simp [hnone, Label.turn]⟩
    rcases List.mem_or_eq_of_mem_set hmem with hmem | rfl
    · exact hpool entry hmem
    · exact hp'
  | start op =>
    obtain ⟨hop, rfl, rfl⟩ := Machine.step_start hs
    refine ⟨[op], hpool, fun op' p heq => ?_, List.sublist_append_right ..⟩
    obtain ⟨rfl, rfl⟩ := Prod.mk.inj (Option.some.inj heq)
    exact ⟨1, rfl, hthread _ hop⟩
  | work x =>
    obtain ⟨op, p, r, p', s, hp, ha, rfl, rfl⟩ := Machine.step_work hs
    obtain ⟨n, rfl, hn⟩ := hc op p hp
    obtain ⟨m, hp', hm⟩ := callers_advance hn ha
    refine ⟨List.replicate m op, hpool, fun op' q heq => ?_, ?_⟩
    · obtain ⟨rfl, rfl⟩ := Prod.mk.inj (Option.some.inj heq)
      exact ⟨m, rfl, hp'⟩
    · rw [hm]
      exact List.sublist_append_left ..
  | crash =>
    simp only [Machine.step, Option.some.injEq, Prod.mk.injEq] at hs
    obtain ⟨rfl, rfl⟩ := hs
    refine ⟨[], hpool, ?_, List.nil_sublist _⟩
    intro op p heq
    cases heq
  | whole op xs =>
    obtain ⟨hidle, p, s, hd, -, rfl⟩ := Machine.step_whole hs
    cases hop : M.threaded op with
    | false =>
      obtain ⟨m, -, hm⟩ := callers_drive (hother op hop) hd
      obtain ⟨hnone, -⟩ := List.append_eq_nil_iff.mp hm
      exact ⟨pending, hpool, hc, by simp [hnone, Label.turn, hop]⟩
    | true =>
      have hturn : (Label.whole op xs : Label Op X V).turn M.threaded = [op] := if_pos hop
      refine ⟨[], hpool, Conf.pending_of_idle (hidle hop) s, ?_⟩
      rw [List.append_nil, hturn]
      exact (callers_of_one (hthread op hop) hd).trans (List.sublist_append_right ..)
  | cut op xs =>
    obtain ⟨hop, hidle, p, s, hd, rfl⟩ := Machine.step_cut hs
    refine ⟨[], hpool, Conf.pending_of_idle hidle s, ?_⟩
    rw [List.append_nil]
    exact (callers_of_one (hthread op hop) hd).trans (List.sublist_append_right ..)
  | event v =>
    obtain ⟨s, -, rfl, rfl⟩ := Machine.step_event hs
    exact ⟨pending, hpool, hc, by simp [callers, Label.turn]⟩

/-- Those who made the selected calls of a run were set to in that order. -/
theorem callers_run {c c' : Conf Op C R E σ} {ls : List (Label Op X V)}
    {rs : List (Record Op C σ)} {pending : List Op}
    (hthread : ∀ op, M.threaded op = true → AtMost sel (M.code op) 1)
    (hother : ∀ op, M.threaded op = false → AtMost sel (M.code op) 0)
    (hpool : ∀ entry ∈ c.pool, AtMost sel entry.2 0) (hc : c.Pending sel pending)
    (hr : M.run c ls = some (rs, c')) :
    (callers sel rs).Sublist (pending ++ ls.flatMap (Label.turn M.threaded)) := by
  induction ls generalizing c rs pending with
  | nil =>
    simp only [Machine.run, Option.some.injEq, Prod.mk.injEq] at hr
    obtain ⟨rfl, -⟩ := hr
    exact List.nil_sublist _
  | cons l ls ih =>
    obtain ⟨rs₁, c₁, rs₂, hs, hr', rfl⟩ := Machine.run_cons hr
    obtain ⟨pending', hpool₁, hc₁, hfirst⟩ := callers_step hthread hother hpool hc hs
    have hrest := ih hpool₁ hc₁ hr'
    rw [callers_append, List.flatMap_cons, ← List.append_assoc]
    have hsecond := hrest.append_left (callers sel rs₁)
    rw [← List.append_assoc] at hsecond
    exact hsecond.trans (hfirst.append_right _)

end Interaction
