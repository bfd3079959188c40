import TrainVla.System.Protocol

/-! Rules for walking through a program with a list of known facts. -/
namespace TrainVla

open Interaction

/-- Answers that the world can give to a call. -/
def Deployment.Possible (D : Deployment) (c : Call) (r : c.Resp) : Prop :=
  ∃ o w w', World.exec D.steady o w c = some (r, w')

/-- What a protocol has to show, once for all operations: facts outlive what the others do
and what the operation does itself, and answers teach what they seem to. -/
structure Protocol.Valid (P : Protocol) (D : Deployment) : Prop where
  preorders : (P.outline D).Preorders
  stable : ∀ op f w w', P.rely op w w' → P.inv w' → P.holds op f w → P.holds op f w'
  survive : ∀ op o w c r w' f, P.inv w → P.pre D op w c → P.cond op w c →
    World.exec D.steady o w c = some (r, w') → Survives c f → P.holds op f w → P.holds op f w'
  learn : ∀ op o w c r w' fs f, P.inv w → P.pre D op w c → P.cond op w c →
    World.exec D.steady o w c = some (r, w') → Learns D op fs c r f →
    (∀ g ∈ fs, P.holds op g w) → P.holds op f w'

/-- A program that is safe in every world in which the facts hold. -/
def Conducts (P : Protocol) (D : Deployment) (op : Op) {α : Type} (fs : List Fact)
    (Q : Except Exc α → World → Prop) (p : Service α) : Prop :=
  ∀ w, (∀ f ∈ fs, P.holds op f w) → Safe (World.exec D.steady) (P.outline D) op Q p w

/-- The facts are enough for an outcome to be accepted. -/
def Accepts (P : Protocol) (op : Op) {α : Type} (fs : List Fact)
    (Q : Except Exc α → World → Prop) (r : Except Exc α) : Prop :=
  ∀ w, P.inv w → (∀ f ∈ fs, P.holds op f w) → Q r w

/-- What is known after a call: what survived it and what was learnt from it. -/
def After (D : Deployment) (op : Op) (fs : List Fact) (c : Call) (r : c.Resp) (g : Fact) : Prop :=
  g ∈ fs ∧ Survives c g ∨ ∃ before, (∀ f ∈ before, f ∈ fs) ∧ Learns D op before c r g

/-- Calls that ask for no precondition and after which every fact still holds. -/
def Call.quiet : Call → Bool
  | now | jobsCreate _ | jobsUpdate .. | usersUpdate .. | usersCreate _ => false
  | dockerRun _ | dockerKill _ | makeJobDir _ | removeJobDir _ => false
  | storageExists _ | storageOpenReadStream .. | storageDelete _ | storageUploadFile .. => false
  | storageGenerateUploadUrl .. | storageGenerateDownloadUrl .. | extractAll .. => false
  | _ => true

theorem Call.pre_of_quiet {c : Call} (h : c.quiet = true) (P : Protocol) (D : Deployment) (op : Op)
    (w : World) : P.pre D op w c := by
  cases c with
  | storageOpenReadStream purpose objectPath => simp [quiet] at h
  | _ => trivial

theorem Call.survives_of_quiet {c : Call} (h : c.quiet = true) (f : Fact) : Survives c f := by
  cases c <;> trivial

section

variable {P : Protocol} {D : Deployment} {op : Op} {fs : List Fact} {c : Call} {r : c.Resp}

theorem After.of_mem {g : Fact} (h : g ∈ fs) (hs : Survives c g) : After D op fs c r g := .inl ⟨h, hs⟩

theorem After.of_quiet {g : Fact} (h : g ∈ fs) (hc : c.quiet = true) : After D op fs c r g :=
  .inl ⟨h, Call.survives_of_quiet hc g⟩

theorem After.of_learns {before : List Fact} {g : Fact} (hl : Learns D op before c r g)
    (hsub : ∀ f ∈ before, f ∈ fs) : After D op fs c r g := .inr ⟨before, hsub, hl⟩

end

section

variable {P : Protocol} {D : Deployment} {op : Op} {α β : Type} {fs gs : List Fact}
  {Q : Except Exc α → World → Prop}

theorem Accepts.weaken {r : Except Exc α} (h : Accepts P op fs Q r) (hsub : ∀ f ∈ fs, f ∈ gs) :
    Accepts P op gs Q r :=
  fun w hi hg => h w hi fun f hf => hg f (hsub f hf)

namespace Conducts

theorem weaken {p : Service α} (h : Conducts P D op fs Q p) (hsub : ∀ f ∈ fs, f ∈ gs) :
    Conducts P D op gs Q p :=
  fun w hg => h w fun f hf => hg f (hsub f hf)

theorem pure (hP : P.Valid D) {a : α} (h : Accepts P op fs Q (.ok a)) :
    Conducts P D op fs Q (Pure.pure a) :=
  fun _ hf w' hr hi => h w' hi fun f hm => hP.stable op f _ _ hr hi (hf f hm)

theorem raise (hP : P.Valid D) {e : Exc} (h : Accepts P op fs Q (.error e)) :
    Conducts P D op fs Q (.raise e) :=
  fun _ hf w' hr hi => h w' hi fun f hm => hP.stable op f _ _ hr hi (hf f hm)

/-- A call, and what is known of the rest of the program for each answer. -/
theorem perform (hP : P.Valid D) {c : Call} {k : c.Resp → Service α}
    (hpre : ∀ w, P.inv w → (∀ f ∈ fs, P.holds op f w) → P.pre D op w c)
    (hk : ∀ r, D.Possible c r →
      ∃ gs, (∀ g ∈ gs, After D op fs c r g) ∧ Conducts P D op gs Q (k r)) :
    Conducts P D op fs Q (TrainVla.perform c >>= k) := by
  intro w hf
  apply Safe.perform
  intro w' hr hi
  have hf' : ∀ f ∈ fs, P.holds op f w' := fun f hm => hP.stable op f _ _ hr hi (hf f hm)
  have hpre' := hpre w' hi hf'
  refine ⟨hpre', fun hc o r w'' he => ?_⟩
  obtain ⟨gs, hgs, hk'⟩ := hk r ⟨o, w', w'', he⟩
  apply hk'
  intro g hg
  rcases hgs g hg with ⟨hm, hs⟩ | ⟨before, hsub, hl⟩
  · exact hP.survive op o w' c r w'' g hi hpre' hc he hs (hf' g hm)
  · exact hP.learn op o w' c r w'' before g hi hpre' hc he hl fun b hb => hf' b (hsub b hb)

theorem quiet (hP : P.Valid D) {c : Call} {k : c.Resp → Service α} (hc : c.quiet = true)
    (hk : ∀ r, D.Possible c r → Conducts P D op fs Q (k r)) :
    Conducts P D op fs Q (TrainVla.perform c >>= k) :=
  perform hP (fun w _ _ => Call.pre_of_quiet hc P D op w) fun r hr =>
    ⟨fs, fun g hg => .inl ⟨hg, Call.survives_of_quiet hc g⟩, hk r hr⟩

/-- A call that is allowed, and after which the facts still hold. -/
theorem allowed (hP : P.Valid D) {c : Call} {k : c.Resp → Service α}
    (hpre : ∀ w, (∀ f ∈ fs, P.holds op f w) → P.pre D op w c) (hfs : ∀ g ∈ fs, Survives c g)
    (hk : ∀ r, D.Possible c r → Conducts P D op fs Q (k r)) :
    Conducts P D op fs Q (TrainVla.perform c >>= k) :=
  perform hP (fun w _ hf => hpre w hf) fun r hr => ⟨fs, fun g hg => .of_mem hg (hfs g hg), hk r hr⟩

/-- Removing the directory of a job. -/
theorem removeJobDir (hP : P.Valid D) {jobId : String} {k : Unit → Service α}
    (hfs : ∀ g ∈ fs, Survives (.removeJobDir jobId) g)
    (hk : Conducts P D op (.cleared jobId :: fs) Q (k ())) :
    Conducts P D op fs Q (TrainVla.perform (.removeJobDir jobId) >>= k) := by
  refine perform hP (fun _ _ _ => trivial) fun _ _ => ⟨.cleared jobId :: fs, fun g hg => ?_, hk⟩
  rcases List.mem_cons.mp hg with rfl | hg
  · exact .of_learns .cleared (by simp)
  · exact .of_mem hg (hfs g hg)

/-- A quiet call from whose answer something is learnt. -/
theorem ask (hP : P.Valid D) {c : Call} {k : c.Resp → Service α} (hc : c.quiet = true)
    (hk : ∀ r, D.Possible c r → Conducts P D op fs Q (k r) ∨
      ∃ before g, Learns D op before c r g ∧ (∀ f ∈ before, f ∈ fs) ∧
        Conducts P D op (g :: fs) Q (k r)) :
    Conducts P D op fs Q (TrainVla.perform c >>= k) := by
  refine perform hP (fun w _ _ => Call.pre_of_quiet hc P D op w) fun r hr => ?_
  rcases hk r hr with h | ⟨before, g, hl, hsub, h⟩
  · exact ⟨fs, fun f hf => .of_quiet hf hc, h⟩
  · refine ⟨g :: fs, fun f hf => ?_, h⟩
    rcases List.mem_cons.mp hf with rfl | hf
    · exact .of_learns hl hsub
    · exact .of_quiet hf hc

/-- A listing, after which every job in it is known. -/
theorem list (hP : P.Valid D) {statuses : List JobStatus} {k : List Job → Service α}
    (hk : ∀ jobs, D.Possible (.jobsListByStatuses statuses) jobs →
      Conducts P D op (fs ++ jobs.map (.job .read)) Q (k jobs)) :
    Conducts P D op fs Q (TrainVla.perform (.jobsListByStatuses statuses) >>= k) := by
  refine perform hP (fun _ _ _ => trivial) fun jobs hjobs => ⟨_, fun g hg => ?_, hk jobs hjobs⟩
  rcases List.mem_append.mp hg with hg | hg
  · exact .of_quiet hg rfl
  · obtain ⟨job, hjob, rfl⟩ := List.mem_map.mp hg
    exact .of_learns (.found hjob) (by simp)

/-- Reading the clock, where no earlier reading is known. -/
theorem now (hP : P.Valid D) {k : ℤ → Service α} (hfs : ∀ f ∈ fs, Survives .now f)
    (hk : ∀ t, ∃ before g, Learns D op before .now t g ∧ (∀ f ∈ before, f ∈ fs) ∧
      Conducts P D op (g :: fs) Q (k t)) :
    Conducts P D op fs Q (TrainVla.perform .now >>= k) := by
  refine perform hP (fun _ _ _ => trivial) fun t _ => ?_
  obtain ⟨before, g, hl, hsub, h⟩ := hk t
  refine ⟨g :: fs, fun f hf => ?_, h⟩
  rcases List.mem_cons.mp hf with rfl | hf
  · exact .of_learns hl hsub
  · exact .of_mem hf (hfs f hf)

/-- A write that leaves nothing unsettled. Documents of other jobs are known as before. -/
theorem write (hP : P.Valid D) (jobs : List Job) {st st' : Stage} {seen new : Job} {now : ℤ}
    {k : Unit → Service α} (h : JobWrite op st seen now st' new) (hst : st'.Settled)
    (hjob : .job st seen ∈ fs) (htime : .time now ∈ fs) (hcalm : st.Settled → .calm ∈ fs)
    (hdead : st = .dead → .cleared new.id ∈ fs)
    (hdone : new.status = .completed → .uploaded new.id ∈ fs)
    (hjobs : ∀ job ∈ jobs, .job .read job ∈ fs ∧ job.id ≠ new.id)
    (hk : Conducts P D op (.job st' new :: .time now :: .calm :: jobs.map (.job .read)) Q (k ())) :
    Conducts P D op fs Q (TrainVla.perform (.jobsUpdate seen new) >>= k) := by
  refine perform hP (fun w _ hf => ⟨st, now, st', h, hf _ hjob, hf _ htime,
    fun hs => hf _ (hcalm hs), fun hs => hf _ (hdead hs), fun hs => hf _ (hdone hs)⟩)
    fun _ _ => ⟨_, ?_, hk⟩
  simp only [List.mem_cons, List.mem_map, forall_eq_or_imp, forall_exists_index, and_imp,
    forall_apply_eq_imp_iff₂]
  refine ⟨.of_learns (.wrote h hjob htime hcalm) fun _ => id, .of_mem htime (.inr ⟨now, rfl⟩),
    .of_learns (.calmWrote h hjob htime hcalm hst) fun _ => id, fun job hj => ?_⟩
  exact .of_mem (hjobs job hj).1 (hjobs job hj).2

theorem bind (hP : P.Valid D) {p : Service β} {f : β → Service α}
    (h : Conducts P D op fs (Safe.andThen (World.exec D.steady) (P.outline D) op Q f) p) :
    Conducts P D op fs Q (p >>= f) :=
  fun w hf => Safe.bind hP.preorders (h w hf)

theorem attempt {Q : Except Exc (Except Exc α) → World → Prop} {p : Service α}
    (h : Conducts P D op fs (fun r => Q (.ok r)) p) : Conducts P D op fs Q p.attempt :=
  fun w hf => Safe.attempt (h w hf)

theorem last (hP : P.Valid D) {c : Call} {Q : Except Exc c.Resp → World → Prop}
    (hc : c.quiet = true) (hQ : ∀ r, Accepts P op fs Q (.ok r)) :
    Conducts P D op fs Q (TrainVla.perform c) :=
  show Conducts P D op fs Q (TrainVla.perform c >>= Pure.pure) from
    quiet hP hc fun r _ => pure hP (hQ r)

theorem outcome (hP : P.Valid D) {r : Except Exc α} (h : Accepts P op fs Q r) :
    Conducts P D op fs Q (Prog.ofExcept r) := by
  cases r with
  | ok a => exact pure hP h
  | error e => exact raise hP h

/-- The outcome of a pure computation: go on with it, or raise. -/
theorem ofExcept (hP : P.Valid D) {r : Except Exc β} {f : β → Service α}
    (hok : ∀ a, r = .ok a → Conducts P D op fs Q (f a))
    (herr : ∀ e, r = .error e → Accepts P op fs Q (.error e)) :
    Conducts P D op fs Q (Prog.ofExcept r >>= f) := by
  cases r with
  | ok a => exact hok a rfl
  | error e => exact raise hP (herr e rfl)

end Conducts

/-- A part of a program hands its facts over to the rest. -/
theorem Accepts.next {f : β → Service α} {b : β} (h : Conducts P D op fs Q (f b)) :
    Accepts P op fs (Safe.andThen (World.exec D.steady) (P.outline D) op Q f) (.ok b) :=
  fun w _ hf => h w hf

end

end TrainVla
