import TrainVla.Properties.UniqueAccounts

/-! Two parties write the documents of users as a whole: requests that change the password, and
the worker when it charges a start. Each of them can take back what the other one wrote. -/
namespace TrainVla

open Interaction Store

structure User.SameQuota (a b : User) : Prop where
  dailyQuotaUsed : a.dailyQuotaUsed = b.dailyQuotaUsed
  quotaResetDate : a.quotaResetDate = b.quotaResetDate

namespace User.SameQuota

theorem rfl {a : User} : a.SameQuota a := ⟨.refl _, .refl _⟩

theorem symm {a b : User} (h : a.SameQuota b) : b.SameQuota a := ⟨h.1.symm, h.2.symm⟩

theorem trans {a b c : User} (h₁ : a.SameQuota b) (h₂ : b.SameQuota c) : a.SameQuota c :=
  ⟨h₁.1.trans h₂.1, h₁.2.trans h₂.2⟩

theorem effectiveDailyUsed {a b : User} (h : a.SameQuota b) (today : ℤ) :
    TrainVla.effectiveDailyUsed a today = TrainVla.effectiveDailyUsed b today := by
  unfold TrainVla.effectiveDailyUsed
  rw [h.dailyQuotaUsed, h.quotaResetDate]

theorem recordJobStarted {a b : User} (h : a.SameQuota b) (today : ℤ) :
    (TrainVla.recordJobStarted a today).SameQuota (TrainVla.recordJobStarted b today) := by
  constructor
  · rw [recordJobStarted_dailyQuotaUsed, recordJobStarted_dailyQuotaUsed, h.effectiveDailyUsed]
  · rfl

end User.SameQuota

namespace UserUpdates

/-- The document after starts on these days were charged one after the other. -/
def chargeAll (user : User) (days : List ℤ) : User := days.foldl recordJobStarted user

theorem chargeAll_concat (user : User) (days : List ℤ) (day : ℤ) :
    chargeAll user (days ++ [day]) = recordJobStarted (chargeAll user days) day := by
  simp [chargeAll]

/-- As long as the days do not go back, the counter is the number of starts on the last one. -/
theorem effectiveDailyUsed_chargeAll {user : User} {days : List ℤ} {today : ℤ}
    (h : (user.quotaResetDate.toList ++ days ++ [today]).Pairwise (· ≤ ·)) :
    effectiveDailyUsed (chargeAll user days) today =
      effectiveDailyUsed user today + days.count today := by
  induction days generalizing user with
  | nil => rfl
  | cons day days ih =>
    rw [List.append_assoc, List.pairwise_append] at h
    obtain ⟨-, hdays, hreset⟩ := h
    have hday : day ≤ today := (List.pairwise_cons.mp hdays).1 today (by simp)
    have hrest : effectiveDailyUsed (chargeAll (recordJobStarted user day) days) today =
        effectiveDailyUsed (recordJobStarted user day) today + days.count today := ih hdays
    have hone : effectiveDailyUsed (recordJobStarted user day) today =
        effectiveDailyUsed user today + if day = today then 1 else 0 := by
      by_cases heq : day = today
      · rw [if_pos heq, ← heq]
        unfold effectiveDailyUsed
        rw [if_neg (by simp)]
        rfl
      · have hzero : effectiveDailyUsed user today = 0 := by
          unfold effectiveDailyUsed
          rw [if_pos]
          intro hlast
          have hle : today ≤ day := hreset today (by rw [hlast]; simp) day (by simp)
          omega
        rw [if_neg heq, hzero]
        unfold effectiveDailyUsed
        rw [if_pos]
        simpa using heq
    calc effectiveDailyUsed (chargeAll user (day :: days)) today
        = effectiveDailyUsed user today + (if day = today then 1 else 0) + days.count today := by
          rw [← hone]
          exact hrest
      _ = effectiveDailyUsed user today + (day :: days).count today := by
          rw [List.count_cons]
          simp only [beq_iff_eq]
          omega

/-- The day of a start that the user is charged for by this call. -/
def charge? (userId : String) (r : SysRecord) : Option ℤ :=
  match r.call with
  | .usersUpdate (some _) _ user => if user.id = userId then user.quotaResetDate else none
  | _ => none

def chargedDays (userId : String) (past : List SysRecord) : List ℤ :=
  past.filterMap (charge? userId)

/-- The hash after this call: a sign-up and a change of the password set it. -/
def passwordAfter (userId : String) (hash : Option String) (r : SysRecord) : Option String :=
  match r.call with
  | .usersCreate user => if user.id = userId then user.passwordHash else hash
  | .usersUpdate none _ user => if user.id = userId then user.passwordHash else hash
  | _ => hash

def lastPassword (userId : String) (initial : Option String) (past : List SysRecord) :
    Option String :=
  past.foldl (passwordAfter userId) initial

/-- The document of a user at the beginning. Who signs up later has not been charged yet. -/
def initialUser (w : World) (userId : String) : User :=
  (w.users.get? userId).getD { id := userId, authProvider := .email, createdAt := 0 }

end UserUpdates

open UserUpdates

/-- No update of the document was lost: the hash is the one that was written last, and every
start was charged on top of the ones before it. On the current day the counter is the number of
starts that were charged on it. -/
structure UpdatesKept (w : World) (past : List SysRecord) (user : User) : Prop where
  password : user.passwordHash =
    lastPassword user.id (initialUser w user.id).passwordHash past
  quota : user.SameQuota (chargeAll (initialUser w user.id) (chargedDays user.id past))
  today : ∀ today, ((initialUser w user.id).quotaResetDate.toList ++ chargedDays user.id past ++
      [today]).Pairwise (· ≤ ·) →
    effectiveDailyUsed user today =
      effectiveDailyUsed (initialUser w user.id) today + (chargedDays user.id past).count today

/-- The document that an update was computed from is not out of date in the fields of the other
party: in the quota, where the password is changed, and in the password, where a start is charged. -/
def Respects (r : SysRecord) : Prop :=
  ∀ charge seen user stored, r.call = .usersUpdate charge seen user →
    r.before.users.get? seen.id = some stored →
    (charge = none → seen.SameQuota stored) ∧
      (charge ≠ none → seen.passwordHash = stored.passwordHash)

namespace UserUpdates

theorem updatesKept_of_fields {w : World} {past : List SysRecord} {user : User}
    (hpassword : user.passwordHash =
      lastPassword user.id (initialUser w user.id).passwordHash past)
    (hquota : user.SameQuota (chargeAll (initialUser w user.id) (chargedDays user.id past))) :
    UpdatesKept w past user where
  password := hpassword
  quota := hquota
  today today h := by
    rw [hquota.effectiveDailyUsed]
    exact effectiveDailyUsed_chargeAll h

theorem chargedDays_concat (userId : String) (past : List SysRecord) (r : SysRecord) :
    chargedDays userId (past ++ [r]) = chargedDays userId past ++ (charge? userId r).toList := by
  unfold chargedDays
  rw [List.filterMap_append]
  cases h : charge? userId r <;> simp [h]

theorem lastPassword_concat (userId : String) (initial : Option String) (past : List SysRecord)
    (r : SysRecord) : lastPassword userId initial (past ++ [r]) =
      passwordAfter userId (lastPassword userId initial past) r := by
  simp [lastPassword]

/-- Calls that do not concern the user. -/
theorem updatesKept_concat {w : World} {past : List SysRecord} {user : User} {r : SysRecord}
    (h : UpdatesKept w past user) (hcharge : charge? user.id r = none)
    (hpassword : ∀ hash, passwordAfter user.id hash r = hash) : UpdatesKept w (past ++ [r]) user := by
  apply updatesKept_of_fields
  · rw [lastPassword_concat, hpassword]
    exact h.password
  · rw [chargedDays_concat, hcharge, Option.toList_none, List.append_nil]
    exact h.quota

/-- What holds before each call, given the calls before it. -/
structure Inv (w : World) (past : List SysRecord) (s : World) : Prop where
  kept : ∀ user ∈ s.users, UpdatesKept w past user
  absent : ∀ userId, s.users.get? userId = none →
    w.users.get? userId = none ∧ chargedDays userId past = []

theorem Inv.stored {w s : World} {past : List SysRecord} {userId : String} {stored : User}
    (hi : Inv w past s) (hstored : s.users.get? userId = some stored) :
    stored.passwordHash = lastPassword userId (initialUser w userId).passwordHash past ∧
      stored.SameQuota (chargeAll (initialUser w userId) (chargedDays userId past)) := by
  obtain rfl : stored.id = userId := Table.key_of_get? hstored
  have hkept := hi.kept stored (Table.mem_of_get? hstored)
  exact ⟨hkept.password, hkept.quota⟩

theorem inv_initial (w : World) : Inv w [] w where
  kept user huser := by
    have hinitial : initialUser w user.id = user := by
      unfold initialUser
      rw [Table.get?_of_mem huser]
      rfl
    apply updatesKept_of_fields <;> rw [hinitial]
    · rfl
    · exact .rfl
  absent _ h := ⟨h, rfl⟩

/-- Others leave the quota of every user alone. -/
def QuotaKept (users users' : UserTable) : Prop :=
  ∀ userId user, users.get? userId = some user →
    ∃ user', users'.get? userId = some user' ∧ user.SameQuota user'

/-- The worker knows the quota of the user that it starts a job of. -/
def QuotaKnown (users : UserTable) (user : User) : Prop :=
  ∃ stored, users.get? user.id = some stored ∧ user.SameQuota stored

def protocol : Protocol where
  inv _ := True
  rely op w w' := op.threaded = true → QuotaKept w.users w'.users
  cond op w c := ∀ after, Respects ⟨op, w, c, after⟩
  holds op f w :=
    match f with
    | .job (.owned user) _ => op.threaded = true → QuotaKnown w.users user
    | .job (.started user) _ => op.threaded = true → QuotaKnown w.users user
    | _ => True

theorem QuotaKept.refl (users : UserTable) : QuotaKept users users :=
  fun _ user huser => ⟨user, huser, .rfl⟩

theorem QuotaKept.trans {users₁ users₂ users₃ : UserTable} (h₁ : QuotaKept users₁ users₂)
    (h₂ : QuotaKept users₂ users₃) : QuotaKept users₁ users₃ := by
  intro userId user huser
  obtain ⟨user₂, huser₂, hsame₂⟩ := h₁ userId user huser
  obtain ⟨user₃, huser₃, hsame₃⟩ := h₂ userId user₂ huser₂
  exact ⟨user₃, huser₃, hsame₂.trans hsame₃⟩

theorem QuotaKnown.kept {users users' : UserTable} {user : User} (h : QuotaKnown users user)
    (hk : QuotaKept users users') : QuotaKnown users' user := by
  obtain ⟨stored, hstored, hsame⟩ := h
  obtain ⟨stored', hstored', hsame'⟩ := hk user.id stored hstored
  exact ⟨stored', hstored', hsame.trans hsame'⟩

theorem quotaKept_put {users : UserTable} {user : User}
    (h : ∀ stored, users.get? user.id = some stored → user.SameQuota stored) :
    QuotaKept users (users.put user) := by
  intro userId other hother
  by_cases hid : userId = user.id
  · rw [hid] at hother ⊢
    exact ⟨user, Table.get?_put_self users user, (h other hother).symm⟩
  · refine ⟨other, ?_, .rfl⟩
    rw [Table.get?_put, if_neg hid, hother]

section

variable {D : Deployment} {op : Op} {o : Choice} {w w' : World} {c : Call} {r : c.Resp}

theorem holds_kept {f : Fact} (h : op.threaded = true → QuotaKept w.users w'.users)
    (hf : protocol.holds op f w) : protocol.holds op f w' := by
  cases f with
  | job st job =>
    cases st with
    | owned user => exact fun ht => (hf ht).kept (h ht)
    | started user => exact fun ht => (hf ht).kept (h ht)
    | _ => trivial
  | _ => trivial

/-- What an update leaves as it was in the document that it was computed from. -/
theorem written {P : Protocol} {charge : Option String} {seen user : User}
    (hpre : P.pre D op w (.usersUpdate charge seen user)) :
    user.id = seen.id ∧ (charge = none → user.SameQuota seen) ∧
      (charge ≠ none → user.passwordHash = seen.passwordHash) := by
  cases charge with
  | none =>
    obtain ⟨-, passwordHash, -, rfl⟩ := hpre
    exact ⟨rfl, fun _ => ⟨rfl, rfl⟩, fun h => absurd rfl h⟩
  | some jobId =>
    obtain ⟨-, job, now, -, -, -, rfl⟩ := hpre
    exact ⟨rfl, nofun, fun _ => rfl⟩

/-- Whatever is not a charge keeps every quota. -/
theorem quotaKept_exec (hpre : protocol.pre D op w c) (hcond : protocol.cond op w c)
    (he : World.exec D.steady o w c = some (r, w'))
    (hcharge : ∀ jobId seen user, c ≠ .usersUpdate (some jobId) seen user) :
    QuotaKept w.users w'.users := by
  have hframe : c.writesUsers = false → QuotaKept w.users w'.users := by
    intro h
    rw [(World.exec_frame he).users h]
    exact .refl _
  cases c with
  | usersCreate user =>
    obtain ⟨rfl, hfresh⟩ := World.exec_usersCreate he
    refine quotaKept_put fun stored hstored => ?_
    rw [hfresh] at hstored
    cases hstored
  | usersUpdate charge seen user =>
    obtain rfl := World.exec_usersUpdate he
    cases charge with
    | none =>
      obtain ⟨hid, hsame, -⟩ := written hpre
      refine quotaKept_put fun stored hstored => ?_
      rw [hid] at hstored
      exact (hsame rfl).trans ((hcond w none seen user stored rfl hstored).1 rfl)
    | some jobId => exact absurd rfl (hcharge jobId seen user)
  | _ => exact hframe rfl

theorem valid : protocol.Valid D where
  preorders := ⟨fun _ w _ => .refl w.users, fun _ _ _ _ h₁ h₂ ht => (h₁ ht).trans (h₂ ht)⟩
  stable _ _ _ _ hrely _ hf := holds_kept hrely hf
  survive op o w c r w' f _ hpre hcond he hs hf := by
    cases f with
    | job st job =>
      refine holds_kept (fun _ => quotaKept_exec hpre hcond he ?_) hf
      rintro jobId seen user rfl
      exact hs.elim
    | _ => trivial
  learn op o w c r w' fs f _ _ _ he hl hfs := by
    cases hl with
    | owned =>
      obtain ⟨huser, rfl⟩ := Prod.mk.inj (Option.some.inj he)
      exact fun _ => ⟨_, Table.get?_of_mem (Table.mem_of_get? huser), .rfl⟩
    | wrote h hjob _ _ =>
      cases h with
      | start _ =>
        obtain rfl := World.exec_jobsUpdate he
        exact hfs _ hjob
      | _ => trivial
    | _ => trivial

theorem sound {permit : SysLabel → Prop} : protocol.Sound D permit where
  toValid := valid
  exec op o w c r w' _ hpre hcond he := by
    refine ⟨trivial, fun op' hover ht => quotaKept_exec hpre hcond he ?_⟩
    -- only the worker charges, and it is the worker that relies on this
    rintro jobId seen user rfl
    obtain ⟨rfl, -⟩ := hpre
    have hidle : op'.threaded = false := hover.2 rfl
    rw [ht] at hidle
    cases hidle
  occur v w w' _ _ he := by
    refine ⟨trivial, fun op' _ _ => ?_⟩
    rw [(World.occur_frame he).2.1]
    exact .refl _

end

section

variable {D : Deployment} {w : World} {past : List SysRecord} {r : SysRecord}

/-- Every user document that is written replaces a stored one, except at sign-up. -/
theorem stored_of_update {charge : Option String} {seen user : User}
    (hknown : r.Known D.system (Accounts.protocol.outline D))
    (hcall : r.call = .usersUpdate charge seen user) : ∃ stored,
      r.before.users.get? user.id = some stored ∧ r.after.users = r.before.users.put user := by
  obtain ⟨op, before, call, after⟩ := r
  obtain ⟨-, hpre, o, a, he⟩ := hknown
  obtain rfl : call = .usersUpdate charge seen user := hcall
  obtain ⟨stored, hstored, -⟩ := Accounts.rewritten hpre
  have he : World.exec D.steady o before (.usersUpdate charge seen user) = some (a, after) := he
  obtain rfl := World.exec_usersUpdate he
  exact ⟨stored, hstored, rfl⟩

theorem written_of_known {charge : Option String} {seen user : User}
    (hknown : r.Known D.system (Accounts.protocol.outline D))
    (hcall : r.call = .usersUpdate charge seen user) :
    user.id = seen.id ∧ (charge = none → user.SameQuota seen) ∧
      (charge ≠ none → user.passwordHash = seen.passwordHash) := by
  have hpre : Accounts.protocol.pre D r.op r.before r.call := hknown.pre
  rw [hcall] at hpre
  exact written hpre

theorem absent_step (hknown : r.Known D.system (Accounts.protocol.outline D))
    (hi : Inv w past r.before) : ∀ userId, r.after.users.get? userId = none →
      w.users.get? userId = none ∧ chargedDays userId (past ++ [r]) = [] := by
  intro userId habsent
  have hbefore : r.before.users.get? userId = none := by
    cases hget : r.before.users.get? userId with
    | none => rfl
    | some user =>
      obtain ⟨-, hpre, o, a, he⟩ := hknown
      obtain ⟨user', huser', -⟩ := Accounts.lasting_exec hpre he userId user hget
      rw [habsent] at huser'
      cases huser'
  obtain ⟨hinitial, hdays⟩ := hi.absent userId hbefore
  refine ⟨hinitial, ?_⟩
  rw [chargedDays_concat, hdays, List.nil_append]
  unfold charge?
  split
  · rename_i jobId seen user hcall
    rw [if_neg]
    · rfl
    · rintro rfl
      obtain ⟨stored, hstored, -⟩ := stored_of_update hknown hcall
      rw [hbefore] at hstored
      cases hstored
  · rfl

/-- Calls that write no user document leave everything as it was. -/
theorem kept_of_frame (hknown : r.Known D.system (Accounts.protocol.outline D))
    (hquiet : r.call.writesUsers = false) (hi : Inv w past r.before) :
    ∀ user ∈ r.after.users, UpdatesKept w (past ++ [r]) user := by
  obtain ⟨op, before, call, after⟩ := r
  obtain ⟨-, -, o, a, he⟩ := hknown
  intro user huser
  rw [(World.exec_frame he).users hquiet] at huser
  have hcall : charge? user.id ⟨op, before, call, after⟩ = none ∧
      ∀ hash, passwordAfter user.id hash ⟨op, before, call, after⟩ = hash := by
    cases call <;> first | exact ⟨rfl, fun _ => rfl⟩ | cases hquiet
  exact updatesKept_concat (hi.kept user huser) hcall.1 hcall.2

/-- Documents of other users, when one is written. -/
theorem kept_of_ne {user other : User}
    (hcall : r.call = .usersCreate user ∨ ∃ charge seen, r.call = .usersUpdate charge seen user)
    (hi : Inv w past r.before) (hother : other ∈ r.before.users) (hne : other.id ≠ user.id) :
    UpdatesKept w (past ++ [r]) other := by
  have hskip : charge? other.id r = none ∧ ∀ hash, passwordAfter other.id hash r = hash := by
    unfold charge? passwordAfter
    rcases hcall with hcall | ⟨_ | jobId, seen, hcall⟩ <;> rw [hcall] <;> simp [hne.symm]
  exact updatesKept_concat (hi.kept other hother) hskip.1 hskip.2

/-- A sign-up starts from nothing. -/
theorem kept_of_create {user : User} (hknown : r.Known D.system (Accounts.protocol.outline D))
    (hcall : r.call = .usersCreate user) (hi : Inv w past r.before) :
    ∀ other ∈ r.after.users, UpdatesKept w (past ++ [r]) other := by
  intro other hother
  obtain ⟨op, before, call, after⟩ := r
  obtain rfl : call = .usersCreate user := hcall
  obtain ⟨-, hpre, o, a, he⟩ := hknown
  have he : World.exec D.steady o before (.usersCreate user) = some (a, after) := he
  have hnew : NewUser op user := hpre
  obtain ⟨rfl, hfresh⟩ := World.exec_usersCreate he
  rcases Table.mem_put.mp hother with rfl | ⟨hother, hne⟩
  · obtain ⟨hinitial, hdays⟩ := hi.absent other.id hfresh
    have hdefault : initialUser w other.id =
        { id := other.id, authProvider := .email, createdAt := 0 } := by
      unfold initialUser
      rw [hinitial]
      rfl
    apply updatesKept_of_fields
    · rw [lastPassword_concat]
      simp [passwordAfter]
    · rw [chargedDays_concat, hdays, hdefault]
      cases hnew <;> exact ⟨rfl, rfl⟩
  · exact kept_of_ne (.inl rfl) hi hother hne

/-- An update that respects what the other party writes. -/
theorem kept_of_respects {charge : Option String} {seen user : User}
    (haccount : r.Known D.system (Accounts.protocol.outline D))
    (hquota : r.Known D.system (protocol.outline D)) (hcall : r.call = .usersUpdate charge seen user)
    (hrespects : Respects r) (hi : Inv w past r.before) :
    ∀ other ∈ r.after.users, UpdatesKept w (past ++ [r]) other := by
  obtain ⟨stored, hstored, hafter⟩ := stored_of_update haccount hcall
  obtain ⟨hlast, hcharged⟩ := hi.stored hstored
  obtain ⟨hid, hseenQuota, hseenPassword⟩ := written_of_known haccount hcall
  obtain ⟨hsame, hpassword⟩ := hrespects charge seen user stored hcall (hid ▸ hstored)
  intro other hother
  rw [hafter] at hother
  rcases Table.mem_put.mp hother with rfl | ⟨hother, hne⟩
  · cases charge with
    | none =>
      apply updatesKept_of_fields
      · rw [lastPassword_concat]
        simp [passwordAfter, hcall]
      · rw [chargedDays_concat]
        have hnothing : charge? other.id r = none := by
          unfold charge?
          rw [hcall]
        rw [hnothing, Option.toList_none, List.append_nil]
        exact (hseenQuota rfl).trans ((hsame rfl).trans hcharged)
    | some jobId =>
      have hkept := (hseenPassword nofun).trans (hpassword nofun)
      obtain ⟨op, before, call, after⟩ := r
      obtain rfl : call = .usersUpdate (some jobId) seen other := hcall
      obtain ⟨-, ⟨rfl, job, now, hknown, -, -, rfl⟩, -⟩ := hquota
      obtain ⟨stored', hstored', hsame'⟩ := hknown rfl
      have hstored' : before.users.get? (recordJobStarted seen (dateOf now)).id = some stored' :=
        hstored'
      obtain rfl := Option.some.inj (hstored.symm.trans hstored')
      apply updatesKept_of_fields
      · rw [lastPassword_concat]
        exact hkept.trans hlast
      · have hday : charge? seen.id ⟨.pollerTick, before,
            .usersUpdate (some jobId) seen (recordJobStarted seen (dateOf now)), after⟩ =
            some (dateOf now) := by
          simp [charge?]
        rw [chargedDays_concat, recordJobStarted_id, hday, Option.toList_some, chargeAll_concat]
        exact (hsame'.trans hcharged).recordJobStarted _
  · exact kept_of_ne (.inr ⟨charge, seen, hcall⟩) hi hother hne

/-- Seen from the documents before and after it, an update that lost nothing respected what the
other party had written. -/
theorem respects_of_kept (haccount : r.Known D.system (Accounts.protocol.outline D))
    (hi : Inv w past r.before) (hafter : ∀ user ∈ r.after.users, UpdatesKept w (past ++ [r]) user) :
    Respects r := by
  intro charge seen user stored hcall hstored
  obtain ⟨-, -, husers⟩ := stored_of_update haccount hcall
  obtain ⟨hid, hseenQuota, hseenPassword⟩ := written_of_known haccount hcall
  rw [← hid] at hstored
  obtain ⟨hlast, hcharged⟩ := hi.stored hstored
  have hnew := hafter user (by rw [husers]; exact Table.mem_put_self _ _)
  constructor
  · rintro rfl
    have hquota := hnew.quota
    have hnothing : charge? user.id r = none := by
      unfold charge?
      rw [hcall]
    rw [chargedDays_concat, hnothing, Option.toList_none, List.append_nil] at hquota
    exact (hseenQuota rfl).symm.trans (hquota.trans hcharged.symm)
  · intro hcharge
    have hpassword := hnew.password
    have hsame : ∀ hash, passwordAfter user.id hash r = hash := by
      intro hash
      unfold passwordAfter
      cases charge with
      | none => exact absurd rfl hcharge
      | some jobId => rw [hcall]
    rw [lastPassword_concat, hsame] at hpassword
    rw [← hseenPassword hcharge, hpassword, hlast]

end

end UserUpdates

open UserUpdates

/-- However requests and the worker interleave: in every state the hash of every user is the one
that was written last and the counter reflects every start that was charged, if and only if no
update is computed from a document that is out of date in what the other party writes. -/
theorem user_updates_kept_iff (D : Deployment) {w : World} {ls : List SysLabel}
    {rs : List SysRecord} {c : SysConf} (hl : ∀ l ∈ ls, Interleaved l)
    (hr : D.system.run (.initial w) ls = some (rs, c)) :
    ((∀ past r later, rs = past ++ r :: later →
        ∀ user ∈ r.after.users, UpdatesKept w (past ++ [r]) user) ∧
      ∀ user ∈ c.state.users, UpdatesKept w rs user) ↔ ∀ r ∈ rs, Respects r := by
  have haccounts : (Accounts.protocol.outline D).Sound D.system Interleaved Accounts.protocol.post :=
    Accounts.sound.outline fun _ _ _ => trivial
  have haccount := (haccounts.run (.initial trivial) hl hr fun _ _ _ => trivial).1
  have hoccur : ∀ past v s s', World.occur v s = some s' → Inv w past s → Inv w past s' := by
    intro past v s s' he hi
    have husers : s'.users = s.users := (World.occur_frame he).2.1
    constructor
    · rw [husers]
      exact hi.kept
    · rw [husers]
      exact hi.absent
  have hmem : ∀ {past r later}, rs = past ++ r :: later → r ∈ rs := by
    rintro past r later rfl
    simp
  constructor
  · rintro ⟨hkept, -⟩ r hr'
    have hstep : ∀ past r later, rs = past ++ r :: later → Inv w ([] ++ past) r.before →
        Inv w ([] ++ past ++ [r]) r.after := by
      intro past r later heq hi
      exact ⟨hkept past r later heq, absent_step (haccount r (hmem heq)) hi⟩
    have hbefore := (Machine.run_history [] hr hstep hoccur (inv_initial w)).1
    obtain ⟨past, later, heq⟩ := List.append_of_mem hr'
    exact respects_of_kept (haccount r hr') (hbefore past r later heq) (hkept past r later heq)
  · intro hrespects
    have hquotas : (protocol.outline D).Sound D.system Interleaved protocol.post :=
      sound.outline fun _ _ _ => trivial
    have hquota := (hquotas.run (.initial trivial) hl hr fun r hr' _ _ => hrespects r hr').1
    have hall : ∀ past r, r ∈ rs → Inv w past r.before →
        ∀ user ∈ r.after.users, UpdatesKept w (past ++ [r]) user := by
      intro past r hr' hi
      cases hcall : r.call with
      | usersCreate user => exact kept_of_create (haccount r hr') hcall hi
      | usersUpdate charge seen user =>
        exact kept_of_respects (haccount r hr') (hquota r hr') hcall (hrespects r hr') hi
      | _ => exact kept_of_frame (haccount r hr') (by rw [hcall]; rfl) hi
    have hstep : ∀ past r later, rs = past ++ r :: later → Inv w ([] ++ past) r.before →
        Inv w ([] ++ past ++ [r]) r.after := by
      intro past r later heq hi
      exact ⟨hall past r (hmem heq) hi, absent_step (haccount r (hmem heq)) hi⟩
    have hrun := Machine.run_history [] hr hstep hoccur (inv_initial w)
    exact ⟨fun past r later heq => hall past r (hmem heq) (hrun.1 past r later heq), hrun.2.kept⟩

namespace UserUpdates

/-- A toy hash that is its own salt, and a check that hashes again and compares. -/
def toyHash : Deployment :=
  { Deployment.sample with
    lib :=
      { Deployment.sample.lib with
        hashpw := fun _ salt => salt
        checkpw := fun _ _ => true } }

def member : World :=
  { World.sample with
    users := Table.empty.put
      { id := "user", authProvider := .email, passwordHash := some "old", createdAt := 0 } }

/-- The user changes the password while the worker starts a job of the same user, between its
reading of the user document and the charge. -/
def overwritten : List SysLabel :=
  Run.create "j" ++ .start .pollerTick :: List.replicate 6 (.work {}) ++
  .spawn (.changePassword "user" "old" "new") :: List.replicate 3 (.serve 1 { text := "new" }) ++
  List.replicate 6 (.work { text := "c" })

theorem interleaved_overwritten : ∀ l ∈ overwritten, Interleaved l := by
  decide

/-- Everything is done, and some hash is not the one that was written last. -/
def lostPassword (out : List SysRecord × SysConf) : Bool :=
  out.2.pool.all (fun entry => entry.2.finished) && (out.2.idle &&
    out.2.state.users.rows.any fun user =>
      user.passwordHash ≠ lastPassword user.id (initialUser member user.id).passwordHash out.1)

end UserUpdates

/-- The charge puts the old password back. -/
theorem user_updates_kept_fails : ¬ ∀ (ls : List SysLabel) (rs : List SysRecord) (c : SysConf),
    (∀ l ∈ ls, Interleaved l) → toyHash.system.run (.initial member) ls = some (rs, c) →
    (∀ entry ∈ c.pool, entry.2.finished = true) → c.idle = true →
    ∀ user ∈ c.state.users, UpdatesKept member rs user := by
  intro h
  have hrun : (toyHash.system.run (.initial member) overwritten).any lostPassword = true := by rfl
  obtain ⟨⟨rs, c⟩, hr, hlost⟩ := (Option.any_eq_true _ _).mp hrun
  simp only [lostPassword, Bool.and_eq_true, List.all_eq_true, List.any_eq_true] at hlost
  obtain ⟨hpool, hidle, user, huser, hne⟩ := hlost
  have hkept := h _ rs c interleaved_overwritten hr hpool hidle user huser
  exact of_decide_eq_true hne hkept.password

namespace UserUpdates

/-- The change begins before the worker starts the job of the user, and comes to its end before
the worker reads the user document. -/
def apart : List SysLabel :=
  Run.create "j" ++ [.spawn (.changePassword "user" "old" "new"), .serve 1 {}, .start .pollerTick] ++
  List.replicate 3 (.work {}) ++ List.replicate 2 (.serve 1 { text := "new" }) ++
  List.replicate 9 (.work { text := "c" })

/-- Is the update not out of date? -/
def respects (r : SysRecord) : Bool :=
  match r.call with
  | .usersUpdate none seen _ => (r.before.users.get? seen.id).all fun stored =>
    seen.dailyQuotaUsed = stored.dailyQuotaUsed && seen.quotaResetDate = stored.quotaResetDate
  | .usersUpdate (some _) seen _ => (r.before.users.get? seen.id).all fun stored =>
    seen.passwordHash = stored.passwordHash
  | _ => true

theorem respects_sound {r : SysRecord} (h : respects r = true) : Respects r := by
  intro charge seen user stored hcall hstored
  unfold respects at h
  cases charge with
  | none =>
    rw [hcall] at h
    simp only [hstored, Option.all_some, Bool.and_eq_true, decide_eq_true_eq] at h
    exact ⟨fun _ => ⟨h.1, h.2⟩, fun hne => absurd rfl hne⟩
  | some jobId =>
    rw [hcall] at h
    simp only [hstored, Option.all_some, decide_eq_true_eq] at h
    exact ⟨fun hnone => (by cases hnone), fun _ => h⟩

/-- Everything is done, the password is the new one, and the start was charged. -/
def bothKept (out : List SysRecord × SysConf) : Bool :=
  out.1.all respects && (out.2.pool.all (fun entry => entry.2.finished) && (out.2.idle &&
    out.2.state.users.rows.any fun user =>
      user.passwordHash = some "new" && user.dailyQuotaUsed = 1))

end UserUpdates

theorem user_updates_kept_iff_apart : ∃ rs c,
    toyHash.system.run (.initial member) apart = some (rs, c) ∧ (∀ r ∈ rs, Respects r) ∧
      (∀ entry ∈ c.pool, entry.2.finished = true) ∧ c.idle = true ∧
      (∃ user ∈ c.state.users, user.passwordHash = some "new" ∧ user.dailyQuotaUsed = 1) ∧
      ∀ user ∈ c.state.users, UpdatesKept member rs user := by
  have hrun : (toyHash.system.run (.initial member) apart).any bothKept = true := by rfl
  obtain ⟨⟨rs, c⟩, hr, hkept⟩ := (Option.any_eq_true _ _).mp hrun
  simp only [bothKept, Bool.and_eq_true, List.all_eq_true, List.any_eq_true,
    decide_eq_true_eq] at hkept
  obtain ⟨hall, hpool, hidle, huser⟩ := hkept
  have hrespects : ∀ r ∈ rs, Respects r := fun r hmem => respects_sound (hall r hmem)
  have hupdates := (user_updates_kept_iff toyHash (by decide) hr).mpr hrespects
  exact ⟨rs, c, hr, hrespects, hpool, hidle, huser, hupdates.2⟩

end TrainVla
