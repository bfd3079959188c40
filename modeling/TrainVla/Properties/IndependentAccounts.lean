import TrainVla.Interaction.Evaluation
import TrainVla.Properties.UniqueAccounts
import TrainVla.Store.Filter
import Mathlib.Data.List.Find

/-! Email accounts and accounts of the hub in one table. Either kind of calls should see nothing
of the other kind. -/
namespace TrainVla

open Interaction Store AuthService

inductive AuthCall
  | registerWithEmail (email password captchaToken : String)
  | loginWithEmail (email password : String)
  | changePassword (userId oldPassword newPassword : String)
  | loginOrRegisterWithHf (code redirectUri : String)

namespace AuthCall

def provider : AuthCall → AuthProvider
  | loginOrRegisterWithHf .. => .huggingface
  | _ => .email

def code (lib : Library) : AuthCall → Service User
  | registerWithEmail email password captchaToken =>
    AuthService.registerWithEmail lib email password captchaToken
  | loginWithEmail email password => AuthService.loginWithEmail lib email password
  | changePassword userId oldPassword newPassword =>
    AuthService.changePassword lib userId oldPassword newPassword
  | loginOrRegisterWithHf code redirectUri => AuthService.loginOrRegisterWithHf code redirectUri

end AuthCall

/-- A call, and what the environment answers while it is served: the captcha result, the profile
on the hub, the new identifier, the salt, the time. -/
structure AuthRequest where
  call : AuthCall
  answers : ℕ → Choice

/-- A request that was served: the world that it met, and its result. -/
structure Served where
  request : AuthRequest
  before : World
  result : Except Exc User

/-- Requests are served one after the other. -/
def serve (D : Deployment) : World → List AuthRequest → Option (List Served × World)
  | w, [] => some ([], w)
  | w, request :: requests => do
    let (result, w') ← eval (World.exec D.steady) request.answers w (request.call.code D.lib)
    let (served, w'') ← serve D w' requests
    some (⟨request, w, result⟩ :: served, w'')

/-- What is left of a sequence when the calls of the other provider are deleted. -/
def only (provider : AuthProvider) (requests : List AuthRequest) : List AuthRequest :=
  requests.filter fun request => request.call.provider = provider

def resultsOf (provider : AuthProvider) (served : List Served) : List (Except Exc User) :=
  (served.filter fun s => s.request.call.provider = provider).map Served.result

/-- Without the calls of the other provider, the results are the same. -/
def Undisturbed (D : Deployment) (w : World) (requests : List AuthRequest) (served : List Served)
    (provider : AuthProvider) : Prop :=
  ∃ alone w', serve D w (only provider requests) = some (alone, w') ∧
    alone.map Served.result = resultsOf provider served

/-- A registration that passes the captcha, for an address that a user of the hub has and no
email account. -/
def Shadowed (s : Served) : Prop :=
  ∃ email password captchaToken,
    s.request.call = .registerWithEmail email password captchaToken ∧
    ((s.request.answers 0).captcha.success = true ∧
      minCaptchaScore ≤ (s.request.answers 0).captcha.score) ∧
    (∃ user ∈ s.before.users, user.authProvider = .huggingface ∧ user.email = some email) ∧
    ∀ user ∈ s.before.users, user.authProvider = .email → user.email ≠ some email

namespace IndependentAccounts

/-- The users of one provider. -/
def part (provider : AuthProvider) (users : UserTable) : UserTable :=
  users.filter fun user => user.authProvider = provider

/-- Users of the hub have no password, email accounts no identity on the hub, and the lookup of
an address prefers the email account. -/
structure Orderly (users : UserTable) : Prop where
  hf : ∀ user ∈ users, user.authProvider = .huggingface → user.passwordHash = none
  email : ∀ user ∈ users, user.authProvider = .email → user.hfUserId = none
  first : ∀ user ∈ users, user.authProvider = .email → ∀ email, user.email = some email →
    users.getByEmail email = some user

theorem orderly_empty : Orderly Table.empty where
  hf user hmem := absurd hmem (Table.not_mem_empty user)
  email user hmem := absurd hmem (Table.not_mem_empty user)
  first user hmem := absurd hmem (Table.not_mem_empty user)

section

variable {users : UserTable} {user stored : User} {email : String}

theorem Orderly.email_of_password (h : Orderly users) (hmem : user ∈ users)
    (hhash : user.passwordHash ≠ none) : user.authProvider = .email := by
  cases hp : user.authProvider with
  | email => rfl
  | huggingface => exact absurd (h.hf user hmem hp) hhash

theorem email_of_getByEmail (h : users.getByEmail email = some user) :
    user ∈ users ∧ user.email = some email :=
  ⟨List.mem_of_find?_eq_some h, by simpa using List.find?_some h⟩

theorem getByEmail_part (h : Orderly users) : (part .email users).getByEmail email =
    (users.getByEmail email).filter fun user => user.authProvider = .email := by
  have hpart : (part .email users).getByEmail email =
      users.rows.find? fun user => decide (user.authProvider = .email) &&
        decide (user.email = some email) := by
    unfold UserTable.getByEmail part Table.filter
    rw [List.find?_filter]
    simp only [decide_eq_true_eq, Bool.decide_and]
  rw [hpart]
  have hnobody : (∀ user ∈ users, user.authProvider = .email → user.email ≠ some email) →
      (users.rows.find? fun user => decide (user.authProvider = .email) &&
        decide (user.email = some email)) = none := by
    intro hno
    rw [List.find?_eq_none]
    intro user huser hboth
    simp only [Bool.and_eq_true, decide_eq_true_eq] at hboth
    exact hno user huser hboth.1 hboth.2
  cases hget : users.getByEmail email with
  | none =>
    rw [Option.filter_none]
    refine hnobody fun user huser hp he => ?_
    rw [h.first user huser hp email he] at hget
    cases hget
  | some user =>
    by_cases hp : user.authProvider = .email
    · rw [Option.filter_some, if_pos (by simpa using hp)]
      obtain ⟨he, front, rest, hrows, hfront⟩ := List.find?_eq_some_iff_append.mp hget
      refine List.find?_eq_some_iff_append.mpr ⟨by simp [hp, of_decide_eq_true he], front, rest, hrows,
        fun other hother => ?_⟩
      have := hfront other hother
      simp_all
    · rw [Option.filter_some, if_neg (by simpa using hp)]
      refine hnobody fun other hother hp' he => ?_
      rw [h.first other hother hp' email he] at hget
      obtain rfl := Option.some.inj hget
      exact hp hp'

theorem getByHfUserId_part (h : Orderly users) (hfUserId : String) :
    (part .huggingface users).getByHfUserId hfUserId = users.getByHfUserId hfUserId := by
  refine Table.find?_filter_of_imp fun user huser hid => ?_
  have hid : user.hfUserId = some hfUserId := by simpa using hid
  cases hp : user.authProvider with
  | huggingface => rfl
  | email =>
    rw [h.email user huser hp] at hid
    cases hid

/-- What a call can do to the table: nothing, a new user, or a new password. -/
inductive Effect (provider : AuthProvider) (users : UserTable) : UserTable → Prop
  | nothing : Effect provider users users
  | created {user : User} (hfresh : users.get? user.id = none)
      (hprovider : user.authProvider = provider)
      (hhf : provider = .huggingface → user.passwordHash = none)
      (hemail : provider = .email → user.hfUserId = none ∧
        ∀ email, user.email = some email → users.getByEmail email = none) :
    Effect provider users (users.put user)
  | password {user stored : User} (hprovider : provider = .email)
      (hstored : users.get? user.id = some stored) (hhash : stored.passwordHash ≠ none)
      (hsame : user.SameAccount stored) : Effect provider users (users.put user)

/-- The lookup of an address after a write that changes no address. -/
theorem getByEmail_put (hstored : users.get? user.id = some stored)
    (hemail : user.email = stored.email) : UserTable.getByEmail (users.put user) email =
      (users.getByEmail email).map fun other => if other.id = user.id then user else other := by
  have hmem := Table.mem_of_get? hstored
  have hid : stored.id = user.id := Table.key_of_get? hstored
  unfold UserTable.getByEmail
  rw [Table.rows_put_of_mem hmem hid, List.find?_map]
  have hsame : ∀ other ∈ users.rows, ((fun user : User => decide (user.email = some email)) ∘
      fun other => if other.id = user.id then user else other) other =
        decide (other.email = some email) := by
    intro other hother
    by_cases heq : other.id = user.id
    · rw [Function.comp_apply, if_pos heq, Table.eq_of_key_eq hother hmem (heq.trans hid.symm), hemail]
    · rw [Function.comp_apply, if_neg heq]
  rw [List.find?_congr hsame]

/-- The lookup of an address after a sign-up. -/
theorem getByEmail_put_fresh (hfresh : users.get? user.id = none) :
    UserTable.getByEmail (users.put user) email =
      (users.getByEmail email).or (if user.email = some email then some user else none) := by
  unfold UserTable.getByEmail
  rw [Table.rows_put_of_fresh hfresh, List.find?_append, List.find?_singleton]
  simp only [decide_eq_true_eq]

theorem Orderly.effect {users' : UserTable} {provider : AuthProvider} (h : Orderly users)
    (he : Effect provider users users') : Orderly users' := by
  cases he with
  | nothing => exact h
  | @created user hfresh hprovider hhf hemail =>
    constructor
    · intro other hother hp
      rcases Table.mem_put.mp hother with rfl | ⟨hother, -⟩
      · exact hhf (hprovider.symm.trans hp)
      · exact h.hf other hother hp
    · intro other hother hp
      rcases Table.mem_put.mp hother with rfl | ⟨hother, -⟩
      · exact (hemail (hprovider.symm.trans hp)).1
      · exact h.email other hother hp
    · intro other hother hp email hmail
      rw [getByEmail_put_fresh hfresh]
      rcases Table.mem_put.mp hother with rfl | ⟨hother, -⟩
      · rw [(hemail (hprovider.symm.trans hp)).2 email hmail, Option.none_or, if_pos hmail]
      · rw [h.first other hother hp email hmail]
        rfl
  | @password user stored _ hstored hhash hsame =>
    have hmem := Table.mem_of_get? hstored
    have hprovider := h.email_of_password hmem hhash
    constructor
    · intro other hother hp
      rcases Table.mem_put.mp hother with rfl | ⟨hother, -⟩
      · rw [hsame.authProvider, hprovider] at hp
        cases hp
      · exact h.hf other hother hp
    · intro other hother hp
      rcases Table.mem_put.mp hother with rfl | ⟨hother, -⟩
      · rw [hsame.hfUserId]
        exact h.email stored hmem hprovider
      · exact h.email other hother hp
    · intro other hother hp email hmail
      rw [getByEmail_put hstored hsame.email]
      rcases Table.mem_put.mp hother with rfl | ⟨hother, hne⟩
      · rw [hsame.email] at hmail
        rw [h.first stored hmem hprovider email hmail, Option.map_some, if_pos hsame.id.symm]
      · rw [h.first other hother hp email hmail, Option.map_some, if_neg hne]

theorem part_put_same {provider : AuthProvider} (hstored : users.get? user.id = some stored)
    (hsame : user.SameAccount stored) (hprovider : stored.authProvider = provider) :
    part provider (users.put user) = (part provider users).put user := by
  have hside : ∀ b, users.get? user.id = some b →
      decide (b.authProvider = provider) = decide (user.authProvider = provider) := by
    intro b hb
    obtain rfl := Option.some.inj (hstored.symm.trans hb)
    rw [hsame.authProvider]
  have hself : decide (user.authProvider = provider) = true := by
    rw [hsame.authProvider]
    exact decide_eq_true hprovider
  exact (Table.filter_put hside).trans (if_pos hself)

/-- A call of the other provider does not touch this part. -/
theorem part_effect {users' : UserTable} {provider other : AuthProvider} (h : Orderly users)
    (he : Effect provider users users') (hne : provider ≠ other) :
    part other users' = part other users := by
  cases he with
  | nothing => rfl
  | @created user hfresh hprovider hhf hemail =>
    have hnone : ∀ b, users.get? user.id = some b →
        decide (b.authProvider = other) = decide (user.authProvider = other) := by
      intro b hb
      rw [hfresh] at hb
      cases hb
    unfold part
    rw [Table.filter_put hnone, if_neg]
    rw [hprovider]
    simpa using hne
  | @password user stored hp hstored hhash hsame =>
    have hprovider := h.email_of_password (Table.mem_of_get? hstored) hhash
    have hside : ∀ b, users.get? user.id = some b →
        decide (b.authProvider = other) = decide (user.authProvider = other) := by
      intro b hb
      obtain rfl := Option.some.inj (hstored.symm.trans hb)
      rw [hsame.authProvider]
    unfold part
    rw [Table.filter_put hside, if_neg]
    rw [hsame.authProvider, hprovider, ← hp]
    simpa using hne

end

/-- The end of both sign-ups. -/
def enroll (userAt : ℤ → User) : Service User := do
  let createdAt ← perform .now
  perform (.usersCreate (userAt createdAt))
  pure (userAt createdAt)

section

variable {D : Deployment} {xs : ℕ → Choice} {w w' w₁ : World} {r : Except Exc User}

theorem eval_enroll (xs : ℕ → Choice) (w : World) (userAt : ℤ → User) :
    eval (World.exec D.steady) xs w (enroll userAt) =
      if (D.steady && decide ((xs 0).time < w.clock)) = true then none
      else if (w.users.get? (userAt (xs 0).time).id).isSome = true then none
      else some (.ok (userAt (xs 0).time),
        { w with clock := (xs 0).time, users := w.users.put (userAt (xs 0).time) }) := by
  unfold enroll
  rw [eval_perform]
  simp only [World.exec]
  split
  · rfl
  · rw [Option.bind_some, eval_perform]
    simp only [World.exec]
    split <;> rfl

/-- The four calls, in terms of the table and of what the environment answers. -/
theorem eval_registerWithEmail (xs : ℕ → Choice) (w : World)
    (email password captchaToken : String) :
    eval (World.exec D.steady) xs w (registerWithEmail D.lib email password captchaToken) =
      if !(xs 0).captcha.success ∨ (xs 0).captcha.score < minCaptchaScore then
        some (.error (.captchaFailed "reCAPTCHA verification failed"), w)
      else if (w.users.getByEmail email).isSome = true then
        some (.error (.emailAlreadyRegistered s!"Email already registered: {email}"), w)
      else eval (World.exec D.steady) (fun n => xs (n + 4)) w (enroll fun createdAt =>
        { id := (xs 2).text, authProvider := .email, email := some email
          passwordHash := some (D.lib.hashpw (passwordBytes password) (xs 3).text), createdAt }) := by
  unfold registerWithEmail
  rw [eval_perform]
  simp only [World.exec, Option.bind_some]
  split
  · rfl
  · rw [eval_perform]
    simp only [World.exec, Option.bind_some]
    split <;> rfl

theorem eval_loginWithEmail (xs : ℕ → Choice) (w : World) (email password : String) :
    eval (World.exec D.steady) xs w (loginWithEmail D.lib email password) =
      match (w.users.getByEmail email).filter fun user => user.passwordHash.any fun passwordHash =>
        verifyPassword D.lib password passwordHash with
      | none => some (.error (.invalidCredentials "Invalid email or password"), w)
      | some user => some (.ok user, w) := by
  unfold loginWithEmail
  rw [eval_perform]
  simp only [World.exec, Option.bind_some]
  cases w.users.getByEmail email with
  | none => rfl
  | some user =>
    rw [Option.filter_some]
    dsimp only
    cases user.passwordHash with
    | none => rfl
    | some passwordHash =>
      rw [Option.any_some]
      by_cases hverify : verifyPassword D.lib password passwordHash = true <;> simp [hverify]

theorem eval_changePassword (xs : ℕ → Choice) (w : World)
    (userId oldPassword newPassword : String) :
    eval (World.exec D.steady) xs w (changePassword D.lib userId oldPassword newPassword) =
      match (w.users.get? userId).filter fun user => user.passwordHash.isSome with
      | none => some (.error (.wrongOldPassword "User not found or has no password set"), w)
      | some user =>
        if user.passwordHash.any fun passwordHash =>
          verifyPassword D.lib oldPassword passwordHash then
          let updated := { user with
            passwordHash := some (D.lib.hashpw (passwordBytes newPassword) (xs 1).text) }
          some (.ok updated, w.writeUser none updated)
        else some (.error (.wrongOldPassword "Old password is incorrect"), w) := by
  unfold changePassword
  rw [eval_perform]
  simp only [World.exec, Option.bind_some]
  cases w.users.get? userId with
  | none => rfl
  | some user =>
    rw [Option.filter_some]
    dsimp only
    cases hhash : user.passwordHash with
    | none => rfl
    | some passwordHash =>
      simp only [Option.isSome_some, if_true, hhash, Option.any_some]
      cases verifyPassword D.lib oldPassword passwordHash <;> rfl

theorem eval_loginOrRegisterWithHf (xs : ℕ → Choice) (w : World) (code redirectUri : String) :
    eval (World.exec D.steady) xs w (loginOrRegisterWithHf code redirectUri) =
      match (xs 0).outcome (xs 0).profile with
      | .error e => some (.error e, w)
      | .ok hfUser =>
        match w.users.getByHfUserId hfUser.hfUserId with
        | some existing => some (.ok existing, w)
        | none => eval (World.exec D.steady) (fun n => xs (n + 3)) w (enroll fun createdAt =>
          { id := (xs 2).text, authProvider := .huggingface, email := hfUser.email
            hfUserId := some hfUser.hfUserId, createdAt }) := by
  unfold loginOrRegisterWithHf
  rw [eval_perform]
  simp only [World.exec, Option.bind_some]
  cases (xs 0).outcome (xs 0).profile with
  | error e => rfl
  | ok hfUser =>
    show (eval _ _ w (perform (.usersGetByHfUserId hfUser.hfUserId) >>= _)) = _
    rw [eval_perform]
    simp only [World.exec, Option.bind_some]
    cases w.users.getByHfUserId hfUser.hfUserId <;> rfl

theorem enroll_some {userAt : ℤ → User}
    (h : eval (World.exec D.steady) xs w (enroll userAt) = some (r, w')) :
    (D.steady = true → w.clock ≤ (xs 0).time) ∧ w.users.get? (userAt (xs 0).time).id = none ∧
      r = .ok (userAt (xs 0).time) ∧
      w' = { w with clock := (xs 0).time, users := w.users.put (userAt (xs 0).time) } := by
  rw [eval_enroll] at h
  split at h
  · cases h
  · rename_i hclock
    split at h
    · cases h
    · rename_i hfresh
      obtain ⟨rfl, rfl⟩ := Prod.mk.inj (Option.some.inj h)
      refine ⟨fun hsteady => ?_, by simpa using hfresh, rfl, rfl⟩
      simp only [hsteady, Bool.true_and, decide_eq_true_eq] at hclock
      omega

/-- What a call does to the whole table. -/
theorem effect_of_eval {call : AuthCall}
    (h : eval (World.exec D.steady) xs w (call.code D.lib) = some (r, w')) :
    Effect call.provider w.users w'.users ∧ (D.steady = true → w.clock ≤ w'.clock) := by
  have hsame : w' = w → Effect call.provider w.users w'.users ∧
      (D.steady = true → w.clock ≤ w'.clock) := by
    rintro rfl
    exact ⟨.nothing, fun _ => le_rfl⟩
  cases call with
  | registerWithEmail email password captchaToken =>
    rw [AuthCall.code, eval_registerWithEmail] at h
    split at h
    · exact hsame (Prod.mk.inj (Option.some.inj h)).2.symm
    · split at h
      · exact hsame (Prod.mk.inj (Option.some.inj h)).2.symm
      · rename_i hfree
        obtain ⟨hclock, hfresh, -, rfl⟩ := enroll_some h
        refine ⟨.created hfresh rfl nofun fun _ => ⟨rfl, fun email' heq => ?_⟩, hclock⟩
        obtain rfl := Option.some.inj heq
        simpa using hfree
  | loginWithEmail email password =>
    rw [AuthCall.code, eval_loginWithEmail] at h
    split at h <;> exact hsame (Prod.mk.inj (Option.some.inj h)).2.symm
  | changePassword userId oldPassword newPassword =>
    rw [AuthCall.code, eval_changePassword] at h
    split at h
    · exact hsame (Prod.mk.inj (Option.some.inj h)).2.symm
    · rename_i user huser
      split at h
      · obtain ⟨huser, hhash⟩ := Option.filter_eq_some_iff.mp huser
        obtain ⟨-, rfl⟩ := Prod.mk.inj (Option.some.inj h)
        obtain rfl : user.id = userId := Table.key_of_get? huser
        have hhash : user.passwordHash ≠ none := Option.isSome_iff_ne_none.mp hhash
        exact ⟨.password rfl huser hhash ⟨rfl, rfl, rfl, rfl⟩, fun _ => le_rfl⟩
      · exact hsame (Prod.mk.inj (Option.some.inj h)).2.symm
  | loginOrRegisterWithHf code redirectUri =>
    rw [AuthCall.code, eval_loginOrRegisterWithHf] at h
    split at h
    · exact hsame (Prod.mk.inj (Option.some.inj h)).2.symm
    · split at h
      · exact hsame (Prod.mk.inj (Option.some.inj h)).2.symm
      · obtain ⟨hclock, hfresh, -, rfl⟩ := enroll_some h
        exact ⟨.created hfresh rfl (fun _ => rfl) nofun, hclock⟩

/-- The world in which only the calls of one provider were served. -/
structure Alone (D : Deployment) (provider : AuthProvider) (w w₁ : World) : Prop where
  users : w₁.users = part provider w.users
  clock : D.steady = true → w₁.clock ≤ w.clock

theorem Alone.skip {call : AuthCall} {provider : AuthProvider} (ha : Alone D provider w w₁)
    (hi : Orderly w.users) (hne : call.provider ≠ provider)
    (h : eval (World.exec D.steady) xs w (call.code D.lib) = some (r, w')) :
    Alone D provider w' w₁ := by
  obtain ⟨heffect, hclock⟩ := effect_of_eval h
  constructor
  · rw [ha.users, part_effect hi heffect hne]
  · exact fun hsteady => (ha.clock hsteady).trans (hclock hsteady)

theorem Alone.enroll {userAt : ℤ → User} {provider : AuthProvider} (ha : Alone D provider w w₁)
    (hprovider : ∀ t, (userAt t).authProvider = provider)
    (h : eval (World.exec D.steady) xs w (enroll userAt) = some (r, w')) :
    ∃ w₁', eval (World.exec D.steady) xs w₁ (IndependentAccounts.enroll userAt) = some (r, w₁') ∧
      Alone D provider w' w₁' := by
  obtain ⟨hclock, hfresh, rfl, rfl⟩ := enroll_some h
  have hfresh' : w₁.users.get? (userAt (xs 0).time).id = none := by
    rw [ha.users]
    unfold part
    rw [Table.get?_filter, hfresh, Option.filter_none]
  have hearly : ¬ (D.steady && decide ((xs 0).time < w₁.clock)) = true := by
    rw [Bool.and_eq_true, decide_eq_true_eq]
    rintro ⟨hsteady, hlt⟩
    have hle := ha.clock hsteady
    have hle' := hclock hsteady
    omega
  refine ⟨{ w₁ with clock := (xs 0).time, users := w₁.users.put (userAt (xs 0).time) }, ?_, ?_⟩
  · rw [eval_enroll, if_neg hearly, if_neg (by rw [hfresh']; simp)]
  · constructor
    · have hnone : ∀ b, w.users.get? (userAt (xs 0).time).id = some b →
          decide (b.authProvider = provider) =
            decide ((userAt (xs 0).time).authProvider = provider) := by
        intro b hb
        rw [hfresh] at hb
        cases hb
      show w₁.users.put _ = part provider (w.users.put _)
      unfold part
      rw [Table.filter_put hnone, if_pos (by simpa using hprovider _), ha.users]
      rfl
    · exact fun _ => le_rfl

/-- Only email accounts have passwords, so a search for one does not see the others. -/
theorem filter_password {users : UserTable} (found : Option User) {p : User → Bool}
    (hi : Orderly users) (hfound : ∀ user, found = some user → user ∈ users)
    (hp : ∀ user, p user = true → user.passwordHash ≠ none) :
    (found.filter fun user => user.authProvider = .email).filter p = found.filter p := by
  cases found with
  | none => rfl
  | some user =>
    by_cases hprovider : user.authProvider = .email
    · rw [Option.filter_some, if_pos (by simpa using hprovider)]
    · have hno : ¬ p user = true := fun h =>
        hprovider (hi.email_of_password (hfound user rfl) (hp user h))
      rw [Option.filter_some, if_neg (by simpa using hprovider), Option.filter_none,
        Option.filter_some, if_neg hno]

/-- A registration that is not shadowed goes as it would go without the users of the hub. -/
theorem register_step {email password captchaToken : String} (hi : Orderly w.users)
    (ha : Alone D .email w w₁)
    (h : eval (World.exec D.steady) xs w (registerWithEmail D.lib email password captchaToken) =
      some (r, w'))
    (hs : ¬ Shadowed ⟨⟨.registerWithEmail email password captchaToken, xs⟩, w, r⟩) :
    ∃ w₁', eval (World.exec D.steady) xs w₁ (registerWithEmail D.lib email password captchaToken) =
      some (r, w₁') ∧ Alone D .email w' w₁' := by
  rw [eval_registerWithEmail] at h
  rw [eval_registerWithEmail, ha.users, getByEmail_part hi]
  split at h
  · rename_i hcaptcha
    obtain ⟨rfl, rfl⟩ := Prod.mk.inj (Option.some.inj h)
    exact ⟨w₁, by rw [if_pos hcaptcha], ha⟩
  · rename_i hcaptcha
    rw [if_neg hcaptcha]
    cases hfound : w.users.getByEmail email with
    | none =>
      rw [hfound, if_neg (by simp)] at h
      rw [Option.filter_none, if_neg (by simp)]
      exact ha.enroll (fun _ => rfl) h
    | some user =>
      rw [hfound, if_pos (by simp)] at h
      obtain ⟨rfl, rfl⟩ := Prod.mk.inj (Option.some.inj h)
      obtain ⟨hmem, hmail⟩ := email_of_getByEmail hfound
      cases hprovider : user.authProvider with
      | email =>
        rw [Option.filter_some, if_pos (by simpa using hprovider)]
        exact ⟨w₁, rfl, ha⟩
      | huggingface =>
        refine absurd ⟨email, password, captchaToken, rfl, ?_, ⟨user, hmem, hprovider, hmail⟩, ?_⟩ hs
        · rw [not_or, Rat.not_lt] at hcaptcha
          exact ⟨by simpa using hcaptcha.1, hcaptcha.2⟩
        · intro other hother hp hsame
          rw [hi.first other hother hp email hsame] at hfound
          obtain rfl := Option.some.inj hfound
          rw [hp] at hprovider
          cases hprovider

/-- So does a password change. -/
theorem change_step {userId oldPassword newPassword : String} (hi : Orderly w.users)
    (ha : Alone D .email w w₁)
    (h : eval (World.exec D.steady) xs w (changePassword D.lib userId oldPassword newPassword) =
      some (r, w')) :
    ∃ w₁', eval (World.exec D.steady) xs w₁ (changePassword D.lib userId oldPassword newPassword) =
      some (r, w₁') ∧ Alone D .email w' w₁' := by
  have hsame := filter_password (w.users.get? userId) hi
    (p := fun user => user.passwordHash.isSome)
    (fun user hfound => Table.mem_of_get? hfound) (fun user hp => Option.isSome_iff_ne_none.mp hp)
  have hpart : w₁.users.get? userId =
      (w.users.get? userId).filter fun user => user.authProvider = .email := by
    rw [ha.users]
    exact Table.get?_filter userId
  rw [eval_changePassword] at h
  rw [eval_changePassword, hpart, hsame]
  split at h
  · obtain ⟨rfl, rfl⟩ := Prod.mk.inj (Option.some.inj h)
    exact ⟨w₁, rfl, ha⟩
  · rename_i user huser
    split at h
    · rename_i hverify
      obtain ⟨rfl, rfl⟩ := Prod.mk.inj (Option.some.inj h)
      obtain ⟨huser, hhash⟩ := Option.filter_eq_some_iff.mp huser
      obtain rfl : user.id = userId := Table.key_of_get? huser
      have hprovider : user.authProvider = .email :=
        hi.email_of_password (Table.mem_of_get? huser) (Option.isSome_iff_ne_none.mp hhash)
      dsimp only
      rw [if_pos hverify]
      refine ⟨_, rfl, ?_, ha.clock⟩
      show w₁.users.put _ = part .email (w.users.put _)
      rw [ha.users]
      have hsame : User.SameAccount { user with
          passwordHash := some (D.lib.hashpw (passwordBytes newPassword) (xs 1).text) } user :=
        ⟨rfl, rfl, rfl, rfl⟩
      refine (part_put_same ?_ hsame hprovider).symm
      exact huser
    · rename_i hverify
      obtain ⟨rfl, rfl⟩ := Prod.mk.inj (Option.some.inj h)
      dsimp only
      rw [if_neg hverify]
      exact ⟨w₁, rfl, ha⟩

/-- Every email call that is not shadowed. -/
theorem email_step {call : AuthCall} (hcall : call.provider = .email) (hi : Orderly w.users)
    (ha : Alone D .email w w₁)
    (h : eval (World.exec D.steady) xs w (call.code D.lib) = some (r, w'))
    (hs : ¬ Shadowed ⟨⟨call, xs⟩, w, r⟩) :
    ∃ w₁', eval (World.exec D.steady) xs w₁ (call.code D.lib) = some (r, w₁') ∧
      Alone D .email w' w₁' := by
  cases call with
  | registerWithEmail email password captchaToken => exact register_step hi ha h hs
  | loginWithEmail email password =>
    have hsame := filter_password (w.users.getByEmail email) hi
      (p := fun user => user.passwordHash.any fun passwordHash =>
        verifyPassword D.lib password passwordHash)
      (fun user hfound => (email_of_getByEmail hfound).1) (fun user hp hnone => by simp [hnone] at hp)
    rw [AuthCall.code, eval_loginWithEmail] at h
    rw [AuthCall.code, eval_loginWithEmail, ha.users, getByEmail_part hi, hsame]
    split at h <;> obtain ⟨rfl, rfl⟩ := Prod.mk.inj (Option.some.inj h) <;> exact ⟨w₁, rfl, ha⟩
  | changePassword userId oldPassword newPassword => exact change_step hi ha h
  | loginOrRegisterWithHf code redirectUri => cases hcall

/-- Without the user of the hub, the registration does not find the address taken. -/
theorem shadowed_differs {call : AuthCall} (ha : Alone D .email w w₁)
    (hs : Shadowed ⟨⟨call, xs⟩, w, r⟩)
    (h : eval (World.exec D.steady) xs w (call.code D.lib) = some (r, w')) :
    ∀ r₁ w₁', eval (World.exec D.steady) xs w₁ (call.code D.lib) = some (r₁, w₁') → r₁ ≠ r := by
  obtain ⟨email, password, captchaToken, rfl, ⟨hsuccess, hscore⟩, ⟨user, huser, -, hmail⟩, hnone⟩ := hs
  have hsuccess : (xs 0).captcha.success = true := hsuccess
  have hscore : minCaptchaScore ≤ (xs 0).captcha.score := hscore
  have hpass : ¬ (!(xs 0).captcha.success ∨ (xs 0).captcha.score < minCaptchaScore) := by
    rintro (hfail | hlow)
    · simp [hsuccess] at hfail
    · exact Rat.not_lt.mpr hscore hlow
  have hfound : (w.users.getByEmail email).isSome = true := by
    unfold UserTable.getByEmail
    rw [List.find?_isSome]
    exact ⟨user, huser, by simpa using hmail⟩
  have hfree : w₁.users.getByEmail email = none := by
    rw [ha.users]
    unfold UserTable.getByEmail
    rw [List.find?_eq_none]
    intro other hother
    obtain ⟨hother, hp⟩ := Table.mem_filter.mp (show other ∈ part .email w.users from hother)
    simpa using hnone other hother (of_decide_eq_true hp)
  intro r₁ w₁' h₁
  rw [AuthCall.code, eval_registerWithEmail, if_neg hpass, if_pos hfound] at h
  rw [AuthCall.code, eval_registerWithEmail, if_neg hpass, if_neg (by rw [hfree]; simp)] at h₁
  obtain ⟨rfl, -⟩ := Prod.mk.inj (Option.some.inj h)
  obtain ⟨-, -, rfl, -⟩ := enroll_some h₁
  exact nofun

/-- A login with the hub never sees an email account. -/
theorem hf_step {call : AuthCall} (hcall : call.provider = .huggingface) (hi : Orderly w.users)
    (ha : Alone D .huggingface w w₁)
    (h : eval (World.exec D.steady) xs w (call.code D.lib) = some (r, w')) :
    ∃ w₁', eval (World.exec D.steady) xs w₁ (call.code D.lib) = some (r, w₁') ∧
      Alone D .huggingface w' w₁' := by
  cases call with
  | loginOrRegisterWithHf code redirectUri =>
    rw [AuthCall.code, eval_loginOrRegisterWithHf] at h
    rw [AuthCall.code, eval_loginOrRegisterWithHf]
    cases hexchange : (xs 0).outcome (xs 0).profile with
    | error e =>
      rw [hexchange] at h
      obtain ⟨rfl, rfl⟩ := Prod.mk.inj (Option.some.inj h)
      exact ⟨w₁, rfl, ha⟩
    | ok hfUser =>
      rw [hexchange] at h
      dsimp only at h ⊢
      rw [ha.users, getByHfUserId_part hi]
      cases hfound : w.users.getByHfUserId hfUser.hfUserId with
      | some existing =>
        rw [hfound] at h
        obtain ⟨rfl, rfl⟩ := Prod.mk.inj (Option.some.inj h)
        exact ⟨w₁, rfl, ha⟩
      | none =>
        rw [hfound] at h
        exact ha.enroll (fun _ => rfl) h
  | _ => cases hcall

theorem serve_cons {request : AuthRequest} {requests : List AuthRequest} {served : List Served}
    (h : serve D w (request :: requests) = some (served, w')) : ∃ r w₁ rest,
      eval (World.exec D.steady) request.answers w (request.call.code D.lib) = some (r, w₁) ∧
      serve D w₁ requests = some (rest, w') ∧ served = ⟨request, w, r⟩ :: rest := by
  simp only [serve, Option.bind_eq_bind, Option.bind_eq_some_iff, Option.some.injEq, Prod.mk.injEq,
    Prod.exists] at h
  obtain ⟨r, w₁, heval, rest, w₂, hrest, rfl, rfl⟩ := h
  exact ⟨r, w₁, rest, heval, hrest, rfl⟩

theorem only_cons_of_ne {request : AuthRequest} {requests : List AuthRequest}
    {provider : AuthProvider} (h : request.call.provider ≠ provider) :
    only provider (request :: requests) = only provider requests := by
  unfold only
  rw [List.filter_cons_of_neg]
  simpa using h

theorem only_cons_self {request : AuthRequest} {requests : List AuthRequest}
    {provider : AuthProvider} (h : request.call.provider = provider) :
    only provider (request :: requests) = request :: only provider requests := by
  unfold only
  rw [List.filter_cons_of_pos]
  simpa using h

/-- A request that is kept, and that has the same result in both worlds. -/
theorem undisturbed_cons {request : AuthRequest} {requests : List AuthRequest}
    {served : List Served} {provider : AuthProvider} {w₂ : World}
    (hprovider : request.call.provider = provider)
    (heval : eval (World.exec D.steady) request.answers w₁ (request.call.code D.lib) = some (r, w₂))
    (h : Undisturbed D w₂ requests served provider) :
    Undisturbed D w₁ (request :: requests) (⟨request, w, r⟩ :: served) provider := by
  obtain ⟨alone, w₁', hserve, hresults⟩ := h
  refine ⟨⟨request, w₁, r⟩ :: alone, w₁', ?_, ?_⟩
  · rw [only_cons_self hprovider]
    simp [serve, heval, hserve]
  · rw [List.map_cons, hresults]
    simp [resultsOf, hprovider]

/-- Deleting the email calls. The induction is on the requests, with both worlds arbitrary. -/
theorem hf_undisturbed {requests : List AuthRequest} {served : List Served}
    (hi : Orderly w.users) (ha : Alone D .huggingface w w₁)
    (h : serve D w requests = some (served, w')) :
    Undisturbed D w₁ requests served .huggingface := by
  induction requests generalizing w w₁ served with
  | nil =>
    obtain ⟨rfl, -⟩ := Prod.mk.inj (Option.some.inj h)
    exact ⟨[], w₁, rfl, rfl⟩
  | cons request requests ih =>
    obtain ⟨r, w₂, rest, heval, hrest, rfl⟩ := serve_cons h
    have hi₂ := hi.effect (effect_of_eval heval).1
    cases hprovider : request.call.provider with
    | email =>
      have hne : request.call.provider ≠ .huggingface := by
        rw [hprovider]
        nofun
      obtain ⟨alone, w₁', hserve, hresults⟩ := ih hi₂ (ha.skip hi hne heval) hrest
      refine ⟨alone, w₁', ?_, ?_⟩
      · rwa [only_cons_of_ne hne]
      · rw [hresults]
        simp [resultsOf, hprovider]
    | huggingface =>
      obtain ⟨w₁₂, heval₁, ha₂⟩ := hf_step hprovider hi ha heval
      exact undisturbed_cons hprovider heval₁ (ih hi₂ ha₂ hrest)

/-- Deleting the calls of the hub. -/
theorem email_undisturbed_iff {requests : List AuthRequest} {served : List Served}
    (hi : Orderly w.users) (ha : Alone D .email w w₁)
    (h : serve D w requests = some (served, w')) :
    Undisturbed D w₁ requests served .email ↔ ∀ s ∈ served, ¬ Shadowed s := by
  induction requests generalizing w w₁ served with
  | nil =>
    obtain ⟨rfl, -⟩ := Prod.mk.inj (Option.some.inj h)
    exact iff_of_true ⟨[], w₁, rfl, rfl⟩ fun s hs => absurd hs List.not_mem_nil
  | cons request requests ih =>
    obtain ⟨r, w₂, rest, heval, hrest, rfl⟩ := serve_cons h
    have hi₂ := hi.effect (effect_of_eval heval).1
    rw [List.forall_mem_cons]
    cases hprovider : request.call.provider with
    | huggingface =>
      have hne : request.call.provider ≠ .email := by
        rw [hprovider]
        nofun
      have hclear : ¬ Shadowed ⟨request, w, r⟩ := by
        rintro ⟨email, password, captchaToken, hcall, -⟩
        have hcall : request.call = .registerWithEmail email password captchaToken := hcall
        rw [hcall] at hprovider
        cases hprovider
      have hskip : Undisturbed D w₁ (request :: requests) (⟨request, w, r⟩ :: rest) .email ↔
          Undisturbed D w₁ requests rest .email := by
        unfold Undisturbed
        rw [only_cons_of_ne hne]
        simp [resultsOf, hprovider]
      rw [hskip, ih hi₂ (ha.skip hi hne heval) hrest]
      exact (and_iff_right hclear).symm
    | email =>
      by_cases hs : Shadowed ⟨request, w, r⟩
      · refine iff_of_false ?_ fun hall => hall.1 hs
        rintro ⟨alone, w₁', hserve, hresults⟩
        rw [only_cons_self hprovider] at hserve
        obtain ⟨r₁, w₁₂, rest₁, heval₁, -, rfl⟩ := serve_cons hserve
        have hdiffers := shadowed_differs ha hs heval r₁ w₁₂ heval₁
        simp only [resultsOf, hprovider, List.map_cons, decide_true, List.filter_cons_of_pos] at hresults
        exact hdiffers (List.cons.inj hresults).1
      · obtain ⟨w₁₂, heval₁, ha₂⟩ := email_step hprovider hi ha heval hs
        have hstep : Undisturbed D w₁ (request :: requests) (⟨request, w, r⟩ :: rest) .email ↔
            Undisturbed D w₁₂ requests rest .email := by
          constructor
          · rintro ⟨alone, w₁', hserve, hresults⟩
            rw [only_cons_self hprovider] at hserve
            obtain ⟨r₁, w₁₃, rest₁, heval₁', hserve', rfl⟩ := serve_cons hserve
            obtain ⟨rfl, rfl⟩ := Prod.mk.inj (Option.some.inj (heval₁.symm.trans heval₁'))
            simp only [resultsOf, hprovider, List.map_cons, decide_true, List.filter_cons_of_pos] at hresults
            exact ⟨rest₁, w₁', hserve', (List.cons.inj hresults).2⟩
          · exact undisturbed_cons hprovider heval₁
        rw [hstep, ih hi₂ ha₂ hrest]
        exact (and_iff_right hs).symm

end

end IndependentAccounts

open IndependentAccounts

/-- Every sequence of calls on a new repository: the calls of each provider have the results that
they have without the calls of the other one, if and only if no registration is shadowed. -/
theorem accounts_independent_iff (D : Deployment) {w w' : World} {requests : List AuthRequest}
    {served : List Served} (husers : w.users = Table.empty)
    (h : serve D w requests = some (served, w')) :
    (∀ provider, Undisturbed D w requests served provider) ↔ ∀ s ∈ served, ¬ Shadowed s := by
  have hi : Orderly w.users := by
    rw [husers]
    exact orderly_empty
  have ha : ∀ provider, Alone D provider w w := by
    intro provider
    refine ⟨?_, fun _ => le_rfl⟩
    rw [husers]
    rfl
  rw [← email_undisturbed_iff hi (ha .email) h]
  constructor
  · intro hall
    exact hall .email
  · intro hemail provider
    cases provider with
    | email => exact hemail
    | huggingface => exact hf_undisturbed hi (ha .huggingface) h

namespace IndependentAccounts

/-- A user of the hub signs up, whose profile shows an address. Then somebody registers with this
address. -/
def taken : List AuthRequest :=
  [{ call := .loginOrRegisterWithHf "code" "https://app.example.com/callback"
     answers := fun _ =>
       { text := "h"
         profile := { hfUserId := "hf", username := "alice", email := some "a@example.com" } } },
   { call := .registerWithEmail "a@example.com" "password" "token"
     answers := fun _ => { text := "e" } }]

/-- Is a registration for this address shadowed? -/
def shadows (email : String) (s : Served) : Bool :=
  match s.request.call with
  | .registerWithEmail email' _ _ =>
    email' = email && ((s.request.answers 0).captcha.success &&
      (decide (minCaptchaScore ≤ (s.request.answers 0).captcha.score) &&
      ((s.before.users.rows.any fun user =>
        user.authProvider = .huggingface && user.email = some email) &&
      s.before.users.rows.all fun user =>
        !(user.authProvider = .email && user.email = some email))))
  | _ => false

theorem shadowed_of_shadows {email : String} {s : Served} (h : shadows email s = true) :
    Shadowed s := by
  unfold shadows at h
  split at h
  · rename_i email' password captchaToken hcall
    simp only [Bool.and_eq_true, List.any_eq_true, List.all_eq_true, decide_eq_true_eq] at h
    obtain ⟨rfl, hsuccess, hscore, ⟨user, huser, hprovider, hmail⟩, hall⟩ := h
    refine ⟨email', password, captchaToken, hcall, ⟨hsuccess, hscore⟩,
      ⟨user, huser, hprovider, hmail⟩, fun other hother hp hsame => ?_⟩
    simpa [hp, hsame] using hall other hother
  · cases h

end IndependentAccounts

/-- With the user of the hub in the table the registration fails, without it succeeds. -/
theorem accounts_independent_fails : ¬ ∀ (requests : List AuthRequest) (served : List Served)
    (w' : World), serve .sample {} requests = some (served, w') →
    ∀ provider, Undisturbed .sample {} requests served provider := by
  intro h
  have hrun : (serve .sample {} taken).any (fun out =>
      out.1.any (shadows "a@example.com")) = true := by decide +kernel
  obtain ⟨⟨served, w'⟩, hserve, hany⟩ := (Option.any_eq_true _ _).mp hrun
  obtain ⟨s, hmem, hshadows⟩ := List.any_eq_true.mp hany
  have halone : Alone .sample .email {} {} := ⟨rfl, fun _ => le_rfl⟩
  have hclear := (email_undisturbed_iff orderly_empty halone hserve).mp (h taken served w' hserve .email)
  exact hclear s hmem (shadowed_of_shadows hshadows)

theorem accounts_independent_iff_taken : ∃ served w',
    serve .sample {} taken = some (served, w') ∧
      ((∀ provider, Undisturbed .sample {} taken served provider) ↔
        ∀ s ∈ served, ¬ Shadowed s) := by
  have hrun : (serve .sample {} taken).isSome = true := by decide +kernel
  obtain ⟨⟨served, w'⟩, hserve⟩ := Option.isSome_iff_exists.mp hrun
  exact ⟨served, w', hserve, accounts_independent_iff .sample rfl hserve⟩

end TrainVla
