import TrainVla.Properties.IndependentAccounts

/-! Which password opens an account. The table holds hashes of truncated passwords, in rows that
a password change replaces and that it shares with the users of the hub. -/
namespace TrainVla

open Interaction Store AuthService IndependentAccounts

/-- A hash matches exactly the bytes that it was made of. -/
def BcryptSpec (lib : Library) : Prop :=
  ∀ (a b : Bytes) (salt : String), a.length ≤ maxPasswordBytes → b.length ≤ maxPasswordBytes →
    (lib.checkpw a (lib.hashpw b salt) = true ↔ a = b)

namespace Served

/-- A registration that went through. -/
def Registers (s : Served) (email : String) (account : User) : Prop :=
  ∃ password captchaToken, s.request.call = .registerWithEmail email password captchaToken ∧
    s.result = .ok account

/-- The password that a served request gave to the account with this identifier. -/
def newPassword (s : Served) (userId : String) : Option String :=
  match s.request.call, s.result with
  | .registerWithEmail _ password _, .ok account => if account.id = userId then some password else none
  | .changePassword userId' _ password, .ok _ => if userId' = userId then some password else none
  | _, _ => none

/-- Nobody registered and no password changed. -/
structure Quiet (s : Served) : Prop where
  registers : ∀ email account, ¬ s.Registers email account
  newPassword : ∀ userId, s.newPassword userId = none

end Served

def Registered (earlier : List Served) (email : String) (account : User) : Prop :=
  ∃ s ∈ earlier, s.Registers email account

/-- The password that the account was given last. -/
def passwordOf (earlier : List Served) (userId : String) : Option String :=
  (earlier.filterMap fun s => s.newPassword userId).getLast?

/-- By the history, this password opens this account. -/
def Opens (earlier : List Served) (email password : String) (account : User) : Prop :=
  Registered earlier email account ∧
    ∃ current, passwordOf earlier account.id = some current ∧
      passwordBytes password = passwordBytes current

/-- What the two calls that check a password do after these requests. -/
structure PasswordSemantics (D : Deployment) (earlier : List Served) (w : World) : Prop where
  login : ∀ (email password : String) (answers : ℕ → Choice), ∃ r,
    eval (World.exec D.steady) answers w (loginWithEmail D.lib email password) = some (r, w) ∧
      ((∃ user, r = .ok user) ↔ ∃ account, Opens earlier email password account) ∧
      ∀ user account, r = .ok user → Registered earlier email account →
        w.users.get? account.id = some user ∧
          user = { account with passwordHash := user.passwordHash }
  change : ∀ (userId oldPassword newPassword : String) (answers : ℕ → Choice) (e : Exc) (w' : World),
    eval (World.exec D.steady) answers w (changePassword D.lib userId oldPassword newPassword) =
      some (.error e, w') → w' = w

namespace PasswordHistories

section

variable {lib : Library} {earlier : List Served} {s : Served} {users : UserTable} {user : User}

theorem length_passwordBytes (password : String) :
    (passwordBytes password).length ≤ maxPasswordBytes :=
  List.length_take_le _ _

theorem BcryptSpec.verify (h : BcryptSpec lib) (password current salt : String) :
    verifyPassword lib password (lib.hashpw (passwordBytes current) salt) = true ↔
      passwordBytes password = passwordBytes current :=
  h _ _ salt (length_passwordBytes password) (length_passwordBytes current)

theorem registered_append {email : String} {account : User} :
    Registered (earlier ++ [s]) email account ↔
      Registered earlier email account ∨ s.Registers email account := by
  unfold Registered
  simp only [List.mem_append, List.mem_singleton, or_and_right, exists_or, exists_eq_left]

/-- The last request counts, if it set the password of this account. -/
theorem passwordOf_append (userId : String) : passwordOf (earlier ++ [s]) userId =
    (s.newPassword userId).or (passwordOf earlier userId) := by
  unfold passwordOf
  rw [List.filterMap_append, List.getLast?_append]
  congr 1
  cases hnew : s.newPassword userId with
  | none => simp only [List.filterMap_cons, hnew, List.filterMap_nil, List.getLast?_nil]
  | some password => simp only [List.filterMap_cons, hnew, List.filterMap_nil, List.getLast?_singleton]

theorem quiet_of_error {e : Exc} (h : s.result = .error e) : s.Quiet := by
  constructor
  · intro email account hreg
    obtain ⟨password, captchaToken, -, hok⟩ := hreg
    rw [h] at hok
    cases hok
  · intro userId
    unfold Served.newPassword
    rw [h]
    cases s.request.call <;> rfl

/-- Neither kind of login sets a password. -/
theorem quiet_of_login
    (h : (∃ email password, s.request.call = .loginWithEmail email password) ∨
      ∃ code redirectUri, s.request.call = .loginOrRegisterWithHf code redirectUri) : s.Quiet := by
  constructor
  · intro email account hreg
    obtain ⟨password, captchaToken, hcall, -⟩ := hreg
    rcases h with ⟨email', password', h⟩ | ⟨code, redirectUri, h⟩ <;> rw [h] at hcall <;> cases hcall
  · intro userId
    unfold Served.newPassword
    rcases h with ⟨email, password, h⟩ | ⟨code, redirectUri, h⟩ <;> rw [h]

/-- The table holds what the history says. An account keeps the row that its address finds, and
in it the hash of the password that was set last. -/
structure Remembers (lib : Library) (earlier : List Served) (users : UserTable) : Prop where
  kept : ∀ email account, Registered earlier email account → ∃ current salt,
    passwordOf earlier account.id = some current ∧ users.getByEmail email =
      some { account with passwordHash := some (lib.hashpw (passwordBytes current) salt) }
  known : ∀ email user, users.getByEmail email = some user → user.passwordHash ≠ none →
    ∃ account, Registered earlier email account

theorem remembers_nothing : Remembers lib [] Table.empty where
  kept email account hreg := by
    obtain ⟨s, hmem, -⟩ := hreg
    exact absurd hmem List.not_mem_nil
  known email user hfound := by
    have hmem := (email_of_getByEmail hfound).1
    exact absurd hmem (Table.not_mem_empty user)

theorem Remembers.quiet (hr : Remembers lib earlier users) (hs : s.Quiet) :
    Remembers lib (earlier ++ [s]) users := by
  constructor
  · intro email account hreg
    rcases registered_append.mp hreg with hreg | hreg
    · rw [passwordOf_append, hs.newPassword, Option.none_or]
      exact hr.kept email account hreg
    · exact absurd hreg (hs.registers email account)
  · intro email user hfound hhash
    obtain ⟨account, hreg⟩ := hr.known email user hfound hhash
    exact ⟨account, registered_append.mpr (.inl hreg)⟩

/-- A new user of the hub comes after everybody, so no address is looked up otherwise. -/
theorem Remembers.hub (hr : Remembers lib earlier users) (hfresh : users.get? user.id = none)
    (hhash : user.passwordHash = none) : Remembers lib earlier (users.put user) := by
  constructor
  · intro email account hreg
    obtain ⟨current, salt, hcurrent, hfound⟩ := hr.kept email account hreg
    refine ⟨current, salt, hcurrent, ?_⟩
    rw [getByEmail_put_fresh hfresh, hfound, Option.some_or]
  · intro email other hfound hother
    rw [getByEmail_put_fresh hfresh, Option.or_eq_some_iff] at hfound
    rcases hfound with hfound | ⟨-, hfound⟩
    · exact hr.known email other hfound hother
    · split at hfound
      · obtain rfl := Option.some.inj hfound
        exact absurd hhash hother
      · cases hfound

/-- A registration. Nobody had the address, and nobody the identifier. -/
theorem Remembers.register {email password captchaToken salt : String}
    (hr : Remembers lib earlier users)
    (hcall : s.request.call = .registerWithEmail email password captchaToken)
    (hresult : s.result = .ok user) (hemail : user.email = some email)
    (hhash : user.passwordHash = some (lib.hashpw (passwordBytes password) salt))
    (hfresh : users.get? user.id = none) (hfree : users.getByEmail email = none) :
    Remembers lib (earlier ++ [s]) (users.put user) := by
  have hregisters : s.Registers email user := ⟨password, captchaToken, hcall, hresult⟩
  have hnew : ∀ userId, s.newPassword userId = if user.id = userId then some password else none := by
    intro userId
    unfold Served.newPassword
    rw [hcall, hresult]
  constructor
  · intro email' account hreg
    rw [passwordOf_append, hnew, getByEmail_put_fresh hfresh]
    rcases registered_append.mp hreg with hreg | ⟨password', captchaToken', hcall', hresult'⟩
    · obtain ⟨current, salt', hcurrent, hfound⟩ := hr.kept email' account hreg
      have hne : user.id ≠ account.id := by
        intro heq
        have hstored := (email_of_getByEmail hfound).1
        exact Table.get?_eq_none.mp hfresh _ hstored heq.symm
      refine ⟨current, salt', ?_, ?_⟩
      · rw [if_neg hne, Option.none_or]
        exact hcurrent
      · rw [hfound, Option.some_or]
    · rw [hcall] at hcall'
      rw [hresult] at hresult'
      cases hcall'
      obtain rfl := Except.ok.inj hresult'
      refine ⟨password, salt, ?_, ?_⟩
      · rw [if_pos rfl, Option.some_or]
      · rw [hfree, Option.none_or, if_pos hemail, ← hhash]
  · intro email' other hfound hother
    rw [getByEmail_put_fresh hfresh, Option.or_eq_some_iff] at hfound
    rcases hfound with hfound | ⟨-, hfound⟩
    · obtain ⟨account, hreg⟩ := hr.known email' other hfound hother
      exact ⟨account, registered_append.mpr (.inl hreg)⟩
    · split at hfound
      · rename_i hsame
        obtain rfl := Option.some.inj (hemail.symm.trans hsame)
        exact ⟨user, registered_append.mpr (.inr hregisters)⟩
      · cases hfound

/-- A password change. It replaces the row of its account in place. -/
theorem Remembers.change {userId oldPassword newPassword salt : String} {updated : User}
    (hr : Remembers lib earlier users)
    (hcall : s.request.call = .changePassword userId oldPassword newPassword)
    (hresult : s.result = .ok updated) (hstored : users.get? userId = some user)
    (hhash : user.passwordHash ≠ none)
    (hupdated : updated =
      { user with passwordHash := some (lib.hashpw (passwordBytes newPassword) salt) }) :
    Remembers lib (earlier ++ [s]) (users.put updated) := by
  have hid : user.id = userId := Table.key_of_get? hstored
  have hmem : user ∈ users := Table.mem_of_get? hstored
  have hstored' : users.get? updated.id = some user := by
    rw [hupdated]
    exact Table.get?_of_mem hmem
  have hsame : updated.email = user.email := by rw [hupdated]
  have hsameId : updated.id = user.id := by rw [hupdated]
  have hnew : ∀ userId', s.newPassword userId' =
      if userId = userId' then some newPassword else none := by
    intro userId'
    unfold Served.newPassword
    rw [hcall, hresult]
  have hregistered : ∀ email account,
      Registered (earlier ++ [s]) email account ↔ Registered earlier email account := by
    intro email account
    rw [registered_append, or_iff_left]
    rintro ⟨password, captchaToken, hcall', -⟩
    rw [hcall] at hcall'
    cases hcall'
  constructor
  · intro email account hreg
    obtain ⟨current, salt', hcurrent, hfound⟩ := hr.kept email account ((hregistered email account).mp hreg)
    rw [passwordOf_append, hnew, getByEmail_put hstored' hsame, hfound, Option.map_some]
    by_cases heq : account.id = updated.id
    · have hrow : user = { account with
          passwordHash := some (lib.hashpw (passwordBytes current) salt') } := by
        have hrowMem := (email_of_getByEmail hfound).1
        exact Table.eq_of_key_eq hmem hrowMem (hsameId.symm.trans heq.symm)
      refine ⟨newPassword, salt, ?_, ?_⟩
      · rw [if_pos (hid.symm.trans (hsameId.symm.trans heq.symm)), Option.some_or]
      · rw [if_pos heq, hupdated, hrow]
    · refine ⟨current, salt', ?_, ?_⟩
      · rw [if_neg fun h => heq (h.symm.trans (hid.symm.trans hsameId.symm)), Option.none_or]
        exact hcurrent
      · rw [if_neg heq]
  · intro email other hfound hother
    rw [getByEmail_put hstored' hsame, Option.map_eq_some_iff] at hfound
    obtain ⟨row, hrow, hput⟩ := hfound
    have hrowHash : row.passwordHash ≠ none := by
      by_cases heq : row.id = updated.id
      · have hrowUser : row = user :=
          Table.eq_of_key_eq (email_of_getByEmail hrow).1 hmem (heq.trans hsameId)
        rw [hrowUser]
        exact hhash
      · rw [if_neg heq] at hput
        rw [hput]
        exact hother
    obtain ⟨account, hreg⟩ := hr.known email row hrow hrowHash
    exact ⟨account, (hregistered email account).mpr hreg⟩

end

section

variable {D : Deployment} {earlier served : List Served} {xs : ℕ → Choice} {w w' : World}
  {r : Except Exc User}

/-- What one call keeps. -/
theorem Remembers.step {call : AuthCall} (hr : Remembers D.lib earlier w.users)
    (h : eval (World.exec D.steady) xs w (call.code D.lib) = some (r, w')) :
    Remembers D.lib (earlier ++ [⟨⟨call, xs⟩, w, r⟩]) w'.users := by
  cases call with
  | registerWithEmail email password captchaToken =>
    rw [AuthCall.code, eval_registerWithEmail] at h
    split at h
    · obtain ⟨rfl, rfl⟩ := Prod.mk.inj (Option.some.inj h)
      exact hr.quiet (quiet_of_error rfl)
    · split at h
      · obtain ⟨rfl, rfl⟩ := Prod.mk.inj (Option.some.inj h)
        exact hr.quiet (quiet_of_error rfl)
      · rename_i hfree
        obtain ⟨-, hfresh, rfl, rfl⟩ := enroll_some h
        exact hr.register rfl rfl rfl rfl hfresh (by simpa using hfree)
  | loginWithEmail email password =>
    have hquiet : Served.Quiet ⟨⟨.loginWithEmail email password, xs⟩, w, r⟩ :=
      quiet_of_login (.inl ⟨_, _, rfl⟩)
    rw [AuthCall.code, eval_loginWithEmail] at h
    split at h <;> obtain ⟨-, rfl⟩ := Prod.mk.inj (Option.some.inj h) <;> exact hr.quiet hquiet
  | changePassword userId oldPassword newPassword =>
    rw [AuthCall.code, eval_changePassword] at h
    split at h
    · obtain ⟨rfl, rfl⟩ := Prod.mk.inj (Option.some.inj h)
      exact hr.quiet (quiet_of_error rfl)
    · rename_i user huser
      split at h
      · obtain ⟨hstored, hhash⟩ := Option.filter_eq_some_iff.mp huser
        obtain ⟨rfl, rfl⟩ := Prod.mk.inj (Option.some.inj h)
        exact hr.change rfl rfl hstored (Option.isSome_iff_ne_none.mp hhash) rfl
      · obtain ⟨rfl, rfl⟩ := Prod.mk.inj (Option.some.inj h)
        exact hr.quiet (quiet_of_error rfl)
  | loginOrRegisterWithHf code redirectUri =>
    have hquiet : Served.Quiet ⟨⟨.loginOrRegisterWithHf code redirectUri, xs⟩, w, r⟩ :=
      quiet_of_login (.inr ⟨_, _, rfl⟩)
    rw [AuthCall.code, eval_loginOrRegisterWithHf] at h
    split at h
    · obtain ⟨-, rfl⟩ := Prod.mk.inj (Option.some.inj h)
      exact hr.quiet hquiet
    · split at h
      · obtain ⟨-, rfl⟩ := Prod.mk.inj (Option.some.inj h)
        exact hr.quiet hquiet
      · obtain ⟨-, hfresh, rfl, rfl⟩ := enroll_some h
        exact (hr.hub hfresh rfl).quiet hquiet

/-- What a whole run keeps. -/
theorem Remembers.serve {requests : List AuthRequest} (hr : Remembers D.lib earlier w.users)
    (h : serve D w requests = some (served, w')) :
    Remembers D.lib (earlier ++ served) w'.users := by
  induction requests generalizing w earlier served with
  | nil =>
    obtain ⟨rfl, rfl⟩ := Prod.mk.inj (Option.some.inj h)
    rw [List.append_nil]
    exact hr
  | cons request requests ih =>
    obtain ⟨r, w₁, rest, heval, hrest, rfl⟩ := serve_cons h
    have hstep := hr.step heval
    have hrun := ih hstep hrest
    rw [List.append_assoc] at hrun
    exact hrun

/-- A login compares with the password that the history says. -/
theorem Remembers.login (hr : Remembers D.lib earlier w.users) (hbcrypt : BcryptSpec D.lib)
    (email password : String) (answers : ℕ → Choice) : ∃ r,
      eval (World.exec D.steady) answers w (loginWithEmail D.lib email password) = some (r, w) ∧
      ((∃ user, r = .ok user) ↔ ∃ account, Opens earlier email password account) ∧
      ∀ user account, r = .ok user → Registered earlier email account →
        w.users.get? account.id = some user ∧
          user = { account with passwordHash := user.passwordHash } := by
  rw [eval_loginWithEmail]
  split
  · rename_i hnone
    refine ⟨_, rfl, iff_of_false ?_ ?_, ?_⟩
    · rintro ⟨user, hok⟩
      cases hok
    · rintro ⟨account, hreg, current, hcurrent, hbytes⟩
      obtain ⟨current', salt, hcurrent', hfound⟩ := hr.kept email account hreg
      obtain rfl := Option.some.inj (hcurrent.symm.trans hcurrent')
      have hverify := (BcryptSpec.verify hbcrypt password current salt).mpr hbytes
      rw [hfound, Option.filter_some, if_pos (by simpa using hverify)] at hnone
      cases hnone
    · intro user account hok
      cases hok
  · rename_i user huser
    obtain ⟨hfound, hverify⟩ := Option.filter_eq_some_iff.mp huser
    obtain ⟨hash, hhash, hverify⟩ := (Option.any_eq_true _ _).mp hverify
    have hrow : ∀ account, Registered earlier email account → ∃ current salt,
        passwordOf earlier account.id = some current ∧
        user = { account with passwordHash := some (D.lib.hashpw (passwordBytes current) salt) } := by
      intro account hreg
      obtain ⟨current, salt, hcurrent, hfound'⟩ := hr.kept email account hreg
      exact ⟨current, salt, hcurrent, Option.some.inj (hfound.symm.trans hfound')⟩
    refine ⟨_, rfl, iff_of_true ⟨user, rfl⟩ ?_, ?_⟩
    · obtain ⟨account, hreg⟩ := hr.known email user hfound (by simp [hhash])
      obtain ⟨current, salt, hcurrent, rfl⟩ := hrow account hreg
      obtain rfl := Option.some.inj hhash
      exact ⟨account, hreg, current, hcurrent,
        (BcryptSpec.verify hbcrypt password current salt).mp hverify⟩
    · intro user' account hok hreg
      obtain rfl := Except.ok.inj hok
      obtain ⟨current, salt, -, rfl⟩ := hrow account hreg
      have hmem := (email_of_getByEmail hfound).1
      exact ⟨Table.get?_of_mem hmem, rfl⟩

/-- A password change writes only after it has checked the old password. -/
theorem failed_change {userId oldPassword newPassword : String} {e : Exc}
    (h : eval (World.exec D.steady) xs w (changePassword D.lib userId oldPassword newPassword) =
      some (.error e, w')) : w' = w := by
  rw [eval_changePassword] at h
  split at h
  · exact (Prod.mk.inj (Option.some.inj h)).2.symm
  · split at h
    · cases (Prod.mk.inj (Option.some.inj h)).1
    · exact (Prod.mk.inj (Option.some.inj h)).2.symm

end

end PasswordHistories

open PasswordHistories

/-- After every sequence of calls on a new repository, a login goes through if and only if the
password has the bytes of the one that was set last for the account with this address, and a
password change that fails changes nothing. -/
theorem passwords_exact (D : Deployment) (hbcrypt : BcryptSpec D.lib) {w w' : World}
    {requests : List AuthRequest} {earlier : List Served} (husers : w.users = Table.empty)
    (h : serve D w requests = some (earlier, w')) : PasswordSemantics D earlier w' := by
  have hstart : Remembers D.lib [] w.users := by
    rw [husers]
    exact remembers_nothing
  have hr : Remembers D.lib earlier w'.users := hstart.serve h
  constructor
  · intro email password answers
    exact hr.login hbcrypt email password answers
  · intro userId oldPassword newPassword answers e w'' hfailed
    exact failed_change hfailed

namespace PasswordHistories

/-- The bytes of a hash come first, then its salt. -/
def letters (bytes : Bytes) : List Char := bytes.map fun byte => Char.ofNat (byte.toNat + 256)

theorem toNat_letter (byte : UInt8) : (Char.ofNat (byte.toNat + 256)).toNat = byte.toNat + 256 := by
  have hlt := byte.toNat_lt
  have hvalid : (byte.toNat + 256).isValidChar := Or.inl (by omega)
  unfold Char.ofNat
  rw [dif_pos hvalid]
  rfl

theorem letters_injective : Function.Injective letters := by
  apply List.map_injective_iff.mpr
  intro a b h
  have h : Char.ofNat (a.toNat + 256) = Char.ofNat (b.toNat + 256) := h
  have hnat : a.toNat + 256 = b.toNat + 256 := by
    rw [← toNat_letter a, ← toNat_letter b, h]
  apply UInt8.toNat_inj.mp
  omega

theorem not_dollar_of_mem_letters {bytes : Bytes} {c : Char} (h : c ∈ letters bytes) : c ≠ '$' := by
  obtain ⟨byte, -, rfl⟩ := List.mem_map.mp h
  intro heq
  have hnat := toNat_letter byte
  rw [heq] at hnat
  have hdollar : '$'.toNat = 36 := rfl
  omega

def saltedHash (bytes : Bytes) (salt : String) : String :=
  String.ofList (letters bytes ++ '$' :: salt.toList)

def matchesHash (bytes : Bytes) (hash : String) : Bool :=
  hash.toList.takeWhile (· ≠ '$') = letters bytes

/-- The sample, with hashes that can be checked. -/
def hashing : Deployment :=
  { Deployment.sample with
    lib := { Deployment.sample.lib with hashpw := saltedHash, checkpw := matchesHash } }

theorem bcryptSpec_hashing : BcryptSpec hashing.lib := by
  intro a b salt _ _
  show decide ((saltedHash b salt).toList.takeWhile (· ≠ '$') = letters a) = true ↔ a = b
  have htake : (saltedHash b salt).toList.takeWhile (· ≠ '$') = letters b := by
    unfold saltedHash
    rw [String.toList_ofList, List.takeWhile_append_of_pos]
    · simp
    · intro c hc
      simpa using not_dollar_of_mem_letters hc
  rw [htake, decide_eq_true_eq, letters_injective.eq_iff, eq_comm]

/-- A registration, a user of the hub with the same address, and a new password. -/
def newPasswordAt : List AuthRequest :=
  [{ call := .registerWithEmail "a@example.com" "old" "token"
     answers := fun _ => { text := "e" } },
   { call := .loginOrRegisterWithHf "code" "https://app.example.com/callback"
     answers := fun _ =>
       { text := "h"
         profile := { hfUserId := "hf", username := "alice", email := some "a@example.com" } } },
   { call := .changePassword "e" "old" "new"
     answers := fun _ => { text := "s" } },
   { call := .changePassword "e" "old" "newer"
     answers := fun _ => { text := "s" } }]

end PasswordHistories

/-- The user of the hub has the address too, and the last change does not know the new password. -/
theorem passwords_exact_changed : ∃ earlier w',
    serve hashing {} newPasswordAt = some (earlier, w') ∧ PasswordSemantics hashing earlier w' := by
  have hrun : (serve hashing {} newPasswordAt).isSome = true := by decide +kernel
  obtain ⟨⟨earlier, w'⟩, hserve⟩ := Option.isSome_iff_exists.mp hrun
  exact ⟨earlier, w', hserve, passwords_exact hashing bcryptSpec_hashing rfl hserve⟩

end TrainVla
