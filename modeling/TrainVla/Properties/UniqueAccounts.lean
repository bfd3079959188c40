import TrainVla.System.Soundness

/-! An account is found again by its email address, or by its identity on the hub. Two sign-ups
can both find that there is none, and then both create one. -/
namespace TrainVla

open Interaction Store

/-- The fields that say whose account it is. Nothing changes them. -/
structure User.SameAccount (a b : User) : Prop where
  id : a.id = b.id
  authProvider : a.authProvider = b.authProvider
  email : a.email = b.email
  hfUserId : a.hfUserId = b.hfUserId

theorem User.SameAccount.trans {a b c : User} (h₁ : a.SameAccount b) (h₂ : b.SameAccount c) :
    a.SameAccount c :=
  ⟨h₁.1.trans h₂.1, h₁.2.trans h₂.2, h₁.3.trans h₂.3, h₁.4.trans h₂.4⟩

/-- Two documents for one account: the same address of two email accounts, or the same identity
on the hub. -/
def User.Shares (a b : User) : Prop :=
  a.authProvider = .email ∧ b.authProvider = .email ∧ a.email = b.email ∨
    a.hfUserId ≠ none ∧ a.hfUserId = b.hfUserId

theorem User.Shares.symm {a b : User} (h : a.Shares b) : b.Shares a := by
  rcases h with ⟨ha, hb, hemail⟩ | ⟨hsome, heq⟩
  · exact .inl ⟨hb, ha, hemail.symm⟩
  · rw [heq] at hsome
    exact .inr ⟨hsome, heq.symm⟩

/-- Whose account a document is stays the same when it is written again. -/
theorem User.SameAccount.shares {a a' b : User} (h : a.SameAccount a') (hs : a.Shares b) :
    a'.Shares b := by
  unfold User.Shares at hs ⊢
  rwa [← h.authProvider, ← h.email, ← h.hfUserId]

/-- No account has two documents. -/
def UniqueAccounts (users : UserTable) : Prop := ∀ a ∈ users, ∀ b ∈ users, a.Shares b → a = b

/-- What a sign-up looks an account up by. -/
inductive Identity
  | address (email : String)
  | hub (hfUserId : String)
  deriving DecidableEq

/-- Whether a document is one for this identity. -/
def User.Has (user : User) : Identity → Prop
  | .address email => user.authProvider = .email ∧ user.email = some email
  | .hub hfUserId => user.hfUserId = some hfUserId

/-- The identity for which a sign-up creates a document. -/
def User.identity (user : User) : Option Identity :=
  match user.authProvider with
  | .email => user.email.map .address
  | .huggingface => user.hfUserId.map .hub

/-- A sign-up looks for a document of its identity, and then it creates one. -/
def signUp : Lookup Call Identity where
  looks
    | .usersGetByEmail email => some (.address email)
    | .usersGetByHfUserId hfUserId => some (.hub hfUserId)
    | _ => none
  takes
    | .usersCreate user => user.identity
    | _ => none

/-- Nobody has the identity. -/
def Unclaimed (identity : Identity) (w : World) : Prop := ∀ other ∈ w.users, ¬ other.Has identity

theorem User.SameAccount.has {a b : User} (h : a.SameAccount b) {identity : Identity}
    (ha : a.Has identity) : b.Has identity := by
  cases identity with
  | address email => exact ⟨h.authProvider.symm.trans ha.1, h.email.symm.trans ha.2⟩
  | hub hfUserId => exact h.hfUserId.symm.trans ha

/-- A sign-up creates a document of one identity. -/
theorem NewUser.has_iff {op : Op} {user : User} (h : NewUser op user) {identity : Identity} :
    user.Has identity ↔ user.identity = some identity := by
  cases h with
  | email => cases identity <;> simp [User.Has, User.identity]
  | huggingface => cases identity <;> simp [User.Has, User.identity]

theorem NewUser.shares_iff {op : Op} {user other : User} (h : NewUser op user) :
    other.Shares user ↔ ∃ identity, user.identity = some identity ∧ other.Has identity := by
  cases h with
  | email => simp [User.Shares, User.Has, User.identity]
  | huggingface =>
    simp only [User.Shares, User.identity, Option.map_some, Option.some.injEq, exists_eq_left',
      User.Has]
    constructor
    · rintro (⟨-, hprovider, -⟩ | ⟨-, heq⟩)
      · cases hprovider
      · exact heq
    · intro heq
      exact .inr ⟨by simp [heq], heq⟩

theorem NewUser.not_threaded {op : Op} {user : User} (h : NewUser op user) :
    op.threaded = false := by
  cases h <;> rfl

namespace UniqueAccounts

variable {users : UserTable} {user stored : User}

/-- A new document keeps accounts unique if and only if nobody has its account. -/
theorem put_fresh (h : UniqueAccounts users) (hfresh : users.get? user.id = none) :
    UniqueAccounts (users.put user) ↔ ∀ other ∈ users, ¬ other.Shares user := by
  have hid := Table.get?_eq_none.mp hfresh
  constructor
  · intro hunique other hother hshares
    have hkept : other ∈ users.put user := Table.mem_put.mpr (.inr ⟨hother, hid other hother⟩)
    have hsame := hunique other hkept user (Table.mem_put_self users user) hshares
    exact hid other hother (congrArg User.id hsame)
  · intro hunclaimed a ha b hb hshares
    rcases Table.mem_put.mp ha with haself | ⟨ha', -⟩
    · rcases Table.mem_put.mp hb with hbself | ⟨hb', -⟩
      · rw [haself, hbself]
      · rw [haself] at hshares
        exact absurd hshares.symm (hunclaimed b hb')
    · rcases Table.mem_put.mp hb with hbself | ⟨hb', -⟩
      · rw [hbself] at hshares
        exact absurd hshares (hunclaimed a ha')
      · exact h a ha' b hb' hshares

/-- A document that is written again. -/
theorem put_same (h : UniqueAccounts users) (hstored : users.get? user.id = some stored)
    (hsame : user.SameAccount stored) : UniqueAccounts (users.put user) := by
  have hmem := Table.mem_of_get? hstored
  have hother : ∀ a ∈ users, a.id ≠ user.id → ¬ a.Shares user := by
    intro a ha hne hshares
    obtain rfl := h stored hmem a ha (hsame.shares hshares.symm)
    exact hne (Table.key_of_get? hstored)
  intro a ha b hb hshares
  rcases Table.mem_put.mp ha with haself | ⟨ha', hna⟩
  · rcases Table.mem_put.mp hb with hbself | ⟨hb', hnb⟩
    · rw [haself, hbself]
    · rw [haself] at hshares
      exact absurd hshares.symm (hother b hb' hnb)
  · rcases Table.mem_put.mp hb with hbself | ⟨hb', -⟩
    · rw [hbself] at hshares
      exact absurd hshares (hother a ha' hna)
    · exact h a ha' b hb' hshares

end UniqueAccounts

namespace Accounts

/-- The account of a user who was read is stored. -/
def Signed (users : UserTable) (user : User) : Prop :=
  ∃ stored, users.get? user.id = some stored ∧ user.SameAccount stored

/-- Accounts stay what they are. -/
def Lasting (users users' : UserTable) : Prop :=
  ∀ userId user, users.get? userId = some user →
    ∃ user', users'.get? userId = some user' ∧ user.SameAccount user'

theorem Lasting.refl (users : UserTable) : Lasting users users :=
  fun _ user huser => ⟨user, huser, rfl, rfl, rfl, rfl⟩

theorem Lasting.trans {users₁ users₂ users₃ : UserTable} (h₁ : Lasting users₁ users₂)
    (h₂ : Lasting users₂ users₃) : Lasting users₁ users₃ := by
  intro userId user huser
  obtain ⟨user₂, huser₂, hsame₂⟩ := h₁ userId user huser
  obtain ⟨user₃, huser₃, hsame₃⟩ := h₂ userId user₂ huser₂
  exact ⟨user₃, huser₃, hsame₂.trans hsame₃⟩

theorem Signed.lasting {users users' : UserTable} {user : User} (h : Signed users user)
    (hl : Lasting users users') : Signed users' user := by
  obtain ⟨stored, hstored, hsame⟩ := h
  obtain ⟨stored', hstored', hsame'⟩ := hl user.id stored hstored
  exact ⟨stored', hstored', hsame.trans hsame'⟩

theorem lasting_put_fresh {users : UserTable} {user : User} (h : users.get? user.id = none) :
    Lasting users (users.put user) := by
  intro userId other hother
  have hne : userId ≠ user.id := by
    rintro rfl
    rw [h] at hother
    cases hother
  refine ⟨other, ?_, rfl, rfl, rfl, rfl⟩
  rw [Table.get?_put, if_neg hne, hother]

theorem lasting_put {users : UserTable} {user stored : User}
    (hstored : users.get? user.id = some stored) (hsame : user.SameAccount stored) :
    Lasting users (users.put user) := by
  intro userId other hother
  by_cases hid : userId = user.id
  · rw [hid, hstored] at hother
    obtain rfl := Option.some.inj hother
    refine ⟨user, ?_, hsame.id.symm, hsame.authProvider.symm, hsame.email.symm, hsame.hfUserId.symm⟩
    rw [Table.get?_put, if_pos hid]
  · refine ⟨other, ?_, rfl, rfl, rfl, rfl⟩
    rw [Table.get?_put, if_neg hid, hother]

/-- Whoever holds a user document has read it. -/
def protocol : Protocol where
  inv _ := True
  rely _ w w' := Lasting w.users w'.users
  cond _ _ _ := True
  holds _ f w :=
    match f with
    | .owner user => Signed w.users user
    | .job (.owned user) _ => Signed w.users user
    | .job (.started user) _ => Signed w.users user
    | _ => True

variable {D : Deployment} {op : Op} {o : Choice} {w w' : World} {c : Call} {r : c.Resp}

theorem holds_lasting {f : Fact} (h : Lasting w.users w'.users) (hf : protocol.holds op f w) :
    protocol.holds op f w' := by
  cases f with
  | owner user => exact Signed.lasting hf h
  | job st job =>
    cases st with
    | owned user => exact Signed.lasting hf h
    | started user => exact Signed.lasting hf h
    | _ => trivial
  | _ => trivial

/-- The user documents that are written again. -/
theorem rewritten {charge : Option String} {seen user : User}
    (hpre : protocol.pre D op w (.usersUpdate charge seen user)) :
    ∃ stored, w.users.get? user.id = some stored ∧ user.SameAccount stored := by
  cases charge with
  | none =>
    obtain ⟨-, passwordHash, ⟨stored, hstored, hsame⟩, rfl⟩ := hpre
    exact ⟨stored, hstored, hsame.id, hsame.authProvider, hsame.email, hsame.hfUserId⟩
  | some jobId =>
    obtain ⟨-, job, now, ⟨stored, hstored, hsame⟩, -, -, rfl⟩ := hpre
    exact ⟨stored, hstored, hsame.id, hsame.authProvider, hsame.email, hsame.hfUserId⟩

theorem lasting_exec (hpre : protocol.pre D op w c)
    (he : World.exec D.steady o w c = some (r, w')) : Lasting w.users w'.users := by
  have hframe : c.writesUsers = false → Lasting w.users w'.users := by
    intro h
    rw [(World.exec_frame he).users h]
    exact .refl _
  cases c with
  | usersCreate user =>
    obtain ⟨rfl, hfresh⟩ := World.exec_usersCreate he
    exact lasting_put_fresh hfresh
  | usersUpdate charge seen user =>
    obtain rfl := World.exec_usersUpdate he
    obtain ⟨stored, hstored, hsame⟩ := rewritten hpre
    exact lasting_put hstored hsame
  | _ => exact hframe rfl

theorem valid : protocol.Valid D where
  preorders := ⟨fun _ w => .refl w.users, fun _ _ _ _ h₁ h₂ => h₁.trans h₂⟩
  stable _ _ _ _ hrely _ hf := holds_lasting hrely hf
  survive _ _ _ _ _ _ _ _ hpre _ he _ hf := holds_lasting (lasting_exec hpre he) hf
  learn op o w c r w' fs f _ hpre _ he hl hfs := by
    have hread : ∀ {userId user}, w.users.get? userId = some user → Signed w.users user :=
      fun huser => ⟨_, Table.get?_of_mem (Table.mem_of_get? huser), rfl, rfl, rfl, rfl⟩
    cases hl with
    | owner =>
      obtain ⟨huser, rfl⟩ := Prod.mk.inj (Option.some.inj he)
      exact hread huser
    | owned =>
      obtain ⟨huser, rfl⟩ := Prod.mk.inj (Option.some.inj he)
      exact hread huser
    | wrote h hjob _ _ =>
      cases h with
      | start _ =>
        obtain rfl := World.exec_jobsUpdate he
        exact hfs _ hjob
      | _ => trivial
    | _ => trivial

theorem sound {permit : SysLabel → Prop} : protocol.Sound D permit where
  toValid := valid
  exec _ _ _ _ _ _ _ hpre _ he := ⟨trivial, fun _ _ => lasting_exec hpre he⟩
  occur v w w' _ _ he := by
    refine ⟨trivial, fun op' _ => ?_⟩
    show Lasting w.users w'.users
    rw [(World.occur_frame he).2.1]
    exact .refl _

/-- One call, seen from a world in which accounts are unique. -/
theorem unique_exec (hpre : protocol.pre D op w c)
    (he : World.exec D.steady o w c = some (r, w')) (h : UniqueAccounts w.users) :
    UniqueAccounts w'.users ↔ ∀ identity, signUp.takes c = some identity → Unclaimed identity w := by
  have hframe : c.writesUsers = false → UniqueAccounts w'.users := by
    intro hc
    rw [(World.exec_frame he).users hc]
    exact h
  have hnone : signUp.takes c = none →
      ∀ identity, signUp.takes c = some identity → Unclaimed identity w := by
    intro hc identity htakes
    rw [hc] at htakes
    cases htakes
  cases c with
  | usersCreate user =>
    obtain ⟨rfl, hfresh⟩ := World.exec_usersCreate he
    have hnew : NewUser op user := hpre
    rw [h.put_fresh hfresh]
    constructor
    · intro hunshared identity htakes other hother hhas
      exact hunshared other hother (hnew.shares_iff.mpr ⟨identity, htakes, hhas⟩)
    · intro hunclaimed other hother hshares
      obtain ⟨identity, htakes, hhas⟩ := hnew.shares_iff.mp hshares
      exact hunclaimed identity htakes other hother hhas
  | usersUpdate charge seen user =>
    obtain rfl := World.exec_usersUpdate he
    obtain ⟨stored, hstored, hsame⟩ := rewritten hpre
    exact iff_of_true (h.put_same hstored hsame) (hnone rfl)
  | _ => exact iff_of_true (hframe rfl) (hnone rfl)

/-- An identity is nobody's until somebody signs up with it. -/
theorem unclaimed_exec {identity : Identity} (hpre : protocol.pre D op w c)
    (he : World.exec D.steady o w c = some (r, w')) (htakes : signUp.takes c ≠ some identity)
    (h : Unclaimed identity w) : Unclaimed identity w' := by
  have hframe : c.writesUsers = false → Unclaimed identity w' := by
    intro hc
    unfold Unclaimed
    rw [(World.exec_frame he).users hc]
    exact h
  cases c with
  | usersCreate user =>
    obtain ⟨rfl, -⟩ := World.exec_usersCreate he
    have hnew : NewUser op user := hpre
    intro other hother hhas
    rcases Table.mem_put.mp hother with rfl | ⟨hold, -⟩
    · exact htakes (hnew.has_iff.mp hhas)
    · exact h other hold hhas
  | usersUpdate charge seen user =>
    obtain rfl := World.exec_usersUpdate he
    obtain ⟨stored, hstored, hsame⟩ := rewritten hpre
    intro other hother hhas
    rcases Table.mem_put.mp hother with rfl | ⟨hold, -⟩
    · exact h stored (Table.mem_of_get? hstored) (hsame.has hhas)
    · exact h other hold hhas
  | _ => exact hframe rfl

/-- Whoever has an identity keeps it. -/
theorem claimed_exec {identity : Identity} (hpre : protocol.pre D op w c)
    (he : World.exec D.steady o w c = some (r, w')) (h : ¬ Unclaimed identity w) :
    ¬ Unclaimed identity w' := by
  intro hunclaimed
  apply h
  intro other hother hhas
  obtain ⟨kept, hkept, hsame⟩ := lasting_exec hpre he _ other (Table.get?_of_mem hother)
  exact hunclaimed kept (Table.mem_of_get? hkept) (hsame.has hhas)

theorem claimed_of_takes {identity : Identity} (hpre : protocol.pre D op w c)
    (he : World.exec D.steady o w c = some (r, w')) (htakes : signUp.takes c = some identity) :
    ¬ Unclaimed identity w' := by
  cases c with
  | usersCreate user =>
    obtain ⟨rfl, -⟩ := World.exec_usersCreate he
    have hnew : NewUser op user := hpre
    intro hunclaimed
    exact hunclaimed user (Table.mem_put_self w.users user) (hnew.has_iff.mpr htakes)
  | _ => cases htakes

/-! What a sign-up does before it creates its user. -/

/-- The calls that an operation may make before it has found the identity unclaimed. -/
def Waits (identity : Identity) (op : Op) (c : Call) : Prop :=
  ∀ user, c = .usersCreate user → NewUser op user → user.identity ≠ some identity

theorem waits_of_takes {identity : Identity} {op : Op} {c : Call}
    (h : signUp.takes c ≠ some identity) : Waits identity op c := by
  rintro user rfl - heq
  exact h heq

theorem waits_of_takeless {identity : Identity} {op : Op} {c : Call} (h : signUp.takes c = none) :
    Waits identity op c := by
  apply waits_of_takes
  simp [h]

section

variable {identity : Identity}

theorem gated_registerWithEmail {email password captchaToken : String} :
    Gated (World.exec D.steady) (signUp.gate Unclaimed Waits identity) op
      (AuthService.registerWithEmail D.lib email password captchaToken) := by
  unfold AuthService.registerWithEmail
  refine Gated.perform (waits_of_takeless rfl) fun _ _ captchaResult _ _ => .inr ?_
  split
  · trivial
  refine Gated.perform (waits_of_takeless rfl) fun o w existing w' he => ?_
  obtain ⟨rfl, rfl⟩ := Prod.mk.inj (Option.some.inj he)
  by_cases hopens : identity = .address email ∧ Unclaimed identity w
  · exact .inl ⟨congrArg some hopens.1.symm, hopens.2⟩
  right
  split
  · trivial
  rename_i hnone
  -- nobody has the address, so this is about another identity
  have hother : identity ≠ .address email := by
    rintro rfl
    refine hopens ⟨rfl, fun other hother hhas => ?_⟩
    rw [Option.not_isSome_iff_eq_none] at hnone
    exact List.find?_eq_none.mp hnone other hother (by simpa using hhas.2)
  refine Gated.perform (waits_of_takeless rfl) fun _ _ id _ _ => .inr ?_
  refine Gated.perform (waits_of_takeless rfl) fun _ _ salt _ _ => .inr ?_
  refine Gated.perform (waits_of_takeless rfl) fun _ _ createdAt _ _ => .inr ?_
  refine Gated.perform (waits_of_takes fun htakes => ?_) fun _ _ _ _ _ => .inr trivial
  exact hother (Option.some.inj htakes).symm

theorem gated_loginOrRegisterWithHf {code redirectUri : String} :
    Gated (World.exec D.steady) (signUp.gate Unclaimed Waits identity) op
      (AuthService.loginOrRegisterWithHf code redirectUri) := by
  unfold AuthService.loginOrRegisterWithHf
  refine Gated.perform (waits_of_takeless rfl) fun _ _ profile _ _ => .inr ?_
  apply Gated.bind (.ofExcept _)
  intro hfUser
  refine Gated.perform (waits_of_takeless rfl) fun o w existing w' he => ?_
  obtain ⟨hfound, rfl⟩ := Prod.mk.inj (Option.some.inj he)
  by_cases hopens : identity = .hub hfUser.hfUserId ∧ Unclaimed identity w
  · exact .inl ⟨congrArg some hopens.1.symm, hopens.2⟩
  right
  cases existing with
  | some existing => trivial
  | none =>
    have hother : identity ≠ .hub hfUser.hfUserId := by
      rintro rfl
      refine hopens ⟨rfl, fun other hother hhas => ?_⟩
      have hhas : other.hfUserId = some hfUser.hfUserId := hhas
      exact List.find?_eq_none.mp hfound other hother (by simpa using hhas)
    refine Gated.perform (waits_of_takeless rfl) fun _ _ id _ _ => .inr ?_
    refine Gated.perform (waits_of_takeless rfl) fun _ _ createdAt _ _ => .inr ?_
    refine Gated.perform (waits_of_takes fun htakes => ?_) fun _ _ _ _ _ => .inr trivial
    exact hother (Option.some.inj htakes).symm

/-- Every operation begins at the gate. Those that are no sign-ups never come to a new user. -/
theorem gated_code (op : Op) :
    Gated (World.exec D.steady) (signUp.gate Unclaimed Waits identity) op (Op.code D op) := by
  have hnever : (∀ user, ¬ NewUser op user) →
      Gated (World.exec D.steady) (signUp.gate Unclaimed Waits identity) op (Op.code D op) := by
    intro hop
    exact Gated.of_harmless (fun c user _ hnew => absurd hnew (hop user)) _
  cases op with
  | registerWithEmail email password captchaToken =>
    exact Gated.bind gated_registerWithEmail fun _ => trivial
  | loginOrRegisterWithHf code redirectUri =>
    exact Gated.bind gated_loginOrRegisterWithHf fun _ => trivial
  | _ => exact hnever (fun user hnew => by cases hnew)

end

/-- Only sign-ups create users. -/
theorem newUser_of_takes {identity : Identity} (hpre : protocol.pre D op w c)
    (htakes : signUp.takes c = some identity) :
    op.threaded = false ∧ ¬ Waits identity op c := by
  cases c with
  | usersCreate user =>
    have hnew : NewUser op user := hpre
    exact ⟨hnew.not_threaded, fun hwaits => hwaits user rfl hnew htakes⟩
  | _ => cases htakes

end Accounts

/-- However sign-ups and everything else interleave: accounts are unique in every state if and
only if no user is created with the identity of another sign-up between the lookup of that sign-up
and the user that it creates. -/
theorem accounts_unique_iff (D : Deployment) {w : World} {ls : List SysLabel} {rs : List SysRecord}
    {c : SysConf} (hunique : UniqueAccounts w.users) (hl : ∀ l ∈ ls, Interleaved l)
    (hr : D.system.run (.initial w) ls = some (rs, c)) :
    ((∀ r ∈ rs, UniqueAccounts r.after.users) ∧ UniqueAccounts c.state.users) ↔
      signUp.Unbroken (turns ls rs) := by
  have hsound : (Accounts.protocol.outline D).Sound D.system Interleaved Accounts.protocol.post :=
    Accounts.sound.outline fun _ _ _ => trivial
  have hknown := (hsound.run (.initial trivial) hl hr fun _ _ _ => trivial).1
  have hsingle : ∀ l ∈ ls, l.Single := fun l hmem => (hl l hmem).single
  have hstep : ∀ r ∈ rs, UniqueAccounts r.before.users → (UniqueAccounts r.after.users ↔
      ∀ identity, signUp.takes r.call = some identity → Unclaimed identity r.before) := by
    intro r hmem hbefore
    obtain ⟨-, hpre, o, a, he⟩ := hknown r hmem
    exact Accounts.unique_exec hpre he hbefore
  have hstates : (∀ r ∈ rs, UniqueAccounts r.before.users → UniqueAccounts r.after.users) →
      (∀ r ∈ rs, UniqueAccounts r.before.users) ∧ UniqueAccounts c.state.users := by
    intro hrec
    refine Machine.run_states (I := fun w => UniqueAccounts w.users) hr hrec ?_ hunique
    intro v w w' he hw
    rwa [(World.occur_frame he).2.1]
  constructor
  · rintro ⟨hafter, -⟩
    refine Lookup.unbroken_of_free Unclaimed hsingle hr ?_ ?_ ?_ ?_
    · intro r hmem identity htakes
      obtain ⟨-, hpre, o, a, he⟩ := hknown r hmem
      exact Accounts.claimed_of_takes hpre he htakes
    · intro r hmem identity hclaimed
      obtain ⟨-, hpre, o, a, he⟩ := hknown r hmem
      exact Accounts.claimed_exec hpre he hclaimed
    · intro identity v s s' he hclaimed
      unfold Unclaimed at hclaimed ⊢
      rwa [(World.occur_frame he).2.1]
    · intro r hmem
      have hbefore := (hstates fun r hmem _ => hafter r hmem).1 r hmem
      exact (hstep r hmem hbefore).mp (hafter r hmem)
  · intro hunbroken
    have hunclaimed : ∀ r ∈ rs, ∀ identity, signUp.takes r.call = some identity →
        Unclaimed identity r.before := by
      refine Lookup.free_of_unbroken Unclaimed Accounts.Waits hsingle hr
        (fun _ op _ => Accounts.gated_code op) ?_ ?_ ?_ hunbroken
      · intro r hmem identity htakes
        obtain ⟨-, hpre, -⟩ := hknown r hmem
        exact Accounts.newUser_of_takes hpre htakes
      · intro r hmem identity htakes hbefore
        obtain ⟨-, hpre, o, a, he⟩ := hknown r hmem
        exact Accounts.unclaimed_exec hpre he htakes hbefore
      · intro identity v s s' he hbefore
        unfold Unclaimed
        rw [(World.occur_frame he).2.1]
        exact hbefore
    have hrec : ∀ r ∈ rs, UniqueAccounts r.before.users → UniqueAccounts r.after.users :=
      fun r hmem hbefore => (hstep r hmem hbefore).mpr (hunclaimed r hmem)
    obtain ⟨hbefore, hlast⟩ := hstates hrec
    exact ⟨fun r hmem => hrec r hmem (hbefore r hmem), hlast⟩

namespace Accounts

/-- Two visitors register with one address. The second one is served while the first one waits
between the lookup and the write. -/
def registeredTwice : List SysLabel :=
  [.spawn (.registerWithEmail "a@example.com" "first" "token"),
    .spawn (.registerWithEmail "a@example.com" "second" "token"), .serve 0 {}, .serve 0 {}] ++
  List.replicate 6 (.serve 1 { text := "b" }) ++ List.replicate 4 (.serve 0 { text := "a" })

theorem interleaved_registeredTwice : ∀ l ∈ registeredTwice, Interleaved l := by
  decide

/-- Are there two email accounts with this address? -/
def twice (email : String) (users : UserTable) : Bool :=
  users.rows.any fun a => users.rows.any fun b =>
    a.id ≠ b.id && (a.authProvider = .email && (b.authProvider = .email &&
      (a.email = some email && b.email = some email)))

theorem not_unique_of_twice {email : String} {users : UserTable} (h : twice email users = true) :
    ¬ UniqueAccounts users := by
  intro hunique
  obtain ⟨a, ha, hb⟩ := List.any_eq_true.mp h
  obtain ⟨b, hb, hboth⟩ := List.any_eq_true.mp hb
  simp only [Bool.and_eq_true, decide_eq_true_eq] at hboth
  obtain ⟨hne, hpa, hpb, hea, heb⟩ := hboth
  have hshares : a.Shares b := .inl ⟨hpa, hpb, hea.trans heb.symm⟩
  exact hne (congrArg User.id (hunique a ha b hb hshares))

end Accounts

/-- Both registrations find the address free, and there are two accounts with it. -/
theorem accounts_unique_fails : ¬ ∀ (ls : List SysLabel) (rs : List SysRecord) (c : SysConf),
    (∀ l ∈ ls, Interleaved l) → Deployment.sample.system.run (.initial {}) ls = some (rs, c) →
    UniqueAccounts c.state.users := by
  intro h
  have hrun : (Deployment.sample.system.run (.initial {}) Accounts.registeredTwice).any
      (fun out => Accounts.twice "a@example.com" out.2.state.users) = true := by decide +kernel
  obtain ⟨⟨rs, c⟩, hr, htwice⟩ := (Option.any_eq_true _ _).mp hrun
  exact Accounts.not_unique_of_twice htwice (h _ rs c Accounts.interleaved_registeredTwice hr)

namespace Accounts

/-- Somebody registers, and is served slowly. A Hugging Face user signs up between the lookup and
the write, and somebody else tries to register with the same address, but looks it up too late. -/
def registeredOnce : List SysLabel :=
  [.spawn (.registerWithEmail "a@example.com" "first" "token"),
    .spawn (.loginOrRegisterWithHf "code" "uri"),
    .spawn (.registerWithEmail "a@example.com" "second" "token"), .serve 0 {}, .serve 0 {}] ++
  List.replicate 5 (.serve 1 { text := "b" }) ++ .serve 2 {} ::
  List.replicate 4 (.serve 0 { text := "a" }) ++ [.serve 2 {}]

end Accounts

theorem accounts_unique_iff_once : ∃ rs c,
    Deployment.sample.system.run (.initial {}) Accounts.registeredOnce = some (rs, c) ∧
      signUp.Unbroken (turns Accounts.registeredOnce rs) ∧ c.state.users.rows.length = 2 ∧
      (∀ r ∈ rs, UniqueAccounts r.after.users) ∧ UniqueAccounts c.state.users := by
  have hrun : (Deployment.sample.system.run (.initial {}) Accounts.registeredOnce).any (fun out =>
      decide (signUp.Unbroken (turns Accounts.registeredOnce out.1)) &&
        out.2.state.users.rows.length == 2) = true := by decide +kernel
  obtain ⟨⟨rs, c⟩, hr, hchecks⟩ := (Option.any_eq_true _ _).mp hrun
  simp only [Bool.and_eq_true, decide_eq_true_eq, beq_iff_eq] at hchecks
  have hnone : UniqueAccounts ({} : World).users := fun a ha => absurd ha (Table.not_mem_empty a)
  have hunique := (accounts_unique_iff .sample hnone (by decide) hr).mpr hchecks.1
  exact ⟨rs, c, hr, hchecks.1, hchecks.2, hunique⟩

end TrainVla
