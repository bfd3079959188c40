import TrainVla.Interaction.Gate
import TrainVla.Properties.UserIsolation
import TrainVla.Properties.WorkerFleet

/-! What a request to the interface may do, and from when on. -/
namespace TrainVla

open Interaction Store UserIsolation

/-- The header of a request that asks for an access token. -/
def Request.authorization? : Request → Option (Option String)
  | changePassword authorization .. | createZipUploadTarget authorization => some authorization
  | confirmZipUpload authorization .. | submitHfDataset authorization .. => some authorization
  | listMyJobs authorization | cancelJob authorization _ => some authorization
  | getDownloadUrl authorization _ => some authorization
  | _ => none

/-- The header carries a token of the user that is good at the instant. -/
def Installation.Admits (I : Installation) (authorization : Option String) (userId : String)
    (now : ℤ) : Prop :=
  ∃ token claims, bearerToken authorization = some token ∧
    I.api.jwt.payload token I.backend.jwtSecret = some claims ∧ claims.sub = userId ∧
    seconds claims.iat ≤ now ∧ now < seconds claims.exp

/-- Before the token was checked against the clock, nothing but that; and no sweep without the
secret. -/
def Installation.gate (I : Installation) : Gate Request Call World where
  harmless r c :=
    match r.authorization? with
    | some authorization => (I.claimed authorization).isSome = true ∧ c = .now
    | none => ∀ secret, r = .checkTimeouts secret → secret = some I.backend.schedulerSharedSecret
  opens r := ∃ authorization, r.op.authorization? = some authorization ∧ r.call = .now ∧
    I.Admits authorization (I.claimedOr authorization) r.after.clock

namespace ApiGatekeeping

variable {I : Installation}

/-- What an endpoint does comes after the clock was read, and the token was good then. -/
theorem gated_authenticated (hjwt : I.api.jwt.ChecksClaims) {G : Gate Request Call World}
    {r : Request} {authorization : Option String} {endpoint : String → Service Unit}
    (hnow : ∀ userId, I.claimed authorization = some userId → G.harmless r .now)
    (h : ∀ w w', I.Admits authorization (I.claimedOr authorization) w'.clock →
      G.opens ⟨r, w, .now, w'⟩ ∨
        Gated (World.exec I.deployment.steady) G r (endpoint (I.claimedOr authorization))) :
    Gated (World.exec I.deployment.steady) G r
      (Api.authenticated I.api I.backend authorization endpoint) := by
  unfold Api.authenticated
  rw [getCurrentUserId_eq]
  cases htoken : bearerToken authorization with
  | none => trivial
  | some token =>
    dsimp only
    cases hclaims : I.api.jwt.payload token I.backend.jwtSecret with
    | none => trivial
    | some claims =>
      have hclaimed : I.claimed authorization = some claims.sub := by
        simp [Installation.claimed, htoken, hclaims]
      have hsub : I.claimedOr authorization = claims.sub := by
        rw [Installation.claimedOr, hclaimed]
        rfl
      refine Gated.perform (hnow _ hclaimed) fun o w now w' he => ?_
      obtain ⟨rfl, -⟩ := World.exec_now he
      show _ ∨ Gated _ G r (Prog.ofExcept (admitClaims I.api.jwt claims now) >>= endpoint)
      cases hlet : admitClaims I.api.jwt claims now with
      | error e => exact .inr trivial
      | ok userId =>
        obtain ⟨hid, hverify⟩ := admitClaims_eq_ok hlet
        have hiat : seconds claims.iat ≤ now := by
          by_contra hlater
          exact hjwt.immature claims now (not_le.mp hlater) hverify
        have hexp : now < seconds claims.exp := by
          by_contra hover
          exact hjwt.expired claims now (not_lt.mp hover) hverify
        have hopen := h w { w with clock := now }
          ⟨token, claims, htoken, hclaims, hsub.symm, hiat, hexp⟩
        rw [hsub, hid] at hopen
        exact hopen

/-- Endpoints behind a token begin at the gate. -/
theorem gated_endpoint (hjwt : I.api.jwt.ChecksClaims) {r : Request}
    {authorization : Option String} (hr : r.authorization? = some authorization) (endpoint : String → Service Unit) :
    Gated (World.exec I.deployment.steady) I.gate r
      (Api.authenticated I.api I.backend authorization endpoint) := by
  refine gated_authenticated hjwt (fun userId hclaimed => ?_) fun w w' hadmits => ?_
  · unfold Installation.gate
    dsimp only
    rw [hr]
    exact ⟨by rw [hclaimed]; rfl, rfl⟩
  · exact .inl ⟨authorization, hr, rfl, hadmits⟩

theorem gated_code (hjwt : I.api.jwt.ChecksClaims) (r : Request) :
    Gated (World.exec I.deployment.steady) I.gate r (r.code I) := by
  have hfree : r.authorization? = none → (∀ secret, r ≠ .checkTimeouts secret) →
      Gated (World.exec I.deployment.steady) I.gate r (r.code I) := by
    intro hauth hne
    refine Gated.of_harmless (fun c => ?_) _
    unfold Installation.gate
    dsimp only
    rw [hauth]
    exact fun secret heq => absurd heq (hne secret)
  cases r with
  | checkTimeouts xSchedulerSecret =>
    show Gated _ I.gate _ ((verifySchedulerSecret I.backend xSchedulerSecret >>= fun _ => _) >>=
      fun _ => _ : Service Unit)
    unfold verifySchedulerSecret
    split
    · trivial
    · rename_i hsecret
      refine Gated.of_harmless (fun c => ?_) _
      rintro secret heq
      obtain rfl := Request.checkTimeouts.inj heq
      exact not_not.mp hsecret
  | register email password captchaToken => exact hfree rfl (by simp)
  | login email password => exact hfree rfl (by simp)
  | hfOauthCallback code redirectUri => exact hfree rfl (by simp)
  | startup => exact hfree rfl (by simp)
  | pollerTick => exact hfree rfl (by simp)
  | completionTick => exact hfree rfl (by simp)
  | _ => exact gated_endpoint hjwt rfl _

section

variable {authorization : Option String} {oldPassword newPassword : String}

end

end ApiGatekeeping

open ApiGatekeeping

namespace ApiGatekeeping

def submitted : List (WorkerFleetLabel ℕ) :=
  [.outer (.whole (.submitHfDataset (some "Bearer user") "org/dataset" .act 100)
    (List.replicate 12 { text := "j" }))]

end ApiGatekeeping

end TrainVla
