import TrainVla.World.Service
import TrainVla.Python.Text

/-! Access tokens, and the checks in front of the endpoints. -/
namespace TrainVla

open Interaction

structure BackendSettings where
  jwtSecret : String := "dev-secret-change-me"
  schedulerSharedSecret : String := "dev-scheduler-secret-change-me"

/-- The payload of a token. Instants in it are whole seconds. -/
structure Claims where
  sub : String
  iat : ℤ
  exp : ℤ
  deriving DecidableEq

/-- The package `jwt`: `encode`, and the two parts of `decode`, the payload of a token which is well
formed and signed with the secret, and what is said of its claims at an instant. -/
structure Jwt where
  encode : Claims → String → String
  payload : String → String → Option Claims
  verify : Claims → ℤ → Except String Unit

/-- What the package promises: a token is not accepted when `iat` is still to come, and neither on
nor after `exp`. -/
structure Jwt.ChecksClaims (jwt : Jwt) : Prop where
  immature : ∀ claims now, now < seconds claims.iat → jwt.verify claims now ≠ .ok ()
  expired : ∀ claims now, seconds claims.exp ≤ now → jwt.verify claims now ≠ .ok ()

namespace JwtTokens

def expiresIn : ℤ := minutes (12 * 60)

def timestamp (t : ℤ) : ℤ := t / seconds 1

def claimsFor (userId : String) (now : ℤ) : Claims where
  sub := userId
  iat := timestamp now
  exp := timestamp (now + expiresIn)

def createAccessToken (jwt : Jwt) (userId secret : String) : Service String := do
  let now ← perform .now
  pure (jwt.encode (claimsFor userId now) secret)

def invalidToken (message : String) : Exc := .other "InvalidTokenError" message

/-- The user that the claims name, as long as they are accepted. -/
def subject (jwt : Jwt) (claims : Claims) (now : ℤ) : Except Exc String :=
  match jwt.verify claims now with
  | .ok () => .ok claims.sub
  | .error message => .error (invalidToken message)

/-- The clock is read only for a token whose signature is right. -/
def decodeAccessToken (jwt : Jwt) (token secret : String) : Service String :=
  match jwt.payload token secret with
  | none => .raise (invalidToken "Signature verification failed")
  | some claims => do
    let now ← perform .now
    Prog.ofExcept (subject jwt claims now)

end JwtTokens

/-- `HTTPException(status_code=401, …)`, the only one there is. -/
def unauthorized (detail : String) : Exc := .other "HTTPException" detail

def bearerPrefix : String := "Bearer "

/-- The token in an `Authorization` header. -/
def bearerToken (authorization : Option String) : Option String :=
  authorization.bind fun header =>
    if startsWith header bearerPrefix then
      some (Python.strip (String.ofList (header.toList.drop bearerPrefix.length)))
    else none

def getCurrentUserId (jwt : Jwt) (settings : BackendSettings) (authorization : Option String) :
    Service String :=
  match bearerToken authorization with
  | none => .raise (unauthorized "Missing bearer token")
  | some token => do
    match ← Prog.attempt (JwtTokens.decodeAccessToken jwt token settings.jwtSecret) with
    | .ok userId => pure userId
    | .error (.other "InvalidTokenError" _) => .raise (unauthorized "Invalid or expired token")
    | .error e => .raise e

/-- The claims of a token against the clock, as an endpoint sees it. -/
def admitClaims (jwt : Jwt) (claims : Claims) (now : ℤ) : Except Exc String :=
  match jwt.verify claims now with
  | .ok () => .ok claims.sub
  | .error _ => .error (unauthorized "Invalid or expired token")

theorem admitClaims_eq_ok {jwt : Jwt} {claims : Claims} {now : ℤ} {userId : String}
    (h : admitClaims jwt claims now = .ok userId) :
    claims.sub = userId ∧ jwt.verify claims now = .ok () := by
  unfold admitClaims at h
  cases hverify : jwt.verify claims now with
  | ok u =>
    rw [hverify] at h
    exact ⟨Except.ok.inj h, rfl⟩
  | error message =>
    rw [hverify] at h
    cases h

/-- At most one call, the reading of the clock. -/
theorem getCurrentUserId_eq (jwt : Jwt) (settings : BackendSettings)
    (authorization : Option String) : getCurrentUserId jwt settings authorization =
      match bearerToken authorization with
      | none => .raise (unauthorized "Missing bearer token")
      | some token =>
        match jwt.payload token settings.jwtSecret with
        | none => .raise (unauthorized "Invalid or expired token")
        | some claims => perform .now >>= fun now => Prog.ofExcept (admitClaims jwt claims now) := by
  unfold getCurrentUserId
  cases bearerToken authorization with
  | none => rfl
  | some token =>
    dsimp only
    unfold JwtTokens.decodeAccessToken
    cases jwt.payload token settings.jwtSecret with
    | none => rfl
    | some claims =>
      refine congrArg (Prog.call Call.now) (funext fun now => ?_)
      show (Prog.attempt (Prog.ofExcept (JwtTokens.subject jwt claims now)) >>= _ : Service String) =
        Prog.ofExcept (admitClaims jwt claims now)
      unfold JwtTokens.subject admitClaims
      cases jwt.verify claims now <;> rfl

def verifySchedulerSecret (settings : BackendSettings) (xSchedulerSecret : Option String) :
    Service Unit :=
  if xSchedulerSecret ≠ some settings.schedulerSharedSecret then
    .raise (unauthorized "Invalid scheduler secret")
  else pure ()

end TrainVla
