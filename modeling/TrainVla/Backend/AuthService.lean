import TrainVla.World.Service

/-! Registration, login, password change, and login with Hugging Face. -/
namespace TrainVla.AuthService

open Interaction

def minCaptchaScore : ℚ := 1 / 2

/-- bcrypt's own input limit. -/
def maxPasswordBytes : ℕ := 72

def passwordBytes (plainPassword : String) : Bytes :=
  plainPassword.toUTF8.toList.take maxPasswordBytes

def hashPassword (lib : Library) (plainPassword : String) : Service String := do
  let salt ← perform .gensalt
  pure (lib.hashpw (passwordBytes plainPassword) salt)

def verifyPassword (lib : Library) (plainPassword passwordHash : String) : Bool :=
  lib.checkpw (passwordBytes plainPassword) passwordHash

def registerWithEmail (lib : Library) (email password captchaToken : String) : Service User := do
  let captchaResult ← perform (.captchaVerify captchaToken)
  if !captchaResult.success ∨ captchaResult.score < minCaptchaScore then
    .raise (.captchaFailed "reCAPTCHA verification failed")
  else do
    let existing ← perform (.usersGetByEmail email)
    if existing.isSome then .raise (.emailAlreadyRegistered s!"Email already registered: {email}")
    else do
      let id ← perform .uuid4
      let passwordHash ← hashPassword lib password
      let createdAt ← perform .now
      let user : User :=
        { id, authProvider := .email, email := some email, passwordHash := some passwordHash
          createdAt }
      perform (.usersCreate user)
      pure user

def loginWithEmail (lib : Library) (email password : String) : Service User := do
  match ← perform (.usersGetByEmail email) with
  | none => .raise (.invalidCredentials "Invalid email or password")
  | some user =>
    match user.passwordHash with
    | none => .raise (.invalidCredentials "Invalid email or password")
    | some passwordHash =>
      if !verifyPassword lib password passwordHash then
        .raise (.invalidCredentials "Invalid email or password")
      else pure user

def changePassword (lib : Library) (userId oldPassword newPassword : String) : Service User := do
  match ← perform (.usersGet userId) with
  | none => .raise (.wrongOldPassword "User not found or has no password set")
  | some user =>
    match user.passwordHash with
    | none => .raise (.wrongOldPassword "User not found or has no password set")
    | some passwordHash =>
      if !verifyPassword lib oldPassword passwordHash then
        .raise (.wrongOldPassword "Old password is incorrect")
      else do
        let newHash ← hashPassword lib newPassword
        let updated := { user with passwordHash := some newHash }
        perform (.usersUpdate none user updated)
        pure updated

def loginOrRegisterWithHf (code redirectUri : String) : Service User := do
  let hfUser ← Prog.ofExcept (← perform (.hfExchangeCode code redirectUri))
  match ← perform (.usersGetByHfUserId hfUser.hfUserId) with
  | some existing => pure existing
  | none => do
    let id ← perform .uuid4
    let createdAt ← perform .now
    let user : User :=
      { id, authProvider := .huggingface, email := hfUser.email, hfUserId := some hfUser.hfUserId
        createdAt }
    perform (.usersCreate user)
    pure user

end TrainVla.AuthService
