import TrainVla.Interaction.FileLock

/-! The lock file that lets one worker process run at a time. -/
namespace TrainVla

open Interaction

/-- The exceptions of the lock: `LockAcquisitionError`, and what the operating system raises. -/
inductive WorkerLockError
  | lockAcquisition (message : String)
  | os (error : LockError)
  deriving DecidableEq

/-- An instance of the lock, with its descriptor while it is held. -/
structure WorkerLock where
  path : String
  fd : Option ℕ := none

namespace WorkerLock

abbrev LockProgram (α : Type) := Prog LockCall LockCall.Resp WorkerLockError α

abbrev sysCall (c : LockCall) : LockProgram c.Resp := Prog.perform c

/-- A system call whose failure is not handled. -/
def sysUnit (r : Except LockError Unit) : LockProgram Unit :=
  Prog.ofExcept (r.mapError WorkerLockError.os)

/-- The instance after `acquire`; an exception leaves it as it was. -/
def acquire (self : WorkerLock) : LockProgram WorkerLock :=
  match self.fd with
  | some _ => pure self
  | none => do
    match ← sysCall .openFile with
    | .error e => .raise (.os e)
    | .ok fd =>
      match ← sysCall (.tryLock fd) with
      | .error .wouldBlock => do
        sysUnit (← sysCall (.close fd))
        .raise (.lockAcquisition s!"Worker lock already held: {self.path}")
      | .error e => .raise (.os e)
      | .ok () => pure { self with fd := some fd }

def release (self : WorkerLock) : LockProgram WorkerLock :=
  match self.fd with
  | none => pure self
  | some fd => do
    sysUnit (← sysCall (.unlock fd))
    sysUnit (← sysCall (.close fd))
    pure { self with fd := none }

def isHeld (self : WorkerLock) : Bool := self.fd.isSome

end WorkerLock

end TrainVla
