/-! Programs that reach their surroundings only through calls. The calls, their
answers and the exceptions are parameters. -/
namespace Interaction

/-- A program over the calls `C`, a call `c` being answered by an `R c`. It ends
with a result or with an exception. -/
inductive Prog (C : Type) (R : C → Type) (E α : Type) : Type
  | pure (a : α)
  | raise (e : E)
  | call (c : C) (k : R c → Prog C R E α)

namespace Prog

variable {C : Type} {R : C → Type} {E α β : Type}

protected def bind : Prog C R E α → (α → Prog C R E β) → Prog C R E β
  | .pure a, f => f a
  | .raise e, _ => .raise e
  | .call c k, f => .call c fun r => (k r).bind f

instance : Monad (Prog C R E) where
  pure := .pure
  bind := .bind

/-- A single call, returning its answer. -/
def perform (c : C) : Prog C R E (R c) := .call c .pure

def ofExcept : Except E α → Prog C R E α
  | .ok a => .pure a
  | .error e => .raise e

/-- The outcome of a program as a value, for a handler to inspect. -/
def attempt : Prog C R E α → Prog C R E (Except E α)
  | .pure a => .pure (.ok a)
  | .raise e => .pure (.error e)
  | .call c k => .call c fun r => (k r).attempt

/-- Forget the result, keep the exception. -/
def discard (p : Prog C R E α) : Prog C R E Unit := p.bind fun _ => .pure ()

def finished : Prog C R E α → Bool
  | .call _ _ => false
  | _ => true

/-- The result of a program that has ended with one. -/
def result? : Prog C R E α → Option α
  | .pure a => some a
  | _ => none

/-- What a program has come to that has ended. -/
def outcome? : Prog C R E α → Option (Except E α)
  | .pure a => some (.ok a)
  | .raise e => some (.error e)
  | .call _ _ => none

@[simp] theorem finished_pure (a : α) : (Prog.pure a : Prog C R E α).finished = true := rfl

@[simp] theorem finished_raise (e : E) : (Prog.raise e : Prog C R E α).finished = true := rfl

@[simp] theorem finished_call (c : C) (k : R c → Prog C R E α) :
    (Prog.call c k).finished = false := rfl

theorem ofExcept_bind_ofExcept (r : Except E α) (f : α → Except E β) :
    (ofExcept r >>= fun a => (ofExcept (f a) : Prog C R E β)) = ofExcept (r >>= f) := by
  cases r <;> rfl

end Prog

end Interaction
