/-
  Scriptling.Run — computations that change a state and may stop.

  A run ends with a value or with a fault, and with the state it leaves behind in either case;
  or it is given up before its end, and then nothing is known of it.
-/

import Scriptling.Fault

namespace Scriptling

inductive Outcome (σ α : Type) where
  /-- The run ended with a value. -/
  | done (value : α) (state : σ)
  /-- The run stopped at a fault. -/
  | fault (fault : Fault) (state : σ)
  /-- The run was given up. -/
  | unfinished

def Run (σ α : Type) : Type := σ → Outcome σ α

namespace Run

variable {σ α β : Type}

instance : Monad (Run σ) where
  pure a := fun s => .done a s
  bind run f := fun s =>
    match run s with
    | .done a s => f a s
    | .fault e s => .fault e s
    | .unfinished => .unfinished

@[simp] theorem pure_apply (a : α) (s : σ) : (pure a : Run σ α) s = .done a s := rfl

@[simp] theorem bind_apply (run : Run σ α) (f : α → Run σ β) (s : σ) :
    (run >>= f) s =
      match run s with
      | .done a s => f a s
      | .fault e s => .fault e s
      | .unfinished => .unfinished := rfl

instance : LawfulMonad (Run σ) :=
  LawfulMonad.mk' (Run σ)
    (fun run => by
      funext s
      change (match run s with | .done a s => .done a s | .fault e s => .fault e s | .unfinished => .unfinished) = run s
      cases run s <;> rfl)
    (fun _ _ => rfl)
    (fun run f g => by
      funext s
      simp only [bind_apply]
      cases run s <;> rfl)

def raise (fault : Fault) : Run σ α := fun s => .fault fault s

def giveUp : Run σ α := fun _ => .unfinished

def ofExcept : Except Fault α → Run σ α
  | .ok a => pure a
  | .error e => raise e

@[simp] theorem ofExcept_ok (a : α) (s : σ) : (ofExcept (.ok a) : Run σ α) s = .done a s := rfl

@[simp] theorem ofExcept_error (e : Fault) (s : σ) : (ofExcept (.error e) : Run σ α) s = .fault e s := rfl

@[simp] theorem ofExcept_ok_bind (a : α) (f : α → Run σ β) : ofExcept (.ok a) >>= f = f a := rfl

@[simp] theorem ofExcept_error_bind (e : Fault) (f : α → Run σ β) :
    ofExcept (.error e) >>= f = ofExcept (.error e) := rfl

/-- Runs to its value or its fault, and goes on with either. -/
def attempt (run : Run σ α) : Run σ (Except Fault α) := fun s =>
  match run s with
  | .done a s => .done (.ok a) s
  | .fault e s => .done (.error e) s
  | .unfinished => .unfinished

/-- Repeats `body` as long as `test` holds, at most `rounds` times. -/
def repeatWhile (test : Run σ Bool) (body : Run σ α) : Nat → Run σ Unit
  | 0 => giveUp
  | rounds + 1 => do
    if ← test then
      let _ ← body
      repeatWhile test body rounds
    else pure ()

end Run

end Scriptling
