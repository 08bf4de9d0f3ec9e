import Adequacy.Json

namespace Adequacy

/-- The ids that one invocation reported, and the message of the exception that ended it, if any. -/
structure Invocation where
  func : List Nat := []
  stmt : List Nat := []
  branch : List Nat := []
  threw : Option String := none
  deriving DecidableEq, Repr, Inhabited

/-- Why a program could not be compiled or called. -/
inductive ExecutionError where
  /- The program is nothing that can be called. -/
  | notRunnable (message : String)
  /- Whatever runs the program could not be reached, or its answer made no sense. -/
  | transport (message : String)
  deriving DecidableEq, Repr

def ExecutionError.message : ExecutionError → String
  | notRunnable m => "program is not runnable: " ++ m
  | transport m => "executor transport failed: " ++ m

/-- What a compiled program is called through. A call may change what later calls answer. An
exception that the program throws is no error but part of the invocation. -/
class Executable (σ : Type) where
  invoke : List Json → σ → Except ExecutionError Invocation × σ

end Adequacy
