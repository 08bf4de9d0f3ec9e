import Adequacy.Span

namespace Adequacy

/-- How much a diagnostic matters. -/
inductive Severity where
  /- Work goes on with less. -/
  | warning
  /- The tool itself is at fault. -/
  | error
  deriving DecidableEq, Repr

def Severity.display : Severity → String
  | warning => "warning"
  | error => "error"

/-- What a diagnostic is about. -/
inductive DiagnosticCode where
  /- The instrumented program could not be turned into something to call. -/
  | unrunnableProgram
  /- An executor reported a probe that no target has. -/
  | unknownProbe
  /- A mutation could not be made, or was not taken back. -/
  | invariantViolation
  /- A mutated program is no program. -/
  | invalidMutant
  /- An executor could not carry out an invocation. -/
  | executorFailure
  deriving DecidableEq, Repr

namespace DiagnosticCode

def severity : DiagnosticCode → Severity
  | invariantViolation => .error
  | _ => .warning

def display : DiagnosticCode → String
  | unrunnableProgram => "unrunnable-program"
  | unknownProbe => "unknown-probe"
  | invariantViolation => "invariant-violation"
  | invalidMutant => "invalid-mutant"
  | executorFailure => "executor-failure"

end DiagnosticCode

/-- A remark that does not stop the work. -/
structure Diagnostic where
  code : DiagnosticCode
  message : String
  span : Option Span := none
  deriving DecidableEq, Repr

namespace Diagnostic

def severity (d : Diagnostic) : Severity := d.code.severity

def display (d : Diagnostic) : String :=
  let place := match d.span with
    | some s => s!" (at {s.start}..{s.stop})"
    | none => ""
  s!"{d.severity.display}[{d.code.display}]: {d.message}" ++ place

end Diagnostic

end Adequacy
