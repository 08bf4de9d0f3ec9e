import Adequacy.Execution
import Adequacy.JsonField

namespace Adequacy

/-- What can go wrong with the `node` program. -/
inductive NodeError where
  | spawnFailed (reason : String)
  | processFailed (code : Nat) (stderr : String)
  /- There is nothing at the path that was asked for. -/
  | notFound (path : String)
  /- No path was asked for, and none was found. -/
  | notInstalled
  | scriptFailed (reason : String)
  | notRunnable (message : String)
  | protocolError (message : String)
  | parseError (message : String)
  /- The process waits for another request, and would be waited for without end. -/
  | silent
  deriving DecidableEq, Repr

namespace NodeError

def message : NodeError → String
  | spawnFailed reason => "failed to spawn node: " ++ reason
  | processFailed code stderr => s!"node exited with code {code}: {stderr}"
  | notFound path => "node binary not found at: " ++ path
  | notInstalled => "node binary not found; install Node.js or set NODE_BINARY"
  | scriptFailed reason => "failed to prepare harness script: " ++ reason
  | notRunnable m => m
  | protocolError m => "node runner protocol error: " ++ m
  | parseError m => "failed to parse node response: " ++ m
  | silent => "node gave no reply"

/-- Only a program that is not callable is the fault of the program. -/
def toExecutionError : NodeError → ExecutionError
  | notRunnable m => .notRunnable m
  | e => .transport e.message

end NodeError

/-- What the process answers to a request. -/
structure NodeReply where
  /- The number of the request, if the process could tell. -/
  id : Option Nat
  error : Option String
  notRunnable : Option String
  invocation : Invocation
  deriving DecidableEq, Repr

namespace NodeReply

def itemIds : Json → Except JsonMismatch (List Nat) := Json.asList (Json.asNatural 32 "u32")

/-- Reads a reply from an object. What is absent is empty. -/
def ofJson (v : Json) : Except JsonMismatch NodeReply := do
  let error ← v.fieldD "error" none (Json.asOption Json.asString)
  let id ← v.fieldD "id" none (Json.asOption (Json.asNatural 64 "u64"))
  let notRunnable ← v.fieldD "notRunnable" none (Json.asOption Json.asString)
  let func ← v.fieldD "func" [] itemIds
  let stmt ← v.fieldD "stmt" [] itemIds
  let branch ← v.fieldD "branch" [] itemIds
  let threw ← v.fieldD "threw" none (Json.asOption Json.asString)
  return { id, error, notRunnable, invocation := { func, stmt, branch, threw } }

/-- The object that a printed line holds, if it has an id. Any other line is program output. -/
def object? (line : String) : Option Json :=
  match Json.parse line with
  | .ok v => (v.member? "id").map fun _ => v
  | .error _ => none

/-- What a printed line says about the request with number `expected`: nothing, or how that ends. -/
def decide? (expected : Nat) (line : String) : Option (Except NodeError NodeReply) :=
  (object? line).bind fun v =>
    match ofJson v with
    | .error e => some (.error (.parseError s!"invalid response: {e.message} ({line})"))
    | .ok reply =>
      let outcome : Except NodeError NodeReply :=
        match reply.error, reply.id with
        | some m, _ => .error (.protocolError m)
        | none, none => .error (.protocolError ("missing response id: " ++ line))
        | none, some _ => .ok reply
      match reply.id with
      | none => some outcome
      | some id =>
        if id < expected then none
        else if expected < id then
          some (.error (.protocolError s!"unexpected response id {id}, expected {expected}"))
        else some outcome

/-- Reads lines up to the one that decides a request, and returns those behind it. -/
def await (expected : Nat) : List String → Option (Except NodeError NodeReply × List String)
  | [] => none
  | line :: later =>
    match decide? expected line with
    | some outcome => some (outcome, later)
    | none => await expected later

/-- Lines that say nothing about a request do not change what comes of it. -/
theorem await_append_of_silent {expected : Nat} {silent later : List String}
    (h : ∀ line ∈ silent, decide? expected line = none) :
    await expected (silent ++ later) = await expected later := by
  induction silent with
  | nil => rfl
  | cons line silent ih =>
    have hline := h line List.mem_cons_self
    have hrest := ih fun l hl => h l (List.mem_cons_of_mem line hl)
    simpa [await, hline] using hrest

/-- The first line that decides a request does, and the lines behind it are left as they are. -/
theorem exists_of_await {expected : Nat} {lines later : List String}
    {outcome : Except NodeError NodeReply} (h : await expected lines = some (outcome, later)) :
    ∃ silent line, lines = silent ++ line :: later ∧ decide? expected line = some outcome ∧
      ∀ l ∈ silent, decide? expected l = none := by
  induction lines with
  | nil => simp [await] at h
  | cons line lines ih =>
    unfold await at h
    split at h
    next o ho =>
      obtain ⟨rfl, rfl⟩ := Prod.mk.inj (Option.some.inj h)
      exact ⟨[], line, rfl, ho, by simp⟩
    next hline =>
      obtain ⟨silent, deciding, hlines, hd, hsilent⟩ := ih h
      exact ⟨line :: silent, deciding, by simp [hlines], hd,
        List.forall_mem_cons.mpr ⟨hline, hsilent⟩⟩

end NodeReply

end Adequacy
