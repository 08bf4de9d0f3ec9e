import Adequacy.NodeReply

namespace Adequacy

/-- What a process does: it prints texts, each with a line feed behind it, and then waits or ends
with a code and an error output. -/
structure ProcessStep where
  texts : List String := []
  exit? : Option (Nat × String) := none
  deriving DecidableEq, Repr, Inhabited

/-- A process, told by what it does when it has been given the request lines so far. There are none
when it starts. -/
abbrev NodeProcess := List String → ProcessStep

/-- A text at its line feeds. A carriage return before a line feed belongs to it. -/
def splitLines (text : String) : List String :=
  let strip (line : List Char) : List Char := if line.getLast? = some '\r' then line.dropLast else line
  let rec split (line : List Char) : List Char → List (List Char)
    | [] => [line.reverse]
    | c :: cs => if c = '\n' then line.reverse :: split [] cs else split (c :: line) cs
  (split [] text.toList).map fun line => String.ofList (strip line)

namespace ProcessStep

def print (texts : List String) : ProcessStep := { texts }

def exit (code : Nat) (stderr : String) : ProcessStep := { exit? := some (code, stderr) }

def lines (s : ProcessStep) : List String := s.texts.flatMap splitLines

end ProcessStep

/-- A process that has said it is ready, as seen by the one who sends it requests. -/
structure NodeWorker where
  process : NodeProcess
  /- The lines of the requests that were made. -/
  requests : List String := []
  /- The printed lines that no request has read. -/
  unread : List String
  /- The code and the error output that the process ended with. -/
  exit : Option (Nat × String) := none
  /- Whether its end has been noticed. -/
  isClosed : Bool := false

namespace NodeWorker

/-- Whether the first line of a process says that it is ready. -/
def checkReady (line : String) : Except NodeError Unit :=
  let reader : JsonReader Bool :=
    JsonReader.record "struct NodeReady" ["ready"] false (fun _ _ => JsonReader.bool) false
  match JsonReader.readAll reader line with
  | .error e => .error (.parseError ("invalid ready response: " ++ e.message line))
  | .ok true => .ok ()
  | .ok false => .error (.protocolError ("unexpected node ready response: " ++ line))

/-- Starts a process and waits until it is ready. -/
def spawn (process : NodeProcess) : Except NodeError NodeWorker :=
  let step := process []
  match step.lines, step.exit? with
  | [], some (code, stderr) => .error (.processFailed code stderr)
  | [], none => .error .silent
  | line :: unread, exit => do
    checkReady line
    return { process, unread, exit }

/-- The number of the next request. Requests are numbered from 1. -/
def nextId (w : NodeWorker) : Nat := w.requests.length + 1

/-- Gives a request line to the process, which takes it up unless it has ended. -/
def send (w : NodeWorker) (line : String) : NodeWorker :=
  let requests := w.requests ++ [line]
  if w.exit.isSome then { w with requests }
  else
    let step := w.process requests
    { w with requests, unread := w.unread ++ step.lines, exit := step.exit? }

/-- Reads lines until one decides the request with number `id`. -/
def receive (w : NodeWorker) (id : Nat) : Except NodeError NodeReply × NodeWorker :=
  match NodeReply.await id w.unread with
  | some (outcome, unread) => (outcome, { w with unread })
  | none =>
    let w := { w with unread := [] }
    match w.exit with
    | some (code, stderr) => (.error (.processFailed code stderr), { w with isClosed := true })
    | none => (.error .silent, w)

/-- Makes a request and waits for its reply. The members of the request are behind its kind and
its number. -/
def request (w : NodeWorker) (kind : String) (member : String × Json) :
    Except NodeError NodeReply × NodeWorker :=
  let id := w.nextId
  let sent := w.send (Json.object [("kind", .string kind), ("id", .nat id), member]).compact
  if w.isClosed then
    (.error (.protocolError "failed to write to node stdin: Broken pipe (os error 32)"), sent)
  else sent.receive id

theorem requests_send (w : NodeWorker) (line : String) :
    (w.send line).requests = w.requests ++ [line] := by
  unfold send
  split <;> rfl

theorem requests_receive (w : NodeWorker) (id : Nat) : (w.receive id).2.requests = w.requests := by
  unfold receive
  split
  next => rfl
  next =>
    dsimp only
    split <;> rfl

/-- Every request takes one number, whatever comes of it. -/
theorem nextId_request (w : NodeWorker) (kind : String) (member : String × Json) :
    (w.request kind member).2.nextId = w.nextId + 1 := by
  unfold request
  split
  next => simp [nextId, requests_send]
  next => simp [nextId, requests_receive, requests_send]

/-- Starts a process and has it compile a program. -/
def compile (process : NodeProcess) (program : String) : Except NodeError NodeWorker := do
  let (outcome, w) := (← spawn process).request "compile" ("program", .string program)
  match (← outcome).notRunnable with
  | some m => .error (.notRunnable m)
  | none => return w

/-- Calls the compiled program with the given arguments. -/
def invoke (w : NodeWorker) (arguments : List Json) : Except NodeError Invocation × NodeWorker :=
  let (outcome, w) := w.request "invoke" ("args", .array arguments)
  (outcome.map (·.invocation), w)

instance : Executable NodeWorker where
  invoke arguments w :=
    let (outcome, w) := w.invoke arguments
    (outcome.mapError NodeError.toExecutionError, w)

end NodeWorker

end Adequacy
