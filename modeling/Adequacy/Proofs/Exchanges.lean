import Adequacy.NodeWorker
import Mathlib

namespace Adequacy

/-- What ends without an error did its first step without one, and goes on from what that gave. -/
theorem bind_eq_ok_iff {α β ε : Type} {x : Except ε α} {f : α → Except ε β} {b : β} :
    (x >>= f) = .ok b ↔ ∃ a, x = .ok a ∧ f a = .ok b := by
  cases x <;> simp [bind, Except.bind]

namespace Json

variable {v : Json} {name : String}

/-- The member of that name is the list of these numbers. If it is absent there are none. -/
def Lists (v : Json) (name : String) (numbers : List Nat) : Prop :=
  v.member? name = some (.array (numbers.map .nat)) ∨ v.member? name = none ∧ numbers = []

/-- The member of that name is this text. If there is none the member is absent or null. -/
def Tells (v : Json) (name : String) : Option String → Prop
  | some text => v.member? name = some (.string text)
  | none => v.member? name = none ∨ v.member? name = some .null

theorem asNatural_eq_ok {bits n : Nat} {expected : String} (h : v.asNatural bits expected = .ok n) :
    v = .nat n := by
  unfold asNatural at h
  split at h
  next i =>
    split at h
    next hi =>
      cases h
      rw [nat, Int.toNat_of_nonneg hi.1]
    next => cases h
  next => cases h

theorem asNatural_nat {bits n : Nat} {expected : String} (h : n < Nat.pow 2 bits) :
    (nat n).asNatural bits expected = .ok n := by
  rw [nat, asNatural, if_pos ⟨Int.natCast_nonneg n, h⟩, Int.toNat_natCast]

theorem mapM_asNatural_eq_ok {bits : Nat} {expected : String} {items : List Json}
    {numbers : List Nat} (h : items.mapM (asNatural bits expected) = .ok numbers) :
    items = numbers.map .nat := by
  induction items generalizing numbers with
  | nil =>
    cases h
    rfl
  | cons item items ih =>
    rw [List.mapM_cons] at h
    obtain ⟨n, hitem, h⟩ := bind_eq_ok_iff.mp h
    obtain ⟨later, hitems, h⟩ := bind_eq_ok_iff.mp h
    cases h
    rw [List.map_cons, ← ih hitems, ← asNatural_eq_ok hitem]

theorem lists_of_fieldD {numbers : List Nat}
    (h : v.fieldD name [] NodeReply.itemIds = .ok numbers) : v.Lists name numbers := by
  unfold fieldD at h
  split at h
  next m hm =>
    cases m with
    | array items => exact .inl (hm.trans (congrArg _ (congrArg _ (mapM_asNatural_eq_ok h))))
    | _ => cases h
  next hm =>
    cases h
    exact .inr ⟨hm, rfl⟩

theorem tells_of_fieldD {text : Option String}
    (h : v.fieldD name none (asOption asString) = .ok text) : v.Tells name text := by
  unfold fieldD at h
  split at h
  next m hm =>
    cases m with
    | null =>
      cases h
      exact .inr hm
    | string s =>
      cases h
      exact hm
    | _ => cases h
  next hm =>
    cases h
    exact .inl hm

theorem member?_of_fieldD {bits n : Nat} {expected : String}
    (h : v.fieldD name none (asOption (asNatural bits expected)) = .ok (some n)) :
    v.member? name = some (.nat n) := by
  unfold fieldD at h
  split at h
  next m hm =>
    cases hn : m.asNatural bits expected with
    | ok k =>
      obtain rfl := asNatural_eq_ok hn
      rw [asOption, hn] at h
      · cases h
        exact hm
      · exact Json.noConfusion
    | error e =>
      cases m with
      | null => cases h
      | _ => simp [asOption, hn, Except.map] at h
  next => cases h

/-- An object that answers the request of that number. What it leaves out is empty in the reply. -/
structure Answers (v : Json) (id : Nat) (reply : NodeReply) : Prop where
  isObject : ∃ members, v = .object members
  id_eq : v.member? "id" = some (.nat id)
  func : v.Lists "func" reply.invocation.func
  stmt : v.Lists "stmt" reply.invocation.stmt
  branch : v.Lists "branch" reply.invocation.branch
  threw : v.Tells "threw" reply.invocation.threw
  notRunnable : v.Tells "notRunnable" reply.notRunnable
  noError : v.Tells "error" none

theorem exists_eq_object {m : Json} (h : v.member? name = some m) :
    ∃ members, v = .object members := by
  cases v with
  | object members => exact ⟨members, rfl⟩
  | _ => cases h

end Json

namespace NodeReply

theorem answers_of_ofJson {v : Json} {reply : NodeReply} {id : Nat} (h : ofJson v = .ok reply)
    (hid : reply.id = some id) (herror : reply.error = none) : v.Answers id reply := by
  simp only [ofJson, bind_eq_ok_iff] at h
  obtain ⟨error, he, number, hn, notRunnable, hr, func, hf, stmt, hs, branch, hb, threw, ht, h⟩ := h
  cases h
  obtain rfl : number = some id := hid
  obtain rfl : error = none := herror
  have hnumber := Json.member?_of_fieldD hn
  exact ⟨Json.exists_eq_object hnumber, hnumber, Json.lists_of_fieldD hf, Json.lists_of_fieldD hs,
    Json.lists_of_fieldD hb, Json.tells_of_fieldD ht, Json.tells_of_fieldD hr,
    Json.tells_of_fieldD he⟩

theorem id_of_ofJson {v : Json} {reply : NodeReply} {id : Nat} (h : ofJson v = .ok reply)
    (hid : v.member? "id" = some (.nat id)) : reply.id = some id := by
  simp only [ofJson, bind_eq_ok_iff] at h
  obtain ⟨_, -, number, hn, _, -, _, -, _, -, _, -, _, -, h⟩ := h
  cases h
  simp only [Json.fieldD, hid, Json.nat, Json.asOption, Json.asNatural] at hn
  split at hn
  next =>
    cases hn
    rfl
  next => cases hn

theorem decide?_eq_ok_iff {id : Nat} {line : String} {reply : NodeReply} :
    decide? id line = some (.ok reply) ↔
      ∃ v, object? line = some v ∧ ofJson v = .ok reply ∧ reply.id = some id ∧
        reply.error = none := by
  rw [decide?, Option.bind_eq_some_iff]
  refine exists_congr fun v => and_congr_right fun _ => ?_
  grind

theorem object?_of_parse {line : String} {v m : Json} (hv : Json.parse line = .ok v)
    (hm : v.member? "id" = some m) : object? line = some v := by
  simp only [object?, hv, hm, Option.map_some]

theorem decide?_eq {line : String} {v : Json} {id : Nat} {reply : NodeReply}
    (hv : object? line = some v) (hread : ofJson v = .ok reply) (hid : reply.id = some id)
    (expected : Nat) : decide? expected line =
      if id < expected then none
      else if expected < id then
        some (.error (.protocolError s!"unexpected response id {id}, expected {expected}"))
      else some (reply.error.elim (.ok reply) fun m => .error (.protocolError m)) := by
  rw [decide?, hv, Option.bind_some, hread]
  simp only [hid]
  cases reply.error <;> rfl

theorem parse_of_object? {line : String} {v : Json} (h : object? line = some v) :
    Json.parse line = .ok v := by
  unfold object? at h
  split at h
  next u hu =>
    obtain ⟨-, -, rfl⟩ := Option.map_eq_some_iff.mp h
    exact hu
  next => cases h

theorem answers_of_decide? {id : Nat} {line : String} {reply : NodeReply}
    (h : decide? id line = some (.ok reply)) :
    ∃ v, Json.parse line = .ok v ∧ v.Answers id reply := by
  obtain ⟨v, hv, hread, hid, herror⟩ := decide?_eq_ok_iff.mp h
  exact ⟨v, parse_of_object? hv, answers_of_ofJson hread hid herror⟩

/-- A line that is passed over does not hold the number of the request. -/
theorem member?_ne_of_decide? {id : Nat} {line : String} (h : decide? id line = none) {v : Json}
    (hv : Json.parse line = .ok v) : v.member? "id" ≠ some (.nat id) := by
  intro hid
  have hobject := object?_of_parse hv hid
  cases hread : ofJson v with
  | error e => simp [decide?, hobject, hread] at h
  | ok reply => simp [decide?_eq hobject hread (id_of_ofJson hread hid)] at h

end NodeReply

/-- The steps of a process up to the one that ends it. -/
def ProcessStep.untilEnd : List ProcessStep → List ProcessStep
  | [] => []
  | s :: later => s :: if s.exit?.isSome then [] else untilEnd later

namespace NodeProcess

/-- What a process does while it is given some requests one after the other. -/
def steps (process : NodeProcess) (requests : List String) : List ProcessStep :=
  ProcessStep.untilEnd (requests.inits.map process)

def printed (process : NodeProcess) (requests : List String) : List String :=
  (steps process requests).flatMap (·.lines)

def hasEnded (process : NodeProcess) (requests : List String) : Bool :=
  (steps process requests).any (·.exit?.isSome)

end NodeProcess

theorem ProcessStep.untilEnd_append (steps : List ProcessStep) (s : ProcessStep) :
    untilEnd (steps ++ [s]) =
      untilEnd steps ++ if (untilEnd steps).any (·.exit?.isSome) then [] else [s] := by
  induction steps with
  | nil => cases h : s.exit?.isSome <;> simp [untilEnd, h]
  | cons first later ih => cases h : first.exit?.isSome <;> simp [untilEnd, h, ih]

namespace NodeProcess

variable (process : NodeProcess) (requests : List String) (line : String)

theorem steps_append : steps process (requests ++ [line]) = steps process requests ++
    if hasEnded process requests then [] else [process (requests ++ [line])] := by
  rw [steps, List.inits_append]
  simp [ProcessStep.untilEnd_append, hasEnded, steps]

theorem printed_append : printed process (requests ++ [line]) = printed process requests ++
    if hasEnded process requests then [] else (process (requests ++ [line])).lines := by
  rw [printed, steps_append]
  split <;> simp [printed]

theorem hasEnded_append : hasEnded process (requests ++ [line]) =
    (hasEnded process requests || (process (requests ++ [line])).exit?.isSome) := by
  rw [hasEnded, steps_append]
  cases h : hasEnded process requests <;> simp_all [hasEnded]

end NodeProcess

/-- A request by its number, the lines that it read and what came of it. -/
structure Exchange where
  id : Nat
  read : List String
  outcome : Except NodeError NodeReply

/-- A reply is what the last line that was read answers to this very request, and no line in front
of that one holds the number of the request. -/
def Exchange.IsCredited (e : Exchange) : Prop :=
  ∀ reply, e.outcome = .ok reply → ∃ silent line v, e.read = silent ++ [line] ∧
    Json.parse line = .ok v ∧ v.Answers e.id reply ∧
    ∀ l ∈ silent, ∀ u, Json.parse l = .ok u → u.member? "id" ≠ some (.nat e.id)

namespace NodeWorker

/-- Whether there is and will be nothing to read. -/
def IsSpent (w : NodeWorker) : Prop := w.exit.isSome = true ∧ w.unread = []

/-- The exchanges that led to a worker. The lines they read follow each other in the output of the
process, behind the one that says it is ready and in front of those that are left to read. -/
structure Transcript (process : NodeProcess) (ready : String) (exchanges : List Exchange)
    (w : NodeWorker) : Prop where
  process_eq : w.process = process
  printed_eq : NodeProcess.printed process w.requests =
    ready :: exchanges.flatMap (·.read) ++ w.unread
  ids_eq : exchanges.map (·.id) = List.range' 1 w.requests.length
  credited : ∀ e ∈ exchanges, e.IsCredited
  exit_eq : w.exit.isSome = NodeProcess.hasEnded process w.requests
  spent : w.isClosed = true → w.IsSpent

/-- A wait for a reply ends at the first line that decides the request, and without such a line it
ends with an error when nothing is left to read. -/
theorem receive_cases (w : NodeWorker) (id : Nat) :
    (∃ silent line later outcome, w.unread = silent ++ line :: later ∧
      NodeReply.decide? id line = some outcome ∧ (∀ l ∈ silent, NodeReply.decide? id l = none) ∧
      w.receive id = (outcome, { w with unread := later })) ∨
    ∃ e, w.receive id =
      (.error e, { w with unread := [], isClosed := w.isClosed || w.exit.isSome }) := by
  unfold receive
  split
  next outcome later h =>
    obtain ⟨silent, line, hlines, hd, hsilent⟩ := NodeReply.exists_of_await h
    exact .inl ⟨silent, line, later, outcome, hlines, hd, hsilent, rfl⟩
  next =>
    refine .inr ?_
    cases hexit : w.exit with
    | none => exact ⟨.silent, by simp⟩
    | some ended => exact ⟨.processFailed ended.1 ended.2, by simp⟩

theorem process_send (w : NodeWorker) (line : String) : (w.send line).process = w.process := by
  unfold send
  split <;> rfl

theorem isClosed_send (w : NodeWorker) (line : String) : (w.send line).isClosed = w.isClosed := by
  unfold send
  split <;> rfl

/-- A process that has ended takes up no request. -/
theorem send_of_isSome {w : NodeWorker} (h : w.exit.isSome = true) (line : String) :
    w.send line = { w with requests := w.requests ++ [line] } := by
  rw [send, if_pos h]

namespace Transcript

variable {process : NodeProcess} {ready : String} {exchanges : List Exchange} {w : NodeWorker}

theorem printed_send (h : Transcript process ready exchanges w) (line : String) :
    NodeProcess.printed process (w.send line).requests =
      ready :: exchanges.flatMap (·.read) ++ (w.send line).unread := by
  rw [requests_send, NodeProcess.printed_append, h.printed_eq, ← h.exit_eq, ← h.process_eq, send]
  split <;> simp

theorem exit_send (h : Transcript process ready exchanges w) (line : String) :
    (w.send line).exit.isSome = NodeProcess.hasEnded process (w.send line).requests := by
  rw [requests_send, NodeProcess.hasEnded_append, ← h.exit_eq, ← h.process_eq, send]
  split <;> simp_all

theorem settle (h : Transcript process ready exchanges w) {line : String} {read : List String}
    {outcome : Except NodeError NodeReply} {settled : NodeWorker}
    (hsent : settled = { w.send line with unread := settled.unread, isClosed := settled.isClosed })
    (hread : (w.send line).unread = read ++ settled.unread)
    (hcredited : Exchange.IsCredited ⟨w.nextId, read, outcome⟩)
    (hspent : settled.isClosed = true → settled.IsSpent) :
    Transcript process ready (exchanges ++ [⟨w.nextId, read, outcome⟩]) settled where
  process_eq := by rw [hsent, ← h.process_eq, ← process_send w line]
  printed_eq := by
    have hprinted := h.printed_send line
    rw [hread] at hprinted
    rw [hsent]
    simpa using hprinted
  ids_eq := by
    rw [hsent, requests_send, List.map_append, h.ids_eq, List.length_append,
      List.length_singleton, List.range'_1_concat, Nat.add_comm]
    rfl
  credited e he := (List.mem_append.mp he).elim (h.credited e)
    fun he => List.mem_singleton.mp he ▸ hcredited
  exit_eq := by rw [hsent, h.exit_send line]
  spent := hspent

/-- A request adds one exchange. -/
theorem request (h : Transcript process ready exchanges w) (kind : String)
    (member : String × Json) : ∃ read, Transcript process ready
      (exchanges ++ [⟨w.nextId, read, (w.request kind member).1⟩]) (w.request kind member).2 := by
  unfold NodeWorker.request
  dsimp only
  generalize (Json.object _).compact = line
  split
  next hclosed =>
    -- The line is still sent, but a process that has ended prints nothing for it.
    obtain ⟨hexit, hunread⟩ := h.spent hclosed
    refine ⟨[], h.settle rfl rfl (fun _ hreply => nomatch hreply) fun _ => ?_⟩
    rw [send_of_isSome hexit]
    exact ⟨hexit, hunread⟩
  next hopen =>
    -- What is read goes on from what the requests in front left: no lines are dropped in between.
    rw [Bool.not_eq_true, ← isClosed_send w line] at hopen
    obtain ⟨silent, deciding, later, outcome, hlines, hd, hsilent, hreceive⟩ | ⟨e, hreceive⟩ :=
      (w.send line).receive_cases w.nextId
    · rw [hreceive]
      refine ⟨silent ++ [deciding], h.settle rfl (by simp [hlines]) ?_ ?_⟩
      · rintro reply rfl
        obtain ⟨v, hv, hanswers⟩ := NodeReply.answers_of_decide? hd
        exact ⟨silent, deciding, v, rfl, hv, hanswers, fun l hl u hu =>
          NodeReply.member?_ne_of_decide? (hsilent l hl) hu⟩
      · intro hclosed
        rw [hopen] at hclosed
        cases hclosed
    · rw [hreceive]
      refine ⟨(w.send line).unread, h.settle rfl (List.append_nil _).symm
        (fun _ hreply => nomatch hreply) fun hclosed => ⟨?_, rfl⟩⟩
      simpa [hopen] using hclosed

end Transcript

def invokeAll (w : NodeWorker) : List (List Json) → List (Except NodeError Invocation) × NodeWorker
  | [] => ([], w)
  | arguments :: later =>
    let (outcome, w) := w.invoke arguments
    let (outcomes, w) := w.invokeAll later
    (outcome :: outcomes, w)

theorem invokeAll_append (w : NodeWorker) (inputs later : List (List Json)) :
    w.invokeAll (inputs ++ later) = ((w.invokeAll inputs).1 ++
      ((w.invokeAll inputs).2.invokeAll later).1, ((w.invokeAll inputs).2.invokeAll later).2) := by
  induction inputs generalizing w with
  | nil => rfl
  | cons arguments inputs ih => simp [invokeAll, ih]

theorem length_invokeAll (w : NodeWorker) (inputs : List (List Json)) :
    (w.invokeAll inputs).1.length = inputs.length := by
  induction inputs generalizing w with
  | nil => rfl
  | cons arguments inputs ih => simp [invokeAll, ih]

def requestLine (kind : String) (id : Nat) (member : String × Json) : String :=
  (Json.object [("kind", .string kind), ("id", .nat id), member]).compact

theorem requests_request (w : NodeWorker) (kind : String) (member : String × Json) :
    (w.request kind member).2.requests = w.requests ++ [requestLine kind w.nextId member] := by
  unfold request
  split
  next => exact requests_send w _
  next => exact (requests_receive _ _).trans (requests_send w _)

theorem requests_invokeAll (w : NodeWorker) (inputs : List (List Json)) :
    (w.invokeAll inputs).2.requests = w.requests ++ (inputs.zipIdx w.nextId).map
      fun (arguments, id) => requestLine "invoke" id ("args", .array arguments) := by
  induction inputs generalizing w with
  | nil => simp [invokeAll]
  | cons arguments inputs ih =>
    have hnext : (w.invoke arguments).2.nextId = w.nextId + 1 := nextId_request w _ _
    have hrequests : (w.invoke arguments).2.requests = _ := requests_request w _ _
    simp [invokeAll, ih, hnext, hrequests]

theorem IsSpent.invoke {w : NodeWorker} (h : w.IsSpent) (arguments : List Json) :
    (∃ e, (w.invoke arguments).1 = .error e) ∧ (w.invoke arguments).2.IsSpent := by
  obtain ⟨hexit, hunread⟩ := h
  rw [NodeWorker.invoke, request]
  dsimp only
  generalize (Json.object _).compact = line
  rw [send_of_isSome hexit]
  split
  next => exact ⟨⟨_, rfl⟩, hexit, hunread⟩
  next =>
    obtain ⟨ended, hended⟩ := Option.isSome_iff_exists.mp hexit
    simp [receive, NodeReply.await, hunread, hended, IsSpent, Except.map]

theorem IsSpent.invokeAll {w : NodeWorker} (h : w.IsSpent) (inputs : List (List Json)) :
    ∀ outcome ∈ (w.invokeAll inputs).1, ∃ e, outcome = .error e := by
  induction inputs generalizing w with
  | nil => simp [NodeWorker.invokeAll]
  | cons arguments inputs ih =>
    obtain ⟨hfails, hspent⟩ := h.invoke arguments
    exact List.forall_mem_cons.mpr ⟨hfails, ih hspent⟩

/-- Once a worker has nothing to read all calls fail. -/
theorem fails_of_isSpent {w : NodeWorker} {inputs : List (List Json)} {k : Nat}
    (h : (w.invokeAll (inputs.take k)).2.IsSpent) :
    ∀ outcome ∈ (w.invokeAll inputs).1.drop k, ∃ e, outcome = .error e := by
  have hsplit := w.invokeAll_append (inputs.take k) (inputs.drop k)
  have hfirst : (w.invokeAll (inputs.take k)).1.length ≤ k := by
    rw [length_invokeAll]
    exact List.length_take_le k inputs
  rw [List.take_append_drop] at hsplit
  rw [hsplit, List.drop_append, List.drop_of_length_le hfirst, List.nil_append]
  exact fun outcome ho => h.invokeAll _ outcome (List.mem_of_mem_drop ho)

/-- Calls add one exchange each, at every point of the run. -/
theorem Transcript.invokeAll {process : NodeProcess} {ready : String} {exchanges : List Exchange}
    {w : NodeWorker} (h : Transcript process ready exchanges w) (inputs : List (List Json)) :
    ∃ calls : List Exchange,
      calls.map (·.outcome.map (·.invocation)) = (w.invokeAll inputs).1 ∧
      ∀ k, Transcript process ready (exchanges ++ calls.take k)
        (w.invokeAll (inputs.take k)).2 := by
  induction inputs generalizing exchanges w with
  | nil => exact ⟨[], rfl, by simpa [NodeWorker.invokeAll] using h⟩
  | cons arguments inputs ih =>
    obtain ⟨read, hfirst⟩ := h.request "invoke" ("args", .array arguments)
    obtain ⟨calls, houtcomes, hcalls⟩ := ih hfirst
    refine ⟨⟨w.nextId, read, (w.request "invoke" ("args", .array arguments)).1⟩ :: calls,
      List.cons_eq_cons.mpr ⟨rfl, houtcomes⟩, fun k => ?_⟩
    cases k with
    | zero => simpa [NodeWorker.invokeAll] using h
    | succ k =>
      have hk := hcalls k
      rw [List.append_assoc] at hk
      exact hk

theorem transcript_of_spawn {process : NodeProcess} {started : NodeWorker}
    (h : spawn process = .ok started) :
    ∃ ready, checkReady ready = .ok () ∧ Transcript process ready [] started ∧
      started.requests = [] := by
  unfold spawn at h
  dsimp only at h
  split at h
  next => cases h
  next => cases h
  next line unread hlines =>
    obtain ⟨⟨⟩, hready, h⟩ := bind_eq_ok_iff.mp h
    cases h
    have hsteps : NodeProcess.steps process [] = [process []] := by
      simp [NodeProcess.steps, ProcessStep.untilEnd]
    refine ⟨line, hready, ⟨rfl, ?_, rfl, by simp, ?_, by simp⟩, rfl⟩
    · simp [NodeProcess.printed, hsteps, hlines]
    · simp [NodeProcess.hasEnded, hsteps]

/-- Whatever a process prints, in whatever order: the requests to it are numbered from 1, each reads
the lines behind those that the one in front of it has read, and what a request gets is what a line
answers to it and to no other request. Once there is nothing to read all later calls fail. -/
theorem requests_credited {process : NodeProcess} {started : NodeWorker}
    (h : spawn process = .ok started) (program : String) (inputs : List (List Json)) :
    let (reply, w) := started.request "compile" ("program", .string program)
    (∀ w', compile process program = .ok w' → w' = w) ∧
      (w.invokeAll inputs).2.requests = requestLine "compile" 1 ("program", .string program) ::
        (inputs.zipIdx 2).map (fun (arguments, id) =>
          requestLine "invoke" id ("args", .array arguments)) ∧
      (∃ (ready : String) (compiled : Exchange) (calls : List Exchange),
        checkReady ready = .ok () ∧ compiled.outcome = reply ∧
        calls.map (·.outcome.map (·.invocation)) = (w.invokeAll inputs).1 ∧
        ∀ k, Transcript process ready (compiled :: calls.take k)
          (w.invokeAll (inputs.take k)).2) ∧
      ∀ k, (w.invokeAll (inputs.take k)).2.IsSpent →
        ∀ outcome ∈ (w.invokeAll inputs).1.drop k, ∃ e, outcome = .error e := by
  obtain ⟨ready, hready, hstarted, hnone⟩ := transcript_of_spawn h
  obtain ⟨read, hcompiled⟩ := hstarted.request "compile" ("program", .string program)
  have hnext : started.nextId = 1 := by simp [nextId, hnone]
  dsimp only
  refine ⟨fun w' hw' => ?_, ?_, ?_, fun k hk => ?_⟩
  · rw [compile, h] at hw'
    obtain ⟨_, hs, hw'⟩ := bind_eq_ok_iff.mp hw'
    cases hs
    obtain ⟨reply, -, hw'⟩ := bind_eq_ok_iff.mp hw'
    split at hw' <;> cases hw'
    rfl
  · rw [requests_invokeAll, requests_request, nextId_request, hnext, hnone]
    rfl
  · obtain ⟨calls, houtcomes, hcalls⟩ := hcompiled.invokeAll inputs
    exact ⟨ready, _, calls, hready, rfl, houtcomes, hcalls⟩
  · exact fails_of_isSpent hk

end NodeWorker

/-- A reply that holds function ids alone. -/
def Json.ofCalled (func : List Nat) (id : Nat) : Json :=
  .object [("func", .array (func.map .nat)), ("id", .nat id)]

theorem Json.mapM_asNatural_map {bits : Nat} {expected : String} {numbers : List Nat}
    (h : ∀ n ∈ numbers, n < Nat.pow 2 bits) :
    (numbers.map nat).mapM (asNatural bits expected) = .ok numbers := by
  induction numbers with
  | nil => rfl
  | cons n later ih =>
    obtain ⟨hn, hlater⟩ := List.forall_mem_cons.mp h
    rw [List.map_cons, List.mapM_cons, asNatural_nat hn, ih hlater]
    rfl

theorem NodeReply.decide?_ofCalled {line : String} {func : List Nat} {id expected : Nat}
    (h : Json.parse line = .ok (.ofCalled func id)) (hid : id < Nat.pow 2 64)
    (hfunc : ∀ n ∈ func, n < Nat.pow 2 32) : decide? expected line =
      if id < expected then none
      else if expected < id then
        some (.error (.protocolError s!"unexpected response id {id}, expected {expected}"))
      else some (.ok ⟨some id, none, none, ⟨func, [], [], none⟩⟩) := by
  have hread : ofJson (.ofCalled func id) = .ok ⟨some id, none, none, ⟨func, [], [], none⟩⟩ := by
    simp only [ofJson, bind_eq_ok_iff]
    exact ⟨none, rfl, some id, congrArg (Except.map some) (Json.asNatural_nat hid), none, rfl,
      func, Json.mapM_asNatural_map hfunc, [], rfl, [], rfl, none, rfl, rfl⟩
  exact decide?_eq (object?_of_parse h rfl) hread rfl expected

namespace NodeWorker

/-- A process that answers its third request before its second, the second again with the third, and
ends when it has been given a fourth. -/
def unpunctual : NodeProcess := fun requests =>
  match requests.length with
  | 0 => .print ["\x7b\"ready\":true\x7d"]
  | 1 => .print ["\x7b\"func\":[],\"id\":1\x7d"]
  | 2 => .print ["\x7b\"func\":[5],\"id\":3\x7d"]
  | 3 => .print ["\x7b\"func\":[7],\"id\":2\x7d", "\x7b\"func\":[0],\"id\":3\x7d"]
  | _ => .exit 1 "gone"

theorem lines_unpunctual (requests : List String) : (unpunctual requests).lines =
    match requests.length with
    | 0 => ["\x7b\"ready\":true\x7d"]
    | 1 => ["\x7b\"func\":[],\"id\":1\x7d"]
    | 2 => ["\x7b\"func\":[5],\"id\":3\x7d"]
    | 3 => ["\x7b\"func\":[7],\"id\":2\x7d", "\x7b\"func\":[0],\"id\":3\x7d"]
    | _ => [] := by
  unfold unpunctual
  split <;> cbv

theorem exit_unpunctual (requests : List String) : (unpunctual requests).exit? =
    match requests.length with
    | 0 | 1 | 2 | 3 => none
    | _ => some (1, "gone") := by
  unfold unpunctual
  split <;> simp_all [ProcessStep.print, ProcessStep.exit]

theorem decide?_unpunctual :
    NodeReply.decide? 1 "\x7b\"func\":[],\"id\":1\x7d" = some (.ok ⟨some 1, none, none, {}⟩) ∧
      NodeReply.decide? 2 "\x7b\"func\":[5],\"id\":3\x7d" =
        some (.error (.protocolError "unexpected response id 3, expected 2")) ∧
      NodeReply.decide? 3 "\x7b\"func\":[7],\"id\":2\x7d" = none ∧
      NodeReply.decide? 3 "\x7b\"func\":[0],\"id\":3\x7d" =
        some (.ok ⟨some 3, none, none, ⟨[0], [], [], none⟩⟩) := by
  have h1 : Json.parse "\x7b\"func\":[],\"id\":1\x7d" = .ok (.ofCalled [] 1) := by cbv
  have h2 : Json.parse "\x7b\"func\":[5],\"id\":3\x7d" = .ok (.ofCalled [5] 3) := by cbv
  have h3 : Json.parse "\x7b\"func\":[7],\"id\":2\x7d" = .ok (.ofCalled [7] 2) := by cbv
  have h4 : Json.parse "\x7b\"func\":[0],\"id\":3\x7d" = .ok (.ofCalled [0] 3) := by cbv
  rw [NodeReply.decide?_ofCalled h1 (by decide) (by decide),
    NodeReply.decide?_ofCalled h2 (by decide) (by decide),
    NodeReply.decide?_ofCalled h3 (by decide) (by decide),
    NodeReply.decide?_ofCalled h4 (by decide) (by decide)]
  exact ⟨rfl, rfl, rfl, rfl⟩

theorem spawn_unpunctual : spawn unpunctual = .ok { process := unpunctual, unread := [] } := by
  have hready : checkReady "\x7b\"ready\":true\x7d" = .ok () := by cbv
  simp [spawn, lines_unpunctual, exit_unpunctual, hready]

theorem requests_credited_of_unpunctual : ∃ started, spawn unpunctual = .ok started ∧
    let w := (started.request "compile" ("program", .string "x")).2
    (w.invokeAll [[], [], []]).1 = [.error (.protocolError "unexpected response id 3, expected 2"),
        .ok ⟨[0], [], [], none⟩, .error (.processFailed 1 "gone")] ∧
      ∃ (ready : String) (compiled : Exchange) (calls : List Exchange),
        calls.map (·.outcome.map (·.invocation)) = (w.invokeAll [[], [], []]).1 ∧
        Transcript unpunctual ready (compiled :: calls) (w.invokeAll [[], [], []]).2 := by
  obtain ⟨-, -, ⟨ready, compiled, calls, -, -, houtcomes, hcalls⟩, -⟩ :=
    requests_credited spawn_unpunctual "x" [[], [], []]
  refine ⟨_, spawn_unpunctual, ?_, ready, compiled, calls, houtcomes, ?_⟩
  · obtain ⟨h1, h2, h3, h4⟩ := decide?_unpunctual
    simp [NodeWorker.invokeAll, invoke, request, send, lines_unpunctual, exit_unpunctual, nextId,
      receive, NodeReply.await, h1, h2, h3, h4, Except.map]
  · have hlength : calls.length = 3 := by
      rw [← List.length_map, houtcomes, length_invokeAll]
      rfl
    have hlast := hcalls 3
    rw [List.take_of_length_le hlength.le] at hlast
    exact hlast

end NodeWorker

end Adequacy
