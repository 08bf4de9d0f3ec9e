import Adequacy.Coverage
import Mathlib

namespace Adequacy

namespace CoverSet

variable {s : CoverSet}

theorem nodup_add (h : s.covered.Nodup) (id : Nat) : (s.add id).covered.Nodup := by
  unfold add
  split
  next hnew =>
    simp only [Bool.and_eq_true, Bool.not_eq_true', isCovered, List.contains_eq_mem,
      decide_eq_false_iff_not] at hnew
    exact h.append (List.nodup_singleton id) (by simpa using hnew.2)
  next => exact h

theorem nodup_addAll (h : s.covered.Nodup) (ids : List Nat) : (s.addAll ids).covered.Nodup := by
  induction ids generalizing s with
  | nil => exact h
  | cons id ids ih => exact ih (nodup_add h id)

/-- The set has covered the items of a target that are among some ids, each once. -/
structure Covers (t : CoverTarget) (ids : List Nat) (s : CoverSet) : Prop where
  target_eq : s.target = t
  nodup : s.covered.Nodup
  mem_iff (id : Nat) : id ∈ s.covered ↔ id ∈ t.ids ∧ id ∈ ids

theorem covers_ofTarget (t : CoverTarget) : (ofTarget t).Covers t [] :=
  ⟨rfl, List.nodup_nil, by simp [ofTarget]⟩

theorem Covers.addAll {t : CoverTarget} {ids : List Nat} (h : s.Covers t ids) (more : List Nat) :
    (s.addAll more).Covers t (ids ++ more) where
  target_eq := (target_addAll s more).trans h.target_eq
  nodup := nodup_addAll h.nodup more
  mem_iff id := by
    have hadd := isCovered_addAll s more id
    have hold := h.mem_iff id
    simp only [isCovered, isKnown, List.contains_eq_mem, h.target_eq] at hadd
    rw [← decide_eq_true_iff (p := id ∈ (s.addAll more).covered), hadd]
    simp only [Bool.or_eq_true, Bool.and_eq_true, decide_eq_true_eq, hold, List.mem_append]
    tauto

end CoverSet

/-- What is done with a coverage: its program is compiled, or called once, or once for each list of
arguments. -/
inductive CoverageStep (σ : Type) where
  | compile (compiler : String → Except ExecutionError σ)
  | runSingle (arguments : List Json)
  | run (inputs : List (List Json))

/-- One use of whatever compiles and calls the program. -/
inductive ExecutionAttempt (σ : Type) where
  | compile (compiler : String → Except ExecutionError σ)
  | call (arguments : List Json)

def CoverageStep.attempts {σ : Type} : CoverageStep σ → List (ExecutionAttempt σ)
  | compile compiler => [.compile compiler]
  | runSingle arguments => [.call arguments]
  | run inputs => inputs.map .call

inductive ExecutionEvent where
  | compiled
  | notCompiled (e : ExecutionError)
  -- There was nothing to call.
  | notCalled
  | reported (i : Invocation)
  | failed (e : ExecutionError)

namespace ExecutionEvent

def ofOutcome : Except ExecutionError Invocation → ExecutionEvent
  | .ok i => reported i
  | .error e => failed e

def report? : ExecutionEvent → Option Invocation
  | reported i => some i
  | _ => none

def reports (events : List ExecutionEvent) : List Invocation := events.filterMap report?

theorem reports_append (events : List ExecutionEvent) (e : ExecutionEvent) :
    reports (events ++ [e]) = reports events ++ e.report?.toList := by
  rw [reports, reports, List.filterMap_append]
  cases e <;> rfl

def hasReturned : ExecutionEvent → Bool
  | reported i => i.threw.isNone
  | _ => false

def hasThrown : ExecutionEvent → Bool
  | reported i => i.threw.isSome
  | _ => false

def hasFailed : ExecutionEvent → Bool
  | failed _ => true
  | _ => false

def isInvocation (e : ExecutionEvent) : Bool := e.hasReturned || e.hasThrown || e.hasFailed

def stats (events : List ExecutionEvent) : InvocationStats :=
  ⟨events.countP hasReturned, events.countP hasThrown, events.countP hasFailed⟩

/-- What is remarked on an event. `number` is the one that an invocation has among all of them. -/
def remarks (p : Program) (number : Nat) : ExecutionEvent → List Diagnostic
  | compiled => []
  | notCompiled e => [⟨.unrunnableProgram,
      "the given code is not runnable with arguments: " ++ e.message, none⟩]
  | notCalled => [⟨.unrunnableProgram, "the given code is not runnable with arguments", none⟩]
  | failed e => [⟨.executorFailure, s!"invocation {number} failed: {e.message}", none⟩]
  | reported i => [Category.func, .stmt, .branch].flatMap fun k =>
      ((i.ids k).filter (· ∉ (p.target k).ids)).map fun id =>
        ⟨.unknownProbe, s!"executor reported unknown {k.name} id {id}", none⟩

def log (p : Program) (events : List ExecutionEvent) : List Diagnostic :=
  events.zipIdx.flatMap fun (e, k) => e.remarks p ((events.take k).countP isInvocation + 1)

theorem log_append (p : Program) (events : List ExecutionEvent) (e : ExecutionEvent) :
    log p (events ++ [e]) = log p events ++ e.remarks p (events.countP isInvocation + 1) := by
  -- An event is numbered by what is in front of it, so one at the end changes no other.
  have hfront (x) (hx : x ∈ events.zipIdx) : x.1.remarks p
      (((events ++ [e]).take x.2).countP isInvocation + 1) =
        x.1.remarks p ((events.take x.2).countP isInvocation + 1) := by
    rw [List.take_append_of_le_length (List.snd_lt_of_mem_zipIdx hx).le]
  rw [log, List.zipIdx_append, List.flatMap_append, List.flatMap_congr hfront]
  simp [log]

theorem stats_append (events : List ExecutionEvent) (e : ExecutionEvent) :
    stats (events ++ [e]) = ⟨(stats events).completed + e.hasReturned.toNat,
      (stats events).threw + e.hasThrown.toNat, (stats events).failed + e.hasFailed.toNat⟩ := by
  cases hr : e.hasReturned <;> cases ht : e.hasThrown <;> cases hf : e.hasFailed <;>
    simp [stats, List.countP_append, hr, ht, hf]

theorem invocations_stats (events : List ExecutionEvent) :
    (stats events).invocations = events.countP isInvocation := by
  induction events with
  | nil => rfl
  | cons e later ih =>
    simp only [stats, InvocationStats.invocations, List.countP_cons] at ih ⊢
    rw [← ih]
    cases e with
    | reported i =>
      cases h : i.threw <;> simp [isInvocation, hasReturned, hasThrown, hasFailed, h] <;> omega
    | _ => simp [isInvocation, hasReturned, hasThrown, hasFailed] <;> omega

end ExecutionEvent

namespace ExecutionAttempt

variable {σ : Type} [Executable σ]

/-- What comes of an attempt when the program was compiled to `executable`, and what it is compiled
to afterwards. -/
def answer (program : String) (executable : Option σ) :
    ExecutionAttempt σ → ExecutionEvent × Option σ
  | compile compiler =>
    match compiler program with
    | .ok compiled => (.compiled, some compiled)
    | .error e => (.notCompiled e, none)
  | call arguments =>
    match executable with
    | none => (.notCalled, none)
    | some called =>
      let (outcome, called) := Executable.invoke arguments called
      (.ofOutcome outcome, some called)

def answers (program : String) (executable : Option σ) :
    List (ExecutionAttempt σ) → List ExecutionEvent
  | [] => []
  | a :: later =>
    let (event, executable) := a.answer program executable
    event :: answers program executable later

end ExecutionAttempt

namespace Coverage

open ExecutionEvent

variable {σ : Type} {p : Program} {c : Coverage σ} {events : List ExecutionEvent}

/-- What an event changes in a coverage, apart from what there is to call. -/
def takeIn (c : Coverage σ) : ExecutionEvent → Coverage σ
  | .compiled => c
  | .notCompiled e => c.note
      ⟨.unrunnableProgram, "the given code is not runnable with arguments: " ++ e.message, none⟩
  | .notCalled =>
    c.note ⟨.unrunnableProgram, "the given code is not runnable with arguments", none⟩
  | .reported i => c.record i
  | .failed e => c.fail e

theorem get_takeIn (c : Coverage σ) (e : ExecutionEvent) (k : Category) :
    (c.takeIn e).get k = (c.get k).addAll (e.report?.toList.flatMap (·.ids k)) := by
  cases e with
  | reported i => cases k <;> simp [takeIn, record, get, report?, Invocation.ids]
  | _ => cases k <;> rfl

theorem stats_takeIn (c : Coverage σ) (e : ExecutionEvent) : (c.takeIn e).stats =
    ⟨c.stats.completed + e.hasReturned.toNat, c.stats.threw + e.hasThrown.toNat,
      c.stats.failed + e.hasFailed.toNat⟩ := by
  cases e with
  | reported i => cases h : i.threw <;> simp [takeIn, record, hasReturned, hasThrown, hasFailed, h]
  | _ => rfl

theorem instrumented_takeIn (c : Coverage σ) (e : ExecutionEvent) :
    (c.takeIn e).instrumented = c.instrumented := by
  cases e <;> rfl

/-- A coverage holds what came of the attempts so far, and nothing else. -/
structure Accounts (p : Program) (events : List ExecutionEvent) (c : Coverage σ) : Prop where
  covers (k : Category) : (c.get k).Covers (p.target k) ((reports events).flatMap (·.ids k))
  stats_eq : c.stats = ExecutionEvent.stats events
  diagnostics_eq : c.diagnostics = log p events

theorem accounts_ofProgram? (h : ofProgram? p = some c) : Accounts p [] c := by
  obtain ⟨r, hr, rfl⟩ := Option.map_eq_some_iff.mp h
  obtain ⟨text, -, rfl⟩ := Option.map_eq_some_iff.mp hr
  refine ⟨fun k => ?_, rfl, rfl⟩
  cases k <;> exact CoverSet.covers_ofTarget _

namespace Accounts

theorem withExecutable (h : Accounts p events c) (x : Option σ) :
    Accounts p events { c with executable := x } :=
  ⟨fun k => by cases k <;> exact h.covers _, h.stats_eq, h.diagnostics_eq⟩

theorem unknownProbes_eq (h : Accounts p events c) (i : Invocation) (number : Nat) :
    c.unknownProbes i = (ExecutionEvent.reported i).remarks p number := by
  have hunknown (k : Category) :
      (c.get k).unknown (i.ids k) = (i.ids k).filter (· ∉ (p.target k).ids) := by
    rw [CoverSet.unknown]
    refine List.filter_congr fun id _ => ?_
    rw [CoverSet.isKnown, (h.covers k).target_eq, List.contains_eq_mem, decide_not]
  simp only [unknownProbes, hunknown]
  rfl

theorem takeIn (h : Accounts p events c) (e : ExecutionEvent) :
    Accounts p (events ++ [e]) (c.takeIn e) := by
  refine ⟨fun k => ?_, by rw [stats_append, stats_takeIn, h.stats_eq], ?_⟩
  · rw [reports_append, List.flatMap_append, get_takeIn]
    exact (h.covers k).addAll _
  · rw [log_append, ← h.diagnostics_eq]
    cases e with
    | reported i => exact congrArg _ (h.unknownProbes_eq i _)
    | failed e =>
      have hnumber : c.stats.completed + c.stats.threw + (c.stats.failed + 1) =
          events.countP isInvocation + 1 := by
        rw [← invocations_stats, ← h.stats_eq]
        exact (Nat.add_assoc _ _ 1).symm
      simp only [Coverage.takeIn, fail, note, remarks, InvocationStats.invocations, hnumber]
    | compiled => exact (List.append_nil _).symm
    | notCompiled e => rfl
    | notCalled => rfl

end Accounts

section attempts

variable [Executable σ]

def attempt (c : Coverage σ) : ExecutionAttempt σ → Coverage σ
  | .compile compiler => c.compile compiler
  | .call arguments => c.runSingle arguments

def perform (c : Coverage σ) : CoverageStep σ → Coverage σ
  | .compile compiler => c.compile compiler
  | .runSingle arguments => c.runSingle arguments
  | .run inputs => c.run inputs

def performAll (c : Coverage σ) (steps : List (CoverageStep σ)) : Coverage σ :=
  steps.foldl perform c

theorem perform_eq (c : Coverage σ) (s : CoverageStep σ) :
    c.perform s = s.attempts.foldl attempt c := by
  cases s with
  | compile compiler => rfl
  | runSingle arguments => rfl
  | run inputs =>
    rw [CoverageStep.attempts, List.foldl_map]
    rfl

theorem performAll_eq (c : Coverage σ) (steps : List (CoverageStep σ)) :
    c.performAll steps = (steps.flatMap CoverageStep.attempts).foldl attempt c := by
  rw [performAll, List.foldl_flatMap]
  exact congrFun (congrFun (congrArg _ (funext fun c => funext (perform_eq c))) _) _

def answers (c : Coverage σ) (steps : List (CoverageStep σ)) : List ExecutionEvent :=
  ExecutionAttempt.answers c.instrumented c.executable (steps.flatMap CoverageStep.attempts)

/-- An attempt changes a coverage as the event that comes of it does. -/
theorem attempt_eq (c : Coverage σ) (a : ExecutionAttempt σ) : c.attempt a =
    { c.takeIn (a.answer c.instrumented c.executable).1 with
      executable := (a.answer c.instrumented c.executable).2 } := by
  cases a with
  | compile compiler =>
    simp only [attempt, compile, ExecutionAttempt.answer]
    cases compiler c.instrumented <;> rfl
  | call arguments =>
    simp only [attempt, runSingle, ExecutionAttempt.answer]
    cases hx : c.executable with
    | none =>
      simp only [takeIn, note]
      rw [← hx]
    | some called =>
      dsimp only
      cases (Executable.invoke arguments called).1 <;> rfl

theorem instrumented_attempt (c : Coverage σ) (a : ExecutionAttempt σ) :
    (c.attempt a).instrumented = c.instrumented :=
  (congrArg Coverage.instrumented (attempt_eq c a)).trans (instrumented_takeIn c _)

theorem executable_attempt (c : Coverage σ) (a : ExecutionAttempt σ) :
    (c.attempt a).executable = (a.answer c.instrumented c.executable).2 :=
  congrArg Coverage.executable (attempt_eq c a)

/-- A run of attempts keeps the account. -/
theorem Accounts.attempts (h : Accounts p events c) (as : List (ExecutionAttempt σ)) :
    Accounts p (events ++ ExecutionAttempt.answers c.instrumented c.executable as)
      (as.foldl attempt c) := by
  -- Every attempt may change what there is to call, but not the text that was compiled.
  induction as generalizing c events with
  | nil => simpa [ExecutionAttempt.answers] using h
  | cons a later ih =>
    have hstep := (h.takeIn (a.answer c.instrumented c.executable).1).withExecutable
      (a.answer c.instrumented c.executable).2
    rw [← attempt_eq] at hstep
    have hlater := ih hstep
    rw [instrumented_attempt, executable_attempt, List.append_assoc] at hlater
    exact hlater

/-- After any steps a coverage holds exactly what came of them. What is covered stays covered, and
the order of the reports does not matter for it. -/
theorem performAll_accounts (h : ofProgram? p = some c) (steps : List (CoverageStep σ)) :
    Accounts p (c.answers steps) (c.performAll steps) ∧
      (∀ later k, ((c.performAll steps).get k).covered ⊆
        ((c.performAll (steps ++ later)).get k).covered) ∧
      ∀ others, (reports (c.answers others)).Perm (reports (c.answers steps)) →
        ∀ k, ((c.performAll others).get k).covered.Perm ((c.performAll steps).get k).covered := by
  have haccounts (steps : List (CoverageStep σ)) :
      Accounts p (c.answers steps) (c.performAll steps) := by
    rw [performAll_eq]
    exact (accounts_ofProgram? h).attempts _
  refine ⟨haccounts steps, fun later k id hid => ?_, fun others hperm k => ?_⟩
  · have hboth := (haccounts steps).attempts (later.flatMap CoverageStep.attempts)
    rw [← performAll_eq, performAll, performAll, ← List.foldl_append] at hboth
    obtain ⟨hknown, hreported⟩ := ((haccounts steps).covers k |>.mem_iff id).mp hid
    refine (hboth.covers k |>.mem_iff id).mpr ⟨hknown, ?_⟩
    rw [reports, List.filterMap_append, List.flatMap_append]
    exact List.mem_append_left _ hreported
  · have hothers := (haccounts others).covers k
    have hsteps := (haccounts steps).covers k
    refine (List.perm_ext_iff_of_nodup hothers.nodup hsteps.nodup).mpr fun id => ?_
    rw [hothers.mem_iff, hsteps.mem_iff, (hperm.flatMap_right _).mem_iff]

end attempts

end Coverage

/-- Replies that were prepared. A call takes the first one that is left. -/
structure PreparedReplies where
  replies : List (Except ExecutionError Invocation)

instance : Executable PreparedReplies where
  invoke _ prepared :=
    match prepared.replies with
    | [] => (.error (.transport "no reply is left"), prepared)
    | reply :: later => (reply, ⟨later⟩)

namespace Coverage

/-- A function that chooses between two names. -/
def choosing : Program :=
  ⟨"function f()\x7ba?b:c\x7d", false, [.other ⟨0, 19⟩ .functionDeclaration
    [.func ⟨0, 19⟩ [] (.block ⟨12, 19⟩ [.other ⟨13, 18⟩ .expressionStatement
      [.conditional ⟨13, 18⟩ (.name ⟨13, 14⟩ "a") (.name ⟨15, 16⟩ "b") (.name ⟨17, 18⟩ "c")]])]]⟩

theorem parse_choosing : Program.parse choosing.source = .ok choosing := by
  unfold Program.parse
  cbv

/-- A call and a compilation in vain, three calls with one reply each, and a second compilation that
leaves nothing to reply. -/
def choosingSteps : List (CoverageStep PreparedReplies) :=
  [.runSingle [], .compile fun _ => .error (.transport "gone"),
    .compile fun _ => .ok ⟨[.ok ⟨[0], [], [1, 7], none⟩, .ok ⟨[], [0], [], some "no"⟩,
      .error (.transport "late")]⟩,
    .run [[], [], []], .compile fun _ => .ok ⟨[]⟩, .runSingle []]

theorem ids_target_choosing (k : Category) :
    (choosing.target k).ids = if k = .branch then [0, 1] else [0] := by
  cases k <;> cbv

def choosingEvents : List ExecutionEvent :=
  [.notCalled, .notCompiled (.transport "gone"), .compiled,
    .reported ⟨[0], [], [1, 7], none⟩, .reported ⟨[], [0], [], some "no"⟩,
    .failed (.transport "late"), .compiled, .failed (.transport "no reply is left")]

theorem answers_choosingSteps {c : Coverage PreparedReplies} (h : c.executable = none) :
    c.answers choosingSteps = choosingEvents := by
  rw [answers, h]
  rfl

theorem log_choosingEvents : ExecutionEvent.log choosing choosingEvents =
    [⟨.unrunnableProgram, "the given code is not runnable with arguments", none⟩,
      ⟨.unrunnableProgram, "the given code is not runnable with arguments: " ++
        "executor transport failed: gone", none⟩,
      ⟨.unknownProbe, "executor reported unknown branch id 7", none⟩,
      ⟨.executorFailure, "invocation 3 failed: executor transport failed: late", none⟩,
      ⟨.executorFailure, "invocation 4 failed: executor transport failed: no reply is left",
        none⟩] := by
  simp [ExecutionEvent.log, choosingEvents, ExecutionEvent.remarks, ids_target_choosing,
    Invocation.ids, List.zipIdx]
  exact ⟨rfl, rfl, rfl, rfl⟩

theorem performAll_accounts_of_choosing : Program.parse choosing.source = .ok choosing ∧
    ∃ c : Coverage PreparedReplies, ofProgram? choosing = some c ∧
      (∀ id, id ∈ ((c.performAll choosingSteps).get .branch).covered ↔ id = 1) ∧
      (c.performAll choosingSteps).stats = ⟨1, 1, 2⟩ ∧
      (c.performAll choosingSteps).diagnostics =
        [⟨.unrunnableProgram, "the given code is not runnable with arguments", none⟩,
          ⟨.unrunnableProgram, "the given code is not runnable with arguments: " ++
            "executor transport failed: gone", none⟩,
          ⟨.unknownProbe, "executor reported unknown branch id 7", none⟩,
          ⟨.executorFailure, "invocation 3 failed: executor transport failed: late", none⟩,
          ⟨.executorFailure, "invocation 4 failed: executor transport failed: no reply is left",
            none⟩] := by
  obtain ⟨r, hr⟩ : ∃ r, choosing.instrument? = some r := Option.isSome_iff_exists.mp (by cbv)
  have hc : (ofProgram? choosing : Option (Coverage PreparedReplies)) = some _ :=
    congrArg (Option.map _) hr
  obtain ⟨⟨hcovers, hstats, hlog⟩, -, -⟩ := performAll_accounts hc choosingSteps
  rw [answers_choosingSteps rfl] at hstats hlog
  refine ⟨parse_choosing, _, hc, fun id => ?_, hstats, hlog.trans log_choosingEvents⟩
  rw [(hcovers .branch).mem_iff, answers_choosingSteps rfl, ids_target_choosing]
  simp [choosingEvents, ExecutionEvent.reports, ExecutionEvent.report?, Invocation.ids]
  omega

end Coverage

end Adequacy
