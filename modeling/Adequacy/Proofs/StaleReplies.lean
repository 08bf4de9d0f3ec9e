import Adequacy.Proofs.Exchanges

namespace Adequacy

namespace Json

variable {v : Json} {name : String}

/-- The members of a reply have their forms. Any of them may be absent, and what is not a list may
be null. -/
structure IsReply (v : Json) : Prop where
  numbered : v.member? "id" = none ∨ v.member? "id" = some .null ∨
    ∃ id < Nat.pow 2 64, v.member? "id" = some (.nat id)
  tells : ∀ name ∈ ["error", "notRunnable", "threw"], ∃ text, v.Tells name text
  lists : ∀ name ∈ ["func", "stmt", "branch"],
    ∃ numbers, v.Lists name numbers ∧ ∀ n ∈ numbers, n < Nat.pow 2 32

theorem lt_of_asNatural {bits n : Nat} {expected : String} (h : v.asNatural bits expected = .ok n) :
    n < Nat.pow 2 bits := by
  unfold asNatural at h
  split at h
  next =>
    split at h
    next hi =>
      cases h
      exact hi.2
    next => cases h
  next => cases h

theorem lt_of_mapM_asNatural {bits : Nat} {expected : String} {items : List Json}
    {numbers : List Nat} (h : items.mapM (asNatural bits expected) = .ok numbers) :
    ∀ n ∈ numbers, n < Nat.pow 2 bits := by
  induction items generalizing numbers with
  | nil =>
    cases h
    simp
  | cons item items ih =>
    rw [List.mapM_cons] at h
    obtain ⟨n, hitem, h⟩ := bind_eq_ok_iff.mp h
    obtain ⟨later, hitems, h⟩ := bind_eq_ok_iff.mp h
    cases h
    exact List.forall_mem_cons.mpr ⟨lt_of_asNatural hitem, ih hitems⟩

theorem fieldD_itemIds_iff {numbers : List Nat} : v.fieldD name [] NodeReply.itemIds = .ok numbers ↔
    v.Lists name numbers ∧ ∀ n ∈ numbers, n < Nat.pow 2 32 := by
  constructor
  · intro h
    refine ⟨lists_of_fieldD h, ?_⟩
    unfold fieldD at h
    split at h
    next m hm =>
      cases m with
      | array items => exact lt_of_mapM_asNatural h
      | _ => cases h
    next =>
      cases h
      simp
  · rintro ⟨hm | ⟨hm, rfl⟩, hlt⟩
    · rw [fieldD, hm]
      exact mapM_asNatural_map hlt
    · rw [fieldD, hm]

theorem fieldD_asString_iff {text : Option String} :
    v.fieldD name none (asOption asString) = .ok text ↔ v.Tells name text := by
  refine ⟨tells_of_fieldD, fun h => ?_⟩
  cases text with
  | some s =>
    rw [fieldD, show v.member? name = some (.string s) from h]
    rfl
  | none =>
    rcases h with hm | hm
    · rw [fieldD, hm]
    · rw [fieldD, hm]
      rfl

theorem fieldD_asNatural_iff {bits : Nat} {expected : String} :
    (∃ n, v.fieldD name none (asOption (asNatural bits expected)) = .ok n) ↔
      v.member? name = none ∨ v.member? name = some .null ∨
        ∃ n < Nat.pow 2 bits, v.member? name = some (.nat n) := by
  constructor
  · rintro ⟨n, h⟩
    unfold fieldD at h
    split at h
    next m hm =>
      cases m with
      | null => exact .inr (.inl hm)
      | number x =>
        cases hk : (number x).asNatural bits expected with
        | ok k =>
          exact .inr (.inr ⟨k, lt_of_asNatural hk, hm.trans (congrArg some (asNatural_eq_ok hk))⟩)
        | error e => simp [asOption, hk, Except.map] at h
      | _ => cases h
    next hm => exact .inl hm
  · rintro (hm | hm | ⟨n, hn, hm⟩)
    · exact ⟨none, by rw [fieldD, hm]⟩
    · exact ⟨none, by rw [fieldD, hm]; rfl⟩
    · refine ⟨some n, ?_⟩
      rw [fieldD, hm]
      exact congrArg (Except.map some) (asNatural_nat hn)

/-- An object is read as a reply exactly if its members have their forms. -/
theorem ofJson_isOk_iff : (∃ reply, NodeReply.ofJson v = .ok reply) ↔ v.IsReply := by
  simp only [NodeReply.ofJson, bind_eq_ok_iff, fieldD_itemIds_iff, fieldD_asString_iff]
  constructor
  · rintro ⟨_, error, he, id, hid, notRunnable, hr, func, hf, stmt, hs, branch, hb, threw, ht, -⟩
    refine ⟨fieldD_asNatural_iff.mp ⟨id, hid⟩, ?_, ?_⟩
    · simp only [List.forall_mem_cons, List.not_mem_nil, false_implies, implies_true, and_true]
      exact ⟨⟨error, he⟩, ⟨notRunnable, hr⟩, ⟨threw, ht⟩⟩
    · simp only [List.forall_mem_cons, List.not_mem_nil, false_implies, implies_true, and_true]
      exact ⟨⟨func, hf⟩, ⟨stmt, hs⟩, ⟨branch, hb⟩⟩
  · intro h
    obtain ⟨id, hid⟩ := fieldD_asNatural_iff.mpr h.numbered
    obtain ⟨error, he⟩ := h.tells "error" (by simp)
    obtain ⟨notRunnable, hr⟩ := h.tells "notRunnable" (by simp)
    obtain ⟨threw, ht⟩ := h.tells "threw" (by simp)
    obtain ⟨func, hf⟩ := h.lists "func" (by simp)
    obtain ⟨stmt, hs⟩ := h.lists "stmt" (by simp)
    obtain ⟨branch, hb⟩ := h.lists "branch" (by simp)
    exact ⟨_, error, he, id, hid, notRunnable, hr, func, hf, stmt, hs, branch, hb, threw, ht, rfl⟩

end Json

namespace NodeReply

/-- A line that holds an object with a number below the one that is awaited, whatever else is in
the object. -/
def IsStale (expected : Nat) (line : String) : Prop :=
  ∃ v id, Json.parse line = .ok v ∧ v.member? "id" = some (.nat id) ∧ id < expected

/-- A line whose value has the form of a reply. -/
def IsFormed (line : String) : Prop :=
  ∃ v, Json.parse line = .ok v ∧ v.IsReply

/-- Two queues that differ by lines with a property, all of them in front of the line that decides
a request. -/
inductive DifferBy (property : String → Prop) (expected : Nat) : List String → List String → Prop
  | same (lines : List String) : DifferBy property expected lines lines
  | silent {line : String} {lines lines' : List String} : decide? expected line = none →
      DifferBy property expected lines lines' →
      DifferBy property expected (line :: lines) (line :: lines')
  | left {line : String} {lines lines' : List String} : property line →
      DifferBy property expected lines lines' → DifferBy property expected (line :: lines) lines'
  | right {line : String} {lines lines' : List String} : property line →
      DifferBy property expected lines lines' → DifferBy property expected lines (line :: lines')

/-- Lines that say nothing about a request may be left out of what it reads. -/
theorem DifferBy.await_eq {property : String → Prop} {expected : Nat} {lines lines' : List String}
    (h : DifferBy property expected lines lines')
    (hsilent : ∀ line, property line → decide? expected line = none) :
    await expected lines = await expected lines' := by
  induction h with
  | same => rfl
  | silent hline _ ih => simp only [await, hline, ih]
  | left hp _ ih => simp only [await, hsilent _ hp, ih]
  | right hp _ ih => simp only [await, hsilent _ hp, ih]

variable {expected : Nat} {line : String}

theorem decide?_of_isFormed (h : IsStale expected line) (hf : IsFormed line) :
    decide? expected line = none := by
  obtain ⟨v, id, hv, hid, hlt⟩ := h
  obtain ⟨u, hu, hform⟩ := hf
  obtain rfl : v = u := Except.ok.inj (hv.symm.trans hu)
  obtain ⟨reply, hread⟩ := Json.ofJson_isOk_iff.mpr hform
  rw [decide?_eq (object?_of_parse hv hid) hread (id_of_ofJson hread hid), if_pos hlt]

/-- An object that is not read as a reply decides the request, whatever its number. -/
theorem decide?_of_not_isFormed (h : IsStale expected line) (hf : ¬ IsFormed line) :
    ∃ e : JsonMismatch, decide? expected line =
      some (.error (.parseError s!"invalid response: {e.message} ({line})")) := by
  obtain ⟨v, id, hv, hid, -⟩ := h
  cases hread : ofJson v with
  | ok reply => exact absurd ⟨v, hv, Json.ofJson_isOk_iff.mp ⟨reply, hread⟩⟩ hf
  | error e => exact ⟨e, by rw [decide?, object?_of_parse hv hid, Option.bind_some, hread]⟩

end NodeReply

namespace NodeWorker

open NodeReply

/-- Replies to earlier requests change nothing for a request that has yet to be decided, as long as
they have the form of a reply. One that has not ends the request, and the lines behind it are left
unread. -/
theorem receive_eq_of_stale (w : NodeWorker) (id : Nat) :
    (∀ lines lines', DifferBy (fun line => IsStale id line ∧ IsFormed line) id lines lines' →
      ({ w with unread := lines } : NodeWorker).receive id =
        ({ w with unread := lines' } : NodeWorker).receive id) ∧
    ∀ silent line later, (∀ l ∈ silent, decide? id l = none) → IsStale id line →
      ¬ IsFormed line → ∃ e : JsonMismatch,
        ({ w with unread := silent ++ line :: later } : NodeWorker).receive id =
          (.error (.parseError s!"invalid response: {e.message} ({line})"),
            { w with unread := later }) := by
  constructor
  · intro lines lines' h
    have hawait := h.await_eq fun line hline => decide?_of_isFormed hline.1 hline.2
    simp only [receive, hawait]
  · intro silent line later hsilent hstale hform
    obtain ⟨e, he⟩ := decide?_of_not_isFormed hstale hform
    have hawait : await id (silent ++ line :: later) = await id (line :: later) :=
      await_append_of_silent hsilent
    simp only [await, he] at hawait
    exact ⟨e, by simp only [receive, hawait]⟩

/-- A worker that waits for its second reply, with these lines to read. -/
def waiting (lines : List String) : NodeWorker :=
  { process := fun _ => .print [], unread := lines }

/-- A reply to the first request and then one to the second, with what the program printed. -/
def delayed : List String :=
  ["pos", "\x7b\"id\":1,\"func\":[0],\"error\":\"late\"\x7d", "\x7b\"func\":[0],\"id\":2\x7d"]

theorem decide?_delayed : decide? 2 "pos" = none ∧
    decide? 2 "\x7b\"func\":[0],\"id\":2\x7d" = some (.ok ⟨some 2, none, none, ⟨[0], [], [], none⟩⟩) := by
  have hpos : object? "pos" = none := by cbv
  have hreply : Json.parse "\x7b\"func\":[0],\"id\":2\x7d" = .ok (.ofCalled [0] 2) := by cbv
  rw [decide?_ofCalled hreply (by decide) (by decide), decide?, hpos]
  exact ⟨rfl, rfl⟩

theorem isFormed_late : IsStale 2 "\x7b\"id\":1,\"func\":[0],\"error\":\"late\"\x7d" ∧
    IsFormed "\x7b\"id\":1,\"func\":[0],\"error\":\"late\"\x7d" := by
  have hparse : Json.parse "\x7b\"id\":1,\"func\":[0],\"error\":\"late\"\x7d" =
      .ok (.object [("error", .string "late"), ("func", .array [.nat 0]), ("id", .nat 1)]) := by cbv
  refine ⟨⟨_, 1, hparse, rfl, Nat.one_lt_two⟩, _, hparse, ⟨.inr (.inr ⟨1, by decide, rfl⟩), ?_, ?_⟩⟩
  · simp only [List.forall_mem_cons, List.not_mem_nil, false_implies, implies_true, and_true]
    exact ⟨⟨some "late", rfl⟩, ⟨none, .inl rfl⟩, ⟨none, .inl rfl⟩⟩
  · simp only [List.forall_mem_cons, List.not_mem_nil, false_implies, implies_true, and_true]
    exact ⟨⟨[0], .inl rfl, by decide⟩, ⟨[], .inr ⟨rfl, rfl⟩, by decide⟩, ⟨[], .inr ⟨rfl, rfl⟩, by decide⟩⟩

theorem receive_eq_of_stale_of_delayed :
    (waiting delayed).receive 2 = (waiting (delayed.eraseIdx 1)).receive 2 ∧
      (waiting delayed).receive 2 =
        (.ok ⟨some 2, none, none, ⟨[0], [], [], none⟩⟩, waiting []) := by
  obtain ⟨hpos, hdecide⟩ := decide?_delayed
  have hsame := (receive_eq_of_stale (waiting []) 2).1 delayed (delayed.eraseIdx 1)
    (.silent hpos (.left isFormed_late (.same _)))
  refine ⟨hsame, hsame.trans ?_⟩
  simp [receive, await, delayed, hpos, hdecide, waiting]

/-- A reply to the first request whose list is no list ends the second request, which then does not
read its own reply. -/
theorem not_receive_eq_of_mistyped : ¬ ∀ (w : NodeWorker) (id : Nat) (lines lines' : List String),
    DifferBy (IsStale id) id lines lines' → ({ w with unread := lines } : NodeWorker).receive id =
      ({ w with unread := lines' } : NodeWorker).receive id := by
  intro h
  have hparse : Json.parse "\x7b\"id\":1,\"func\":\"nope\"\x7d" =
      .ok (.object [("func", .string "nope"), ("id", .nat 1)]) := by cbv
  have hstale : IsStale 2 "\x7b\"id\":1,\"func\":\"nope\"\x7d" :=
    ⟨_, 1, hparse, rfl, Nat.one_lt_two⟩
  have hform : ¬ IsFormed "\x7b\"id\":1,\"func\":\"nope\"\x7d" := by
    rintro ⟨v, hv, hreply⟩
    obtain rfl := Except.ok.inj (hparse.symm.trans hv)
    obtain ⟨numbers, hlists | ⟨hnone, -⟩, -⟩ := hreply.lists "func" (by simp)
    · exact Json.noConfusion (Option.some.inj hlists)
    · cases hnone
  obtain ⟨e, hmistyped⟩ := decide?_of_not_isFormed hstale hform
  have hsame := h (waiting []) 2 _ _ (.left hstale (.same ["\x7b\"func\":[0],\"id\":2\x7d"]))
  simp [receive, await, hmistyped, decide?_delayed.2] at hsame

end NodeWorker

end Adequacy
