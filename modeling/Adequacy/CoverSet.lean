import Adequacy.Binary64
import Adequacy.SourceRange

namespace Adequacy

/-- The items of one category by id, in ascending order. -/
abbrev CoverTarget := List (Nat × SourceRange)

namespace CoverTarget

/-- Adds an item. One with the same id is replaced. -/
def insert (id : Nat) (range : SourceRange) : CoverTarget → CoverTarget
  | [] => [(id, range)]
  | (k, r) :: rest =>
    if k < id then (k, r) :: insert id range rest
    else if k = id then (id, range) :: rest
    else (id, range) :: (k, r) :: rest

/-- Items that are numbered from 0. -/
def ofRanges (ranges : List SourceRange) : CoverTarget :=
  ranges.zipIdx.map fun (r, id) => (id, r)

/-- The items at the given spans of a source; the first span that does not fit is refused. -/
def ofSpans? (source : String) (items : List (Nat × Span)) : Except SpanError CoverTarget := do
  let index := LineIndex.ofText source
  items.foldlM (fun t (id, span) => do return CoverTarget.insert id (← index.range? span) t) []

def ids (t : CoverTarget) : List Nat := t.map (·.1)

end CoverTarget

/-- The covered items of one category against all that there are. -/
structure CoverSet where
  target : CoverTarget
  covered : List Nat
  deriving Repr

namespace CoverSet

def ofTarget (target : CoverTarget) : CoverSet := ⟨target, []⟩

/-- Whether an item counts as covered. -/
def isCovered (s : CoverSet) (id : Nat) : Bool := s.covered.contains id

def isKnown (s : CoverSet) (id : Nat) : Bool := s.target.ids.contains id

/-- Covers an item of the target; any other id changes nothing. -/
def add (s : CoverSet) (id : Nat) : CoverSet :=
  if s.isKnown id && !s.isCovered id then { s with covered := s.covered ++ [id] } else s

@[simp] theorem target_add (s : CoverSet) (id : Nat) : (s.add id).target = s.target := by
  unfold add
  split <;> rfl

@[simp] theorem isKnown_add (s : CoverSet) (id k : Nat) : (s.add id).isKnown k = s.isKnown k := by
  simp [isKnown]

/-- Covering an item covers that item alone, and only if the target has it. -/
theorem isCovered_add (s : CoverSet) (id k : Nat) :
    (s.add id).isCovered k = (s.isCovered k || (k == id && s.isKnown k)) := by
  by_cases hk : k = id
  · subst hk
    cases hn : s.isKnown k <;> cases hc : s.isCovered k <;> simp_all [add, isCovered]
  · unfold add
    split
    next => simp [isCovered, hk]
    next => simp [hk]

/-- Covers the items of the target among some ids. -/
def addAll (s : CoverSet) (ids : List Nat) : CoverSet := ids.foldl add s

/-- Those of some ids that the target does not have. -/
def unknown (s : CoverSet) (ids : List Nat) : List Nat := ids.filter (!s.isKnown ·)

@[simp] theorem target_addAll (s : CoverSet) (ids : List Nat) :
    (s.addAll ids).target = s.target := by
  induction ids generalizing s with
  | nil => rfl
  | cons id ids ih => exact (ih (s.add id)).trans (target_add s id)

/-- What is covered in the end is what was covered or is named, in whatever order. -/
theorem isCovered_addAll (s : CoverSet) (ids : List Nat) (k : Nat) :
    (s.addAll ids).isCovered k = (s.isCovered k || (ids.contains k && s.isKnown k)) := by
  induction ids generalizing s with
  | nil => simp [addAll]
  | cons id ids ih =>
    have h := ih (s.add id)
    rw [isCovered_add, isKnown_add] at h
    refine h.trans ?_
    rw [List.contains_cons]
    cases s.isCovered k <;> cases s.isKnown k <;> simp

def total (s : CoverSet) : Nat := s.target.length

def hit (s : CoverSet) : Nat := s.covered.length

/-- The covered items of the target in ascending order. -/
def coveredIds (s : CoverSet) : List Nat := s.target.ids.filter s.isCovered

/-- The items that are not covered yet, in ascending order. -/
def uncovered (s : CoverSet) : CoverTarget := s.target.filter (!s.isCovered ·.1)

/-- The covered part of the target; of an empty target it is zero. -/
def ratio (s : CoverSet) : Binary64 :=
  if s.target.isEmpty then ⟨0, 0⟩
  else
    (do (← Binary64.ofNat? s.hit).div? (← Binary64.ofNat? s.total)).getD ⟨0, 0⟩

/-- The ratio in hundredths. -/
def percent (s : CoverSet) : Binary64 :=
  (do s.ratio.mul? (← Binary64.ofNat? 100)).getD ⟨0, 0⟩

def summary (s : CoverSet) : String := s!"{s.hit}/{s.total} ({s.percent.fixed 2}%)"

/-- A line of details: whether the item is covered, its id, its range, and its text if that can be
told. -/
def detail (s : CoverSet) (source : Option String) (item : Nat × SourceRange) : String :=
  let marker := if s.isCovered item.1 then "*" else " "
  let text := match source.bind (item.2.text? ·) with
    | some text => " -- " ++ text
    | none => ""
  s!"\n      {marker} {item.1}: {item.2.display}" ++ text

/-- The summary, and a line for every item if details are wanted. -/
def render (s : CoverSet) (withDetail : Bool) (source : Option String) : String :=
  s.summary ++ if withDetail then String.join (s.target.map (s.detail source)) else ""

end CoverSet

end Adequacy
