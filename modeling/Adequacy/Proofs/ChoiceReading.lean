import Adequacy.Node

namespace Adequacy

/-- What an expression of choices denotes: atoms that are not looked into, calls that report an id,
logical operators, conditionals, and pairs of which the first part is only evaluated. -/
inductive ChoiceTree where
  | atom (n : Node)
  | probe (id : Nat)
  | apply (op : LogicalOp) (left right : ChoiceTree)
  | choose (test yes no : ChoiceTree)
  | follow (front back : ChoiceTree)

/-- A word of an expression of choices. Atoms and probes are words. -/
inductive ChoiceWord where
  | atom (n : Node)
  | probe (id : Nat)
  | op (op : LogicalOp)
  | question
  | colon
  | comma
  | opening
  | closing

/-- The levels of the grammar that expressions of choices belong to. -/
inductive ChoiceLevel where
  | primary | conjunction | disjunction | coalescence | shortCircuit | assignment | sequence
  deriving DecidableEq

namespace ChoiceLevel

/-- Whether an expression of the second level may stand where one of the first is called for. -/
def admits : ChoiceLevel → ChoiceLevel → Bool
  | sequence, _ | _, primary => true
  | assignment, l => l != sequence
  | shortCircuit, l => l != sequence && l != assignment
  | disjunction, l => l == disjunction || l == conjunction
  | conjunction, l => l == conjunction
  | coalescence, l => l == coalescence
  | primary, _ => false

theorem admits_trans {a b c : ChoiceLevel} (hab : a.admits b = true) (hbc : b.admits c = true) :
    a.admits c = true := by
  cases a <;> cases b <;> cases c <;> first | rfl | contradiction

end ChoiceLevel

namespace LogicalOp

/-- The level of an expression with an operator, and of the left operand: operators of one kind are
grouped from left to right. -/
def level : LogicalOp → ChoiceLevel
  | and => .conjunction
  | or => .disjunction
  | coalesce => .coalescence

/-- The level of the right operand of an operator. -/
def rightLevel : LogicalOp → ChoiceLevel
  | and | coalesce => .primary
  | or => .conjunction

end LogicalOp

open ChoiceTree ChoiceLevel

/-- The words that make up an expression, by the productions of the grammar. -/
inductive Derives : ChoiceLevel → List ChoiceWord → ChoiceTree → Prop where
  | atom (n : Node) : Derives primary [.atom n] (.atom n)
  | probe (id : Nat) : Derives primary [.probe id] (.probe id)
  | group {ws : List ChoiceWord} {t : ChoiceTree} (h : Derives sequence ws t) :
      Derives primary (.opening :: (ws ++ [.closing])) t
  | apply {op : LogicalOp} {ls rs : List ChoiceWord} {l r : ChoiceTree} (hl : Derives op.level ls l)
      (hr : Derives op.rightLevel rs r) : Derives op.level (ls ++ .op op :: rs) (.apply op l r)
  | choose {ts ys ns : List ChoiceWord} {t y n : ChoiceTree} (ht : Derives shortCircuit ts t)
      (hy : Derives assignment ys y) (hn : Derives assignment ns n) :
      Derives assignment (ts ++ .question :: (ys ++ .colon :: ns)) (.choose t y n)
  | follow {fs bs : List ChoiceWord} {f b : ChoiceTree} (hf : Derives sequence fs f)
      (hb : Derives assignment bs b) : Derives sequence (fs ++ .comma :: bs) (.follow f b)
  | lift {l m : ChoiceLevel} {ws : List ChoiceWord} {t : ChoiceTree} (hl : m.admits l = true)
      (h : Derives l ws t) : Derives m ws t

/-- What has been read in front of an expression that is not complete, up to the last word that
something is called for behind. -/
inductive ChoiceFrame where
  | operator (op : LogicalOp) (left : ChoiceTree)
  | test (test : ChoiceTree)
  | arm (test yes : ChoiceTree)
  | front (front : ChoiceTree)
  | group

namespace ChoiceFrame

/-- The level of what is called for behind a frame. -/
def wanted : ChoiceFrame → ChoiceLevel
  | operator op _ => op.rightLevel
  | test _ | arm .. | front _ => assignment
  | group => sequence

end ChoiceFrame

/-- The frames that are open, the innermost first. -/
abbrev ChoiceFrames := List ChoiceFrame

namespace ChoiceFrames

def wanted (fs : ChoiceFrames) : ChoiceLevel := fs.head?.elim sequence ChoiceFrame.wanted

/-- Completes what an expression ends when it ends one of the level. -/
def close (m : ChoiceLevel) : ChoiceFrames → ChoiceTree → ChoiceFrames × ChoiceTree
  | .operator op l :: fs, t =>
    if m.admits op.level then close m fs (.apply op l t) else (.operator op l :: fs, t)
  | .arm c y :: fs, t =>
    if m.admits assignment then close m fs (.choose c y t) else (.arm c y :: fs, t)
  | .front f :: fs, t =>
    if m.admits sequence then close m fs (.follow f t) else (.front f :: fs, t)
  | fs, t => (fs, t)

end ChoiceFrames

/-- Where the reading of an expression is: what is open, and the expression that has been read
behind it unless one is called for. -/
abbrev ChoiceState := ChoiceFrames × Option ChoiceTree

namespace ChoiceState

open ChoiceFrames

/-- Goes on behind an expression that ends one of the level and becomes the start of another one. -/
def goOn (m outer : ChoiceLevel) (frame : ChoiceTree → ChoiceFrame) (fs : ChoiceFrames)
    (t : ChoiceTree) : Option ChoiceState :=
  let (fs, t) := close m fs t
  if (wanted fs).admits outer then some (frame t :: fs, none) else none

def step : ChoiceState → ChoiceWord → Option ChoiceState
  | (fs, none), .atom n => some (fs, some (.atom n))
  | (fs, none), .probe id => some (fs, some (.probe id))
  | (fs, none), .opening => some (.group :: fs, none)
  | (fs, some t), .op op => goOn op.level op.level (.operator op) fs t
  | (fs, some t), .question => goOn shortCircuit assignment .test fs t
  | (fs, some t), .comma => goOn sequence sequence .front fs t
  | (fs, some t), .colon =>
    match close assignment fs t with
    | (.test c :: fs, t) => some (.arm c t :: fs, none)
    | _ => none
  | (fs, some t), .closing =>
    match close sequence fs t with
    | (.group :: fs, t) => some (fs, some t)
    | _ => none
  | _, _ => none

def run (s : ChoiceState) (words : List ChoiceWord) : Option ChoiceState := words.foldlM step s

variable {s u : ChoiceState} {w : ChoiceWord} {ws later : List ChoiceWord}

theorem run_append (h : s.run ws = some u) (later : List ChoiceWord) :
    s.run (ws ++ later) = u.run later := by
  simp only [run] at h
  rw [run, List.foldlM_append, h]
  rfl

theorem run_cons (h : s.step w = some u) (later : List ChoiceWord) :
    s.run (w :: later) = u.run later := by
  rw [run, List.foldlM_cons, h]
  rfl

end ChoiceState

/-- What the words of an expression denote, if they are one. -/
def ChoiceTree.read? (words : List ChoiceWord) : Option ChoiceTree :=
  match ChoiceState.run ([], none) words with
  | some (fs, some t) =>
    match fs.close sequence t with
    | ([], t) => some t
    | _ => none
  | _ => none

namespace ChoiceFrames

variable {fs : ChoiceFrames} {m outer : ChoiceLevel} {op : LogicalOp} {t : ChoiceTree}

theorem close_of_operator (h : (wanted fs).admits op.level = true) :
    close op.level fs t = (fs, t) := by
  cases fs with
  | nil => rfl
  | cons f fs =>
    cases f with
    | operator op' l => cases op' <;> cases op <;> first | rfl | cases h
    | arm c y => cases op <;> rfl
    | front f => cases op <;> rfl
    | _ => rfl

theorem close_of_test (h : (wanted fs).admits assignment = true) :
    close shortCircuit fs t = (fs, t) := by
  cases fs with
  | nil => rfl
  | cons f fs =>
    cases f with
    | operator op l => cases op <;> cases h
    | _ => rfl

theorem close_of_front (h : (wanted fs).admits sequence = true) :
    close sequence fs t = (fs, t) := by
  cases fs with
  | nil => rfl
  | cons f fs =>
    cases f with
    | operator op l => cases op <;> cases h
    | arm c y => cases h
    | front f => cases h
    | _ => rfl

end ChoiceFrames

/-- Where an expression of the level is called for, the words are read as the tree. What they leave
open is completed with the expression that ends there, or before. -/
def ChoiceTree.IsReadAs (l : ChoiceLevel) (ws : List ChoiceWord) (t : ChoiceTree) : Prop :=
  ∀ fs : ChoiceFrames, fs.wanted.admits l = true →
    ∃ (gs : ChoiceFrames) (u : ChoiceTree), ChoiceState.run (fs, none) ws = some (gs, some u) ∧
      ∀ m : ChoiceLevel, m.admits l = true → gs.close m u = fs.close m t

namespace ChoiceTree.IsReadAs

open ChoiceFrames ChoiceState

variable {l m : ChoiceLevel} {op : LogicalOp} {ws ls rs : List ChoiceWord} {t u v : ChoiceTree}

theorem single {w : ChoiceWord}
    (h : ∀ fs : ChoiceFrames, ChoiceState.step (fs, none) w = some (fs, some t)) :
    IsReadAs primary [w] t :=
  fun fs _ => ⟨fs, t, run_cons (h fs) [], fun _ _ => rfl⟩

theorem group (h : IsReadAs sequence ws t) :
    IsReadAs primary (.opening :: (ws ++ [.closing])) t := by
  intro fs _
  obtain ⟨gs, u, hrun, hclose⟩ := h (.group :: fs) rfl
  have hstep : ChoiceState.step (gs, some u) .closing = some (fs, some t) := by
    rw [ChoiceState.step, hclose sequence rfl]
    rfl
  refine ⟨fs, t, ?_, fun _ _ => rfl⟩
  rw [run_cons rfl, run_append hrun, run_cons hstep]
  rfl

theorem goOn_eq {outer : ChoiceLevel} {frame : ChoiceTree → ChoiceFrame} {fs gs : ChoiceFrames}
    (hclose : gs.close m u = (fs, t)) (hwanted : fs.wanted.admits outer = true) :
    goOn m outer frame gs u = some (frame t :: fs, none) := by
  rw [goOn, hclose]
  exact if_pos hwanted

theorem apply (hl : IsReadAs op.level ls t) (hr : IsReadAs op.rightLevel rs u) :
    IsReadAs op.level (ls ++ .op op :: rs) (.apply op t u) := by
  intro fs hfs
  have hself : op.level.admits op.level = true := by cases op <;> rfl
  have hright : op.level.admits op.rightLevel = true := by cases op <;> rfl
  obtain ⟨gs, x, hrun, hclose⟩ := hl fs hfs
  have hstep : ChoiceState.step (gs, some x) (.op op) = some (.operator op t :: fs, none) :=
    goOn_eq ((hclose _ hself).trans (close_of_operator hfs)) hfs
  obtain ⟨gs', y, hrun', hclose'⟩ := hr (.operator op t :: fs) (by cases op <;> rfl)
  refine ⟨gs', y, by rw [run_append hrun, run_cons hstep, hrun'], fun m hm => ?_⟩
  rw [hclose' m (admits_trans hm hright), close, if_pos hm]

theorem choose {ts ys ns : List ChoiceWord} (ht : IsReadAs shortCircuit ts t)
    (hy : IsReadAs assignment ys u) (hn : IsReadAs assignment ns v) :
    IsReadAs assignment (ts ++ .question :: (ys ++ .colon :: ns)) (.choose t u v) := by
  intro fs hfs
  obtain ⟨gs, x, hrun, hclose⟩ := ht fs (admits_trans hfs rfl)
  have hquestion : ChoiceState.step (gs, some x) .question = some (.test t :: fs, none) :=
    goOn_eq ((hclose _ rfl).trans (close_of_test hfs)) hfs
  obtain ⟨gs', y, hrun', hclose'⟩ := hy (.test t :: fs) rfl
  have hcolon : ChoiceState.step (gs', some y) .colon = some (.arm t u :: fs, none) := by
    rw [ChoiceState.step, hclose' assignment rfl]
    rfl
  obtain ⟨gs'', z, hrun'', hclose''⟩ := hn (.arm t u :: fs) rfl
  refine ⟨gs'', z, ?_, fun m hm => ?_⟩
  · rw [run_append hrun, run_cons hquestion, run_append hrun', run_cons hcolon, hrun'']
  · rw [hclose'' m hm, close, if_pos hm]

theorem follow (hf : IsReadAs sequence ls t) (hb : IsReadAs assignment rs u) :
    IsReadAs sequence (ls ++ .comma :: rs) (.follow t u) := by
  intro fs hfs
  obtain ⟨gs, x, hrun, hclose⟩ := hf fs hfs
  have hcomma : ChoiceState.step (gs, some x) .comma = some (.front t :: fs, none) :=
    goOn_eq ((hclose _ rfl).trans (close_of_front hfs)) hfs
  obtain ⟨gs', y, hrun', hclose'⟩ := hb (.front t :: fs) rfl
  refine ⟨gs', y, by rw [run_append hrun, run_cons hcomma, hrun'], fun m hm => ?_⟩
  rw [hclose' m (admits_trans hm rfl), close, if_pos hm]

theorem lift (hl : m.admits l = true) (h : IsReadAs l ws t) : IsReadAs m ws t := by
  intro fs hfs
  obtain ⟨gs, u, hrun, hclose⟩ := h fs (admits_trans hfs hl)
  exact ⟨gs, u, hrun, fun k hk => hclose k (admits_trans hk hl)⟩

end ChoiceTree.IsReadAs

theorem Derives.isReadAs {l : ChoiceLevel} {ws : List ChoiceWord} {t : ChoiceTree}
    (h : Derives l ws t) : t.IsReadAs l ws := by
  induction h with
  | atom n => exact .single fun _ => rfl
  | probe id => exact .single fun _ => rfl
  | group _ ih => exact .group ih
  | apply _ _ hl hr => exact .apply hl hr
  | choose _ _ _ ht hy hn => exact .choose ht hy hn
  | follow _ _ hf hb => exact .follow hf hb
  | lift hl _ ih => exact .lift hl ih

/-- What the grammar derives is what is read. -/
theorem Derives.read? {l : ChoiceLevel} {ws : List ChoiceWord} {t : ChoiceTree}
    (h : Derives l ws t) : ChoiceTree.read? ws = some t := by
  obtain ⟨gs, u, hrun, hclose⟩ := h.isReadAs [] rfl
  rw [ChoiceTree.read?, hrun]
  dsimp only
  rw [hclose sequence rfl]
  rfl

example (a b c : Node) : ChoiceTree.read?
      [.atom a, .op .or, .atom b, .op .and, .atom c, .question, .atom a, .colon, .atom b] =
    some (.choose (.apply .or (.atom a) (.apply .and (.atom b) (.atom c))) (.atom a) (.atom b)) :=
  rfl

example (a b c : Node) :
    ChoiceTree.read? [.atom a, .op .or, .atom b, .op .coalesce, .atom c] = none := rfl

end Adequacy
