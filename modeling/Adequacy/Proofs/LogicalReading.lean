import Adequacy.Mutation

namespace Adequacy

/-- What a logical expression denotes: operators on operands that are not looked into. -/
inductive LogicalTree where
  | operand (n : Node)
  | apply (op : LogicalOp) (left right : LogicalTree)

namespace LogicalTree

/-- Trees that differ by how runs of one operator are grouped. -/
inductive Regroups : LogicalTree → LogicalTree → Prop where
  | refl (t : LogicalTree) : Regroups t t
  | symm {t u : LogicalTree} : Regroups t u → Regroups u t
  | trans {t u v : LogicalTree} : Regroups t u → Regroups u v → Regroups t v
  | assoc (op : LogicalOp) (t u v : LogicalTree) :
      Regroups (apply op (apply op t u) v) (apply op t (apply op u v))
  | congr (op : LogicalOp) {t t' u u' : LogicalTree} :
      Regroups t t' → Regroups u u' → Regroups (apply op t u) (apply op t' u')

/-- What stands in front of an operator, if anything, and what stands behind it. -/
def joined (op : LogicalOp) (front : Option LogicalTree) (t : LogicalTree) : LogicalTree :=
  front.elim t (apply op · t)

variable {op : LogicalOp} {front : Option LogicalTree} {t t' u : LogicalTree}

theorem Regroups.joined (h : Regroups t u) :
    Regroups (t.joined op front) (u.joined op front) := by
  cases front with
  | none => exact h
  | some a => exact .congr op (.refl a) h

/-- An operator behind another one of its kind takes what that one takes. -/
theorem Regroups.apply_joined (h : Regroups t' (t.joined op front)) (u : LogicalTree) :
    Regroups (apply op t' u) ((apply op t u).joined op front) := by
  cases front with
  | none => exact .congr op h (.refl u)
  | some a => exact (Regroups.congr op h (.refl u)).trans (.assoc op a t u)

end LogicalTree

/-- A word of a logical expression. Operands are words. -/
inductive LogicalWord where
  | operand (n : Node)
  | op (op : LogicalOp)
  | opening
  | closing

open LogicalTree

/-- What has been read of a logical expression, up to an operand. -/
inductive LogicalReading where
  | single (t : LogicalTree)
  /- The disjunction that has ended, if there is one, and the conjunction behind it. -/
  | mixed (front : Option LogicalTree) (last : LogicalTree)
  | coalesced (t : LogicalTree)

namespace LogicalReading

def tree : LogicalReading → LogicalTree
  | single t | coalesced t => t
  | mixed front last => last.joined .or front

/-- Reads one more operand: `&&` binds more tightly than `||`, both go from left to right, and `??`
stands between operands without either of them. -/
def extend : LogicalReading → LogicalOp → LogicalTree → Option LogicalReading
  | single a, .and, t => some (mixed none (apply .and a t))
  | single a, .or, t => some (mixed (some a) t)
  | mixed front last, .and, t => some (mixed front (apply .and last t))
  | mixed front last, .or, t => some (mixed (some (last.joined .or front)) t)
  | single a, .coalesce, t | coalesced a, .coalesce, t => some (coalesced (apply .coalesce a t))
  | _, _, _ => none

end LogicalReading

/-- What has been read between the same parentheses in front of an operand. -/
abbrev LogicalPending := Option (LogicalReading × LogicalOp)

def LogicalPending.feed (p : LogicalPending) (t : LogicalTree) : Option LogicalReading :=
  match p with
  | none => some (.single t)
  | some (r, op) => r.extend op t

/-- Where the reading of a logical expression is, with what is left open around it. -/
inductive LogicalState where
  | before (outer : List LogicalPending) (p : LogicalPending)
  | behind (outer : List LogicalPending) (r : LogicalReading)

namespace LogicalState

def step : LogicalState → LogicalWord → Option LogicalState
  | before outer p, .operand n => (p.feed (.operand n)).map (behind outer)
  | before outer p, .opening => some (before (p :: outer) none)
  | behind outer r, .op op => some (before outer (some (r, op)))
  | behind (p :: outer) r, .closing => (p.feed r.tree).map (behind outer)
  | _, _ => none

def run (s : LogicalState) (words : List LogicalWord) : Option LogicalState := words.foldlM step s

theorem run_append (s : LogicalState) (words later : List LogicalWord) :
    s.run (words ++ later) = (s.run words).bind (·.run later) := List.foldlM_append

theorem run_cons (s : LogicalState) (w : LogicalWord) (later : List LogicalWord) :
    s.run (w :: later) = (s.step w).bind (·.run later) := List.foldlM_cons

theorem run_singleton (s : LogicalState) (w : LogicalWord) : s.run [w] = s.step w := by
  rw [run_cons]
  cases s.step w <;> rfl

end LogicalState

/-- What the words of a logical expression denote, if it is one. -/
def LogicalTree.read? (words : List LogicalWord) : Option LogicalTree :=
  match (LogicalState.before [] none).run words with
  | some (.behind [] r) => some r.tree
  | _ => none

/-- Whether one operator may stand without parentheses in an operand of another. -/
def LogicalOp.admits (outer inner : LogicalOp) : Bool :=
  inner = outer || (outer = .or && inner = .and)

namespace Node

def words : Node → List LogicalWord
  | logical _ op left right => left.words ++ .op op :: right.words
  | paren _ e => .opening :: (e.words ++ [.closing])
  | n => [.operand n]

/-- What an expression denotes without regard to its parentheses. -/
def logicalTree : Node → LogicalTree
  | logical _ op left right => .apply op left.logicalTree right.logicalTree
  | paren _ e => e.logicalTree
  | n => .operand n

/-- Whether all operators stand where they may without more parentheses. -/
def isGrouped : Node → Bool
  | logical _ op left right =>
    left.logicalOp?.all op.admits && right.logicalOp?.all op.admits && left.isGrouped &&
      right.isGrouped
  | paren _ e => e.isGrouped
  | _ => true

end Node

namespace LogicalReading

/-- The disjunction and the conjunction of a reading without `??`. -/
def parts? : LogicalReading → Option (Option LogicalTree × LogicalTree)
  | single t => some (none, t)
  | mixed front last => some (front, last)
  | coalesced _ => none

/-- The operand or run of `??` that a reading is. -/
def run? : LogicalReading → Option LogicalTree
  | single t | coalesced t => some t
  | mixed .. => none

variable {r : LogicalReading} {front : Option LogicalTree} {last t : LogicalTree}

theorem tree_of_parts? (h : r.parts? = some (front, last)) : r.tree = last.joined .or front := by
  cases r <;> cases h <;> rfl

theorem tree_of_run? (h : r.run? = some t) : r.tree = t := by
  cases r <;> cases h <;> rfl

end LogicalReading

namespace LogicalPending

/-- What stands in front of an operand of `&&`: the disjunction that has ended, and the conjunction
that goes on. -/
inductive Opens : LogicalPending → Option LogicalTree → Option LogicalTree → Prop where
  | start : Opens none none none
  | and {r : LogicalReading} {front : Option LogicalTree} {last : LogicalTree} :
      r.parts? = some (front, last) → Opens (some (r, .and)) front (some last)
  | or {r : LogicalReading} {front : Option LogicalTree} {last : LogicalTree} :
      r.parts? = some (front, last) → Opens (some (r, .or)) (some (last.joined .or front)) none

/-- What stands in front of an operand of `??`. -/
inductive Coalesces : LogicalPending → Option LogicalTree → Prop where
  | start : Coalesces none none
  | more {r : LogicalReading} {t : LogicalTree} :
      r.run? = some t → Coalesces (some (r, .coalesce)) (some t)

variable {p : LogicalPending} {front last : Option LogicalTree}

theorem Opens.feed (h : p.Opens front last) (t : LogicalTree) :
    ∃ r, p.feed t = some r ∧ r.parts? = some (front, t.joined .and last) := by
  cases h with
  | start => exact ⟨_, rfl, rfl⟩
  | @and r _ _ hr => cases r <;> cases hr <;> exact ⟨_, rfl, rfl⟩
  | @or r _ _ hr => cases r <;> cases hr <;> exact ⟨_, rfl, rfl⟩

theorem Coalesces.feed (h : p.Coalesces front) (t : LogicalTree) :
    ∃ r, p.feed t = some r ∧ r.run? = some (t.joined .coalesce front) := by
  cases h with
  | start => exact ⟨_, rfl, rfl⟩
  | @more r _ hr => cases r <;> cases hr <;> exact ⟨_, rfl, rfl⟩

end LogicalPending

namespace Node

open LogicalState

variable {n l r : Node} {span : Span} {op : LogicalOp}

/-- How the words of an expression are read, by the operator that it stands with. -/
structure IsRead (n : Node) : Prop where
  single (h : n.logicalOp? = none) (outer : List LogicalPending) (p : LogicalPending) :
    ∃ t, Regroups t n.logicalTree ∧
      (before outer p).run n.words = (p.feed t).map (behind outer)
  conjunct (h : n.logicalOp?.all LogicalOp.and.admits = true) {p : LogicalPending}
    {front last : Option LogicalTree} (hp : p.Opens front last) (outer : List LogicalPending) :
    ∃ r t, (before outer p).run n.words = some (behind outer r) ∧ r.parts? = some (front, t) ∧
      Regroups t (n.logicalTree.joined .and last)
  disjunct (h : n.logicalOp?.all LogicalOp.or.admits = true) {p : LogicalPending}
    {front : Option LogicalTree} (hp : p.Opens front none) (outer : List LogicalPending) :
    ∃ r front' t, (before outer p).run n.words = some (behind outer r) ∧
      r.parts? = some (front', t) ∧
      Regroups (t.joined .or front') (n.logicalTree.joined .or front)
  alternative (h : n.logicalOp?.all LogicalOp.coalesce.admits = true) {p : LogicalPending}
    {front : Option LogicalTree} (hp : p.Coalesces front) (outer : List LogicalPending) :
    ∃ r t, (before outer p).run n.words = some (behind outer r) ∧ r.run? = some t ∧
      Regroups t (n.logicalTree.joined .coalesce front)

/-- Whatever operator an expression stands with, it is read as a whole. -/
theorem IsRead.whole (h : n.IsRead) (outer : List LogicalPending) :
    ∃ r, (before outer none).run n.words = some (behind outer r) ∧
      Regroups r.tree n.logicalTree := by
  by_cases hor : n.logicalOp?.all LogicalOp.or.admits = true
  · obtain ⟨r, front, t, hrun, hr, ht⟩ := h.disjunct hor .start outer
    exact ⟨r, hrun, LogicalReading.tree_of_parts? hr ▸ ht⟩
  · have hcoalesce : n.logicalOp?.all LogicalOp.coalesce.admits = true := by
      cases hop : n.logicalOp? with
      | none => rfl
      | some op =>
        rw [hop] at hor
        cases op with
        | coalesce => rfl
        | _ => exact absurd rfl hor
    obtain ⟨r, t, hrun, hr, ht⟩ := h.alternative hcoalesce .start outer
    exact ⟨r, hrun, LogicalReading.tree_of_run? hr ▸ ht⟩

/-- An expression that is read as one operand stands with any operator. -/
theorem isRead_of_single (h : ∀ outer p, ∃ t, Regroups t n.logicalTree ∧
    (before outer p).run n.words = (p.feed t).map (behind outer)) : n.IsRead where
  single _ := h
  conjunct _ p front last hp outer := by
    obtain ⟨t, ht, hrun⟩ := h outer p
    obtain ⟨r, hfeed, hr⟩ := hp.feed t
    rw [hfeed] at hrun
    exact ⟨r, _, hrun, hr, ht.joined⟩
  disjunct _ p front hp outer := by
    obtain ⟨t, ht, hrun⟩ := h outer p
    obtain ⟨r, hfeed, hr⟩ := hp.feed t
    rw [hfeed] at hrun
    exact ⟨r, front, t, hrun, hr, ht.joined⟩
  alternative _ p front hp outer := by
    obtain ⟨t, ht, hrun⟩ := h outer p
    obtain ⟨r, hfeed, hr⟩ := hp.feed t
    rw [hfeed] at hrun
    exact ⟨r, _, hrun, hr, ht.joined⟩

theorem isRead_paren (h : n.IsRead) : (paren span n).IsRead := by
  refine isRead_of_single fun outer p => ?_
  obtain ⟨r, hrun, hr⟩ := h.whole (p :: outer)
  refine ⟨r.tree, hr, ?_⟩
  rw [words, run_cons, step, Option.bind_some, run_append, hrun, Option.bind_some, run_singleton,
    step]

/-- The words behind an operator are read in front of what its left operand has been read as. -/
theorem run_words_logical {s t : LogicalState} {outer : List LogicalPending} {x : LogicalReading}
    (hl : s.run l.words = some (behind outer x))
    (hr : (before outer (some (x, op))).run r.words = some t) :
    s.run (logical span op l r).words = some t := by
  rw [words, run_append, hl, Option.bind_some, run_cons, step, Option.bind_some, hr]

theorem isRead_and (hl : l.IsRead) (hr : r.IsRead)
    (hlop : l.logicalOp?.all LogicalOp.and.admits = true)
    (hrop : r.logicalOp?.all LogicalOp.and.admits = true) : (logical span .and l r).IsRead := by
  have hconjunct {p : LogicalPending} {front last : Option LogicalTree} (hp : p.Opens front last)
      (outer : List LogicalPending) : ∃ x t,
        (before outer p).run (logical span .and l r).words = some (behind outer x) ∧
        x.parts? = some (front, t) ∧
        Regroups t ((logical span .and l r).logicalTree.joined .and last) := by
    obtain ⟨x, t, hrun, hx, ht⟩ := hl.conjunct hlop hp outer
    obtain ⟨y, u, hrun', hy, hu⟩ := hr.conjunct hrop (.and hx) outer
    exact ⟨y, u, run_words_logical hrun hrun', hy, hu.trans (ht.apply_joined _)⟩
  refine ⟨nofun, fun _ _ _ _ hp => hconjunct hp, fun _ _ front hp outer => ?_, nofun⟩
  obtain ⟨x, t, hrun, hx, ht⟩ := hconjunct hp outer
  exact ⟨x, front, t, hrun, hx, ht.joined⟩

theorem isRead_or (hl : l.IsRead) (hr : r.IsRead)
    (hlop : l.logicalOp?.all LogicalOp.or.admits = true)
    (hrop : r.logicalOp?.all LogicalOp.or.admits = true) : (logical span .or l r).IsRead := by
  refine ⟨nofun, nofun, fun _ p front hp outer => ?_, nofun⟩
  obtain ⟨x, front', t, hrun, hx, ht⟩ := hl.disjunct hlop hp outer
  obtain ⟨y, front'', u, hrun', hy, hu⟩ := hr.disjunct hrop (.or hx) outer
  exact ⟨y, front'', u, run_words_logical hrun hrun', hy, hu.trans (ht.apply_joined _)⟩

theorem isRead_coalesce (hl : l.IsRead) (hr : r.IsRead)
    (hlop : l.logicalOp?.all LogicalOp.coalesce.admits = true)
    (hrop : r.logicalOp?.all LogicalOp.coalesce.admits = true) :
    (logical span .coalesce l r).IsRead := by
  refine ⟨nofun, nofun, nofun, fun _ p front hp outer => ?_⟩
  obtain ⟨x, t, hrun, hx, ht⟩ := hl.alternative hlop hp outer
  obtain ⟨y, u, hrun', hy, hu⟩ := hr.alternative hrop (.more hx) outer
  exact ⟨y, u, run_words_logical hrun hrun', hy, hu.trans (ht.apply_joined _)⟩

theorem isGrouped_logical : (logical span op l r).isGrouped = true ↔
    l.logicalOp?.all op.admits = true ∧ r.logicalOp?.all op.admits = true ∧
      l.isGrouped = true ∧ r.isGrouped = true := by
  simp [isGrouped, and_assoc]

theorem isRead_of_isGrouped (h : n.isGrouped = true) : n.IsRead := by
  induction n using induct with
  | step n ih =>
    cases n with
    | logical span op l r =>
      obtain ⟨hlop, hrop, hl, hr⟩ := isGrouped_logical.mp h
      have hl := ih l (.head _) hl
      have hr := ih r (.tail _ (.head _)) hr
      cases op with
      | and => exact isRead_and hl hr hlop hrop
      | or => exact isRead_or hl hr hlop hrop
      | coalesce => exact isRead_coalesce hl hr hlop hrop
    | paren span e => exact isRead_paren (ih e (.head _) h)
    | _ => exact isRead_of_single fun outer p => ⟨_, .refl _, run_singleton _ _⟩

/-- An expression whose operators stand where they may is read as itself, but for the grouping of
runs of one operator. -/
theorem read?_words (h : n.isGrouped = true) :
    ∃ t, read? n.words = some t ∧ Regroups t n.logicalTree := by
  obtain ⟨r, hrun, hr⟩ := (isRead_of_isGrouped h).whole []
  exact ⟨r.tree, by rw [read?, hrun], hr⟩

example (a b c : Node) :
    read? [.operand a, .op .or, .operand b, .op .and, .operand c] =
      some (.apply .or (.operand a) (.apply .and (.operand b) (.operand c))) := rfl

example (a b c : Node) :
    read? [.operand a, .op .coalesce, .operand b, .op .or, .operand c] = none := rfl

end Node

end Adequacy
