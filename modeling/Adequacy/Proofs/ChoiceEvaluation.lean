import Adequacy.Proofs.ChoiceReading
import Adequacy.Proofs.ProbeSites

namespace Adequacy

/-- What the evaluation of expressions of choices is told: the values of atoms and of the calls that
report ids, and what the choices ask of a value. -/
structure ChoiceValues (V : Type) where
  atom : Node → V
  probe : Nat → V
  isTruthy : V → Bool
  isNullish : V → Bool

/-- Whether the value of its left operand is that of a logical expression. -/
def ChoiceValues.decides {V : Type} (σ : ChoiceValues V) : LogicalOp → V → Bool
  | .and, v => !σ.isTruthy v
  | .or, v => σ.isTruthy v
  | .coalesce, v => !σ.isNullish v

/-- What happens in an evaluation: an atom is evaluated, or a branch is begun. -/
inductive ChoiceEvent (β : Type) where
  | atom (n : Node)
  | branch (b : β)

/-- The value of an expression and what happened in its evaluation, in order. -/
structure Evaluation (β V : Type) where
  value : V
  trace : List (ChoiceEvent β)

namespace Evaluation

variable {β γ V : Type}

/-- An evaluation with what happened in front of it. -/
def behind (front : List (ChoiceEvent β)) (x : Evaluation β V) : Evaluation β V :=
  ⟨x.value, front ++ x.trace⟩

/-- A logical operator evaluates its right operand unless the value of the left one decides. -/
def applied (σ : ChoiceValues V) (op : LogicalOp) (x y : Evaluation β V) : Evaluation β V :=
  if σ.decides op x.value then x else y.behind x.trace

/-- A conditional evaluates one of its arms behind its test. -/
def chosen (σ : ChoiceValues V) (test yes no : Evaluation β V) : Evaluation β V :=
  (if σ.isTruthy test.value then yes else no).behind test.trace

end Evaluation

open Evaluation

/-- Evaluates a tree, where the calls are the branches that are begun. -/
def ChoiceTree.evaluate {V : Type} (σ : ChoiceValues V) : ChoiceTree → Evaluation Nat V
  | atom n => ⟨σ.atom n, [.atom n]⟩
  | probe id => ⟨σ.probe id, [.branch id]⟩
  | apply op l r => applied σ op (l.evaluate σ) (r.evaluate σ)
  | choose test yes no => chosen σ (test.evaluate σ) (yes.evaluate σ) (no.evaluate σ)
  | follow front back => (back.evaluate σ).behind (front.evaluate σ).trace

namespace Node

/-- The evaluation of an operand begins a branch unless it is a logical expression itself. -/
def evaluatedOperand {V : Type} (n : Node) (x : Evaluation ProbeSite V) : Evaluation ProbeSite V :=
  if n.peel.logicalOp?.isSome then x else x.behind [.branch ⟨.branch, n.peel, n.span.start⟩]

/-- The evaluation of an arm of a conditional begins a branch. -/
def evaluatedArm {V : Type} (construct n : Node) (x : Evaluation ProbeSite V) :
    Evaluation ProbeSite V :=
  x.behind [.branch ⟨.branch, construct, n.span.start⟩]

/-- Evaluates an expression as it stands in the source. What is no choice is an atom. -/
def evaluate {V : Type} (σ : ChoiceValues V) : Node → Evaluation ProbeSite V
  | logical _ op l r =>
    applied σ op (l.evaluatedOperand (l.evaluate σ)) (r.evaluatedOperand (r.evaluate σ))
  | conditional span test yes no =>
    let construct := conditional span test yes no
    chosen σ (test.evaluate σ) (construct.evaluatedArm yes (yes.evaluate σ))
      (construct.evaluatedArm no (no.evaluate σ))
  | paren _ e => e.evaluate σ
  | n => ⟨σ.atom n, [.atom n]⟩

end Node

/-- Two events are the same, but for how branches are told. -/
inductive ChoiceEvent.Same {β γ : Type} (R : β → γ → Prop) :
    ChoiceEvent β → ChoiceEvent γ → Prop where
  | atom (n : Node) : Same R (atom n) (atom n)
  | branch {b : β} {c : γ} (h : R b c) : Same R (branch b) (branch c)

namespace Evaluation

variable {β γ V : Type} {R S : β → γ → Prop} {σ : ChoiceValues V} {op : LogicalOp}
  {x y z : Evaluation β V} {x' y' z' : Evaluation γ V}

/-- Two evaluations have the same value, evaluate the same atoms in the same order, and begin the
same branches in between. -/
structure Agrees (R : β → γ → Prop) (x : Evaluation β V) (y : Evaluation γ V) : Prop where
  value_eq : x.value = y.value
  trace : List.Forall₂ (ChoiceEvent.Same R) x.trace y.trace

namespace Agrees

theorem mono (h : x.Agrees R x') (hRS : ∀ b c, R b c → S b c) : x.Agrees S x' where
  value_eq := h.value_eq
  trace := h.trace.imp fun _ _ hsame => by
    cases hsame with
    | atom n => exact .atom n
    | branch hb => exact .branch (hRS _ _ hb)

theorem behind {front : List (ChoiceEvent β)} {front' : List (ChoiceEvent γ)} (h : x.Agrees R x')
    (hf : List.Forall₂ (ChoiceEvent.Same R) front front') :
    (x.behind front).Agrees R (x'.behind front') :=
  ⟨h.value_eq, List.rel_append hf h.trace⟩

theorem applied (hx : x.Agrees R x') (hy : y.Agrees R y') :
    (applied σ op x y).Agrees R (applied σ op x' y') := by
  unfold Evaluation.applied
  rw [hx.value_eq]
  split
  · exact hx
  · exact hy.behind hx.trace

theorem chosen (hx : x.Agrees R x') (hy : y.Agrees R y') (hz : z.Agrees R z') :
    (chosen σ x y z).Agrees R (chosen σ x' y' z') := by
  unfold Evaluation.chosen
  rw [hx.value_eq]
  split
  · exact hy.behind hx.trace
  · exact hz.behind hx.trace

end Agrees

end Evaluation

end Adequacy
