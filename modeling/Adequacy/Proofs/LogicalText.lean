import Adequacy.Proofs.Gaps
import Adequacy.Proofs.LogicalReading
import Adequacy.Proofs.Turning

namespace Adequacy

/-- Blanks and comments of today. -/
inductive PlainGap : List Char → Prop where
  | nil : PlainGap []
  | blank {c : Char} {gap : List Char} (hc : Scan.isLineEnd c || Scan.isSpace c)
      (h : PlainGap gap) : PlainGap (c :: gap)
  | line {text gap : List Char} {c : Char} (ht : ∀ d ∈ text, Scan.isLineEnd d = false)
      (hc : Scan.isLineEnd c = true) (h : PlainGap gap) :
      PlainGap ('/' :: '/' :: (text ++ c :: gap))
  | block {text gap : List Char} (ht : Token.blockEnd? text = some text.length) (h : PlainGap gap) :
      PlainGap ('/' :: '*' :: (text ++ gap))

theorem PlainGap.append {as bs : List Char} (ha : PlainGap as) (hb : PlainGap bs) :
    PlainGap (as ++ bs) := by
  induction ha with
  | nil => exact hb
  | blank hc _ ih => exact .blank hc ih
  | @line text gap c ht hc _ ih => simpa using PlainGap.line ht hc ih
  | @block text gap ht _ ih => simpa using PlainGap.block ht ih

/-- Whether a text begins with a comment that only old programs use. -/
def startsOld (text : List Char) : Bool := oldMarks.any (·.toList.isPrefixOf text)

section spelling

def LogicalWord.text (source : List Char) : LogicalWord → List Char
  | operand n => n.span.chars source
  | op o => o.text.toList
  | opening => ['(']
  | closing => [')']

/-- A text is that of some words, with gaps around them. Operands read as they do in the source. -/
inductive Spells (source : List Char) : List LogicalWord → List Char → Prop where
  | nil {gap : List Char} : PlainGap gap → Spells source [] gap
  | cons (w : LogicalWord) {gap text : List Char} {words : List LogicalWord} :
      PlainGap gap → Spells source words text →
      Spells source (w :: words) (gap ++ (w.text source ++ text))

namespace Spells

variable {source text text' gap : List Char} {words later : List LogicalWord}

theorem single (w : LogicalWord) : Spells source [w] (w.text source) := by
  simpa using cons w .nil (.nil .nil)

theorem behind (hg : PlainGap gap) (h : Spells source words text) :
    Spells source words (gap ++ text) := by
  cases h with
  | nil hgap => exact .nil (hg.append hgap)
  | cons w hgap h =>
    rw [← List.append_assoc]
    exact .cons w (hg.append hgap) h

theorem append (h : Spells source words text) (h' : Spells source later text') :
    Spells source (words ++ later) (text ++ text') := by
  induction h with
  | nil hgap => exact h'.behind hgap
  | cons w hgap _ ih =>
    rw [List.append_assoc, List.append_assoc]
    exact .cons w hgap ih

end Spells

end spelling

/-- Nothing stands between two offsets but what is skipped. -/
structure Gapped (source : List Char) (start stop : Nat) : Prop where
  span_in : Span.In source ⟨start, stop⟩
  plain : PlainGap (Span.chars source ⟨start, stop⟩)

/-- A text stands under a span. -/
structure Span.Reads (source : List Char) (s : Span) (text : List Char) : Prop where
  span_in : s.In source
  chars_eq : s.chars source = text

/-- The operator between two operands stands under a span. -/
structure LogicalOp.Between (source : List Char) (op : LogicalOp) (left right : Node)
    (token : Span) : Prop where
  front : Gapped source left.span.stop token.start
  reads : token.Reads source op.text.toList
  back : Gapped source token.stop right.span.start

namespace Node

/-- Whether an expression is a word of the logical expression that it stands in. -/
def isOperand : Node → Bool
  | logical .. | paren .. => false
  | _ => true

theorem words_of_isOperand {n : Node} (h : n.isOperand = true) : n.words = [.operand n] := by
  cases n <;> first | rfl | cases h

/-- A logical expression is what its span reads as: its operands, operators and parentheses, with
gaps between them. -/
inductive Written (source : List Char) : Node → Prop where
  | operand {n : Node} (hn : n.isOperand = true) (hin : n.span.In source)
      (hold : startsOld (n.span.chars source) = false) : Written source n
  | paren {start stop : Nat} {e : Node}
      (hopening : Span.Reads source ⟨start, start + 1⟩ ['('])
      (hfront : Gapped source (start + 1) e.span.start) (he : Written source e)
      (hback : Gapped source e.span.stop stop)
      (hclosing : Span.Reads source ⟨stop, stop + 1⟩ [')']) :
      Written source (paren ⟨start, stop + 1⟩ e)
  | logical {span token : Span} {op : LogicalOp} {l r : Node}
      (hspan : span = ⟨l.span.start, r.span.stop⟩) (hl : Written source l)
      (htoken : op.Between source l r token) (hr : Written source r) :
      Written source (logical span op l r)

/-- A patch makes another expression of the text of one. -/
def Rewrites (source : List Char) (n m : Node) (p : Patch) : Prop :=
  ∃ new, Patch.Turns source n.span p new ∧ Spells source m.words new

end Node

namespace Patch.Turns

variable {source : List Char} {start stop : Nat} {s : Span} {text : List Char}

theorem gap (h : Gapped source start stop) :
    Turns source ⟨start, stop⟩ [] (Span.chars source ⟨start, stop⟩) := keep h.span_in

theorem reads (h : s.Reads source text) : Turns source s [] text := h.chars_eq ▸ keep h.span_in

end Patch.Turns

namespace Node

variable {source : List Char} {n m l l' r r' e e' : Node} {p q : Patch} {span : Span}
  {op new : LogicalOp} {token : Span}

theorem rewrites_operand (hn : n.isOperand = true) (hin : n.span.In source) :
    Rewrites source n n [] := by
  refine ⟨n.span.chars source, .keep hin, ?_⟩
  rw [words_of_isOperand hn]
  exact .single (.operand n)

theorem rewrites_paren {start stop : Nat}
    (hopening : Span.Reads source ⟨start, start + 1⟩ ['('])
    (hfront : Gapped source (start + 1) e.span.start) (he : Rewrites source e e' p)
    (hback : Gapped source e.span.stop stop)
    (hclosing : Span.Reads source ⟨stop, stop + 1⟩ [')']) :
    Rewrites source (paren ⟨start, stop + 1⟩ e) (paren span e') p := by
  obtain ⟨text, hturns, hspells⟩ := he
  refine ⟨_, ?_, .append (.single .opening) (.behind hfront.plain (hspells.append
    (.behind hback.plain (.single .closing))))⟩
  have hright := hturns.append ((Patch.Turns.gap hback).append (Patch.Turns.reads hclosing))
  have hall := (Patch.Turns.reads hopening).append ((Patch.Turns.gap hfront).append hright)
  simp only [List.nil_append, List.append_nil] at hall
  exact hall

theorem rewrites_logical {edit : Patch} (hl : Rewrites source l l' p)
    (htoken : op.Between source l r token)
    (hedit : Patch.Turns source token edit new.text.toList) (hr : Rewrites source r r' q) :
    Rewrites source (logical ⟨l.span.start, r.span.stop⟩ op l r) (logical span new l' r')
      (p ++ (edit ++ q)) := by
  obtain ⟨text, hturns, hspells⟩ := hl
  obtain ⟨text', hturns', hspells'⟩ := hr
  refine ⟨_, ?_, hspells.append (.behind htoken.front.plain (.append (.single (.op new))
    (.behind htoken.back.plain hspells')))⟩
  have hright := hedit.append ((Patch.Turns.gap htoken.back).append hturns')
  have hall := hturns.append ((Patch.Turns.gap htoken.front).append hright)
  exact hall

/-- Parentheses may be put around an expression. -/
theorem rewrites_wrap (h : Rewrites source n m p) :
    Rewrites source n (paren span m)
      ([Edit.insert n.span.start "("] ++ p ++ [Edit.insert n.span.stop ")"]) := by
  obtain ⟨text, hturns, hspells⟩ := h
  refine ⟨_, ?_, .append (.single .opening) (hspells.append (.single .closing))⟩
  have hopening := Patch.Turns.insert hturns.span_in.start_isBoundary "("
  have hclosing := Patch.Turns.insert hturns.span_in.stop_isBoundary ")"
  have hall := hopening.append (hturns.append hclosing)
  simpa [LogicalWord.text] using hall

/-- The words of an expression spell the text under its span. -/
theorem Written.rewrites (h : n.Written source) : Rewrites source n n [] := by
  induction h with
  | operand hn hin => exact rewrites_operand hn hin
  | paren hopening hfront _ hback hclosing ih =>
    exact rewrites_paren hopening hfront ih hback hclosing
  | logical hspan _ htoken _ hl hr =>
    subst hspan
    exact rewrites_logical hl htoken (.reads htoken.reads) hr

end Node

end Adequacy
