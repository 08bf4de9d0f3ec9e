import Adequacy.Proofs.Confinement
import Adequacy.Proofs.Occurrences

namespace Adequacy

namespace Node

/-- What an access or a call is made on. -/
def spineBase? : Node → Option Node
  | member _ base _ | call _ base _ | chainMember _ _ base _ | chainCall _ _ base _ => some base
  | _ => none

/-- A node and what is reached from it through objects and callees, parentheses not crossed. -/
def spine : Node → List Node
  | member s base i => member s base i :: base.spine
  | call s base args => call s base args :: base.spine
  | chainMember s optional base i => chainMember s optional base i :: base.spine
  | chainCall s optional base args => chainCall s optional base args :: base.spine
  | n => [n]

/-- Whether the node is a link with the mark of its own. -/
def isOptional : Node → Bool
  | chainMember _ optional _ _ | chainCall _ optional _ _ => optional
  | _ => false

/-- The mark of a link as it is looked up. -/
def mark? (source : String) (n : Node) : Option Span :=
  n.spineBase?.bind fun base => Token.find? source base.span.stop "?."

/-- The mark of a link where it was read: what it is made on comes right before it. -/
def HasMark (source : String) (n : Node) (mark : Span) : Prop :=
  ∃ base, n.spineBase? = some base ∧ mark.stop = mark.start + 2 ∧
    Behind source.toList base.span.stop "?" (mark.start + 1)

/-- What a mandatory link has in place of the mark: a name still needs a dot. -/
def mandatoryMark : Node → String
  | chainMember _ _ _ none => "."
  | _ => ""

/-- The edit that makes a link mandatory, if its mark is found. -/
def linkEdit? (source : String) (n : Node) : Option Edit :=
  (n.mark? source).map (⟨·, n.mandatoryMark⟩)

variable {n c m : Node} {s t : Standing} {source assertion : String} {i k : Nat} {o : Occurrence}

theorem spine_zero : n.spine[0]? = some n := by cases n <;> rfl

theorem spine_succ : n.spine[k + 1]? = n.spineBase?.bind (·.spine[k]?) := by cases n <;> rfl

theorem mandatory_eq {base : Node} (h : n.spineBase? = some base) :
    Mutation.mandatory source n.isOptional base n.mandatoryMark =
      (if n.isOptional then n.linkEdit? source else none).toList := by
  cases ho : n.isOptional with
  | false => rfl
  | true =>
    rw [Mutation.mandatory, linkEdit?, mark?, h]
    cases hfind : Token.find? source base.span.stop "?." <;> simp [hfind]

theorem chainPatch_eq : Mutation.chainPatch source n =
    (n.spine.filter isOptional).filterMap (linkEdit? source) := by
  have hlink {n : Node} {later : List Node} :
      ((n :: later).filter isOptional).filterMap (linkEdit? source) =
        (if n.isOptional then n.linkEdit? source else none).toList ++
          (later.filter isOptional).filterMap (linkEdit? source) := by
    cases ho : n.isOptional with
    | false => simp [ho]
    | true => cases he : n.linkEdit? source <;> simp [ho, he]
  fun_induction Mutation.chainPatch source n with
  | case1 span optional base index ih =>
    rw [ih, spine, hlink, ← mandatory_eq rfl]
    cases index <;> rfl
  | case2 span optional base args ih => rw [ih, spine, hlink, ← mandatory_eq rfl]; rfl
  | case3 span base index ih => exact ih
  | case4 span base args ih => exact ih
  | case5 n h1 h2 h3 h4 =>
    cases n with
    | chainMember => exact absurd rfl (h1 _ _ _ _)
    | chainCall => exact absurd rfl (h2 _ _ _ _)
    | member => exact absurd rfl (h3 _ _ _)
    | call => exact absurd rfl (h4 _ _ _)
    | _ => rfl

theorem placed_of_spineBase? (h : n.spineBase? = some c) : ∃ rest : List Node,
    n.placed s = ({ onChain := n.isChainLink || s.onChain }, c) :: rest.map ({}, ·) := by
  cases n <;> cases h <;> exact ⟨_, rfl⟩

theorem onChain_of_spineBase?_eq_none {p : Standing × Node} (h : n.spineBase? = none)
    (hp : p ∈ n.placed s) : p.1.onChain = false := by
  cases n with
  | logical =>
    rcases List.mem_cons.mp hp with rfl | hp
    · rfl
    · cases List.mem_singleton.mp hp
      rfl
  | member | call | chainMember | chainCall => cases h
  | _ =>
    obtain ⟨c, -, rfl⟩ := List.mem_map.mp hp
    rfl

/-- A child stands on a chain if it is what a link is made on, or what something else that stands on
the chain is made on. -/
theorem onChain_placed (h : (n.placed s)[i]? = some (t, c)) : t.onChain = true ↔
    (i = 0 ∧ n.spineBase? = some c) ∧ (n.isChainLink = true ∨ s.onChain = true) := by
  cases hbase : n.spineBase? with
  | none =>
    have := onChain_of_spineBase?_eq_none hbase (List.mem_of_getElem? h)
    simp [show t.onChain = false from this]
  | some base =>
    obtain ⟨rest, hplaced⟩ := @placed_of_spineBase? n base s hbase
    rw [hplaced] at h
    cases i with
    | zero =>
      cases h
      simp
    | succ i =>
      rw [List.getElem?_cons_succ, List.getElem?_map, Option.map_eq_some_iff] at h
      obtain ⟨d, -, hd⟩ := h
      cases hd
      simp

end Node

namespace Occurrence

/-- One occurrence is so many steps through objects and callees away from another one. -/
def ReachesIn (k : Nat) (a o : Occurrence) : Prop :=
  o.path = a.path ++ List.replicate k 0 ∧ a.node.spine[k]? = some o.node

variable {a b o : Occurrence} {i k j : Nat}

theorem reachesIn_inChild : ReachesIn k (inChild i a) (inChild i o) ↔ ReachesIn k a o := by
  simp [ReachesIn, inChild]

end Occurrence

open Occurrence

namespace Node

variable {n c : Node} {s t : Standing} {assertion : String} {o : Occurrence} {i k : Nat}

theorem not_reachesIn_zero : ¬ ReachesIn 0 ⟨[], s, n⟩ (inChild i o) := by
  simp [ReachesIn, inChild]

/-- The first step from a node leads to what it is made on. -/
theorem reachesIn_succ (h : (n.placed s)[i]? = some (t, c)) :
    ReachesIn (k + 1) ⟨[], s, n⟩ (inChild i o) ↔
      (i = 0 ∧ n.spineBase? = some c) ∧ ReachesIn k ⟨[], t, c⟩ o := by
  simp only [ReachesIn, inChild, List.replicate_succ, List.nil_append, List.cons.injEq, spine_succ,
    Option.bind_eq_some_iff]
  constructor
  · rintro ⟨⟨rfl, hpath⟩, base, hbase, hspine⟩
    obtain ⟨rest, hplaced⟩ := @placed_of_spineBase? n base s hbase
    rw [hplaced] at h
    cases h
    exact ⟨⟨rfl, hbase⟩, hpath, hspine⟩
  · rintro ⟨⟨rfl, hbase⟩, hpath, hspine⟩
    exact ⟨⟨rfl, hpath⟩, c, hbase, hspine⟩

/-- Whether an occurrence stands on a chain is handed down from the links that reach it. -/
theorem onChain_visited (h : o ∈ n.visited assertion s) : o.standing.onChain = true ↔
    (s.onChain = true ∧ ∃ k, ReachesIn k ⟨[], s, n⟩ o) ∨
      ∃ a ∈ n.visited assertion s, a.node.isChainLink = true ∧ ∃ k, ReachesIn (k + 1) a o := by
  induction n using induct generalizing s o with
  | step n ih =>
    cases hcall : n.isCallOf assertion with
    | true =>
      rw [visited_of_isCallOf hcall] at h
      cases h
    | false =>
      rw [visited_eq hcall] at h ⊢
      rcases List.mem_cons.mp h with rfl | h
      · constructor
        · intro hs
          exact .inl ⟨hs, 0, rfl, spine_zero⟩
        · rintro (⟨hs, -⟩ | ⟨a, -, -, k, hpath, -⟩)
          · exact hs
          · simp [List.replicate_succ] at hpath
      · obtain ⟨i, row, hrow, o, ho, rfl⟩ := mem_numbered_iff.mp h
        rw [List.getElem?_map, Option.map_eq_some_iff] at hrow
        obtain ⟨⟨t, c⟩, hplaced, rfl⟩ := hrow
        have hchild := mem_children_of_mem_placed (List.mem_of_getElem? hplaced)
        refine (ih c hchild ho).trans ?_
        rw [onChain_placed hplaced, List.exists_mem_cons_iff]
        constructor
        · rintro (⟨⟨hbase, hlink | hs⟩, k, hreach⟩ | ⟨a, ha, hlink, k, hreach⟩)
          · exact .inr (.inl ⟨hlink, k, (reachesIn_succ hplaced).mpr ⟨hbase, hreach⟩⟩)
          · exact .inl ⟨hs, k + 1, (reachesIn_succ hplaced).mpr ⟨hbase, hreach⟩⟩
          · refine .inr (.inr ⟨inChild i a, mem_numbered_iff.mpr ⟨i, _, ?_, a, ha, rfl⟩, hlink, k,
              reachesIn_inChild.mpr hreach⟩)
            rw [List.getElem?_map, hplaced]
            rfl
        · rintro (⟨hs, k, hreach⟩ | ⟨hlink, k, hreach⟩ | ⟨a, ha, hlink, k, hreach⟩)
          · cases k with
            | zero => exact absurd hreach not_reachesIn_zero
            | succ k =>
              obtain ⟨hbase, hreach⟩ := (reachesIn_succ hplaced).mp hreach
              exact .inl ⟨⟨hbase, .inr hs⟩, k, hreach⟩
          · obtain ⟨hbase, hreach⟩ := (reachesIn_succ hplaced).mp hreach
            exact .inl ⟨⟨hbase, .inl hlink⟩, k, hreach⟩
          · obtain ⟨j, row, hrow, a, ha, rfl⟩ := mem_numbered_iff.mp ha
            obtain rfl : i = j := (List.cons.inj hreach.1).1
            rw [List.getElem?_map, hplaced] at hrow
            cases hrow
            exact .inr ⟨a, ha, hlink, k, reachesIn_inChild.mp hreach⟩

theorem spine_add {m : Node} (h : n.spine[k]? = some m) (j : Nat) :
    n.spine[k + j]? = m.spine[j]? := by
  induction k generalizing n with
  | zero =>
    rw [spine_zero] at h
    cases h
    rw [Nat.zero_add]
  | succ k ih =>
    rw [spine_succ] at h
    obtain ⟨base, hbase, h⟩ := Option.bind_eq_some_iff.mp h
    rw [Nat.add_right_comm, spine_succ, hbase]
    exact ih h

/-- A node so many steps along the spine is where the path says. -/
theorem at?_of_spine {m : Node} (h : n.spine[k]? = some m) :
    n.at? (List.replicate k 0) = some m := by
  induction k generalizing n with
  | zero => rwa [spine_zero] at h
  | succ k ih =>
    rw [spine_succ] at h
    obtain ⟨base, hbase, h⟩ := Option.bind_eq_some_iff.mp h
    have hfirst : n.children[0]? = some base := by cases n <;> cases hbase <;> rfl
    rw [List.replicate_succ, at?, hfirst]
    exact ih h

/-- No skipped call is on the way to a link along the spine, as the name that such a call is made on
is none. -/
theorem leads_of_spine {m : Node} (h : n.spine[k]? = some m) (hm : m.isChainLink = true) :
    n.Leads assertion (List.replicate k 0) m := by
  induction k generalizing n with
  | zero =>
    rw [spine_zero] at h
    cases h
    refine leads_nil.mpr ⟨rfl, ?_⟩
    cases m <;> first | rfl | cases hm
  | succ k ih =>
    rw [spine_succ] at h
    obtain ⟨base, hbase, h⟩ := Option.bind_eq_some_iff.mp h
    have hfirst : n.children[0]? = some base := by cases n <;> cases hbase <;> rfl
    refine leads_cons.mpr ⟨?_, base, hfirst, ih h⟩
    cases n with
    | call span callee args =>
      cases hbase
      cases base with
      | name span text =>
        have hname : m ∈ [name span text] := List.mem_of_getElem? h
        cases List.mem_singleton.mp hname
        cases hm
      | _ => rfl
    | _ => rfl

end Node

namespace Program

variable {p : Program} {assertion : String} {a o : Occurrence} {i j k : Nat}

/-- An occurrence stands on a chain if a link reaches it. -/
theorem onChain_visited (h : o ∈ p.visited assertion) : o.standing.onChain = true ↔
    ∃ a ∈ p.visited assertion, a.node.isChainLink = true ∧ ∃ k, ReachesIn (k + 1) a o := by
  obtain ⟨i, row, hrow, o, ho, rfl⟩ := mem_numbered_iff.mp h
  rw [List.getElem?_map, Option.map_eq_some_iff] at hrow
  obtain ⟨n, hn, rfl⟩ := hrow
  refine (Node.onChain_visited ho).trans ?_
  constructor
  · rintro (⟨hs, -⟩ | ⟨a, ha, hlink, k, hreach⟩)
    · cases hs
    · refine ⟨inChild i a, mem_numbered_iff.mpr ⟨i, _, ?_, a, ha, rfl⟩, hlink, k,
        reachesIn_inChild.mpr hreach⟩
      rw [List.getElem?_map, hn]
      rfl
  · rintro ⟨a, ha, hlink, k, hreach⟩
    obtain ⟨j, row, hrow, a, ha, rfl⟩ := mem_numbered_iff.mp ha
    obtain rfl : i = j := (List.cons.inj hreach.1).1
    rw [List.getElem?_map, hn] at hrow
    cases hrow
    exact .inr ⟨a, ha, hlink, k, reachesIn_inChild.mp hreach⟩

/-- What a visited link reaches along its spine is visited if it is a link. -/
theorem exists_visited_of_spine {m : Node} (h : a ∈ p.visited assertion)
    (hspine : a.node.spine[k]? = some m) (hm : m.isChainLink = true) :
    ∃ o ∈ p.visited assertion, o.node = m ∧ ReachesIn k a o := by
  have hlead := (exists_visited_iff.mp ⟨a, h, rfl, rfl⟩).append (Node.leads_of_spine hspine hm)
  obtain ⟨o, ho, hpath, rfl⟩ := exists_visited_iff.mpr hlead
  exact ⟨o, ho, rfl, hpath, hspine⟩

theorem reachesIn_add (hj : ReachesIn j a b) (hk : ReachesIn k b o) : ReachesIn (j + k) a o := by
  refine ⟨?_, ?_⟩
  · rw [hk.1, hj.1, List.append_assoc, List.replicate_append_replicate]
  · rw [Node.spine_add hj.2]
    exact hk.2

/-- The outermost link of the chain that a link is of. -/
theorem exists_head (ho : o ∈ p.visited assertion) (hlink : o.node.isChainLink = true) :
    ∃ h ∈ p.visited assertion, h.node.isChainLink = true ∧ h.standing.onChain = false ∧
      ∃ k, ReachesIn k h o := by
  induction hlen : o.path.length using Nat.strong_induction_on generalizing o with
  | _ len ih =>
    cases hs : o.standing.onChain with
    | false => exact ⟨o, ho, hlink, hs, 0, by simp, Node.spine_zero⟩
    | true =>
      obtain ⟨a, ha, halink, k, hreach⟩ := (onChain_visited ho).mp hs
      have hlt : a.path.length < len := by
        rw [← hlen, hreach.1, List.length_append, List.length_replicate]
        omega
      obtain ⟨h, hh, hhlink, hhead, j, hj⟩ := ih _ hlt ha halink rfl
      exact ⟨h, hh, hhlink, hhead, j + (k + 1), reachesIn_add hj hreach⟩

/-- Of two occurrences that reach a third one, the one that is further away reaches the other. -/
theorem reachesIn_of_le (ha : a ∈ p.visited assertion) (hb : b ∈ p.visited assertion)
    (hj : ReachesIn j a o) (hk : ReachesIn k b o) (hle : j ≤ k) : ReachesIn (k - j) b a := by
  have hpath : a.path = b.path ++ List.replicate (k - j) 0 := by
    have hsplit : List.replicate k 0 = List.replicate (k - j) 0 ++ List.replicate j 0 := by
      rw [List.replicate_append_replicate, Nat.sub_add_cancel hle]
    have hsame := hj.1.symm.trans hk.1
    rw [hsplit, ← List.append_assoc] at hsame
    exact List.append_cancel_right hsame
  obtain ⟨m, hm⟩ : ∃ m, b.node.spine[k - j]? = some m := by
    have hlt := (List.getElem?_eq_some_iff.mp hk.2).1
    exact ⟨_, List.getElem?_eq_getElem (by omega)⟩
  refine ⟨hpath, hm.trans ?_⟩
  have hat := (exists_visited_iff.mp ⟨a, ha, rfl, rfl⟩).1
  rw [hpath, at?_append (exists_visited_iff.mp ⟨b, hb, rfl, rfl⟩).1, Node.at?_of_spine hm] at hat
  exact hat

/-- No two outermost links reach the same node. -/
theorem head_unique (ha : a ∈ p.visited assertion) (hb : b ∈ p.visited assertion)
    (halink : a.node.isChainLink = true) (hblink : b.node.isChainLink = true)
    (hahead : a.standing.onChain = false) (hbhead : b.standing.onChain = false)
    (hj : ReachesIn j a o) (hk : ReachesIn k b o) : a = b := by
  have hcases {a b : Occurrence} {j k : Nat} (ha : a ∈ p.visited assertion)
      (hb : b ∈ p.visited assertion) (hblink : b.node.isChainLink = true)
      (hahead : a.standing.onChain = false) (hj : ReachesIn j a o) (hk : ReachesIn k b o)
      (hle : j ≤ k) : a = b := by
    have hreach := reachesIn_of_le ha hb hj hk hle
    cases hsteps : k - j with
    | zero =>
      refine eq_of_path_eq ha hb ?_
      have := hreach.1
      rwa [hsteps, List.replicate_zero, List.append_nil] at this
    | succ i =>
      rw [hsteps] at hreach
      rw [(onChain_visited ha).mpr ⟨b, hb, hblink, i, hreach⟩] at hahead
      cases hahead
  rcases Nat.le_total j k with hle | hle
  · exact hcases ha hb hblink hahead hj hk hle
  · exact (hcases hb ha halink hbhead hk hj hle).symm

end Program

namespace Mutation

variable {source : String} {s : Standing} {n : Node} {m : Mutation}

theorem kind_of_binary? {op : String} {r : MutantKind × List String}
    (h : Catalog.binary? op = some r) : r.1 ≠ .optionalChain := by
  obtain ⟨row, hrow, rfl⟩ := List.mem_map.mp (List.mem_of_find?_eq_some h)
  simp only [List.mem_cons, List.not_mem_nil, or_false] at hrow
  rcases hrow with rfl | rfl | rfl <;> nofun

theorem kind_of_mem_operator {parent : Option LogicalOp} {node : Span} {op : String}
    {left right : Node} (hm : m ∈ operator source parent node op left right) :
    m.kind ≠ .optionalChain := by
  unfold operator at hm
  split at hm
  next kind replacements token hkind htoken =>
    obtain ⟨text, -, rfl⟩ := List.mem_map.mp hm
    split <;> exact kind_of_binary? hkind
  next => cases hm

theorem kind_of_mem_template {node : Span} {texts : List String} {values : List Node}
    (hm : m ∈ template source node texts values) : m.kind = .stringLiteral := by
  unfold template at hm
  split at hm
  next => cases hm
  next =>
    split at hm
    next =>
      obtain ⟨s, -, rfl⟩ := List.mem_map.mp hm
      rfl
    next =>
      rcases List.mem_append.mp hm with hm | hm
      · obtain ⟨s, -, rfl⟩ := List.mem_map.mp hm
        rfl
      · split at hm
        next => cases hm
        next =>
          cases List.mem_singleton.mp hm
          rfl

theorem kind_of_mem_replacements {kind : MutantKind} {node target : Span} {texts : List String}
    (hm : m ∈ texts.map (replace source kind node target)) : m.kind = kind := by
  obtain ⟨text, -, rfl⟩ := List.mem_map.mp hm
  rfl

theorem kind_of_mem_condition {node : Span} {test : Node} (hm : m ∈ condition source node test) :
    m.kind = .cond := by
  unfold condition at hm
  split at hm
  all_goals
    simp only [List.mem_cons, List.not_mem_nil, or_false] at hm
    rcases hm with rfl | rfl <;> rfl

theorem kind_of_mem_loopCondition {node : Span} {test : Node}
    (hm : m ∈ loopCondition source node test) : m.kind = .cond := by
  unfold loopCondition at hm
  split at hm
  next => cases hm
  next =>
    cases List.mem_singleton.mp hm
    rfl

theorem kind_of_mem_literal {span : Span} {value : Literal}
    (hm : m ∈ literal source span value) : m.kind ≠ .optionalChain := by
  unfold literal at hm
  split at hm
  all_goals simp only [List.mem_singleton, List.not_mem_nil] at hm
  all_goals
    subst hm
    nofun

/-- Only links have their chain mutated. -/
theorem kind_ofNode (hm : m ∈ ofNode source s n) (hlink : n.isChainLink = false) :
    m.kind ≠ .optionalChain := by
  have hclear {isEmpty : Bool} {kind : MutantKind} {node target : Span} {empty : String}
      (h : m ∈ if isEmpty then [] else [clear kind node target empty]) : m.kind = kind := by
    split at h
    next => cases h
    next =>
      cases List.mem_singleton.mp h
      rfl
  unfold ofNode at hm
  split at hm
  next => simp [hclear hm]
  next => simp [hclear hm]
  next => simp [hclear hm]
  next => simp [hclear hm]
  next =>
    split at hm
    next => simp [kind_of_mem_replacements hm]
    next => cases hm
  next => exact kind_of_mem_operator hm
  next => exact kind_of_mem_operator hm
  next => cases hlink
  next => cases hlink
  next => simp [kind_of_mem_condition hm]
  next => simp [kind_of_mem_condition hm]
  next => simp [kind_of_mem_loopCondition hm]
  next => simp [kind_of_mem_loopCondition hm]
  next => simp [kind_of_mem_loopCondition hm]
  next =>
    obtain ⟨place, -, rfl⟩ := List.mem_map.mp hm
    nofun
  next => exact kind_of_mem_literal hm
  next => simp [kind_of_mem_template hm]
  next => simp [kind_of_mem_replacements hm]
  next =>
    rcases List.mem_cons.mp hm with rfl | hm
    · nofun
    · simp [kind_of_mem_replacements hm]
  next => cases hm

/-- The mutation of a chain from its outermost link on. -/
def ofChain (source : String) (n : Node) : Mutation :=
  ⟨.optionalChain, n.span, chainPatch source n⟩

theorem filter_ofNode : (ofNode source s n).filter (·.kind = .optionalChain) =
    if n.isChainLink && !s.onChain && !(chainPatch source n).isEmpty then [ofChain source n]
    else [] := by
  cases hlink : n.isChainLink with
  | false =>
    rw [List.filter_eq_nil_iff.mpr fun m hm => by simpa using kind_ofNode hm hlink]
    rfl
  | true =>
    have hn : ofNode source s n =
        if s.onChain || (chainPatch source n).isEmpty then [] else [ofChain source n] := by
      cases n <;> first | rfl | cases hlink
    rw [hn]
    cases s.onChain <;> cases (chainPatch source n).isEmpty <;> rfl

end Mutation

namespace Occurrence

/-- Whether the occurrence is the outermost link of a chain with a mark. -/
def isHead (o : Occurrence) : Bool :=
  o.node.isChainLink && !o.standing.onChain && o.node.spine.any Node.isOptional

/-- One occurrence is reached from another one, or is it, through objects and callees. -/
def Reaches (a o : Occurrence) : Prop := ∃ k, ReachesIn k a o

end Occurrence

/-- All marks are found where they were read, and each is of one link alone. -/
structure Program.OwnMarks (assertion : String) (p : Program) : Prop where
  found : ∀ o ∈ p.visited assertion, o.node.isOptional = true →
    ∃ mark, o.node.mark? p.source = some mark ∧ o.node.HasMark p.source mark
  own : ∀ a ∈ p.visited assertion, ∀ b ∈ p.visited assertion, a.node.isOptional = true →
    b.node.isOptional = true → a.node.mark? p.source = b.node.mark? p.source → a = b

/-- The chains with the given outermost links are mutated once and whole. -/
structure Program.MutatesChains (assertion : String) (p : Program) (heads : List Occurrence) :
    Prop where
  /- They are visited links with a mark on their chain that no other link reaches. -/
  inOrder : heads.Sublist (p.visited assertion)
  mem_iff : ∀ h, h ∈ heads ↔ h ∈ p.visited assertion ∧ h.node.isChainLink = true ∧
    (∃ l ∈ h.node.spine, l.isOptional = true) ∧
    ∀ a ∈ p.visited assertion, a.node.isChainLink = true → a.Reaches h → a = h
  /- Each has one mutation, which rewrites the marks along its spine and nothing else. -/
  patches : List.Forall₂ (fun h m => m.node = h.node.span ∧
      List.Forall₂ (fun l e => l.HasMark p.source e.span ∧ e.text = l.mandatoryMark)
        (h.node.spine.filter Node.isOptional) m.patch)
    heads ((Mutation.ofProgram assertion p).filter (·.kind = .optionalChain))
  visited : ∀ h ∈ heads, ∀ l ∈ h.node.spine, l.isOptional = true →
    ∃ o ∈ p.visited assertion, o.node = l ∧ h.Reaches o
  /- Each visited link with a mark is reached by one of them alone. -/
  covers : ∀ o ∈ p.visited assertion, o.node.isOptional = true → ∃! h, h ∈ heads ∧ h.Reaches o
  apart : ((Mutation.ofProgram assertion p).filter (·.kind = .optionalChain)).Pairwise
    fun m m' => ∀ e ∈ m.patch, ∀ e' ∈ m'.patch, e.span ≠ e'.span

namespace Program

variable {p : Program} {assertion : String} {a h o : Occurrence}

theorem isChainLink_of_isOptional {n : Node} (h : n.isOptional = true) : n.isChainLink = true := by
  cases n <;> first | rfl | cases h

theorem isHead_iff : o.isHead = true ↔ o.node.isChainLink = true ∧ o.standing.onChain = false ∧
    ∃ l ∈ o.node.spine, l.isOptional = true := by
  rw [isHead, Bool.and_eq_true, Bool.and_eq_true, Bool.not_eq_true', List.any_eq_true, and_assoc]

theorem exists_visited_of_optional {l : Node} (hh : h ∈ p.visited assertion)
    (hl : l ∈ h.node.spine) (ho : l.isOptional = true) :
    ∃ o ∈ p.visited assertion, o.node = l ∧ h.Reaches o := by
  obtain ⟨k, hk⟩ := List.mem_iff_getElem?.mp hl
  obtain ⟨o, hvisited, hnode, hreach⟩ :=
    exists_visited_of_spine hh hk (isChainLink_of_isOptional ho)
  exact ⟨o, hvisited, hnode, k, hreach⟩

/-- Each edit of a chain rewrites the mark of a visited link. -/
theorem exists_visited_of_mem_chainPatch {e : Edit} (hh : h ∈ p.visited assertion)
    (he : e ∈ Mutation.chainPatch p.source h.node) :
    ∃ o ∈ p.visited assertion, o.node.isOptional = true ∧ h.Reaches o ∧
      o.node.mark? p.source = some e.span := by
  rw [Node.chainPatch_eq] at he
  obtain ⟨l, hl, hedit⟩ := List.mem_filterMap.mp he
  obtain ⟨hl, hopt⟩ := List.mem_filter.mp hl
  obtain ⟨mark, hmark, rfl⟩ := Option.map_eq_some_iff.mp hedit
  obtain ⟨o, ho, rfl, hreach⟩ := exists_visited_of_optional hh hl hopt
  exact ⟨o, ho, hopt, hreach, hmark⟩

/-- An occurrence stands on no chain if no link reaches it but itself. -/
theorem onChain_eq_false_iff (ho : o ∈ p.visited assertion) : o.standing.onChain = false ↔
    ∀ a ∈ p.visited assertion, a.node.isChainLink = true → a.Reaches o → a = o := by
  rw [← Bool.not_eq_true, onChain_visited ho]
  constructor
  · rintro hnone a ha hlink ⟨k, hreach⟩
    cases k with
    | zero => exact eq_of_path_eq ha ho (by simpa using hreach.1.symm)
    | succ k => exact absurd ⟨a, ha, hlink, k, hreach⟩ hnone
  · rintro hall ⟨a, ha, hlink, k, hreach⟩
    obtain rfl := hall a ha hlink ⟨k + 1, hreach⟩
    have hlen := congrArg List.length hreach.1
    rw [List.length_append, List.length_replicate] at hlen
    omega

theorem forall₂_filterMap {α β : Type} {R : α → β → Prop} {f : α → Option β} {l : List α}
    (hl : ∀ a ∈ l, ∃ b, f a = some b ∧ R a b) : List.Forall₂ R l (l.filterMap f) := by
  induction l with
  | nil => exact .nil
  | cons a l ih =>
    obtain ⟨⟨b, hb, hR⟩, hl⟩ := List.forall_mem_cons.mp hl
    rw [List.filterMap_cons_some hb]
    exact .cons hR (ih hl)

namespace OwnMarks

variable (hp : p.OwnMarks assertion)

include hp

/-- All marks along the spine of a visited link are rewritten, one edit for each. -/
theorem forall₂_chainPatch (hh : h ∈ p.visited assertion) :
    List.Forall₂ (fun l e => l.mark? p.source = some e.span ∧ l.HasMark p.source e.span ∧
        e.text = l.mandatoryMark)
      (h.node.spine.filter Node.isOptional) (Mutation.chainPatch p.source h.node) := by
  rw [Node.chainPatch_eq]
  refine forall₂_filterMap fun l hl => ?_
  obtain ⟨hl, ho⟩ := List.mem_filter.mp hl
  obtain ⟨o, hvisited, rfl, -⟩ := exists_visited_of_optional hh hl ho
  obtain ⟨mark, hfound, hmark⟩ := hp.found o hvisited ho
  exact ⟨⟨mark, o.node.mandatoryMark⟩, by rw [Node.linkEdit?, hfound]; rfl, hfound, hmark, rfl⟩

/-- The mutations of chains are those from the heads on. -/
theorem filter_ofProgram : (Mutation.ofProgram assertion p).filter (·.kind = .optionalChain) =
    ((p.visited assertion).filter isHead).map fun h => .ofChain p.source h.node := by
  have hflat {l : List Occurrence} {f : Occurrence → List Mutation} {g : Occurrence → Mutation}
      (hf : ∀ o ∈ l, f o = if o.isHead then [g o] else []) :
      l.flatMap f = (l.filter isHead).map g := by
    induction l with
    | nil => rfl
    | cons o l ih =>
      obtain ⟨ho, hf⟩ := List.forall_mem_cons.mp hf
      rw [List.flatMap_cons, ho, ih hf, List.filter_cons]
      split <;> rfl
  rw [Mutation.ofProgram, visits_eq_map_visited, List.flatMap_map, List.filter_flatMap]
  refine hflat fun o ho => ?_
  rw [Mutation.filter_ofNode]
  have hempty : (!(Mutation.chainPatch p.source o.node).isEmpty) =
      o.node.spine.any Node.isOptional := by
    have hlen := (hp.forall₂_chainPatch ho).length_eq
    rw [Bool.eq_iff_iff, Bool.not_eq_true', List.isEmpty_eq_false_iff, List.any_eq_true,
      ← List.length_pos_iff, ← hlen, List.length_pos_iff_exists_mem]
    simp only [List.mem_filter]
  rw [hempty]
  rfl

end OwnMarks

/-- Every chain outside the skipped calls is mutated once, from its outermost link on, if all marks
are found: each link with a mark becomes mandatory with its own chain and no other one. -/
theorem mutatesChains (hp : p.OwnMarks assertion) :
    p.MutatesChains assertion ((p.visited assertion).filter isHead) := by
  have hpatch {h : Occurrence} (hh : h ∈ (p.visited assertion).filter isHead) :=
    hp.forall₂_chainPatch (List.mem_filter.mp hh).1
  have hunique {a b o : Occurrence} (ha : a ∈ (p.visited assertion).filter isHead)
      (hb : b ∈ (p.visited assertion).filter isHead) (hao : a.Reaches o) (hbo : b.Reaches o) :
      a = b := by
    obtain ⟨ha, haHead⟩ := List.mem_filter.mp ha
    obtain ⟨hb, hbHead⟩ := List.mem_filter.mp hb
    obtain ⟨halink, hachain, -⟩ := isHead_iff.mp haHead
    obtain ⟨hblink, hbchain, -⟩ := isHead_iff.mp hbHead
    exact head_unique ha hb halink hblink hachain hbchain hao.choose_spec hbo.choose_spec
  constructor
  · exact List.filter_sublist
  · intro h
    rw [List.mem_filter, isHead_iff]
    refine and_congr_right fun hh => and_congr_right fun _ => ?_
    rw [and_comm, onChain_eq_false_iff hh]
  · rw [hp.filter_ofProgram, List.forall₂_map_right_iff, List.forall₂_same]
    intro h hh
    exact ⟨rfl, (hpatch hh).imp fun l e hle => hle.2⟩
  · intro h hh l hl ho
    exact exists_visited_of_optional (List.mem_filter.mp hh).1 hl ho
  · intro o ho hopt
    obtain ⟨h, hh, hlink, hchain, k, hreach⟩ := exists_head ho (isChainLink_of_isOptional hopt)
    have hmem : h ∈ (p.visited assertion).filter isHead := List.mem_filter.mpr
      ⟨hh, isHead_iff.mpr ⟨hlink, hchain, o.node, List.mem_of_getElem? hreach.2, hopt⟩⟩
    exact ⟨h, ⟨hmem, k, hreach⟩, fun a ha => hunique ha.1 hmem ha.2 ⟨k, hreach⟩⟩
  · rw [hp.filter_ofProgram, List.pairwise_map]
    refine List.Pairwise.imp_of_mem (fun {h h'} hh hh' hlt e he e' he' hspan => ?_)
      (inOrder_visited.sublist List.filter_sublist)
    obtain ⟨o, ho, hopt, hreach, hmark⟩ := exists_visited_of_mem_chainPatch (List.mem_of_mem_filter hh) he
    obtain ⟨o', ho', hopt', hreach', hmark'⟩ := exists_visited_of_mem_chainPatch (List.mem_of_mem_filter hh') he'
    obtain rfl := hp.own o ho o' ho' hopt hopt' (by rw [hmark, hmark', hspan])
    rw [hunique hh hh' hreach hreach'] at hlt
    exact lt_irrefl _ hlt

namespace Keyed

/-- The first link of a chain, and the one in the computed key behind it. -/
def first : Node := .chainMember ⟨0, 4⟩ true (.name ⟨0, 1⟩ "a") none

def key : Node := .chainMember ⟨5, 9⟩ true (.name ⟨5, 6⟩ "c") none

def last : Node :=
  .chainCall ⟨0, 15⟩ true (.chainMember ⟨0, 10⟩ false first (some key)) [.name ⟨13, 14⟩ "e"]

def program : Program :=
  ⟨"a?.b[c?.d]?.(e)", false, [.other ⟨0, 15⟩ .expressionStatement [last]]⟩

set_option maxRecDepth 4000 in
theorem parse_program : Program.parse program.source = .ok program := by
  unfold Program.parse
  cbv

theorem optional_visited : (program.visited "__assert__").filter (·.node.isOptional) =
    [⟨[0, 0], {}, last⟩, ⟨[0, 0, 0, 0], { onChain := true }, first⟩,
      ⟨[0, 0, 0, 1], {}, key⟩] := by
  cbv

theorem ownMarks : program.OwnMarks "__assert__" := by
  have hlast : last.mark? program.source = some ⟨10, 12⟩ := by cbv
  have hfirst : first.mark? program.source = some ⟨1, 3⟩ := by cbv
  have hkey : key.mark? program.source = some ⟨6, 8⟩ := by cbv
  have hall {o : Occurrence} (ho : o ∈ program.visited "__assert__")
      (hopt : o.node.isOptional = true) :=
    optional_visited ▸ List.mem_filter.mpr ⟨ho, hopt⟩
  constructor
  · intro o ho hopt
    have hmark {n base : Node} {start : Nat} (hn : n.spineBase? = some base)
        (hfind : n.mark? program.source = some ⟨start, start + 2⟩) (front rest : List Char)
        (htext : program.source.toList = front ++ ([] ++ ("?".toList ++ rest)))
        (hfront : byteSize front = base.span.stop) (hstart : base.span.stop = start) :
        ∃ mark, n.mark? program.source = some mark ∧ n.HasMark program.source mark :=
      ⟨_, hfind, base, hn, rfl, front, [], rest, htext, hfront, .nil rfl, hstart ▸ rfl⟩
    have hcases := hall ho hopt
    simp only [List.mem_cons, List.not_mem_nil, or_false] at hcases
    rcases hcases with rfl | rfl | rfl
    · exact hmark rfl hlast "a?.b[c?.d]".toList ".(e)".toList (by decide) (by decide) (by decide)
    · exact hmark rfl hfirst "a".toList ".b[c?.d]?.(e)".toList (by decide) (by decide) (by decide)
    · exact hmark rfl hkey "a?.b[c".toList ".d]?.(e)".toList (by decide) (by decide) (by decide)
  · intro a ha b hb haopt hbopt hsame
    have hnodup : (([⟨[0, 0], {}, last⟩, ⟨[0, 0, 0, 0], { onChain := true }, first⟩,
        ⟨[0, 0, 0, 1], {}, key⟩] : List Occurrence).map fun o => o.node.mark? program.source).Nodup := by
      simp [hlast, hfirst, hkey]
    exact List.inj_on_of_nodup_map hnodup (hall ha haopt) (hall hb hbopt) hsame

/-- The chain is mutated in one piece, and the one in its key apart from it. -/
theorem mutatesChains_program : Program.parse program.source = .ok program ∧
    program.OwnMarks "__assert__" ∧
    program.MutatesChains "__assert__"
      ((program.visited "__assert__").filter Occurrence.isHead) ∧
    ((program.visited "__assert__").filter Occurrence.isHead).map (·.path) =
      [[0, 0], [0, 0, 0, 1]] := by
  refine ⟨parse_program, ownMarks, mutatesChains ownMarks, ?_⟩
  cbv

end Keyed

end Program

end Adequacy
