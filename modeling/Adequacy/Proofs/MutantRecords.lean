import Adequacy.Proofs.JsonLayout
import Adequacy.Mutant

namespace Adequacy

open JsonReader

namespace Json

/-- An object with one member for each name, in any order, whose values are of the form that the
places of the names ask for. -/
def IsRecord (v : Json) (names : List String) (form : Nat → Json → Prop) : Prop :=
  ∃ values : Nat → Json, (∀ i, form i (values i)) ∧
    ∃ members, members.Perm ((List.range names.length).map fun i => (names.getD i "", values i)) ∧
      v = object members

section records

variable {v : Json} {names : List String} {form : Nat → Json → Prop}
  {members : List (String × Json)} {values : Nat → Json}

theorem map_fst_eq_names (names : List String) (values : Nat → Json) :
    ((List.range names.length).map fun i => (names.getD i "", values i)).map (·.1) = names := by
  refine List.ext_getElem (by simp) fun i hi hi' => ?_
  rw [List.getElem_map, List.getElem_map, List.getElem_range, List.getD_eq_getElem _ _ hi']

theorem IsRecord.sorted (h : v.IsRecord names form) (hnames : names.Nodup)
    (hform : ∀ i w, form i w → form i w.sorted) : v.sorted.IsRecord names form := by
  obtain ⟨values, hvalues, members, hmembers, rfl⟩ := h
  refine ⟨fun i => (values i).sorted, fun i => hform i _ (hvalues i), _, ?_, sorted_object members⟩
  have hmap := hmembers.map fun m : String × Json => (m.1, m.2.sorted)
  rw [List.map_map] at hmap
  refine (perm_sortMembers ?_).trans hmap
  have hkeys := hmembers.map (·.1)
  rw [map_fst_eq_names] at hkeys
  rw [List.map_map]
  exact hkeys.nodup_iff.mpr hnames

/-- A record is read from an object whose members stand in any order. -/
theorem IsRecord.reads {σ : Type} {empty : σ} {field : Nat → σ → JsonReader σ} {l : JsonLayout}
    {depth : Nat} (expected : String) (set : Nat → σ → σ) (h : v.IsRecord names form)
    (hnames : names.Nodup)
    (hfield : ∀ i w, form i w → ∀ r, Reads (field i r) (w.text l (depth + 1)) (set i r))
    (hset : ∀ r i j, set j (set i r) = set i (set j r)) :
    Reads (record expected names false field empty) (v.text l depth)
      ((List.range names.length).foldl (fun r i => set i r) empty) := by
  obtain ⟨values, hvalues, members, hmembers, rfl⟩ := h
  obtain ⟨order, rfl, horder⟩ := (congrFun₂ (List.eq_map_comp_perm
    fun i => (names.getD i "", values i)) members (List.range names.length)).mpr hmembers
  have : RightCommutative fun r i => set i r := ⟨hset⟩
  rw [text_object, List.map_map, ← horder.foldl_eq]
  exact reads_record expected (l.gap_blank _) (l.gap_blank _) l.colon_blank hnames horder
    fun i _ r => hfield i (values i) (hvalues i) r

end records

end Json

namespace JsonReader

variable {n bits : Nat}

theorem reads_natural (expected : String) (h : n < 2 ^ 64) (hbits : n < 2 ^ bits)
    (l : JsonLayout) (depth : Nat) :
    Reads (natural bits expected) ((Json.nat n).text l depth) n := by
  obtain ⟨d, ds, hdigits, hd⟩ := toDigits_eq_cons n
  have hspace := isSpace_of_isDigit hd
  have hminus : d ≠ '-' := ne_of_isDigit hd (by decide)
  rw [Json.text_of_isScalar rfl, Json.toList_compact_nat]
  refine ⟨⟨d, ds, hdigits, hspace, ne_of_isDigit hd (by decide)⟩,
    fun {blank rest} hblank hrest => ?_⟩
  have hnumber := gives_number true h hrest
  have hstart := gives_start hblank hspace (ds ++ rest)
  rw [hdigits] at hnumber ⊢
  refine hstart.bind ?_
  rw [if_neg hminus, decide_eq_false hminus, if_pos (.inr hd)]
  refine hnumber.bind ?_
  show Gives (if n < Nat.pow 2 bits then pure n else _) rest n rest
  rw [if_pos (show n < Nat.pow 2 bits from hbits)]
  exact gives_pure _ _

theorem reads_string (s : String) (l : JsonLayout) (depth : Nat) :
    Reads string ((Json.string s).text l depth) s := by
  rw [Json.text_of_isScalar rfl, Json.compact, toList_quote]
  refine ⟨⟨_, _, rfl, by decide, by decide⟩, fun {blank rest} hblank hrest => ?_⟩
  have hstring := gives_stringRest true s rest
  rw [List.cons_append, List.append_assoc]
  exact (gives_start hblank (by decide) _).bind ((gives_skip _ _).bind hstring)

/-- A kind is read from its name. What reads it looks at the quote first and reads the text then. -/
theorem reads_kind (k : MutantKind) (l : JsonLayout) (depth : Nat) :
    Reads Mutant.kindReader ((Json.string k.name).text l depth) k := by
  have hname := reads_string k.name l depth
  rw [Json.text_of_isScalar rfl, Json.compact, toList_quote] at hname ⊢
  refine ⟨⟨_, _, rfl, by decide, by decide⟩, fun {blank rest} hblank hrest => ?_⟩
  refine (gives_start hblank (by decide) _).bind ?_
  refine (hname.gives isBlank_nil hrest).bind ?_
  rw [Mutant.kindNamed, MutantKind.ofName?_name]
  exact gives_pure _ _

end JsonReader

namespace Position

/-- A position whose numbers are all below a bound. -/
structure Below (bound : Nat) (p : Position) : Prop where
  index : p.index < bound
  line : p.line < bound
  column : p.column < bound

/-- A position with one of its fields as this one has it. -/
def copyField (p : Position) (i : Nat) (q : Position) : Position :=
  match i with
  | 0 => { q with index := p.index }
  | 1 => { q with line := p.line }
  | _ => { q with column := p.column }

theorem copyField_comm (p q : Position) (i j : Nat) :
    p.copyField j (p.copyField i q) = p.copyField i (p.copyField j q) := by
  unfold copyField
  split <;> split <;> rfl

/-- A value that shows a position, as an object with its members in any order. -/
def Shows (p : Position) (v : Json) : Prop :=
  v.IsRecord fields fun i w => w = .nat (match i with | 0 => p.index | 1 => p.line | _ => p.column)

theorem shows_toJson (p : Position) : p.Shows p.toJson :=
  ⟨_, fun _ => rfl, _, .refl _, rfl⟩

variable {p : Position} {v : Json}

theorem Shows.sorted (h : p.Shows v) : p.Shows v.sorted := by
  refine Json.IsRecord.sorted h (by decide) fun i w hw => ?_
  rw [hw]
  exact Json.sorted_of_isScalar rfl

theorem Shows.reads (h : p.Shows v) (hp : p.Below (2 ^ 32)) (l : JsonLayout) (depth : Nat) :
    Reads reader (v.text l depth) p := by
  refine Json.IsRecord.reads "struct SourcePosition" p.copyField h (by decide) ?_
    p.copyField_comm
  have hnumber {n : Nat} (hn : n < 2 ^ 32) := reads_natural "u32" (by omega) hn l (depth + 1)
  intro i w hw r
  rw [hw]
  match i with
  | 0 => exact (hnumber hp.index).map fun n => { r with index := n }
  | 1 => exact (hnumber hp.line).map fun n => { r with line := n }
  | i + 2 => exact (hnumber hp.column).map fun n => { r with column := n }

end Position

namespace SourceRange

structure Below (bound : Nat) (r : SourceRange) : Prop where
  start : r.start.Below bound
  stop : r.stop.Below bound

def copyField (r : SourceRange) (i : Nat) (q : SourceRange) : SourceRange :=
  match i with
  | 0 => { q with start := r.start }
  | _ => { q with stop := r.stop }

theorem copyField_comm (r q : SourceRange) (i j : Nat) :
    r.copyField j (r.copyField i q) = r.copyField i (r.copyField j q) := by
  unfold copyField
  split <;> split <;> rfl

/-- A value that shows a range, as an object with its members in any order. -/
def Shows (r : SourceRange) (v : Json) : Prop :=
  v.IsRecord fields fun i w => match i with | 0 => r.start.Shows w | _ => r.stop.Shows w

theorem shows_toJson (r : SourceRange) : r.Shows r.toJson := by
  refine ⟨fun i => match i with | 0 => r.start.toJson | _ => r.stop.toJson, fun i => ?_, _,
    .refl _, rfl⟩
  match i with
  | 0 => exact r.start.shows_toJson
  | i + 1 => exact r.stop.shows_toJson

variable {r : SourceRange} {v : Json}

theorem Shows.sorted (h : r.Shows v) : r.Shows v.sorted := by
  refine Json.IsRecord.sorted h (by decide) fun i w hw => ?_
  match i with
  | 0 => exact Position.Shows.sorted hw
  | i + 1 => exact Position.Shows.sorted hw

theorem Shows.reads (h : r.Shows v) (hr : r.Below (2 ^ 32)) (l : JsonLayout) (depth : Nat) :
    Reads reader (v.text l depth) r := by
  refine Json.IsRecord.reads "struct Range" r.copyField h (by decide) ?_ r.copyField_comm
  intro i w hw q
  match i with
  | 0 => exact (Position.Shows.reads hw hr.start l _).map fun p => { q with start := p }
  | i + 1 => exact (Position.Shows.reads hw hr.stop l _).map fun p => { q with stop := p }

end SourceRange

namespace Mutant

/-- A mutant whose numbers have room in the fields that they are kept in. -/
structure Fits (m : Mutant) : Prop where
  id : m.id < 2 ^ 64
  location : m.location.Below (2 ^ 32)

def copyField (m : Mutant) (i : Nat) (r : Mutant) : Mutant :=
  match i with
  | 0 => { r with id := m.id }
  | 1 => { r with kind := m.kind }
  | 2 => { r with program := m.program }
  | 3 => { r with source := m.source }
  | 4 => { r with location := m.location }
  | _ => { r with fragment := m.fragment }

theorem copyField_comm (m r : Mutant) (i j : Nat) :
    m.copyField j (m.copyField i r) = m.copyField i (m.copyField j r) := by
  unfold copyField
  split <;> split <;> rfl

/-- A value that shows a mutant, as an object with its members in any order. -/
def Shows (m : Mutant) (v : Json) : Prop :=
  v.IsRecord fields fun i w => match i with
    | 0 => w = .nat m.id
    | 1 => w = .string m.kind.name
    | 2 => w = .string m.program
    | 3 => w = .string m.source
    | 4 => m.location.Shows w
    | _ => w = .string m.fragment

theorem shows_toJson (m : Mutant) : m.Shows m.toJson := by
  refine ⟨fun i => match i with
    | 0 => .nat m.id
    | 1 => .string m.kind.name
    | 2 => .string m.program
    | 3 => .string m.source
    | 4 => m.location.toJson
    | _ => .string m.fragment, fun i => ?_, _, .refl _, rfl⟩
  match i with
  | 4 => exact m.location.shows_toJson
  | 0 | 1 | 2 | 3 | i + 5 => rfl

variable {m : Mutant} {v : Json}

theorem Shows.sorted (h : m.Shows v) : m.Shows v.sorted := by
  refine Json.IsRecord.sorted h (by decide) fun i w hw => ?_
  match i with
  | 4 => exact SourceRange.Shows.sorted hw
  | 0 | 1 | 2 | 3 | i + 5 =>
    subst hw
    exact Json.sorted_of_isScalar rfl

theorem Shows.reads (h : m.Shows v) (hm : m.Fits) (l : JsonLayout) (depth : Nat) :
    Reads reader (v.text l depth) m := by
  refine Json.IsRecord.reads "struct Mutant" m.copyField h (by decide) ?_ m.copyField_comm
  intro i w hw r
  match i with
  | 0 =>
    cases hw
    exact (reads_natural "usize" hm.id hm.id l _).map fun n => { r with id := n }
  | 1 =>
    cases hw
    exact (reads_kind m.kind l _).map fun k => { r with kind := k }
  | 2 =>
    cases hw
    exact (reads_string m.program l _).map fun s => { r with program := s }
  | 3 =>
    cases hw
    exact (reads_string m.source l _).map fun s => { r with source := s }
  | 4 => exact (SourceRange.Shows.reads hw hm.location l _).map fun q => { r with location := q }
  | i + 5 =>
    cases hw
    exact (reads_string m.fragment l _).map fun s => { r with fragment := s }

/-- A list of mutants is read from the objects that show them. -/
theorem reads_list {f : Mutant → Json} {ms : List Mutant} (hf : ∀ m ∈ ms, m.Shows (f m))
    (hms : ∀ m ∈ ms, m.Fits) (l : JsonLayout) (depth : Nat) :
    Reads (list reader) ((Json.array (ms.map f)).text l depth) ms := by
  have hread := JsonReader.reads_list (l.gap_blank (depth + 1)) (l.gap_blank depth)
    fun m hm => (hf m hm).reads (hms m hm) l (depth + 1)
  rw [Json.text_array, List.map_map]
  rwa [List.map_id'] at hread

theorem read_compact {f : Mutant → Json} {ms : List Mutant} (hf : ∀ m ∈ ms, m.Shows (f m))
    (hms : ∀ m ∈ ms, m.Fits) : read (Json.array (ms.map f)).compact = .ok ms := by
  have hread := reads_list hf hms .tight 0
  rw [← Json.toList_compact] at hread
  exact readAll_of_reads hread

/-- What mutants are written as is read back as those mutants. -/
theorem read_write {ms : List Mutant} (hms : ∀ m ∈ ms, m.Fits) : read (write ms) = .ok ms :=
  read_compact (fun m _ => m.shows_toJson) hms

end Mutant

end Adequacy
