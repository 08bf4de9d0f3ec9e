import Adequacy.Proofs.JsonMembers
import Adequacy.Proofs.JsonOrder

namespace Adequacy

open JsonReader

/-- The blanks in a JSON text: those in front of an item of some depth, and those behind a colon. -/
structure JsonLayout where
  gap : Nat → List Char
  colon : List Char
  gap_blank (depth : Nat) : IsBlank (gap depth)
  colon_blank : IsBlank colon

namespace JsonLayout

/-- No blanks at all. -/
def tight : JsonLayout := ⟨fun _ => [], [], fun _ => isBlank_nil, isBlank_nil⟩

/-- A line for every item, with two blanks for each level of depth. -/
def indented : JsonLayout where
  gap depth := (Json.newline depth).toList
  colon := [' ']
  gap_blank depth c hc := by
    simp only [Json.newline, String.toList_append, String.toList_ofList, List.mem_append,
      List.mem_replicate] at hc
    rcases hc with hc | ⟨-, rfl⟩
    · rw [List.mem_singleton.mp hc]
      rfl
    · rfl
  colon_blank c hc := by
    rw [List.mem_singleton.mp hc]
    rfl

end JsonLayout

namespace Json

/-- The text of a value with its blanks as they are laid out from a depth on. -/
def text (l : JsonLayout) (depth : Nat) : Json → List Char
  | array items => '[' :: enclosed ']' (l.gap (depth + 1)) (l.gap depth) true
      (items.attach.map fun ⟨v, _⟩ => v.text l (depth + 1))
  | object members => '\x7b' :: enclosed '\x7d' (l.gap (depth + 1)) (l.gap depth) true
      (members.attach.map fun ⟨(k, v), _⟩ => memberText l.colon (k, v.text l (depth + 1)))
  | v => v.compact.toList
termination_by v => sizeOf v
decreasing_by
  · rename_i h; have := List.sizeOf_lt_of_mem h; simp_wf; omega
  · rename_i h; have := List.sizeOf_lt_of_mem h; simp_wf; simp at this; omega

variable {l : JsonLayout} {depth : Nat}

theorem text_of_isScalar {v : Json} (h : v.isScalar = true) :
    v.text l depth = v.compact.toList := by
  cases v with
  | array items => cases h
  | object members => cases h
  | _ => rw [text] <;> simp

theorem text_array (items : List Json) : (array items).text l depth =
    '[' :: enclosed ']' (l.gap (depth + 1)) (l.gap depth) true
      (items.map (text l (depth + 1))) := by
  rw [text, List.attach_map_val]

theorem text_object (members : List (String × Json)) : (object members).text l depth =
    '\x7b' :: enclosed '\x7d' (l.gap (depth + 1)) (l.gap depth) true
      (members.map fun m => memberText l.colon (m.1, m.2.text l (depth + 1))) := by
  rw [text]
  exact congrArg
    (fun texts => '\x7b' :: enclosed '\x7d' (l.gap (depth + 1)) (l.gap depth) true texts)
    (List.attach_map_val
      (f := fun m : String × Json => memberText l.colon (m.1, m.2.text l (depth + 1))))

/-- Texts behind gaps and commas are texts with commas and gaps between them. -/
theorem enclosed_cons (closing : Char) (gap last t : List Char) (later : List (List Char)) :
    enclosed closing gap last true (t :: later) =
      gap ++ ((',' :: gap).intercalate (t :: later) ++ (last ++ [closing])) := by
  have hlater : ∀ t, t ++ enclosed closing gap last false later =
      (',' :: gap).intercalate (t :: later) ++ (last ++ [closing]) := by
    induction later with
    | nil => intro t; rw [enclosed, List.intercalate_singleton]
    | cons u later ih =>
      intro t
      rw [enclosed, List.intercalate_cons_cons, ih u]
      simp
  rw [enclosed, hlater]

theorem compact_array (items : List Json) :
    (array items).compact = "[" ++ ",".intercalate (items.map compact) ++ "]" := by
  rw [compact, List.attach_map_val]

theorem compact_object (members : List (String × Json)) : (object members).compact = "\x7b" ++
    ",".intercalate (members.map fun m => quote m.1 ++ ":" ++ m.2.compact) ++ "\x7d" := by
  rw [compact]
  exact congrArg (fun texts => "\x7b" ++ ",".intercalate texts ++ "\x7d")
    (List.attach_map_val (f := fun m : String × Json => quote m.1 ++ ":" ++ m.2.compact))

theorem enclosed_tight (closing : Char) (texts : List String) :
    enclosed closing [] [] true (texts.map String.toList) =
      (",".intercalate texts).toList ++ [closing] := by
  cases texts with
  | nil => rfl
  | cons t later => simp [enclosed_cons]

theorem enclosed_indented (closing : Char) (depth : Nat) (t : String) (later : List String) :
    enclosed closing (newline (depth + 1)).toList (newline depth).toList true
        ((t :: later).map String.toList) =
      (newline (depth + 1) ++ ("," ++ newline (depth + 1)).intercalate (t :: later) ++
        newline depth).toList ++ [closing] := by
  rw [List.map_cons, enclosed_cons]
  simp [String.toList_intercalate]

/-- Texts of items that are laid out one by one. -/
theorem map_text {f : Json → String} {items : List Json}
    (h : ∀ v ∈ items, (f v).toList = v.text l depth) :
    items.map (text l depth) = (items.map f).map String.toList := by
  rw [List.map_map]
  exact List.map_congr_left fun v hv => (h v hv).symm

theorem map_memberText {f : Json → String} {colon : String} {members : List (String × Json)}
    (hcolon : colon.toList = ':' :: l.colon)
    (h : ∀ k v, (k, v) ∈ members → (f v).toList = v.text l depth) :
    members.map (fun m => memberText l.colon (m.1, m.2.text l depth)) =
      (members.map fun m => quote m.1 ++ colon ++ f m.2).map String.toList := by
  rw [List.map_map]
  refine List.map_congr_left fun m hm => ?_
  simp [memberText, hcolon, h m.1 m.2 hm]

theorem toList_compact (v : Json) (depth : Nat) : v.compact.toList = v.text .tight depth := by
  induction v using compact.induct generalizing depth with
  | case6 items ih =>
    have htight := enclosed_tight ']' (items.map compact)
    rw [text_array, map_text fun v hv => ih v hv (depth + 1), compact_array, String.toList_append,
      String.toList_append, List.append_assoc]
    exact congrArg ('[' :: ·) htight.symm
  | case7 members ih =>
    have htight := enclosed_tight '\x7d' (members.map fun m => quote m.1 ++ ":" ++ m.2.compact)
    have hcolon : ":".toList = ':' :: JsonLayout.tight.colon := rfl
    rw [text_object, map_memberText hcolon fun k v hv => ih k v hv (depth + 1), compact_object,
      String.toList_append, String.toList_append, List.append_assoc]
    exact congrArg ('\x7b' :: ·) htight.symm
  | _ => rw [text_of_isScalar rfl]

theorem toList_pretty (v : Json) (depth : Nat) :
    (v.pretty depth).toList = v.text .indented depth := by
  induction depth, v using pretty.induct with
  | case1 depth v rest ih =>
    have hlayout := enclosed_indented ']' depth (v.pretty (depth + 1))
      (rest.map (pretty (depth + 1)))
    rw [text_array, map_text ih, pretty, List.attach_map_val]
    refine Eq.trans ?_ (congrArg ('[' :: ·) hlayout.symm)
    simp
  | case2 depth m rest ih =>
    have hpretty : (object (m :: rest)).pretty depth = "\x7b" ++ newline (depth + 1) ++
        ("," ++ newline (depth + 1)).intercalate
          ((m :: rest).map fun m => quote m.1 ++ ": " ++ m.2.pretty (depth + 1)) ++
        newline depth ++ "\x7d" := by
      rw [pretty]
      exact congrArg (fun texts => "\x7b" ++ newline (depth + 1) ++
        ("," ++ newline (depth + 1)).intercalate texts ++ newline depth ++ "\x7d")
        (List.attach_map_val
          (f := fun m : String × Json => quote m.1 ++ ": " ++ m.2.pretty (depth + 1)))
    have hlayout := enclosed_indented '\x7d' depth
      (quote m.1 ++ ": " ++ m.2.pretty (depth + 1))
      (rest.map fun m => quote m.1 ++ ": " ++ m.2.pretty (depth + 1))
    have hcolon : ": ".toList = ':' :: JsonLayout.indented.colon := rfl
    rw [text_object, map_memberText hcolon ih, hpretty]
    refine Eq.trans ?_ (congrArg ('\x7b' :: ·) hlayout.symm)
    simp
  | case3 depth v harray hobject =>
    rw [pretty.eq_3 _ _ harray hobject]
    cases v with
    | array items =>
      cases items with
      | nil => rw [toList_compact _ depth, text_array, text_array]; rfl
      | cons v rest => exact absurd rfl (harray v rest)
    | object members =>
      cases members with
      | nil => rw [toList_compact _ depth, text_object, text_object]; rfl
      | cons m rest => exact absurd rfl (hobject m rest)
    | _ => rw [text_of_isScalar rfl]

/-- A value with at most `depth` levels of lists and objects, whose numbers are whole and have room
in 64 bits. -/
inductive Fits : Nat → Json → Prop
  | null {depth : Nat} : Fits depth null
  | bool {depth : Nat} (b : Bool) : Fits depth (bool b)
  | nat {depth n : Nat} (h : n < 2 ^ 64) : Fits depth (nat n)
  | string {depth : Nat} (s : String) : Fits depth (string s)
  | array {depth : Nat} {items : List Json} (h : ∀ v ∈ items, Fits depth v) :
    Fits (depth + 1) (array items)
  | object {depth : Nat} {members : List (String × Json)} (h : ∀ m ∈ members, Fits depth m.2) :
    Fits (depth + 1) (object members)

theorem toList_compact_nat (n : Nat) : (nat n).compact.toList = Nat.toDigits 10 n := by
  rw [nat, compact]
  exact String.toList_ofList

section values

variable {strict : Bool} {bound n : Nat}

theorem reads_value_null (strict : Bool) (bound : Nat) (l : JsonLayout) (depth : Nat) :
    Reads (value strict bound) (null.text l depth) null := by
  rw [text_of_isScalar rfl, compact]
  refine ⟨⟨_, _, rfl, by decide, by decide⟩, fun {blank rest} hblank hrest => ?_⟩
  rw [value.eq_def]
  refine (gives_peekBehindSpace?_cons hblank (by decide) _).bind ((gives_skip _ _).bind ?_)
  exact (gives_literal _ rest).bind (gives_pure _ _)

theorem reads_value_bool (strict : Bool) (bound : Nat) (b : Bool) (l : JsonLayout) (depth : Nat) :
    Reads (value strict bound) ((bool b).text l depth) (bool b) := by
  rw [text_of_isScalar rfl, compact]
  cases b
  all_goals
    refine ⟨⟨_, _, rfl, by decide, by decide⟩, fun {blank rest} hblank hrest => ?_⟩
    rw [value.eq_def]
    refine (gives_peekBehindSpace?_cons hblank (by decide) _).bind ((gives_skip _ _).bind ?_)
    exact (gives_literal _ rest).bind (gives_pure _ _)

theorem reads_value_nat (strict : Bool) (bound : Nat) (h : n < 2 ^ 64) (l : JsonLayout)
    (depth : Nat) : Reads (value strict bound) ((nat n).text l depth) (nat n) := by
  obtain ⟨d, ds, hdigits, hd⟩ := toDigits_eq_cons n
  have hspace := isSpace_of_isDigit hd
  rw [text_of_isScalar rfl, toList_compact_nat]
  refine ⟨⟨d, ds, hdigits, hspace, ne_of_isDigit hd (by decide)⟩,
    fun {blank rest} hblank hrest => ?_⟩
  have hnumber := gives_number strict h hrest
  rw [hdigits] at hnumber ⊢
  rw [value.eq_def]
  refine (gives_peekBehindSpace?_cons hblank hspace _).bind ?_
  split
  next hnone => cases hnone
  case h_9 hsome =>
    rw [← Option.some.inj hsome, if_pos hd]
    exact hnumber.bind (gives_pure _ _)
  all_goals
    next hsome => exact absurd (Option.some.inj hsome) (ne_of_isDigit hd (by decide))

theorem reads_value_string (strict : Bool) (bound : Nat) (s : String) (l : JsonLayout)
    (depth : Nat) : Reads (value strict bound) ((string s).text l depth) (string s) := by
  rw [text_of_isScalar rfl, compact, toList_quote]
  refine ⟨⟨_, _, rfl, by decide, by decide⟩, fun {blank rest} hblank hrest => ?_⟩
  have hstring := gives_stringRest strict s rest
  rw [value.eq_def, List.cons_append, List.append_assoc]
  refine (gives_peekBehindSpace?_cons hblank (by decide) _).bind ((gives_skip _ _).bind ?_)
  exact hstring.bind (gives_pure _ _)

theorem reads_value_array {items : List Json} (h : ∀ v ∈ items,
      Reads (value strict bound) (v.text l (depth + 1)) v.sorted) :
    Reads (value strict (bound + 1)) ((array items).text l depth) (array items).sorted := by
  have hlength := length_le_items h (l.gap (depth + 1)) (l.gap depth)
  rw [text_array, sorted_array]
  refine ⟨⟨_, _, rfl, by decide, by decide⟩, fun {blank rest} hblank hrest => ?_⟩
  have hread := gives_items (l.gap_blank (depth + 1)) (l.gap_blank depth) h
    (lt_bound hlength rest) true [] rest
  rw [value.eq_def]
  refine (gives_peekBehindSpace?_cons hblank (by decide) _).bind ((gives_skip _ _).bind ?_)
  exact (gives_remaining _).bind (hread.bind (gives_pure _ _))

theorem reads_value_object {members : List (String × Json)} (h : ∀ m ∈ members,
      Reads (value strict bound) (m.2.text l (depth + 1)) m.2.sorted) :
    Reads (value strict (bound + 1)) ((object members).text l depth) (object members).sorted := by
  have hlength := length_le_members (l.gap (depth + 1)) (l.gap depth) l.colon true
    (members.map fun m => (m.1, m.2.text l (depth + 1)))
  rw [List.length_map, List.map_map] at hlength
  rw [text_object, sorted_object]
  refine ⟨⟨_, _, rfl, by decide, by decide⟩, fun {blank rest} hblank hrest => ?_⟩
  have hread := gives_members Prod.fst (l.gap_blank (depth + 1)) (l.gap_blank depth)
    l.colon_blank h (lt_bound hlength rest) true [] rest
  rw [value.eq_def]
  refine (gives_peekBehindSpace?_cons hblank (by decide) _).bind ((gives_skip _ _).bind ?_)
  exact (gives_remaining _).bind (hread.bind (gives_pure _ _))

/-- A value is read from its text in any layout, and comes out with its members by name. -/
theorem reads_value (strict : Bool) {v : Json} (h : Fits bound v) (l : JsonLayout) (depth : Nat) :
    Reads (value strict bound) (v.text l depth) v.sorted := by
  induction h generalizing depth with
  | @null bound =>
    rw [sorted_of_isScalar rfl]
    exact reads_value_null strict bound l depth
  | @bool bound b =>
    rw [sorted_of_isScalar rfl]
    exact reads_value_bool strict bound b l depth
  | @nat bound n hn =>
    rw [sorted_of_isScalar rfl]
    exact reads_value_nat strict bound hn l depth
  | @string bound s =>
    rw [sorted_of_isScalar rfl]
    exact reads_value_string strict bound s l depth
  | array h ih => exact reads_value_array fun v hv => ih v hv (depth + 1)
  | object h ih => exact reads_value_object fun m hm => ih m hm (depth + 1)

theorem Fits.sorted {v : Json} (h : Fits bound v) : Fits bound v.sorted := by
  induction h with
  | null => rw [sorted_of_isScalar rfl]; exact .null
  | bool b => rw [sorted_of_isScalar rfl]; exact .bool b
  | nat hn => rw [sorted_of_isScalar rfl]; exact .nat hn
  | string s => rw [sorted_of_isScalar rfl]; exact .string s
  | array h ih =>
    rw [sorted_array]
    refine .array fun v hv => ?_
    obtain ⟨u, hu, rfl⟩ := List.mem_map.mp hv
    exact ih u hu
  | object h ih =>
    rw [sorted_object]
    refine .object fun m hm => ?_
    obtain ⟨k, hk, rfl⟩ := List.mem_map.mp (mem_of_mem_sortMembers hm)
    exact ih k hk

/-- A text with a line for each item is read back, with the members of objects by name. -/
theorem parse_pretty {v : Json} (h : Fits maxDepth v) : parse (v.pretty 0) = .ok v.sorted := by
  have hread := reads_value true h .indented 0
  rw [← toList_pretty] at hread
  exact readAll_of_reads hread

theorem parse_compact {v : Json} (h : Fits maxDepth v) : parse v.compact = .ok v.sorted := by
  have hread := reads_value true h .tight 0
  rw [← toList_compact] at hread
  exact readAll_of_reads hread

end values

end Json

end Adequacy
