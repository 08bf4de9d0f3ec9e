import Adequacy.Proofs.JsonScalars

namespace Adequacy

namespace JsonReader

variable {α β γ σ : Type} {text rest : List Char}

theorem isBlank_nil : IsBlank [] := fun _ h => absurd h List.not_mem_nil

theorem ends_cons {c : Char} (h : c.isDigit = false ∧ c ≠ '.' ∧ c ≠ 'e' ∧ c ≠ 'E')
    (rest : List Char) : Ends (c :: rest) := by
  intro d hd
  rw [← Option.some.inj hd]
  exact h

theorem Ends.behind {blank : List Char} (h : Ends rest) (hblank : IsBlank blank) :
    Ends (blank ++ rest) := by
  cases blank with
  | nil => exact h
  | cons c blank =>
    have hc := hblank c List.mem_cons_self
    simp only [isSpace, Bool.or_eq_true, beq_iff_eq] at hc
    rcases hc with ((rfl | rfl) | rfl) | rfl <;> exact ends_cons (by decide) _

theorem ends_nil : Ends [] := fun _ h => nomatch h

/-- A reader reads a value from a text, with blanks in front of it and what ends a number behind. -/
structure Reads (reader : JsonReader α) (text : List Char) (a : α) : Prop where
  starts : ∃ c later, text = c :: later ∧ isSpace c = false ∧ c ≠ ']'
  gives {blank rest : List Char} : IsBlank blank → Ends rest →
    Gives reader (blank ++ (text ++ rest)) a rest

namespace Reads

variable {reader : JsonReader α} {a : α}

theorem ne_nil (h : Reads reader text a) : text ≠ [] := by
  obtain ⟨c, later, rfl, -, -⟩ := h.starts
  exact List.cons_ne_nil c later

theorem map (h : Reads reader text a) (f : α → β) : Reads (do return f (← reader)) text (f a) :=
  ⟨h.starts, fun hblank hrest => (h.gives hblank hrest).bind (gives_pure _ _)⟩

end Reads

/-- A text that is nothing but a value and blanks is read as a whole. -/
theorem readAll_of_reads {reader : JsonReader α} {whole : String} {a : α}
    (h : Reads reader whole.toList a) : readAll reader whole = .ok a := by
  have hend := gives_peekBehindSpace? isBlank_nil [] (by simp)
  have hvalue := h.gives isBlank_nil ends_nil
  rw [List.nil_append, List.append_nil] at hvalue
  exact Gives.map_fst_run (hvalue.bind (hend.bind (gives_pure a []))) 0

/-- Texts up to a closing bracket. Each stands behind a gap, all but the first one behind a comma,
and another gap is in front of the bracket unless it is the first. -/
def enclosed (closing : Char) (gap last : List Char) : Bool → List (List Char) → List Char
  | true, [] => [closing]
  | false, [] => last ++ [closing]
  | true, t :: later => gap ++ (t ++ enclosed closing gap last false later)
  | false, t :: later => ',' :: (gap ++ (t ++ enclosed closing gap last false later))

/-- A member of an object: its name and its value, with blanks behind the colon. -/
def memberText (colon : List Char) (m : String × List Char) : List Char :=
  (Json.quote m.1).toList ++ ':' :: (colon ++ m.2)

section enclosed

variable {closing : Char} {gap last colon : List Char} {fuel : Nat}

theorem ends_enclosed (closing : Char) (gap : List Char) (hlast : IsBlank last)
    (hclosing : closing.isDigit = false ∧ closing ≠ '.' ∧ closing ≠ 'e' ∧ closing ≠ 'E')
    (texts : List (List Char)) (rest : List Char) :
    Ends (enclosed closing gap last false texts ++ rest) := by
  cases texts with
  | nil =>
    rw [enclosed, List.append_assoc]
    exact (ends_cons hclosing rest).behind hlast
  | cons t later => exact ends_cons (by decide) _

theorem length_le_enclosed (closing : Char) (gap last : List Char) (first : Bool)
    {texts : List (List Char)} (h : ∀ t ∈ texts, t ≠ []) :
    texts.length ≤ (enclosed closing gap last first texts).length := by
  induction texts generalizing first with
  | nil => exact Nat.zero_le _
  | cons t texts ih =>
    have hlater := ih false fun u hu => h u (List.mem_cons_of_mem _ hu)
    have ht := List.length_pos_iff.mpr (h t List.mem_cons_self)
    cases first <;> simp only [enclosed, List.length_cons, List.length_append] <;> omega

theorem length_le_members (gap last colon : List Char) (first : Bool)
    (ms : List (String × List Char)) :
    ms.length ≤ (enclosed '\x7d' gap last first (ms.map (memberText colon))).length := by
  have hne : ∀ t ∈ ms.map (memberText colon), t ≠ [] := by
    intro t ht
    obtain ⟨m, -, rfl⟩ := List.mem_map.mp ht
    simp [memberText]
  simpa using length_le_enclosed '\x7d' gap last first hne

theorem gives_items_nil {item : JsonReader α} (hlast : IsBlank last) (first : Bool)
    (read : List α) (rest : List Char) :
    Gives (items item (fuel + 1) first read) (enclosed ']' gap last first [] ++ rest)
      read.reverse rest := by
  have hclose (blank : List Char) (hblank : IsBlank blank) :
      Gives (items item (fuel + 1) first read) (blank ++ ']' :: rest) read.reverse rest := by
    have hpeek := gives_peekBehindSpace?_cons (c := ']') hblank (by decide) rest
    exact hpeek.bind ((gives_skip _ _).bind (gives_pure _ _))
  cases first with
  | true => exact hclose [] isBlank_nil
  | false =>
    rw [enclosed, List.append_assoc]
    exact hclose last hlast

/-- The next item is read, and then the ones behind it. -/
theorem gives_items_cons {item : JsonReader α} {t : List Char} {a : α} {later : List (List Char)}
    {read as : List α} (hgap : IsBlank gap) (hlast : IsBlank last) (hx : Reads item t a)
    (hrest : Gives (items item fuel false (a :: read)) (enclosed ']' gap last false later ++ rest)
      as rest) (first : Bool) :
    Gives (items item (fuel + 1) first read) (enclosed ']' gap last first (t :: later) ++ rest)
      as rest := by
  obtain ⟨c, left, htext, hc, hclose⟩ := hx.starts
  have hitem := hx.gives isBlank_nil (ends_enclosed ']' gap hlast (by decide) later rest)
  have hpeek := gives_peekBehindSpace?_cons hgap hc
    (left ++ (enclosed ']' gap last false later ++ rest))
  rw [← List.cons_append, ← htext] at hpeek
  cases first with
  | true =>
    rw [enclosed, List.append_assoc, List.append_assoc]
    refine hpeek.bind ?_
    split
    next hnone => cases hnone
    next hsome => exact absurd (Option.some.inj hsome) hclose
    next => exact hitem.bind hrest
    next => exact hitem.bind hrest
  | false =>
    have hcomma := gives_peekBehindSpace?_cons (c := ',') isBlank_nil (by decide)
      (gap ++ (t ++ (enclosed ']' gap last false later ++ rest)))
    rw [enclosed, List.cons_append, List.append_assoc, List.append_assoc]
    refine hcomma.bind ((gives_skip _ _).bind (hpeek.bind ?_))
    split
    next hsome => exact absurd (Option.some.inj hsome) hclose
    next hnone => cases hnone
    next => exact hitem.bind hrest

theorem gives_items {item : JsonReader β} {texts : α → List Char} {value : α → β} {xs : List α}
    (hgap : IsBlank gap) (hlast : IsBlank last) (h : ∀ x ∈ xs, Reads item (texts x) (value x))
    (hfuel : xs.length < fuel) (first : Bool) (read : List β) (rest : List Char) :
    Gives (items item fuel first read) (enclosed ']' gap last first (xs.map texts) ++ rest)
      (read.reverse ++ xs.map value) rest := by
  induction xs generalizing fuel first read with
  | nil =>
    cases fuel with
    | zero => cases hfuel
    | succ fuel =>
      rw [List.map_nil, List.map_nil, List.append_nil]
      exact gives_items_nil hlast first read rest
  | cons x xs ih =>
    cases fuel with
    | zero => cases hfuel
    | succ fuel =>
      have hfuel : xs.length < fuel := by simpa using hfuel
      have hrest := ih (fun y hy => h y (List.mem_cons_of_mem _ hy)) hfuel false (value x :: read)
      rw [List.reverse_cons, List.append_assoc, List.singleton_append] at hrest
      exact gives_items_cons hgap hlast (h x List.mem_cons_self) hrest first

theorem length_le_items {item : JsonReader β} {texts : α → List Char} {value : α → β} {xs : List α}
    (h : ∀ x ∈ xs, Reads item (texts x) (value x)) (gap last : List Char) :
    xs.length ≤ (enclosed ']' gap last true (xs.map texts)).length := by
  have hne : ∀ t ∈ xs.map texts, t ≠ [] := by
    intro t ht
    obtain ⟨x, hx, rfl⟩ := List.mem_map.mp ht
    exact (h x hx).ne_nil
  simpa using length_le_enclosed ']' gap last true hne

/-- A list is read by a reader of its items. -/
theorem reads_list {item : JsonReader β} {texts : α → List Char} {value : α → β} {xs : List α}
    (hgap : IsBlank gap) (hlast : IsBlank last) (h : ∀ x ∈ xs, Reads item (texts x) (value x)) :
    Reads (list item) ('[' :: enclosed ']' gap last true (xs.map texts)) (xs.map value) := by
  have hlength := length_le_items h gap last
  refine ⟨⟨_, _, rfl, by decide, by decide⟩, fun {blank rest} hblank hrest => ?_⟩
  refine (gives_start hblank (by decide) _).bind ((gives_skip _ _).bind ?_)
  refine (gives_remaining _).bind ?_
  exact gives_items hgap hlast h (lt_bound hlength rest) true [] rest

theorem gives_key?_nil (hlast : IsBlank last) (first : Bool) (rest : List Char) :
    Gives (key? first) (enclosed '\x7d' gap last first [] ++ rest) none rest := by
  have hclose (blank : List Char) (hblank : IsBlank blank) :
      Gives (key? first) (blank ++ '\x7d' :: rest) none rest := by
    have hpeek := gives_peekBehindSpace?_cons (c := '\x7d') hblank (by decide) rest
    exact hpeek.bind ((gives_skip _ _).bind (gives_pure _ _))
  cases first with
  | true => exact hclose [] isBlank_nil
  | false =>
    rw [enclosed, List.append_assoc]
    exact hclose last hlast

/-- The next member of an object is found by its name. -/
theorem gives_key?_cons (hgap : IsBlank gap) (first : Bool) (name : String) (value : List Char)
    (later : List (List Char)) (rest : List Char) :
    Gives (key? first)
      (enclosed '\x7d' gap last first (memberText colon (name, value) :: later) ++ rest) (some name)
      (colon ++ (value ++ (enclosed '\x7d' gap last false later ++ rest))) := by
  generalize hmore : enclosed '\x7d' gap last false later ++ rest = more
  have hname : memberText colon (name, value) ++ more =
      '"' :: (name.toList.flatMap Json.escape ++ '"' :: ':' :: (colon ++ (value ++ more))) := by
    simp [memberText, toList_quote]
  have hquote := gives_peekBehindSpace?_cons (c := '"') hgap (by decide)
    (name.toList.flatMap Json.escape ++ '"' :: ':' :: (colon ++ (value ++ more)))
  have hread := gives_stringRest true name (':' :: (colon ++ (value ++ more)))
  have hcolon := gives_peekBehindSpace?_cons (c := ':') isBlank_nil (by decide)
    (colon ++ (value ++ more))
  cases first with
  | true =>
    rw [enclosed, List.append_assoc, List.append_assoc, hmore, hname]
    refine hquote.bind ?_
    refine (gives_pure _ _).bind ((gives_skip _ _).bind ?_)
    refine hread.bind ?_
    exact hcolon.bind ((gives_skip _ _).bind (gives_pure _ _))
  | false =>
    have hcomma := gives_peekBehindSpace?_cons (c := ',') isBlank_nil (by decide)
      (gap ++ (memberText colon (name, value) ++ more))
    rw [enclosed, List.cons_append, List.append_assoc, List.append_assoc, hmore]
    rw [hname] at hcomma ⊢
    refine hcomma.bind ((gives_skip _ _).bind (hquote.bind ?_))
    refine (gives_skip _ _).bind ?_
    refine hread.bind ?_
    exact hcolon.bind ((gives_skip _ _).bind (gives_pure _ _))

theorem gives_members {item : JsonReader β} (name : α → String) {texts : α → List Char}
    {value : α → β} {xs : List α} (hgap : IsBlank gap) (hlast : IsBlank last)
    (hcolon : IsBlank colon) (h : ∀ x ∈ xs, Reads item (texts x) (value x))
    (hfuel : xs.length < fuel) (first : Bool) (read : List (String × β)) (rest : List Char) :
    Gives (members item fuel first read)
      (enclosed '\x7d' gap last first (xs.map fun x => memberText colon (name x, texts x)) ++ rest)
      (read.reverse ++ xs.map fun x => (name x, value x)) rest := by
  induction xs generalizing fuel first read with
  | nil =>
    cases fuel with
    | zero => cases hfuel
    | succ fuel =>
      refine (gives_key?_nil hlast first rest).bind ?_
      rw [List.map_nil, List.append_nil]
      exact gives_pure _ _
  | cons x xs ih =>
    cases fuel with
    | zero => cases hfuel
    | succ fuel =>
      have hfuel : xs.length < fuel := by simpa using hfuel
      have hrest := ih (fun y hy => h y (List.mem_cons_of_mem _ hy)) hfuel false
        ((name x, value x) :: read)
      rw [List.reverse_cons, List.append_assoc, List.singleton_append] at hrest
      have hvalue := (h x List.mem_cons_self).gives hcolon (ends_enclosed '\x7d' gap hlast
        (by decide) (xs.map fun x => memberText colon (name x, texts x)) rest)
      exact (gives_key?_cons hgap first (name x) (texts x) _ rest).bind (hvalue.bind hrest)

end enclosed

section record

variable {gap last colon : List Char} {names : List String} {field : Nat → σ → JsonReader σ}
  {set : Nat → σ → σ} {texts : Nat → List Char} {order seen : List Nat} {fuel : Nat}

/-- A name is found at its own place if no other is like it. -/
theorem findIdx?_getD {i : Nat} (hnames : names.Nodup) (hi : i < names.length) :
    names.findIdx? (· = names.getD i "") = some i := by
  rw [List.getD_eq_getElem _ _ hi, List.findIdx?_eq_some_iff_getElem]
  refine ⟨hi, decide_eq_true rfl, fun k hk => ?_⟩
  rw [decide_eq_true_eq]
  intro heq
  have := hnames.getElem_inj_iff.mp heq
  omega

/-- The fields of a record are taken in as they come. -/
theorem gives_recordMembers (hgap : IsBlank gap) (hlast : IsBlank last) (hcolon : IsBlank colon)
    (hnames : names.Nodup) (hfuel : order.length < fuel)
    (h : ∀ i ∈ order, i < names.length ∧ i ∉ seen ∧ ∀ r, Reads (field i r) (texts i) (set i r))
    (horder : order.Nodup) (first : Bool) (r : σ) (rest : List Char) :
    Gives (recordMembers names field fuel first seen r)
      (enclosed '\x7d' gap last first
        (order.map fun i => memberText colon (names.getD i "", texts i)) ++ rest)
      (order.foldl (fun r i => set i r) r, order.reverse ++ seen) rest := by
  induction order generalizing fuel first seen r with
  | nil =>
    cases fuel with
    | zero => cases hfuel
    | succ fuel => exact (gives_key?_nil hlast first rest).bind (gives_pure _ _)
  | cons i order ih =>
    cases fuel with
    | zero => cases hfuel
    | succ fuel =>
      obtain ⟨hi, hseen, hfield⟩ := h i List.mem_cons_self
      obtain ⟨hnew, horder⟩ := List.nodup_cons.mp horder
      have hlater : ∀ k ∈ order, k < names.length ∧ k ∉ i :: seen ∧
          ∀ r, Reads (field k r) (texts k) (set k r) := by
        intro k hk
        obtain ⟨hk', hkseen, hkfield⟩ := h k (List.mem_cons_of_mem _ hk)
        refine ⟨hk', ?_, hkfield⟩
        simp only [List.mem_cons, not_or]
        exact ⟨fun heq => hnew (heq ▸ hk), hkseen⟩
      have hfuel : order.length < fuel := by simpa using hfuel
      have hrest := ih hfuel hlater horder false (set i r)
      have hvalue := (hfield r).gives hcolon (ends_enclosed '\x7d' gap hlast (by decide)
        (order.map fun i => memberText colon (names.getD i "", texts i)) rest)
      refine (gives_key?_cons hgap first _ _ _ rest).bind ?_
      dsimp only
      rw [findIdx?_getD hnames hi]
      dsimp only
      rw [if_neg hseen, List.foldl_cons, List.reverse_cons, List.append_assoc,
        List.singleton_append]
      exact hvalue.bind hrest

/-- A record is read from an object with a member for each of its fields, in any order. -/
theorem reads_record (expected : String) {empty : σ} (hgap : IsBlank gap) (hlast : IsBlank last)
    (hcolon : IsBlank colon) (hnames : names.Nodup) (horder : order.Perm (List.range names.length))
    (h : ∀ i < names.length, ∀ r, Reads (field i r) (texts i) (set i r)) :
    Reads (record expected names false field empty)
      ('\x7b' :: enclosed '\x7d' gap last true
        (order.map fun i => memberText colon (names.getD i "", texts i)))
      (order.foldl (fun r i => set i r) empty) := by
  have hmem (i : Nat) : i ∈ order ↔ i < names.length := by rw [horder.mem_iff, List.mem_range]
  have hlength := length_le_members gap last colon true
    (order.map fun i => (names.getD i "", texts i))
  rw [List.length_map, List.map_map] at hlength
  refine ⟨⟨_, _, rfl, by decide, by decide⟩, fun {blank rest} hblank hrest => ?_⟩
  refine (gives_start hblank (by decide) _).bind ((gives_skip _ _).bind ?_)
  refine (gives_remaining _).bind ?_
  have hfields : ∀ i ∈ order, i < names.length ∧ i ∉ [] ∧
      ∀ r, Reads (field i r) (texts i) (set i r) :=
    fun i hi => ⟨(hmem i).mp hi, List.not_mem_nil, h i ((hmem i).mp hi)⟩
  refine (gives_recordMembers hgap hlast hcolon hnames (lt_bound hlength rest) hfields
    (horder.nodup_iff.mpr List.nodup_range) true empty rest).bind ?_
  have hall : (List.range names.length).find? (· ∉ order.reverse ++ []) = none := by
    refine List.find?_eq_none.mpr fun i hi => ?_
    simpa [hmem] using hi
  dsimp only
  rw [hall]
  exact gives_pure _ _

end record

end JsonReader

end Adequacy
