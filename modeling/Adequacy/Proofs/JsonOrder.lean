import Adequacy.Json
import Mathlib.Data.List.Induction
import Mathlib.Data.List.Perm.Basic

namespace Adequacy

namespace Json

section members

variable {name : String} {value : Json} {m : String × Json} {members acc : List (String × Json)}

/-- Members stand by name, and no name stands twice. -/
def InOrder (members : List (String × Json)) : Prop := members.Pairwise (·.1 < ·.1)

theorem lt_of_not_lt {a b : String} (h : ¬ a < b) (hne : a ≠ b) : b < a := by
  by_contra hba
  exact hne (String.le_antisymm (String.not_lt.mp hba) (String.not_lt.mp h))

theorem InOrder.mem_insertMember_iff (h : InOrder members) (name : String) (value : Json) :
    m ∈ insertMember name value members ↔ m = (name, value) ∨ (m ∈ members ∧ m.1 ≠ name) := by
  induction members with
  | nil => simp [insertMember]
  | cons k members ih =>
    obtain ⟨hk, hlater⟩ := List.pairwise_cons.mp h
    have hne {b : String} (hb : b < k.1 ∨ b = k.1) (hm : m ∈ members) : m.1 ≠ b := by
      rintro rfl
      rcases hb with hb | hb
      · exact String.lt_asymm hb (hk m hm)
      · exact String.lt_irrefl _ (hb ▸ hk m hm)
    rw [insertMember]
    split
    next hlt =>
      have hkne : k.1 ≠ name := fun heq => String.lt_irrefl _ (heq ▸ hlt)
      rw [List.mem_cons, ih hlater, List.mem_cons]
      constructor
      · rintro (rfl | hm | hm)
        · exact .inr ⟨.inl rfl, hkne⟩
        · exact .inl hm
        · exact .inr ⟨.inr hm.1, hm.2⟩
      · rintro (hm | ⟨rfl | hm, hmne⟩)
        · exact .inr (.inl hm)
        · exact .inl rfl
        · exact .inr (.inr ⟨hm, hmne⟩)
    next hlt =>
      split
      next heq =>
        rw [List.mem_cons, List.mem_cons]
        constructor
        · exact Or.imp_right fun hm => ⟨.inr hm, hne (.inr heq.symm) hm⟩
        · rintro (hm | ⟨rfl | hm, hmne⟩)
          · exact .inl hm
          · exact absurd heq hmne
          · exact .inr hm
      next hkne =>
        have hname : name < k.1 := lt_of_not_lt hlt hkne
        rw [List.mem_cons]
        refine or_congr_right ⟨fun hm => ⟨hm, ?_⟩, And.left⟩
        rcases List.mem_cons.mp hm with rfl | hm
        · exact hkne
        · exact hne (.inl hname) hm

theorem InOrder.insertMember (h : InOrder members) (name : String) (value : Json) :
    InOrder (insertMember name value members) := by
  induction members with
  | nil => exact List.pairwise_singleton _ _
  | cons k members ih =>
    obtain ⟨hk, hpairs⟩ := List.pairwise_cons.mp h
    have hlater : InOrder members := hpairs
    rw [Json.insertMember]
    split
    next hlt =>
      refine List.pairwise_cons.mpr ⟨fun m hm => ?_, ih hlater⟩
      rcases (hlater.mem_insertMember_iff name value).mp hm with rfl | hm
      · exact hlt
      · exact hk m hm.1
    next hlt =>
      split
      next heq => exact List.pairwise_cons.mpr ⟨fun m hm => heq ▸ hk m hm, hlater⟩
      next hne =>
        have hname : name < k.1 := lt_of_not_lt hlt hne
        refine List.pairwise_cons.mpr ⟨fun m hm => ?_, h⟩
        rcases List.mem_cons.mp hm with rfl | hm
        · exact hname
        · exact String.lt_trans hname (hk m hm)

/-- What is inserted behind all other members is put at the end. -/
theorem insertMember_eq_append (h : ∀ m ∈ members, m.1 < name) :
    insertMember name value members = members ++ [(name, value)] := by
  induction members with
  | nil => rfl
  | cons k members ih =>
    rw [insertMember, if_pos (h k List.mem_cons_self),
      ih fun m hm => h m (List.mem_cons_of_mem _ hm)]
    rfl

/-- A member with a name of its own is added. -/
theorem perm_insertMember (h : ∀ m ∈ members, m.1 ≠ name) :
    (insertMember name value members).Perm ((name, value) :: members) := by
  induction members with
  | nil => exact .refl _
  | cons k members ih =>
    rw [insertMember]
    split
    next =>
      have hlater := ih fun m hm => h m (List.mem_cons_of_mem _ hm)
      exact (hlater.cons k).trans (.swap _ _ _)
    next =>
      rw [if_neg (h k List.mem_cons_self)]

theorem sortMembers_append (members : List (String × Json)) (m : String × Json) :
    sortMembers (members ++ [m]) = insertMember m.1 m.2 (sortMembers members) := by
  rw [sortMembers, List.foldl_append]
  rfl

theorem inOrder_sortMembers (members : List (String × Json)) : InOrder (sortMembers members) := by
  induction members using List.reverseRecOn with
  | nil => exact .nil
  | append_singleton members m ih =>
    rw [sortMembers_append]
    exact ih.insertMember m.1 m.2

theorem mem_of_mem_sortMembers (h : m ∈ sortMembers members) : m ∈ members := by
  induction members using List.reverseRecOn with
  | nil => exact h
  | append_singleton members k ih =>
    rw [sortMembers_append, (inOrder_sortMembers members).mem_insertMember_iff] at h
    rcases h with rfl | h
    · exact List.mem_append_right _ (List.mem_singleton_self _)
    · exact List.mem_append_left _ (ih h.1)

theorem sortMembers_of_inOrder (h : InOrder members) : sortMembers members = members := by
  induction members using List.reverseRecOn with
  | nil => rfl
  | append_singleton members m ih =>
    obtain ⟨hfront, -, hlast⟩ := List.pairwise_append.mp h
    rw [sortMembers_append, ih hfront,
      insertMember_eq_append fun k hk => hlast k hk m (List.mem_singleton_self m)]

/-- Members with names of their own are all kept. -/
theorem perm_sortMembers (h : (members.map (·.1)).Nodup) : (sortMembers members).Perm members := by
  induction members using List.reverseRecOn with
  | nil => exact .refl _
  | append_singleton members m ih =>
    rw [List.map_append] at h
    obtain ⟨hfront, -, hlast⟩ := List.nodup_append.mp h
    have hnew : ∀ k ∈ sortMembers members, k.1 ≠ m.1 := fun k hk =>
      hlast k.1 (List.mem_map_of_mem (mem_of_mem_sortMembers hk)) m.1 (List.mem_singleton_self _)
    rw [sortMembers_append]
    exact (perm_insertMember hnew).trans (((ih hfront).cons m).trans
      (List.perm_append_singleton m members).symm)

end members

section lookup

variable {name : String} {value : Json} {members : List (String × Json)}

theorem member?_append (members : List (String × Json)) (m : String × Json) :
    (object (members ++ [m])).member? name =
      if m.1 = name then some m.2 else (object members).member? name := by
  rw [member?, List.reverse_append, List.reverse_singleton, List.singleton_append, List.find?_cons]
  by_cases h : m.1 = name <;> simp [h, member?]

theorem mem_sortMembers_iff :
    (name, value) ∈ sortMembers members ↔ (object members).member? name = some value := by
  induction members using List.reverseRecOn with
  | nil => simp [sortMembers, member?]
  | append_singleton members m ih =>
    rw [sortMembers_append, (inOrder_sortMembers members).mem_insertMember_iff, ih, member?_append]
    by_cases hm : m.1 = name
    · subst hm
      simp [Prod.ext_iff, eq_comm]
    · simp [Prod.ext_iff, Ne.symm hm, hm]

/-- Sorting keeps what a member is found to be. -/
theorem member?_sortMembers (members : List (String × Json)) (name : String) :
    (object (sortMembers members)).member? name = (object members).member? name := by
  refine Option.ext fun value => ?_
  rw [← mem_sortMembers_iff, ← mem_sortMembers_iff,
    sortMembers_of_inOrder (inOrder_sortMembers members)]

theorem member?_map (f : Json → Json) (members : List (String × Json)) (name : String) :
    (object (members.map fun m => (m.1, f m.2))).member? name =
      ((object members).member? name).map f := by
  simp [member?, ← List.map_reverse, List.find?_map, Function.comp_def]

end lookup

/-- A value that holds no others. -/
def isScalar : Json → Bool
  | array _ | object _ => false
  | _ => true

theorem sorted_of_isScalar {v : Json} (h : v.isScalar = true) : v.sorted = v := by
  cases v with
  | array items => cases h
  | object members => cases h
  | _ => rw [sorted] <;> simp

theorem sorted_array (items : List Json) : (array items).sorted = array (items.map sorted) := by
  rw [sorted, List.attach_map_val]

theorem sorted_object (members : List (String × Json)) : (object members).sorted =
    object (sortMembers (members.map fun m => (m.1, m.2.sorted))) := by
  rw [sorted]
  exact congrArg (fun ms => object (sortMembers ms))
    (List.attach_map_val (f := fun m : String × Json => (m.1, m.2.sorted)))

theorem member?_sorted (v : Json) (name : String) :
    v.sorted.member? name = (v.member? name).map sorted := by
  cases v with
  | object members => rw [sorted_object, member?_sortMembers, member?_map]
  | array items => rw [sorted_array]; rfl
  | _ => rw [sorted_of_isScalar rfl]; rfl

/-- Sorting twice is sorting once. -/
theorem sorted_sorted (v : Json) : v.sorted.sorted = v.sorted := by
  induction v using Json.sorted.induct with
  | case1 items ih =>
    rw [sorted_array, sorted_array, List.map_map]
    exact congrArg array (List.map_congr_left fun v hv => ih v hv)
  | case2 members ih =>
    have hmap : (sortMembers (members.map fun m => (m.1, m.2.sorted))).map
        (fun m => (m.1, m.2.sorted)) = sortMembers (members.map fun m => (m.1, m.2.sorted)) := by
      refine (List.map_congr_left fun m hm => ?_).trans (List.map_id _)
      obtain ⟨k, hk, rfl⟩ := List.mem_map.mp (mem_of_mem_sortMembers hm)
      exact congrArg (Prod.mk k.1) (ih k.1 k.2 hk)
    rw [sorted_object, sorted_object, hmap, sortMembers_of_inOrder (inOrder_sortMembers _)]
  | case3 v harray hobject => rw [sorted.eq_3 v harray hobject, sorted.eq_3 v harray hobject]

end Json

end Adequacy
