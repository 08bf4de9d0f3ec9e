import Adequacy.ByteText
import Mathlib.Data.List.Basic

namespace Adequacy

theorem utf8ByteSize_eq_byteSize (text : String) : text.utf8ByteSize = byteSize text.toList := by
  have key (cs : List Char) : (String.ofList cs).utf8ByteSize = byteSize cs := by
    induction cs with
    | nil => rfl
    | cons c cs ih =>
      rw [String.ofList_cons, String.utf8ByteSize_append, String.utf8ByteSize_singleton, ih,
        byteSize_cons]
  simpa using key text.toList

theorem eq_nil_of_byteSize_eq_zero {cs : List Char} (h : byteSize cs = 0) : cs = [] := by
  cases cs with
  | nil => rfl
  | cons c cs =>
    have := c.utf8Size_pos
    rw [byteSize_cons] at h
    omega

theorem isBoundary_byteSize_append (as bs : List Char) :
    isBoundary (byteSize as) (as ++ bs) = true :=
  isBoundary_iff.mpr ⟨as, bs, rfl, rfl⟩

theorem le_of_isBoundary {text : String} {offset : Nat}
    (h : isBoundary offset text.toList = true) : offset ≤ text.utf8ByteSize := by
  obtain ⟨as, bs, htext, hsize⟩ := isBoundary_iff.mp h
  rw [utf8ByteSize_eq_byteSize, htext, byteSize_append]
  omega

theorem isBoundary_middle (as bs cs : List Char) :
    isBoundary (byteSize as + byteSize bs) (as ++ bs ++ cs) = true :=
  isBoundary_iff.mpr ⟨as ++ bs, cs, rfl, byteSize_append as bs⟩

/-- Two prefixes of one text with the same number of bytes are the same. -/
theorem append_inj_of_byteSize_eq {as bs as' bs' : List Char} (h : as ++ bs = as' ++ bs')
    (hs : byteSize as = byteSize as') : as = as' ∧ bs = bs' := by
  have ht := takeBytes_byteSize_append as bs
  have hd := dropBytes_byteSize_append as bs
  rw [h, hs] at ht hd
  rw [takeBytes_byteSize_append] at ht
  rw [dropBytes_byteSize_append] at hd
  exact ⟨ht.symm, hd.symm⟩

/-- A prefix with no more bytes than another one begins it. -/
theorem exists_append_of_byteSize_le {as bs as' bs' : List Char} (h : as ++ bs = as' ++ bs')
    (hs : byteSize as ≤ byteSize as') : ∃ mid, as' = as ++ mid ∧ bs = mid ++ bs' := by
  rcases List.append_eq_append_iff.mp h with ⟨mid, h1, h2⟩ | ⟨mid, h1, h2⟩
  · exact ⟨mid, h1, h2⟩
  · cases mid with
    | nil => exact ⟨[], by simpa using h1.symm, by simpa using h2.symm⟩
    | cons c mid =>
      have := c.utf8Size_pos
      rw [h1, byteSize_append, byteSize_cons] at hs
      omega

theorem dropBytes_takeBytes_middle (as bs cs : List Char) :
    dropBytes (byteSize as) (takeBytes (byteSize as + byteSize bs) (as ++ bs ++ cs)) = bs := by
  rw [← byteSize_append, takeBytes_byteSize_append, dropBytes_byteSize_append]

theorem sliceChars?_eq_some_iff {text mid : List Char} {start stop : Nat} :
    sliceChars? text start stop = some mid ↔
      ∃ as cs, text = as ++ mid ++ cs ∧ byteSize as = start ∧
        byteSize as + byteSize mid = stop := by
  constructor
  · intro h
    unfold sliceChars? at h
    split at h
    next hb =>
      simp only [Bool.and_eq_true, decide_eq_true_eq] at hb
      obtain ⟨as, bs, h1, h2⟩ := isBoundary_iff.mp hb.1.2
      obtain ⟨as', bs', h1', h2'⟩ := isBoundary_iff.mp hb.2
      obtain ⟨between, h3, -⟩ := exists_append_of_byteSize_le (h1.symm.trans h1') (by omega)
      rw [← h2, ← h2', h1', h3, byteSize_append, dropBytes_takeBytes_middle] at h
      have hm := Option.some.inj h
      subst hm
      exact ⟨as, bs', by rw [h1', h3], h2, by rw [← h2', h3, byteSize_append]⟩
    next => simp at h
  · rintro ⟨as, cs, rfl, rfl, rfl⟩
    have h1 : isBoundary (byteSize as) (as ++ mid ++ cs) = true := by
      rw [List.append_assoc]; exact isBoundary_byteSize_append as (mid ++ cs)
    unfold sliceChars?
    rw [h1, isBoundary_middle, dropBytes_takeBytes_middle]
    simp

theorem slice?_eq_some_iff {text mid : String} {start stop : Nat} :
    slice? text start stop = some mid ↔
      ∃ as cs, text.toList = as ++ mid.toList ++ cs ∧ byteSize as = start ∧
        byteSize as + byteSize mid.toList = stop := by
  unfold slice?
  rw [Option.map_eq_some_iff]
  constructor
  · rintro ⟨cs, h, rfl⟩
    simpa using sliceChars?_eq_some_iff.mp h
  · intro h
    exact ⟨mid.toList, sliceChars?_eq_some_iff.mpr h, String.ofList_toList⟩

theorem charsFrom?_eq_some_iff {text : String} {cs : List Char} {start : Nat} :
    charsFrom? text start = some cs ↔ ∃ as, text.toList = as ++ cs ∧ byteSize as = start := by
  constructor
  · intro h
    simp only [charsFrom?] at h
    split at h
    next hb =>
      obtain ⟨as, bs, h1, rfl⟩ := isBoundary_iff.mp hb
      rw [h1, dropBytes_byteSize_append] at h
      exact ⟨as, by rw [h1, Option.some.inj h], rfl⟩
    next => simp at h
  · rintro ⟨as, h, rfl⟩
    simp [charsFrom?, h, isBoundary_byteSize_append, dropBytes_byteSize_append]

end Adequacy
