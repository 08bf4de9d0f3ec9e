namespace Adequacy

/-- How the states of a computation follow each other. -/
class Motion (σ : Type) where
  Leads : σ → σ → Prop
  refl (s : σ) : Leads s s
  trans {s t u : σ} : Leads s t → Leads t u → Leads s u

/-- A computation in given surroundings that moves a state the way its motion allows. It may give up
where it is. -/
structure Moving (ρ ε σ : Type) [Motion σ] (α : Type) where
  run : ρ → σ → Except ε α × σ
  leads (r : ρ) (s : σ) : Motion.Leads s (run r s).2

namespace Moving

variable {ρ ε σ α β : Type} [Motion σ]

@[always_inline, inline]
protected def pure (a : α) : Moving ρ ε σ α :=
  ⟨fun _ s => (.ok a, s), fun _ s => Motion.refl s⟩

@[always_inline, inline]
protected def bind (x : Moving ρ ε σ α) (f : α → Moving ρ ε σ β) : Moving ρ ε σ β where
  run r s :=
    match x.run r s with
    | (.ok a, t) => (f a).run r t
    | (.error e, t) => (.error e, t)
  leads r s := by
    have hx := x.leads r s
    split
    next a t h =>
      rw [h] at hx
      exact Motion.trans hx ((f a).leads r t)
    next e t h =>
      rw [h] at hx
      exact hx

@[always_inline, inline]
protected def tryCatch (x : Moving ρ ε σ α) (handle : ε → Moving ρ ε σ α) : Moving ρ ε σ α where
  run r s :=
    match x.run r s with
    | (.ok a, t) => (.ok a, t)
    | (.error e, t) => (handle e).run r t
  leads r s := by
    have hx := x.leads r s
    split
    next a t h =>
      rw [h] at hx
      exact hx
    next e t h =>
      rw [h] at hx
      exact Motion.trans hx ((handle e).leads r t)

@[always_inline, inline]
instance : Monad (Moving ρ ε σ) where
  pure := Moving.pure
  bind := Moving.bind

@[always_inline, inline]
instance : MonadExceptOf ε (Moving ρ ε σ) where
  throw e := ⟨fun _ s => (.error e, s), fun _ s => Motion.refl s⟩
  tryCatch := Moving.tryCatch

@[always_inline, inline]
instance : MonadReaderOf ρ (Moving ρ ε σ) where
  read := ⟨fun r s => (.ok r, s), fun _ s => Motion.refl s⟩

@[always_inline, inline]
instance : MonadWithReaderOf ρ (Moving ρ ε σ) where
  withReader f x := ⟨fun r s => x.run (f r) s, fun r s => x.leads (f r) s⟩

/-- The state that the computation is in. -/
@[always_inline, inline]
def state : Moving ρ ε σ σ := ⟨fun _ s => (.ok s, s), fun _ s => Motion.refl s⟩

/-- Moves the state. -/
@[always_inline, inline]
def move (f : ρ → σ → σ) (h : ∀ r s, Motion.Leads s (f r s)) : Moving ρ ε σ Unit :=
  ⟨fun r s => (.ok (), f r s), h⟩

theorem run_bind_eq_ok_iff {x : Moving ρ ε σ α} {f : α → Moving ρ ε σ β} {r : ρ} {s u : σ} {b : β} :
    (x >>= f).run r s = (.ok b, u) ↔
      ∃ a t, x.run r s = (.ok a, t) ∧ (f a).run r t = (.ok b, u) := by
  change (match x.run r s with
    | (.ok a, t) => (f a).run r t
    | (.error e, t) => (.error e, t)) = (.ok b, u) ↔ _
  constructor
  · intro h
    split at h
    next a t hx => exact ⟨a, t, hx, h⟩
    next => cases h
  · rintro ⟨a, t, hx, hf⟩
    rw [hx]
    exact hf

theorem run_bind_of_run {x : Moving ρ ε σ α} {f : α → Moving ρ ε σ β} {r : ρ} {s t : σ} {a : α}
    (h : x.run r s = (.ok a, t)) : (x >>= f).run r s = (f a).run r t := by
  change (match x.run r s with
    | (.ok a, t) => (f a).run r t
    | (.error e, t) => (.error e, t)) = _
  rw [h]

theorem run_bind_of_error {x : Moving ρ ε σ α} {f : α → Moving ρ ε σ β} {r : ρ} {s t : σ} {e : ε}
    (h : x.run r s = (.error e, t)) : (x >>= f).run r s = (.error e, t) := by
  change (match x.run r s with
    | (.ok a, t) => (f a).run r t
    | (.error e, t) => (.error e, t)) = _
  rw [h]

theorem run_tryCatch_eq_ok_iff {x : Moving ρ ε σ α} {handle : ε → Moving ρ ε σ α} {r : ρ} {s u : σ}
    {a : α} : (tryCatch x handle).run r s = (.ok a, u) ↔ x.run r s = (.ok a, u) ∨
      ∃ e t, x.run r s = (.error e, t) ∧ (handle e).run r t = (.ok a, u) := by
  change (match x.run r s with
    | (.ok a, t) => (.ok a, t)
    | (.error e, t) => (handle e).run r t) = (.ok a, u) ↔ _
  split
  next b t hx => simp [hx]
  next e t hx =>
    simp only [hx, Prod.mk.injEq, reduceCtorEq, false_and, Except.error.injEq, false_or]
    exact ⟨fun h => ⟨e, t, ⟨rfl, rfl⟩, h⟩, by rintro ⟨e, t, ⟨rfl, rfl⟩, h⟩; exact h⟩

@[simp] theorem run_pure (a : α) (r : ρ) (s : σ) :
    (pure a : Moving ρ ε σ α).run r s = (.ok a, s) := rfl

@[simp] theorem run_state_bind (f : σ → Moving ρ ε σ β) (r : ρ) (s : σ) :
    (state >>= f).run r s = (f s).run r s := rfl

@[simp] theorem run_move_bind {g : ρ → σ → σ} {h : ∀ r s, Motion.Leads s (g r s)}
    (f : Unit → Moving ρ ε σ β) (r : ρ) (s : σ) :
    (move g h >>= f).run r s = (f ()).run r (g r s) := rfl

theorem leads_of_run {x : Moving ρ ε σ α} {r : ρ} {s t : σ} {a : Except ε α}
    (h : x.run r s = (a, t)) : Motion.Leads s t := by
  have := x.leads r s
  rw [h] at this
  exact this

/-- Whatever the computation answers has a property. -/
def Answers (x : Moving ρ ε σ α) (P : α → Prop) : Prop :=
  ∀ r s a t, x.run r s = (.ok a, t) → P a

namespace Answers

theorem pure {P : α → Prop} {a : α} (h : P a) : (Pure.pure a : Moving ρ ε σ α).Answers P := by
  intro r s b t hb
  cases hb
  exact h

theorem bind {P : β → Prop} {x : Moving ρ ε σ α} {f : α → Moving ρ ε σ β}
    (h : ∀ a, (f a).Answers P) : (x >>= f).Answers P := by
  intro r s b u hb
  obtain ⟨a, t, -, hf⟩ := run_bind_eq_ok_iff.mp hb
  exact h a r t b u hf

theorem bind_of {P : β → Prop} {Q : α → Prop} {x : Moving ρ ε σ α} {f : α → Moving ρ ε σ β}
    (hx : x.Answers Q) (hf : ∀ a, Q a → (f a).Answers P) : (x >>= f).Answers P := by
  intro r s b u hb
  obtain ⟨a, t, hrun, hf'⟩ := run_bind_eq_ok_iff.mp hb
  exact hf a (hx r s a t hrun) r t b u hf'

theorem throw {P : α → Prop} {e : ε} : (MonadExcept.throw e : Moving ρ ε σ α).Answers P :=
  fun _ _ _ _ h => nomatch h

theorem withReader {P : α → Prop} {f : ρ → ρ} {x : Moving ρ ε σ α} (h : x.Answers P) :
    (MonadWithReader.withReader f x : Moving ρ ε σ α).Answers P := fun r s => h (f r) s

end Answers

end Moving

end Adequacy
