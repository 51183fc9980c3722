import Waveform.Operation

/-!
# Outcomes of operations

How an operation that is put together from others ends.  A sequence keeps its contract if each step
does, and breaks it where the first step does that breaks its own.

An operation is `Atomic` if a broken contract leaves the object as it was.  Tests and readings are
atomic; a sequence is if it only changes something once nothing can go wrong any more.

Operations on objects of two types are compared by their outcomes: `Alike` says that they end in the
same way and leave related objects behind.

## Key results

- `bind_eq_ok`, `bind_eq_error`: the two outcomes of a sequence
- `Atomic.bind`, `Atomic.bind_total`: the two ways in which a sequence is atomic
- `Alike.bind`: sequences of steps that end alike
-/

namespace Waveform.Operation

variable {ε σ α β : Type}

/-- A sequence succeeds if both steps do. -/
theorem bind_eq_ok {act : EStateM ε σ α} {f : α → EStateM ε σ β} {s u : σ} {b : β} :
    (act >>= f) s = .ok b u ↔ ∃ a t, act s = .ok a t ∧ f a t = .ok b u := by
  simp only [bind, EStateM.bind]
  -- Only an action that succeeds goes on to the next.
  cases act s with
  | ok a t =>
    constructor
    · intro h
      exact ⟨a, t, rfl, h⟩
    · intro hparts
      obtain ⟨_, _, h, hf⟩ := hparts
      cases h
      exact hf
  | error v t =>
    constructor
    · intro h
      exact nomatch h
    · intro hparts
      obtain ⟨_, _, h, -⟩ := hparts
      exact nomatch h

/-- A sequence fails if the first step does, or if it succeeds and the second one fails. -/
theorem bind_eq_error {act : EStateM ε σ α} {f : α → EStateM ε σ β} {s u : σ} {v : ε} :
    (act >>= f) s = .error v u ↔
      act s = .error v u ∨ ∃ a t, act s = .ok a t ∧ f a t = .error v u := by
  simp only [bind, EStateM.bind]
  -- Either the first action fails, or it goes on and the second does.
  cases act s with
  | ok a t =>
    constructor
    · intro h
      exact .inr ⟨a, t, rfl, h⟩
    · rintro (h | ⟨_, _, h, hf⟩)
      · exact nomatch h
      · cases h
        exact hf
  | error w t =>
    constructor
    · intro h
      cases h
      exact .inl rfl
    · rintro (h | ⟨_, _, h, -⟩)
      · cases h
        rfl
      · exact nomatch h

/-- Reading the object hands it on. -/
theorem get_bind_eq (f : σ → EStateM ε σ β) (s : σ) : ((get : EStateM ε σ σ) >>= f) s = f s s :=
  rfl

/-- A reading that succeeds has changed nothing. -/
theorem lift_eq_ok {e : Except Violation α} {s t : σ} {a : α} :
    (liftM e : Operation σ α) s = .ok a t ↔ e = .ok a ∧ t = s := by
  cases e with
  | ok b =>
    constructor
    · intro h
      cases h
      exact ⟨rfl, rfl⟩
    · intro hparts
      obtain ⟨h, rfl⟩ := hparts
      cases h
      rfl
  | error v =>
    constructor
    · intro h
      exact nomatch h
    · intro hparts
      obtain ⟨h, -⟩ := hparts
      exact nomatch h

/-- A reading that fails has changed nothing. -/
theorem lift_eq_error {e : Except Violation α} {s t : σ} {v : Violation} :
    (liftM e : Operation σ α) s = .error v t ↔ e = .error v ∧ t = s := by
  cases e with
  | ok a =>
    constructor
    · intro h
      cases h
    · rintro ⟨h, -⟩
      cases h
  | error w =>
    constructor
    · intro h
      cases h
      exact ⟨rfl, rfl⟩
    · rintro ⟨h, rfl⟩
      cases h
      rfl

/-- A test is passed if its condition holds. -/
theorem require_eq_ok {p : Prop} [Decidable p] {v : Violation} : require p v = .ok () ↔ p := by
  unfold require
  split
  · exact ⟨fun _ => ‹p›, fun _ => rfl⟩
  · exact ⟨(nomatch ·), fun h => absurd h ‹¬p›⟩

/-- A test comes first, and the rest is done if it is passed. -/
theorem require_bind_eq_ok {p : Prop} [Decidable p] {v : Violation} {f : Unit → Operation σ β}
    {s u : σ} {b : β} :
    ((liftM (require p v) : Operation σ Unit) >>= f) s = .ok b u ↔ p ∧ f () s = .ok b u := by
  rw [bind_eq_ok]
  constructor
  · intro hparts
    obtain ⟨_, _, htest, h⟩ := hparts
    obtain ⟨hpass, rfl⟩ := lift_eq_ok.1 htest
    exact ⟨require_eq_ok.1 hpass, h⟩
  · intro hparts
    obtain ⟨hp, h⟩ := hparts
    exact ⟨(), s, lift_eq_ok.2 ⟨require_eq_ok.2 hp, rfl⟩, h⟩

/-- A test that is passed changes nothing. -/
theorem require_bind_of {p : Prop} [Decidable p] {v : Violation} {f : Unit → Operation σ β} (hp : p)
    (s : σ) : ((liftM (require p v) : Operation σ Unit) >>= f) s = f () s := by
  rw [require, if_pos hp]
  rfl

/-- What follows a test matters only if the test is passed. -/
theorem require_bind_congr {p : Prop} [Decidable p] {v : Violation} {f g : Unit → Operation σ β}
    {s : σ} (h : f () s = g () s) :
    ((liftM (require p v) : Operation σ Unit) >>= f) s = (liftM (require p v) >>= g) s := by
  by_cases hp : p
  · rw [require_bind_of hp, require_bind_of hp, h]
  · rw [require, if_neg hp]
    rfl

/-- The object after an operation is the one that it leaves where it succeeds. -/
theorem after_eq_ok {act : Operation σ Unit} {s t : σ} :
    act.after s = .ok t ↔ act s = .ok () t := by
  unfold after
  cases act s with
  | ok a u =>
    constructor
    · intro h
      cases h
      rfl
    · intro h
      cases h
      rfl
  | error v u => exact ⟨(nomatch ·), (nomatch ·)⟩

/-- An operation that succeeds leaves the object that it returns. -/
theorem leaves_of_eq_ok {act : Operation σ Unit} {s t : σ} (h : act s = .ok () t) :
    act.leaves s = t := by
  unfold leaves
  rw [h]

/-- Where the contract is kept nothing has changed. -/
def ReadOnly (act : Operation σ α) : Prop :=
  ∀ s a t, act s = .ok a t → t = s

/-- Where the contract is broken nothing has changed. -/
def Atomic (act : Operation σ α) : Prop :=
  ∀ s v t, act s = .error v t → t = s

/-- The contract is never broken. -/
def Total (act : Operation σ α) : Prop :=
  ∀ s v t, act s ≠ .error v t

/-- A reading changes nothing. -/
theorem ReadOnly.lift (e : Except Violation α) : ReadOnly (liftM e : Operation σ α) :=
  fun _ _ _ h => (lift_eq_ok.1 h).2

/-- A reading that fails changes nothing. -/
theorem Atomic.lift (e : Except Violation α) : Atomic (liftM e : Operation σ α) := by
  intro s v t h
  cases e with
  | ok a => exact nomatch h
  | error w =>
    cases h
    rfl

/-- A test comes before the change. -/
theorem Atomic.bind {act : Operation σ α} {f : α → Operation σ β} (hact : Atomic act)
    (hread : ReadOnly act) (hf : ∀ a, Atomic (f a)) : Atomic (act >>= f) := by
  intro s v u h
  rcases bind_eq_error.1 h with h | ⟨a, t, ha, h⟩
  · exact hact s v u h
  · -- The second step left what it was given, and that is what the first step was given.
    rw [hf a t v u h, hread s a t ha]

/-- What comes after the change cannot go wrong. -/
theorem Atomic.bind_total {act : Operation σ α} {f : α → Operation σ β} (hact : Atomic act)
    (hf : ∀ a, Total (f a)) : Atomic (act >>= f) := by
  intro s v u h
  rcases bind_eq_error.1 h with h | ⟨a, t, -, h⟩
  · exact hact s v u h
  · exact absurd h (hf a t v u)

/-- Reading the object itself. -/
theorem Atomic.get_bind {f : σ → Operation σ β} (hf : ∀ s, Atomic (f s)) :
    Atomic ((get : Operation σ σ) >>= f) := by
  intro s v t h
  rw [get_bind_eq] at h
  exact hf s s v t h

/-- An atomic operation leaves behind the object it was given, or the one it made of it. -/
theorem Atomic.leaves_cases {act : Operation σ Unit} (h : Atomic act) (s : σ) :
    act.leaves s = s ∨ act s = .ok () (act.leaves s) := by
  unfold leaves
  cases hact : act s with
  | ok a t => exact .inr rfl
  | error v t => exact .inl (h s v t hact)

/-! ## Objects of two types -/

variable {τ : Type} {R : σ → τ → Prop}

/-- Two operations end in the same way and leave related objects behind. -/
inductive Alike (R : σ → τ → Prop) :
    EStateM.Result Violation σ α → EStateM.Result Violation τ α → Prop where
  | ok (a : α) {s : σ} {t : τ} (h : R s t) : Alike R (.ok a s) (.ok a t)
  | error (v : Violation) {s : σ} {t : τ} (h : R s t) : Alike R (.error v s) (.error v t)

/-- Sequences end alike if the first steps do, and what follows them does wherever they lead. -/
theorem Alike.bind {act : Operation σ α} {act' : Operation τ α} {f : α → Operation σ β}
    {f' : α → Operation τ β} {s : σ} {t : τ} (h : Alike R (act s) (act' t))
    (hf : ∀ a s' t', act s = .ok a s' → act' t = .ok a t' → R s' t' →
      Alike R (f a s') (f' a t')) : Alike R ((act >>= f) s) ((act' >>= f') t) := by
  simp only [Bind.bind, EStateM.bind]
  generalize hs : act s = x at h
  generalize ht : act' t = y at h
  cases h with
  | ok a h => exact hf a _ _ hs ht h
  | error v h => exact .error v h

/-- The same test or reading on both sides. -/
theorem Alike.lift {s : σ} {t : τ} (h : R s t) (e : Except Violation α) :
    Alike R ((liftM e : Operation σ α) s) ((liftM e : Operation τ α) t) := by
  cases e with
  | ok a => exact .ok a h
  | error v => exact .error v h

/-- The same test comes first on both sides. -/
theorem Alike.require_bind {p : Prop} [Decidable p] {v : Violation} {f : Unit → Operation σ β}
    {f' : Unit → Operation τ β} {s : σ} {t : τ} (h : R s t)
    (hf : p → Alike R (f () s) (f' () t)) :
    Alike R (((liftM (require p v) : Operation σ Unit) >>= f) s)
      (((liftM (require p v) : Operation τ Unit) >>= f') t) := by
  by_cases hp : p
  · rw [require_bind_of hp, require_bind_of hp]
    exact hf hp
  · rw [require, if_neg hp]
    exact .error v h

/-- What is left behind is related on both outcomes. -/
theorem Alike.leaves {act : Operation σ α} {act' : Operation τ α} {s : σ} {t : τ}
    (h : Alike R (act s) (act' t)) : R (act.leaves s) (act'.leaves t) := by
  unfold Operation.leaves
  generalize act s = x at h
  generalize act' t = y at h
  cases h with
  | ok a h => exact h
  | error v h => exact h

end Waveform.Operation
