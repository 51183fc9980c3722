import Waveform.Violation

/-!
# Operations on a stored object

An `Operation σ α` runs on an object of type `σ` and either returns an `α` or breaks its contract.
The object that it leaves behind is part of the outcome in both cases, so what a broken contract
leaves behind is a fact to be proved and not a convention of the type.

An object that is shared lies behind a lock.  A call that breaks its contract while it holds the lock
poisons it, and the next call recovers what is behind it.
-/

namespace Waveform

/-- An operation on an object of type `σ`, with the object it leaves behind on either outcome. -/
abbrev Operation (σ α : Type) : Type :=
  EStateM Violation σ α

/-- Goes on only if the condition holds. -/
def require (p : Prop) [Decidable p] (v : Violation) : Except Violation Unit :=
  if p then .ok () else .error v

/-- A test or a reading that may break a contract is an operation that changes nothing. -/
instance {σ : Type} : MonadLift (Except Violation) (EStateM Violation σ) where
  monadLift
    | .ok a => EStateM.pure a
    | .error v => EStateM.throw v

/-- The object after the operation, where the operation keeps its contract. -/
def Operation.after {σ α : Type} (act : Operation σ α) (s : σ) : Except Violation σ :=
  match act s with
  | .ok _ t => .ok t
  | .error v _ => .error v

/-- The object that the operation leaves behind, whether it keeps its contract or not. -/
def Operation.leaves {σ α : Type} (act : Operation σ α) (s : σ) : σ :=
  match act s with
  | .ok _ t => t
  | .error _ t => t

/-- Runs an operation on the first object of a list that has the property; the answer is `none` if
no object has it. -/
def Operation.onFirst {σ α : Type} (p : σ → Bool) (act : Operation σ α) :
    Operation (List σ) (Option α)
  | [] => .ok none []
  | s :: rest =>
    if p s then
      match act s with
      | .ok a t => .ok (some a) (t :: rest)
      | .error v t => .error v (t :: rest)
    else
      match onFirst p act rest with
      | .ok a rest' => .ok a (s :: rest')
      | .error v rest' => .error v (s :: rest')

/-- Runs an operation on the object at a place of a list; the answer is `none` if the list ends
before that place. -/
def Operation.atIndex {σ α : Type} (act : Operation σ α) : Nat → Operation (List σ) (Option α)
  | _, [] => .ok none []
  | 0, s :: rest =>
    match act s with
    | .ok a t => .ok (some a) (t :: rest)
    | .error v t => .error v (t :: rest)
  | n + 1, s :: rest =>
    match atIndex act n rest with
    | .ok a rest' => .ok a (s :: rest')
    | .error v rest' => .error v (s :: rest')

/-- An object behind a lock, and whether a call broke its contract while it held the lock. -/
structure Locked (σ : Type) where
  object : σ
  poisoned : Bool

namespace Locked

variable {σ α : Type}

/-- Takes the lock.  A lock that is poisoned says so, and gives the object away nonetheless. -/
def lock (l : Locked σ) : Except σ σ :=
  if l.poisoned then .error l.object else .ok l.object

/-- The object behind the lock.  It is consistent between calls, so that a poisoned lock is as good as
any other. -/
def state (l : Locked σ) : σ :=
  match l.lock with
  | .ok s => s
  | .error s => s

/-- Poisoned or not, a lock gives away the object behind it. -/
@[simp] theorem state_eq (l : Locked σ) : l.state = l.object := by
  unfold state lock
  cases l.poisoned <;> rfl

/-- Runs an operation while the lock is held. -/
def hold (act : Operation σ α) : Operation (Locked σ) α := fun l =>
  match act l.state with
  | .ok a s => .ok a ⟨s, l.poisoned⟩
  | .error v s => .error v ⟨s, true⟩

end Locked

end Waveform
