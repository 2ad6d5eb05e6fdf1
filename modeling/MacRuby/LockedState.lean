import Mathlib.Logic.Basic

/-!
# Programs on a state with a lock

A program ends with a value or raises, and leaves a state in either case. A guarded
program does not change a locked state: it raises, or it ends in the same way as on
the unlocked state, which it does not change either. Raising on every locked state
guards whatever comes after.
-/
namespace MacRuby.LockedState

def Prog (ε σ β : Type) : Type := σ → Except ε β × σ

variable {ε σ β γ : Type}

namespace Prog

protected def pure (b : β) : Prog ε σ β := fun s => (.ok b,s)

protected def bind (x : Prog ε σ β) (f : β → Prog ε σ γ) : Prog ε σ γ := fun s =>
  match x s with
  | (.ok b,s) => f b s
  | (.error e,s) => (.error e,s)

instance : Monad (Prog ε σ) where
  pure := Prog.pure
  bind := Prog.bind

end Prog

def raise (e : ε) : Prog ε σ β := fun s => (.error e,s)

/-- A value that was computed before, or the error that it ended in. -/
def lift (r : Except ε β) : Prog ε σ β := fun s => (r,s)

def read (f : σ → β) : Prog ε σ β := fun s => (.ok (f s),s)

def write (f : σ → σ) : Prog ε σ Unit := fun s => (.ok (),f s)

/-- Which states are locked, and the state without the lock. -/
structure Lock (σ : Type) where
  locked : σ → Bool
  unlocked : σ → σ

variable {ε σ β γ : Type} (L : Lock σ)
variable {x : Prog ε σ β} {f : β → Prog ε σ γ}

def Refuses (x : Prog ε σ β) : Prop := ∀ s, L.locked s=true → ∃ e, x s=(.error e,s)

/-- On a locked state the program raises, or ends as on the unlocked one and changes neither. -/
def Guarded (x : Prog ε σ β) : Prop := ∀ s, L.locked s=true →
  (∃ e, x s=(.error e,s)) ∨ ∃ r, x s=(r,s) ∧ x (L.unlocked s)=(r,L.unlocked s)

variable {L}

lemma bind_of_ok {b : β} {s s' : σ} (h : x s=(.ok b,s')) : (x >>= f) s=f b s' := by
  change Prog.bind x f s=_
  unfold Prog.bind
  rw [h]

lemma bind_of_error (f : β → Prog ε σ γ) {e : ε} {s s' : σ}
    (h : x s=(.error e,s')) : (x >>= f) s=(.error e,s') := by
  change Prog.bind x f s=_
  unfold Prog.bind
  rw [h]

lemma Refuses.guarded (h : Refuses L x) : Guarded L x :=
  fun s hs => .inl (h s hs)

lemma Refuses.bind (h : Refuses L x) (f : β → Prog ε σ γ) : Refuses L (x >>= f) := by
  intro s hs
  obtain ⟨e,he⟩ := h s hs
  exact ⟨e,bind_of_error f he⟩

lemma Guarded.bind (hx : Guarded L x) (hf : ∀ b, Guarded L (f b)) : Guarded L (x >>= f) := by
  intro s hs
  obtain ⟨e,he⟩ | ⟨r,hr,hr'⟩ := hx s hs
  · exact .inl ⟨e,bind_of_error f he⟩
  · cases r with
    | error e => exact .inl ⟨e,bind_of_error f hr⟩
    | ok b =>
      rw [bind_of_ok hr,bind_of_ok hr']
      exact hf b s hs

lemma guarded_pure (b : β) : Guarded L (pure b : Prog ε σ β) :=
  fun _ _ => .inr ⟨.ok b,rfl,rfl⟩

lemma guarded_raise (e : ε) : Guarded L (raise e : Prog ε σ β) := fun _ _ => .inl ⟨e,rfl⟩

lemma guarded_lift (r : Except ε β) : Guarded L (lift r : Prog ε σ β) :=
  fun _ _ => .inr ⟨r,rfl,rfl⟩

lemma guarded_read {f : σ → β} (h : ∀ s, f (L.unlocked s)=f s) :
    Guarded L (read f : Prog ε σ β) := by
  intro s _
  refine .inr ⟨.ok (f s),rfl,?_⟩
  rw [← h s]
  rfl

lemma guarded_ite {c : Prop} [Decidable c] {y : Prog ε σ β} (hx : Guarded L x)
    (hy : Guarded L y) : Guarded L (if c then x else y) := by
  split
  · exact hx
  · exact hy

end MacRuby.LockedState
