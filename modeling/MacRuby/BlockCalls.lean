import MacRuby.ArrayBreaks

/-!
# Calling each with a block of C

The methods of Enumerable call the method each of their receiver with a function of C in
the place of the block. What each does is a walk: it passes arguments to that function,
one invocation after the other, until it stops or raises. After an invocation it either
reads the register, and leaves when there is a value in it, or goes on with the register
emptied. Array#each, the ranges of fixnums and a yield in Ruby code read it every time;
Range#each never does when it walks by succ.
-/
namespace MacRuby.BlockCalls
open PolledBreaks ArrayIterators

/-- The next thing that each does; the walk goes on from a position that may depend on
the value of the invocation. -/
inductive Step (σ : Type) where
  | stop
  | raises
  | hangs
  | pass (args : List Value) (polls : Bool) (next : Value → σ)

/-- The method each of an object with these data, which it may change. -/
structure Walk where
  Pos : Type
  first : Pos
  step : Pos → List Value → Step Pos × List Value

variable (m : Walk) {τ : Type}

def advance (p : m.Pos) : Body (Step m.Pos) := do
  let r ← read fun s => m.step p s.receiver
  write fun s => {s with receiver := r.2}
  pure r.1

def seen (polls : Bool) : Body (Option Value) := if polls then popBroken else dispatch (some none)

/-- One round: a function of C that keeps a memo is invoked, and the walk goes on or
leaves with the value of a break. -/
def eachRound (cb : τ → List Value → Body (τ × Value))
    (goOn : m.Pos → τ → Body (τ × Option Value)) (t : τ) : Step m.Pos → Body (τ × Option Value)
  | .stop => pure (t,none)
  | .raises => raise
  | .hangs => running
  | .pass args polls next => do
    let r ← cb t args
    match ← seen polls with
    | some v => pure (r.1,some v)
    | none => goOn (next r.2) r.1

def eachLoop (cb : τ → List Value → Body (τ × Value)) : ℕ → m.Pos → τ → Body (τ × Option Value)
  | 0,_,_ => running
  | n+1,p,t => do
    let st ← advance m p
    eachRound m cb (eachLoop cb n) t st

def rbObjcBlockCall (cb : τ → List Value → Body (τ × Value)) (t : τ) (n : ℕ) :
    Body (τ × Option Value) := do
  let r ← eachLoop m cb n m.first t
  dispatch (some r)

def Walk.Passes (xs : List Value) : Prop :=
  ∃ args polls next, (m.step m.first xs).1=.pass args polls next

def arrayWalk : Walk where
  Pos := ℕ
  first := 0
  step i xs := (if i < xs.length then .pass [xs.getD i .nil] Bool.true fun _ => i+1 else .stop,xs)

variable {m : Walk} {τ : Type} {cb : τ → List Value → Body (τ × Value)} {v : Value}
variable {J P : τ → Prop} {t : τ} {s : Arrays}

lemma avoids_advance (p : m.Pos) : Avoids v (fun _ => True) (advance m p) := fun _ => trivial

lemma mute_advance (p : m.Pos) : Mute (advance m p) := fun _ _ h => h

lemma avoids_seen (polls : Bool) : Avoids v (fun _ => True) (seen polls) :=
  avoids_ite (avoids_popBroken _) (avoids_dispatch fun _ _ => trivial)

lemma mute_seen (polls : Bool) : Mute (seen polls) := by
  cases polls <;> exact fun _ _ h => h

lemma avoids_eachLoop (hc : ∀ t args, Avoids v (fun _ => True) (cb t args)) (n : ℕ) (p : m.Pos)
    (t : τ) : Avoids v (fun _ => True) (eachLoop m cb n p t) := by
  induction n generalizing p t with
  | zero => trivial
  | succ n ih =>
    refine (avoids_advance p).bind fun st _ => ?_
    cases st with
    | stop | raises | hangs => trivial
    | pass args polls next =>
      refine (hc t args).bind fun r _ => (avoids_seen polls).bind fun broken _ => ?_
      cases broken with
      | none => exact ih _ _
      | some u => trivial

lemma avoids_blockCall (hc : ∀ t args, Avoids v (fun _ => True) (cb t args)) (t : τ) (n : ℕ) :
    Avoids v (fun _ => True) (rbObjcBlockCall m cb t n) :=
  (avoids_eachLoop hc n _ t).bind fun _ _ => avoids_dispatch fun _ _ => trivial

/-- What holds of the memo after an invocation of the block holds of it until the next. -/
lemma ends_eachLoop (hc : ∀ t args, P t → Ends v (fun r => P r.1) (cb t args))
    (n : ℕ) (p : m.Pos) (t : τ) (ht : P t) : Ends v (fun r => P r.1) (eachLoop m cb n p t) := by
  induction n generalizing p t with
  | zero => exact fun _ _ => trivial
  | succ n ih =>
    refine (avoids_advance p).ends.bind fun st _ => ?_
    cases st with
    | stop => exact fun _ _ => ht
    | raises | hangs => exact fun _ _ => trivial
    | pass args polls next =>
      refine (hc t args ht).bind fun r hr => (avoids_seen polls).ends.bind fun broken _ => ?_
      cases broken with
      | none => exact ih _ _ hr
      | some u => exact fun _ _ => hr

lemma ends_blockCall (hc : ∀ t args, P t → Ends v (fun r => P r.1) (cb t args))
    (n : ℕ) (t : τ) (ht : P t) : Ends v (fun r => P r.1) (rbObjcBlockCall m cb t n) :=
  (ends_eachLoop hc n _ t ht).bind fun _ hr _ _ => hr

lemma misses_round {goOn : m.Pos → τ → Body (τ × Option Value)}
    {args : List Value} (hc : Misses v (fun r => P r.1) (cb t args))
    (hc₀ : Ends v (fun r => J r.1) (cb t args))
    (hP : ∀ p t, P t → Ends v (fun r => P r.1) (goOn p t))
    (hJ : ∀ p t, J t → Misses v (fun r => P r.1) (goOn p t)) (polls : Bool) (next : Value → m.Pos) :
    Misses v (fun r => P r.1) (eachRound m cb goOn t (.pass args polls next)) := by
  refine hc.bind hc₀ (fun r hr => ?_) fun r hr => ?_
  · refine (avoids_seen polls).ends.bind fun broken _ => ?_
    cases broken with
    | none => exact hP _ _ hr
    | some u => exact fun _ _ => hr
  · refine (mute_seen polls).bind_misses (avoids_seen polls).ends fun broken _ => ?_
    cases broken with
    | none => exact hJ _ _ hr
    | some u => exact fun _ _ => trivial

lemma misses_eachLoop  (hc : ∀ t args, J t → Misses v (fun r => P r.1) (cb t args))
    (hc₀ : ∀ t args, J t → Ends v (fun r => J r.1) (cb t args))
    (hc₁ : ∀ t args, P t → Ends v (fun r => P r.1) (cb t args))
    (n : ℕ) (p : m.Pos) (t : τ) (ht : J t) : Misses v (fun r => P r.1) (eachLoop m cb n p t) := by
  induction n generalizing p t with
  | zero => exact fun _ _ => trivial
  | succ n ih =>
    refine (mute_advance p).bind_misses (avoids_advance p).ends fun st _ => ?_
    cases st with
    | stop | raises | hangs => exact fun _ _ => trivial
    | pass args polls next =>
      exact misses_round (hc t args ht) (hc₀ t args ht) (ends_eachLoop hc₁ n) ih polls next

lemma misses_blockCall  (hc : ∀ t args, J t → Misses v (fun r => P r.1) (cb t args))
    (hc₀ : ∀ t args, J t → Ends v (fun r => J r.1) (cb t args))
    (hc₁ : ∀ t args, P t → Ends v (fun r => P r.1) (cb t args))
    (n : ℕ) (t : τ) (ht : J t) : Misses v (fun r => P r.1) (rbObjcBlockCall m cb t n) :=
  (misses_eachLoop hc hc₀ hc₁ n _ t ht).bind (ends_eachLoop hc₀ n _ t ht)
    (fun _ hr _ _ => hr) fun _ _ _ _ => trivial

lemma leaves_blockCall (hc : ∀ t args, Leaves (cb t args)) (t : τ) (n : ℕ) :
    Leaves (rbObjcBlockCall m cb t n) := by
  refine Leaves.bind ?_ fun _ => leaves_dispatch _
  generalize m.first=p
  induction n generalizing p t with
  | zero => exact leaves_ends _
  | succ n ih =>
    refine ((leaves_read _).bind fun _ => (leaves_write _).bind fun _ => leaves_pure _).bind
      fun st => ?_
    cases st with
    | stop => exact leaves_pure _
    | raises | hangs => exact leaves_ends _
    | pass args polls next =>
      refine (hc t args).bind fun r => (leaves_ite leaves_popBroken (leaves_dispatch _)).bind
        fun broken => ?_
      cases broken with
      | none => exact ih _ _
      | some u => exact leaves_pure _

lemma pause_eachLoop (n : ℕ) (p : m.Pos) (t : τ) (s : Arrays) (r : Option Value) :
    pause (eachLoop m cb (n+1) p t) s r =
      pause (eachRound m cb (eachLoop m cb n) t (m.step p s.receiver).1)
        {s with receiver := (m.step p s.receiver).2} r := rfl

lemma not_asks_eachLoop (h : ¬m.Passes s.receiver) (n : ℕ) (t : τ)
    (r : Option Value) : ¬(pause (eachLoop m cb n m.first t) s r).Asks := by
  cases n with
  | zero => exact not_false
  | succ n =>
    rw [pause_eachLoop]
    cases hs : (m.step m.first s.receiver).1 with
    | stop | raises | hangs => exact not_false
    | pass args polls next => exact absurd ⟨args,polls,next,hs⟩ h

lemma asks_eachLoop (h : m.Passes s.receiver)
    (hc : ∀ args, Asking (cb t args)) (n : ℕ) (r : Option Value) :
    (pause (eachLoop m cb (n+1) m.first t) s r).Asks := by
  obtain ⟨args,polls,next,hs⟩ := h
  rw [pause_eachLoop,hs]
  exact (hc args).bind _ _ _

end MacRuby.BlockCalls
