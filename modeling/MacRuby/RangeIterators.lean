import MacRuby.BlockCalls

/-!
# The iterators of Range and a break in their block

Ranges of fixnums, and of numbers with a step, read the register after each invocation
of the block. Ranges of strings go through String#upto, which reads it, but the value
that upto returned is dropped. Every other range is walked by the method succ: nothing
reads the register, and the next call of succ empties it.
-/
namespace MacRuby.RangeIterators
open PolledBreaks ArrayIterators ArrayBreaks BlockCalls

/-- What the iterators of Range ask of the ends and of the step, where `none` is a method
that raises; `text` has the characters of a string. -/
structure RangeMethods where
  respondsSucc : Value → Bool
  succ : Value → Option Value
  isString : Value → Bool
  checkString : Value → Option Value
  text : Value → Option (List ℕ)
  char : ℕ → Value
  strCmp : Value → Value → ℤ
  numeric : Value → Value → Bool
  toStep : Value → Option Value
  negative : Value → Option Bool
  positive : Value → Option Bool
  lt : Value → Value → Option Bool
  le : Value → Value → Option Bool
  plus : Value → Value → Option Value
  minus : Value → Value → Option Value

structure Range where
  beg : Value
  fin : Value
  excl : Bool

/-- The first number and the one after the last, when both ends are fixnums. -/
def Range.fixnums (r : Range) : Option (ℤ × ℤ) :=
  match r.beg,r.fin with
  | .fixnum b,.fixnum e => some (b,if r.excl then e else e+1)
  | _,_ => none

def Range.fixnumSteps (r : Range) : Value → Option (ℤ × ℤ × ℤ)
  | .fixnum unit => r.fixnums.map fun f => (f.1,f.2,unit)
  | _ => none

inductive RangeIterator where
  | each
  | step (unit : Option Value)

section Upto
variable (R : RangeMethods) (beg fin : Value) (excl : Bool)

inductive UptoPos where
  | start
  | char (c e : ℕ)
  | after (afterEnd current : Value)
  | over

def uptoChar (c e : ℕ) : Step UptoPos :=
  .pass [R.char c] Bool.true fun _ =>
    if (¬excl ∧ c=e) ∨ (excl ∧ c+1=e) then .over else .char (c+1) e

/-- The test of the loop over strings that are not both one character long. -/
def uptoTest (afterEnd current : Value) : Step UptoPos :=
  if R.text current=R.text afterEnd then .stop
  else .pass [current] Bool.true fun _ => .after afterEnd current

def uptoStart : Step UptoPos :=
  match R.text beg,R.text fin with
  | some [c],some [e] => if e < c ∨ (excl ∧ c=e) then .stop else uptoChar R excl c e
  | some _,some _ =>
    if 0 < R.strCmp beg fin ∨ (excl ∧ R.strCmp beg fin=0) then .stop
    else
      match R.succ fin with
      | some afterEnd => uptoTest R afterEnd beg
      | none => .raises
  | _,_ => .raises

def uptoSucc (afterEnd current : Value) : Step UptoPos :=
  if ¬excl ∧ R.text current=R.text fin then .stop
  else
    match R.succ current with
    | none => .raises
    | some current =>
      match R.text current,R.text fin with
      | some t,some e =>
        if excl ∧ t=e then .stop
        else if e.length < t.length ∨ t=[] then .stop
        else uptoTest R afterEnd current
      | _,_ => .raises

def rbStrUpto : Walk where
  Pos := UptoPos
  first := .start
  step p xs := (match p with
    | .start => uptoStart R beg fin excl
    | .char c e => uptoChar R excl c e
    | .after afterEnd current => uptoSucc R fin excl afterEnd current
    | .over => .stop,xs)

end Upto

variable (E : Methods) (R : RangeMethods) (r : Range)

def rLt (a b : Value) : Option Bool :=
  match E.cmp a b with
  | none => none
  | some .nil => some Bool.false
  | some c => (cmpint E c).map (· < 0)

def rLe (a b : Value) : Option (Option Bool) :=
  match E.cmp a b with
  | none => none
  | some .nil => some none
  | some c => (cmpint E c).map fun c => if c=0 then some Bool.true
      else if c < 0 then some Bool.false else none

def rTest (v : Value) : Option (Option Bool) :=
  if r.excl then (rLt E v r.fin).map fun t => if t then some Bool.false else none
  else rLe E v r.fin

inductive SuccPos where
  | at (v : Value)
  | after (v : Value)
  | over

def testedAt (v : Value) : Step SuccPos :=
  match rTest E r v with
  | none => .raises
  | some none => .stop
  | some (some last) => .pass [v] Bool.false fun _ => if last then .over else .after v

def rangeEachFunc : Walk where
  Pos := SuccPos
  first := .at r.beg
  step p xs := (match p with
    | .at v => testedAt E r v
    | .after v =>
      match R.succ v with
      | none => .raises
      | some v => testedAt E r v
    | .over => .stop,xs)

def fixnumWalk (b lim : ℤ) : Walk where
  Pos := ℤ
  first := b
  step i xs := (if i < lim then .pass [.fixnum i] Bool.true fun _ => i+1 else .stop,xs)

def raisingWalk : Walk where
  Pos := Unit
  first := ()
  step _ xs := (.raises,xs)

def rangeWalk : Walk :=
  if R.respondsSucc r.beg then
    match r.fixnums with
    | some (b,lim) => fixnumWalk b lim
    | none => if R.isString r.beg then rbStrUpto R r.beg r.fin r.excl else rangeEachFunc E R r
  else raisingWalk

def eachI (_ : Unit) (args : List Value) : Body (Unit × Value) := do
  let v ← yield args
  pure ((),v)

def countDown : Value → Body Value
  | .fixnum k => pure (.fixnum (k-1))
  | v => dispatch (R.minus v (.fixnum 1))

def stepI (step iter : Value) (args : List Value) : Body (Value × Value) := do
  match ← countDown R iter with
  | .fixnum 0 => do
    let _ ← yield args
    pure (step,.nil)
  | iter => pure (iter,.nil)

def eachFixnum (b lim : ℤ) (n : ℕ) : Body Value :=
  polledLoop (fun i : ℤ => pure (if i < lim then some (i,[.fixnum i]) else none))
    (fun i _ => pure (.inl (i+1))) (fun _ => pure .receiver) n b

variable {τ : Type}

def overStrings (cb : τ → List Value → Body (τ × Value)) (b : Value) (t : τ) (n : ℕ) :
    Body Value := do
  let _ ← rbObjcBlockCall (rbStrUpto R b r.fin r.excl) cb t n
  pure .receiver

def overSuccessors (cb : τ → List Value → Body (τ × Value)) (t : τ) (n : ℕ) : Body Value := do
  let _ ← eachLoop (rangeEachFunc E R r) cb n (.at r.beg) t
  pure .receiver

def rangeEach (n : ℕ) : Body Value :=
  if R.respondsSucc r.beg then
    match r.fixnums with
    | some (b,lim) => eachFixnum b lim n
    | none =>
      if R.isString r.beg then overStrings R r eachI r.beg () n
      else overSuccessors E R r eachI () n
  else raise

def stepOf : Option Value → Option Value
  | none => some (.fixnum 1)
  | some unit => do
    let step ← R.toStep unit
    let negative ← R.negative step
    let positive ← R.positive step
    if ¬negative ∧ positive then some step else none

def stepFixnum (b lim unit : ℤ) (n : ℕ) : Body Value :=
  polledLoop (fun i : ℤ => pure (if i < lim then some (i,[.fixnum i]) else none))
    (fun i _ => pure (if 2^63 ≤ i+unit then .inr .receiver else .inl (i+unit)))
    (fun _ => pure .receiver) n b

def stepNumeric (step : Value) (n : ℕ) : Body Value :=
  polledLoop
    (fun b : Value => do
      let more ← dispatch (if r.excl then R.lt b r.fin else R.le b r.fin)
      pure (if more then some (b,[b]) else none))
    (fun b _ => do
      let b ← dispatch (R.plus b step)
      pure (.inl b))
    (fun _ => pure .receiver) n r.beg

def stepOther (step : Value) (n : ℕ) : Body Value :=
  if R.numeric r.beg r.fin then stepNumeric R r step n
  else
    match R.checkString r.beg with
    | some b => overStrings R r (stepI R step) b (.fixnum 1) n
    | none =>
      if R.respondsSucc r.beg then overSuccessors E R r (stepI R step) (.fixnum 1) n
      else raise

def stepBy (step : Value) (n : ℕ) : Body Value :=
  match r.fixnumSteps step with
  | some (b,lim,unit) => stepFixnum b lim unit n
  | none => stepOther E R r step n

def rangeStep (unit : Option Value) (n : ℕ) : Body Value := do
  let step ← dispatch (stepOf R unit)
  stepBy E R r step n

def RangeIterator.code : RangeIterator → ℕ → Body Value
  | .each,n => rangeEach E R r n
  | .step unit,n => rangeStep E R r unit n

/-- There is nothing to pass to the block where a break would be lost: by upto for the
strings, by succ for all others but the fixnums. -/
def EachSafe (xs : List Value) : Prop :=
  r.fixnums=none → R.respondsSucc r.beg=Bool.true →
    if R.isString r.beg then ¬(rbStrUpto R r.beg r.fin r.excl).Passes xs
    else ¬(rangeEachFunc E R r).Passes xs

def StepSafe (xs : List Value) (step : Value) : Prop :=
  r.fixnumSteps step=none → R.numeric r.beg r.fin=Bool.false →
    match R.checkString r.beg with
    | some b => ¬(rbStrUpto R b r.fin r.excl).Passes xs
    | none => R.respondsSucc r.beg=Bool.true → ¬(rangeEachFunc E R r).Passes xs

/-- The iterators that lose a break have no value to pass to the block. -/
def RangeIterator.Safe (xs : List Value) : RangeIterator → Prop
  | .each => EachSafe E R r xs
  | .step unit => ∀ s, stepOf R unit=some s → StepSafe E R r xs s

end MacRuby.RangeIterators
