import Mathlib.Algebra.Order.Ring.Int
import MacRuby.PolledBreaks

/-!
# The iterators of Array and a break in their block

The functions of array.c that invoke a block. A break in the block leaves the ones that
read the register after each invocation; it does not leave reject and delete_if, which
drop the value that reject! returned, the permutations of two or more elements, which
never read the register, the empty permutation and combination, and the sorts, which
keep the value of the break in a word that means "no break" when it is false.
-/
namespace MacRuby.ArrayIterators
open PolledBreaks Function

/-- Values as far as the iterators tell them apart; `receiver` is the object that the
iterator was called on. -/
inductive Value where
  | nil
  | false
  | true
  | fixnum (n : ℤ)
  | array (elements : List Value)
  | hash (pairs : List Value)
  | receiver
  | object (id : ℕ)

def rtest : Value → Bool
  | .nil => Bool.false
  | .false => Bool.false
  | _ => Bool.true

/-- What a sorting function does with more than one element: it compares two of them and
goes on with the sign that it got. -/
inductive Sorting where
  | sorted (xs : List Value)
  | compare (a b : Value) (next : ℤ → Sorting)

/-- The methods that the iterators call, where `none` is a method that raises, and the
sorting function of the C library, which has to compare elements to sort them. -/
structure Methods where
  eq : Value → Value → Option Bool
  eqq : Value → Value → Option Bool
  cmp : Value → Value → Option Value
  bigSign : Value → Option ℤ
  sign : Value → Option ℤ
  arrayInstance : ℕ → Bool
  callsHash : Value → Bool
  sameKey : Value → Value → Bool
  call : Value → Option Value
  qsort : List Value → Sorting
  qsort_compares : ∀ xs, 1 < xs.length → ∃ a b next, qsort xs=.compare a b next

/-- The receiver, where it is an array, and the copy that an iterator works on. -/
structure Arrays where
  receiver : List Value
  copy : List Value

inductive Which where
  | receiver
  | copy

def Arrays.get (s : Arrays) : Which → List Value
  | .receiver => s.receiver
  | .copy => s.copy

def Arrays.set (s : Arrays) (xs : List Value) : Which → Arrays
  | .receiver => {s with receiver := xs}
  | .copy => {s with copy := xs}

abbrev Body (β : Type) : Type := Code Arrays Value β

/-- The block of a call can change the receiver, but not a copy that it has never seen. -/
def onReceiver (b : Block (List Value) Value) : Block Arrays Value := fun h args s =>
  ((b h args s.receiver).1,{s with receiver := (b h args s.receiver).2})

variable (E : Methods)

def storeAt (i : ℕ) (v : Value) (xs : List Value) : List Value :=
  if i < xs.length then xs.set i v else xs ++ List.replicate (i-xs.length) .nil ++ [v]

def arrayLen : Body ℕ := read fun s => s.receiver.length

/-- `i < RARRAY_LEN(ary)`, and the element at `i` is passed to the block. -/
def element (i : ℕ) : Body (Option (ℕ × List Value)) :=
  read fun s => if i < s.receiver.length then some (i,[s.receiver.getD i .nil]) else none

def elementBelow (n i : ℕ) : Body (Option (ℕ × List Value)) :=
  read fun s => if i < n then some (i,[s.receiver.getD i .nil]) else none

def cmpint : Value → Option ℤ
  | .nil => none
  | .fixnum n => if -2^31 ≤ n ∧ n < 2^31 then some n else none
  | v =>
    match E.bigSign v with
    | some c => some c
    | none => E.sign v

def callsSign : Value → Bool
  | .nil => Bool.false
  | .fixnum _ => Bool.false
  | v => (E.bigSign v).isNone

def rbCmpint (v : Value) : Body ℤ :=
  if callsSign E v then dispatch (cmpint E v) else answer (cmpint E v)

def rbAryInitialize (len : ℤ) (n : ℕ) : Body Value := do
  if len < 0 ∨ 2^60 ≤ len then raise
  else do
    write fun s => {s with receiver := []}
    polledLoop
      (fun i : ℕ => pure (if (i : ℤ) < len then some (i,[.fixnum i]) else none))
      (fun i v => do
        write fun s => {s with receiver := s.receiver ++ [v]}
        pure (.inl (i+1)))
      (fun _ => pure .receiver) n 0

def kindOfArray : Value → Bool
  | .array _ => Bool.true
  | .receiver => Bool.true
  | .object id => E.arrayInstance id
  | _ => Bool.false

/-- What initialize returned is the value of new only if it is an array. -/
def rbClassNewInstance (len : ℤ) (n : ℕ) : Body Value := do
  let initObj ← function (rbAryInitialize len n)
  dispatch (some ())
  pure (if kindOfArray E initObj then initObj else .receiver)

def rbAryFetch (pos : ℤ) : Body Value := do
  let len ← arrayLen
  let idx := if pos < 0 then pos+len else pos
  if idx < 0 ∨ (len : ℤ) ≤ idx then yield [.fixnum pos]
  else read fun s => s.receiver.getD idx.toNat .nil

def rbAryIndex (n : ℕ) : Body Value := do
  let len ← arrayLen
  polledLoop (elementBelow len)
    (fun i v => if rtest v then returns (.fixnum i) else pure (.inl (i+1)))
    (fun _ => pure .nil) n 0

/-- `while (i--)`: the state is the number of elements that are left. -/
def rbAryRindex (n : ℕ) : Body Value := do
  let len ← arrayLen
  polledLoop
    (fun i : ℕ => read fun s => if 0 < i then some (i-1,[s.receiver.getD (i-1) .nil]) else none)
    (fun i v => if rtest v then returns (.fixnum i) else pure (.inl (if len < i then len else i)))
    (fun _ => pure .nil) n len

def rbAryEach (n : ℕ) : Body Value :=
  polledLoop element (fun i _ => pure (.inl (i+1))) (fun _ => pure .receiver) n 0

def rbAryEachIndex (n : ℕ) : Body Value := do
  let len ← arrayLen
  polledLoop (fun i : ℕ => pure (if i < len then some (i,[.fixnum i]) else none))
    (fun i _ => pure (.inl (i+1))) (fun _ => pure .receiver) n 0

def rbAryReverseEach (n : ℕ) : Body Value := do
  let len ← arrayLen
  polledLoop
    (fun i : ℕ => read fun s => if 0 < i then some (i-1,[s.receiver.getD (i-1) .nil]) else none)
    (fun i _ => do
      let len ← arrayLen
      pure (.inl (if len < i then len else i)))
    (fun _ => pure .receiver) n len

def rbAryCollect (n : ℕ) : Body Value :=
  polledLoop
    (fun t : ℕ × List Value => do
      let x ← element t.1
      pure (x.map fun x => (t,x.2)))
    (fun t v => pure (.inl (t.1+1,t.2 ++ [v]))) (fun t => pure (.array t.2)) n (0,[])

def rbAryCollectBang (n : ℕ) : Body Value :=
  polledLoop element
    (fun i v => do
      write fun s => {s with receiver := storeAt i v s.receiver}
      pure (.inl (i+1)))
    (fun _ => pure .receiver) n 0

def rbArySelect (n : ℕ) : Body Value := do
  let len ← arrayLen
  polledLoop
    (fun t : ℕ × List Value => do
      let x ← elementBelow len t.1
      pure (x.map fun x => ((t,x.2),x.2)))
    (fun t v => pure (.inl (t.1.1+1,if rtest v then t.1.2 ++ t.2 else t.1.2)))
    (fun t => pure (.array t.2)) n (0,[])

def without (item : Value) : List Value → Option (List Value)
  | [] => some []
  | x::xs =>
    match E.eq x item with
    | none => none
    | some Bool.true => without item xs
    | some Bool.false => (without item xs).map (x::·)

def rbAryDelete (item : Value) : Body Value := do
  let xs ← read fun s => s.receiver
  let ys ← dispatch (without E item xs)
  write fun s => {s with receiver := ys}
  if ys.length=xs.length then yield [item] else pure item

def rbAryRejectBang (a : Which) (n : ℕ) : Body Value := do
  let orign ← read fun s => (s.get a).length
  polledLoop
    (fun t : ℕ × ℕ => read fun s => if t.1 < t.2 then some (t,[(s.get a).getD t.1 .nil]) else none)
    (fun t v =>
      if rtest v then do
        write fun s => s.set ((s.get a).eraseIdx t.1) a
        pure (.inl (t.1,t.2-1))
      else pure (.inl (t.1+1,t.2)))
    (fun t => if t.2=orign then pure .nil else
      match a with
      | .receiver => pure .receiver
      | .copy => read fun s => .array s.copy) n (0,orign)

def rbAryReject (n : ℕ) : Body Value := do
  write fun s => {s with copy := s.receiver}
  let _ ← function (rbAryRejectBang .copy n)
  read fun s => .array s.copy

def rbAryDeleteIf (n : ℕ) : Body Value := do
  let _ ← function (rbAryRejectBang .receiver n)
  pure .receiver

/-- The arguments are arrays, or were collected into arrays before. -/
def rbAryZip (args : List (List Value)) (n : ℕ) : Body Value :=
  polledLoop
    (fun i : ℕ => read fun s => if i < s.receiver.length then
      some (i,[.array (s.receiver.getD i .nil::args.map fun a => a.getD i .nil)]) else none)
    (fun i _ => pure (.inl (i+1))) (fun _ => pure .nil) n 0

inductive FillArgs where
  | all
  | range (beg fin : ℤ) (excl : Bool)
  | slice (beg len : Option ℤ)

def rbRangeBegLen (beg fin : ℤ) (excl : Bool) (len : ℤ) : Option (ℤ × ℤ) :=
  let beg := if beg < 0 then beg+len else beg
  let fin := if fin < 0 then fin+len else fin
  let fin := if excl then fin else fin+1
  if beg < 0 then none else some (beg,max (fin-beg) 0)

def fillSpan (n : ℤ) : FillArgs → Option (ℤ × ℤ)
  | .all => some (0,n)
  | .range beg fin excl => rbRangeBegLen beg fin excl n
  | .slice beg len =>
    let beg := beg.getD 0
    let beg := if beg < 0 then max (n+beg) 0 else beg
    some (beg,len.getD (n-beg))

def fillFrom (beg fin : ℤ) (n : ℕ) : Body Value :=
  polledLoop
    (fun i : ℤ => pure (if i < fin then some (i,[.fixnum i]) else none))
    (fun i v => do
      write fun s => {s with receiver := storeAt i.toNat v s.receiver}
      pure (.inl (i+1)))
    (fun _ => pure .receiver) n beg

def rbAryFill (args : FillArgs) (n : ℕ) : Body Value := do
  let len ← arrayLen
  match fillSpan len args with
  | none => raise
  | some (beg,len) =>
    if len < 0 then pure .receiver
    -- the sum does not fit into a long
    else if 2^63 ≤ beg+len then raise
    else fillFrom beg (beg+len) n

def rbAryCount (n : ℕ) : Body Value := do
  let len ← arrayLen
  polledLoop
    (fun t : ℕ × ℕ => do
      let x ← elementBelow len t.1
      pure (x.map fun x => (t,x.2)))
    (fun t v => pure (.inl (t.1+1,if rtest v then t.2+1 else t.2)))
    (fun t => pure (.fixnum t.2)) n (0,0)

/-- Without a number of rounds the state stays `none`. -/
def rbAryCycle (rounds : Option ℤ) (n : ℕ) : Body Value :=
  loop (fun left : Option ℕ => do
    let len ← arrayLen
    if 0 < len ∧ left ≠ some 0 then do
      polledLoop element (fun i _ => pure (.inl (i+1))) (fun _ => pure ()) n 0
      pure (.inl (left.map (·-1)))
    else pure (.inr .nil)) n (rounds.map Int.toNat)

/-- The permutations that begin with the indices `p`, for `d` more indices and one. -/
def permute0 (n : ℕ) (values : List Value) : ℕ → List ℕ → (ℕ → Bool) → Body Unit
  | 0,p,used => forEach (fun i =>
    if used i then pure ()
    else do
      let _ ← yield [.array ((p ++ [i]).map fun j => values.getD j .nil)]
      pure ()) (List.range n)
  | d+1,p,used => forEach (fun i =>
    if used i then pure ()
    else permute0 n values d (p ++ [i]) (update used i Bool.true)) (List.range n)

def singletons (len n : ℕ) : Body Value :=
  polledLoop
    (fun i : ℕ => read fun s => if i < len then some (i,[.array [s.receiver.getD i .nil]])
      else none)
    (fun i _ => pure (.inl (i+1))) (fun _ => pure .receiver) n 0

def permutations (len : ℕ) (r : ℤ) (n : ℕ) : Body Value :=
  if r < 0 ∨ (len : ℤ) < r then pure .receiver
  else if r=0 then do
    let _ ← yield [.array []]
    pure .receiver
  else if r=1 then singletons len n
  else do
    let ary0 ← read fun s => s.receiver
    permute0 len ary0 (r-1).toNat [] fun _ => Bool.false
    pure .receiver

def rbAryPermutation (num : Option ℤ) (n : ℕ) : Body Value := do
  let len ← arrayLen
  permutations len (num.getD len) n

/-- The multiplication wraps around, which shows in a smaller value. -/
def combiLenLoop : ℕ → ℤ → ℤ → ℤ → Option ℤ
  | 0,_,_,val => some val
  | k+1,i,n,val =>
    let m := (val*n).bmod (2^64)
    if m < val then none else combiLenLoop k (i+1) (n-1) (m/i)

def combiLen (n k : ℤ) : Option ℤ :=
  let k := if n < (k*2).bmod (2^64) then (n-k).bmod (2^64) else k
  if k=0 then some 1 else if k < 0 then some 0 else combiLenLoop k.toNat 1 n 1

/-- The indices above the level, each one more than the one before it. -/
def combiFill (elt : ℤ → Value) : ℕ → ℕ → (ℕ → ℤ) → List Value → (ℕ → ℤ) × List Value
  | 0,_,stack,cc => (stack,cc)
  | k+1,lev,stack,cc =>
    let s := stack lev+1
    combiFill elt k (lev+1) (update stack (lev+1) s) (storeAt lev (elt s) cc)

def combiBack (n len : ℤ) : ℕ → (ℕ → ℤ) → (ℕ → ℤ) × ℕ
  | 0,stack => (stack,0)
  | lev+1,stack =>
    let stack := update stack (lev+1) (stack (lev+1)+1)
    if lev ≠ 0 ∧ stack (lev+1)+n=len+lev+1 then combiBack n len lev stack else (stack,lev)

structure Combi where
  i : ℕ
  stack : ℕ → ℤ
  cc : List Value
  lev : ℕ

def combinations (len num : ℕ) (nlen : ℤ) (n : ℕ) : Body Value :=
  polledLoop
    (fun c : Combi => read fun s =>
      let elt := fun j : ℤ => s.receiver.getD j.toNat .nil
      let cc := storeAt c.lev (elt (c.stack (c.lev+1))) c.cc
      let r := combiFill elt (num-(c.lev+1)) (c.lev+1) c.stack cc
      if (c.i : ℤ) < nlen then some ((⟨c.i,r.1,r.2,num⟩ : Combi),[.array r.2]) else none)
    (fun c _ =>
      let r := combiBack num len c.lev c.stack
      pure (.inl ⟨c.i+1,r.1,c.cc,r.2⟩))
    (fun _ => pure .receiver) n ⟨0,fun j => if j=0 then -1 else 0,[],0⟩

def combinationsOf (len : ℕ) (num : ℤ) (n : ℕ) : Body Value :=
  if num < 0 ∨ (len : ℤ) < num then pure .receiver
  else if num=0 then do
    let _ ← yield [.array []]
    pure .receiver
  else if num=1 then singletons len n
  else
    match combiLen len num with
    | none => raise
    | some nlen => combinations len num.toNat nlen n

def rbAryCombination (num : ℤ) (n : ℕ) : Body Value := do
  let len ← arrayLen
  combinationsOf len num n

/-- The elements that the block accepts before it first refuses one are counted. -/
def whileTrue (result : ℕ → List Value → List Value) (n : ℕ) : Body Value :=
  polledLoop element
    (fun i v => if rtest v then pure (.inl (i+1)) else do
      let xs ← read fun s => result i s.receiver
      pure (.inr (.array xs)))
    (fun i => read fun s => .array (result i s.receiver)) n 0

def rbAryTakeWhile (n : ℕ) : Body Value := whileTrue List.take n

def rbAryDropWhile (n : ℕ) : Body Value := whileTrue List.drop n

def sort1 (dummy a b : Value) : Body (Value × ℤ) :=
  match dummy with
  | .false => do
    let retval ← yield [a,b]
    match ← popBroken with
    | some v => pure (v,0)
    | none => do
      let c ← rbCmpint E retval
      pure (.false,c)
  | dummy => pure (dummy,0)

def qsortR : Sorting → Value → Body (Value × List Value)
  | .sorted xs,dummy => pure (dummy,xs)
  | .compare a b next,dummy => do
    let r ← sort1 E dummy a b
    qsortR (next r.2) r.1

def sortResult (isDup : Bool) (breakVal : Value) (tmp : List Value) : Body Value :=
  match breakVal with
  | .false =>
    if isDup then pure (.array tmp)
    else do
      write fun s => {s with receiver := tmp}
      pure .receiver
  | breakVal => pure breakVal

def rbArySortBang1 (isDup : Bool) (xs : List Value) : Body Value :=
  if 1 < xs.length then do
    let r ← qsortR E (E.qsort xs) .false
    sortResult isDup r.1 r.2
  else pure (if isDup then .array xs else .receiver)

def rbArySortBang : Body Value := do
  let xs ← read fun s => s.receiver
  rbArySortBang1 E Bool.false xs

def rbArySort : Body Value := do
  let xs ← read fun s => s.receiver
  rbArySortBang1 E Bool.true xs

end MacRuby.ArrayIterators
