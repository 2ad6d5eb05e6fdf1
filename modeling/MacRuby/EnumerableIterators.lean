import MacRuby.RangeBreaks

/-!
# The iterators of Enumerable

The functions of enum.c that take a block, and each_slice and each_cons of enumerator.c.
Nearly all of them call each with a function of C that invokes the block, drop what each
returned, and return a result of their own.
-/
namespace MacRuby.EnumerableIterators
open PolledBreaks ArrayIterators BlockCalls

def enumValuesPack : List Value → Value
  | [] => .nil
  | [v] => v
  | vs => .array vs

/-- The arguments of zip: arrays, or enumerators of which `next j k` says what the call of
next for argument `j` does in round `k`: raise, stop the iteration, or give a value. -/
inductive ZipArgs where
  | arrays (args : List (List Value))
  | enums (count : ℕ) (next : ℕ → ℕ → Option (Option Value))

inductive EnumIterator where
  | grep (pat : Value)
  | count
  | find (ifNone : Value)
  | findIndex
  | findAll
  | reject
  | collect
  | inject (init : Option Value)
  | partition
  | groupBy
  | sort
  | sortBy
  | allP
  | anyP
  | oneP
  | noneP
  | min
  | max
  | minmax
  | minBy
  | maxBy
  | minmaxBy
  | eachWithIndex
  | reverseEach
  | zip (args : ZipArgs)
  | takeWhile
  | dropWhile
  | cycle (rounds : Option ℤ)
  | eachSlice (size : ℤ)
  | eachCons (size : ℤ)

variable (E : Methods)

def rbIterBreak : Body Unit := setBroken .nil

def grepIterI (pat : Value) (ary : List Value) (args : List Value) : Body (List Value × Value) := do
  let i := enumValuesPack args
  let matched ← dispatch (E.eqq pat i)
  if matched then do
    let v ← yield [i]
    pure (ary ++ [v],.nil)
  else pure (ary,.nil)

def countIterI (memo : ℕ) (args : List Value) : Body (ℕ × Value) := do
  let v ← yield args
  pure (if rtest v then memo+1 else memo,.nil)

def findI (memo : Option Value) (args : List Value) : Body (Option Value × Value) := do
  let i := enumValuesPack args
  let v ← yield [i]
  if rtest v then do
    rbIterBreak
    pure (some i,.nil)
  else pure (memo,.nil)

def findIndexIterI (memo : Option ℕ × ℕ) (args : List Value) : Body ((Option ℕ × ℕ) × Value) := do
  let v ← yield args
  if rtest v then do
    rbIterBreak
    pure ((some memo.2,memo.2+1),.nil)
  else pure ((memo.1,memo.2+1),.nil)

/-- find_all keeps what the block accepts, reject what it does not. -/
def selectI (accepted : Bool) (ary : List Value) (args : List Value) :
    Body (List Value × Value) := do
  let i := enumValuesPack args
  let v ← yield [i]
  pure (if rtest v=accepted then ary ++ [i] else ary,.nil)

def collectI (ary : List Value) (args : List Value) : Body (List Value × Value) := do
  let v ← yield args
  pure (ary ++ [v],.nil)

def collectAll (ary : List Value) (args : List Value) : Body (List Value × Value) :=
  pure (ary ++ [enumValuesPack args],.nil)

def injectI (memo : Option Value) (args : List Value) : Body (Option Value × Value) := do
  let i := enumValuesPack args
  match memo with
  | none => pure (some i,.nil)
  | some a => do
    let v ← yield [a,i]
    pure (some v,.nil)

def partitionI (ary : List Value × List Value) (args : List Value) :
    Body ((List Value × List Value) × Value) := do
  let i := enumValuesPack args
  let v ← yield [i]
  pure (if rtest v then (ary.1 ++ [i],ary.2) else (ary.1,ary.2 ++ [i]),.nil)

def hashPush (group i : Value) : List (Value × List Value) → List (Value × List Value)
  | [] => [(group,[i])]
  | (key,values)::hash =>
    if E.sameKey key group then (key,values ++ [i])::hash else (key,values)::hashPush group i hash

def groupByI (hash : List (Value × List Value)) (args : List Value) :
    Body (List (Value × List Value) × Value) := do
  let i := enumValuesPack args
  let group ← yield [i]
  if E.callsHash group then dispatch (some (hashPush E group i hash,.nil))
  else pure (hashPush E group i hash,.nil)

def sortByI (ary : List Value) (args : List Value) : Body (List Value × Value) := do
  let i := enumValuesPack args
  let v ← yield [i]
  pure (ary ++ [.array [v,i]],.nil)

/-- all? and none? start with true, any? with false; each has one answer that ends it. -/
def testI (ending : Bool) (memo : Bool) (args : List Value) (result : Bool) :
    Body (Bool × Value) := do
  let v ← yield args
  if rtest v=ending then do
    rbIterBreak
    pure (result,.nil)
  else pure (memo,.nil)

def allIterI (memo : Bool) (args : List Value) : Body (Bool × Value) :=
  testI Bool.false memo args Bool.false

def anyIterI (memo : Bool) (args : List Value) : Body (Bool × Value) :=
  testI Bool.true memo args Bool.true

def noneIterI (memo : Bool) (args : List Value) : Body (Bool × Value) :=
  testI Bool.true memo args Bool.false

def oneIterI (memo : Option Bool) (args : List Value) : Body (Option Bool × Value) := do
  let v ← yield args
  if rtest v then
    match memo with
    | none => pure (some Bool.true,.nil)
    | some Bool.true => do
      rbIterBreak
      pure (some Bool.false,.nil)
    | some Bool.false => pure (some Bool.false,.nil)
  else pure (memo,.nil)

/-- min keeps an element that compares below, max one that compares above. -/
def extremeII (better : ℤ → Bool) (memo : Option Value) (args : List Value) :
    Body (Option Value × Value) := do
  let i := enumValuesPack args
  match memo with
  | none => pure (some i,.nil)
  | some best => do
    let cmp ← yield [.array [i,best]]
    let c ← rbCmpint E cmp
    pure (some (if better c then i else best),.nil)

def below (c : ℤ) : Bool := c < 0

def above (c : ℤ) : Bool := 0 < c

def minII : Option Value → List Value → Body (Option Value × Value) := extremeII E below

def maxII : Option Value → List Value → Body (Option Value × Value) := extremeII E above

/-- The block is invoked twice, and the register is not read in between. -/
def minmaxII (memo : Option (Value × Value)) (args : List Value) :
    Body (Option (Value × Value) × Value) := do
  let i := enumValuesPack args
  match memo with
  | none => pure (some (i,i),.nil)
  | some (least,greatest) => do
    let cmp ← yield [.array [i,least]]
    let c ← rbCmpint E cmp
    let cmp' ← yield [.array [i,greatest]]
    let c' ← rbCmpint E cmp'
    pure (some (if below c then i else least,if above c' then i else greatest),.nil)

def rbObjsCmp (a b : Value) : Body ℤ := do
  let cmp ← dispatch (E.cmp a b)
  rbCmpint E cmp

def extremeByI (better : ℤ → Bool) (memo : Option (Value × Value)) (args : List Value) :
    Body (Option (Value × Value) × Value) := do
  let i := enumValuesPack args
  let v ← yield [i]
  match memo with
  | none => pure (some (v,i),.nil)
  | some best => do
    let c ← rbObjsCmp E v best.1
    pure (some (if better c then (v,i) else best),.nil)

def minByI : Option (Value × Value) → List Value → Body (Option (Value × Value) × Value) :=
  extremeByI E below

def maxByI : Option (Value × Value) → List Value → Body (Option (Value × Value) × Value) :=
  extremeByI E above

def minmaxByI (memo : Option ((Value × Value) × (Value × Value))) (args : List Value) :
    Body (Option ((Value × Value) × (Value × Value)) × Value) := do
  let i := enumValuesPack args
  let v ← yield [i]
  match memo with
  | none => pure (some ((v,i),(v,i)),.nil)
  | some (least,greatest) => do
    let c ← rbObjsCmp E v least.1
    let c' ← rbObjsCmp E v greatest.1
    pure (some (if below c then (v,i) else least,if above c' then (v,i) else greatest),.nil)

def eachWithIndexI (memo : ℕ) (args : List Value) : Body (ℕ × Value) := do
  let v ← yield [enumValuesPack args,.fixnum memo]
  pure (memo+1,v)

def nextAll (next : ℕ → ℕ → Option (Option Value)) (k : ℕ) :
    ℕ → List Bool → Body (List Bool × List Value)
  | _,[] => pure ([],[])
  | j,Bool.false::alive => do
    let r ← nextAll next k (j+1) alive
    pure (Bool.false::r.1,.nil::r.2)
  | j,Bool.true::alive => do
    let v ← dispatch (next j k)
    let r ← nextAll next k (j+1) alive
    pure (v.isSome::r.1,v.getD .nil::r.2)

def zipAry (arys : List (List Value)) (n : ℕ) (args : List Value) : Body (ℕ × Value) := do
  let _ ← yield [.array (enumValuesPack args::arys.map fun e => e.getD n .nil)]
  pure (n+1,.nil)

def zipI (next : ℕ → ℕ → Option (Option Value)) (memo : ℕ × List Bool) (args : List Value) :
    Body ((ℕ × List Bool) × Value) := do
  let r ← nextAll next memo.1 0 memo.2
  let _ ← yield [.array (enumValuesPack args::r.2)]
  pure ((memo.1+1,r.1),.nil)

def takeWhileI (ary : List Value) (args : List Value) : Body (List Value × Value) := do
  let v ← yield args
  if rtest v then pure (ary ++ [enumValuesPack args],.nil)
  else do
    rbIterBreak
    pure (ary ++ [enumValuesPack args],.nil)

def dropWhileI (memo : List Value × Bool) (args : List Value) :
    Body ((List Value × Bool) × Value) := do
  let i := enumValuesPack args
  if memo.2 then pure ((memo.1 ++ [i],Bool.true),.nil)
  else do
    let v ← yield [i]
    pure (if rtest v then memo else (memo.1 ++ [i],Bool.true),.nil)

def cycleI (ary : List Value) (args : List Value) : Body (List Value × Value) := do
  let i := enumValuesPack args
  let _ ← yield [i]
  pure (ary ++ [i],.nil)

def eachSliceI (size : ℤ) (ary : List Value) (args : List Value) : Body (List Value × Value) := do
  let ary := ary ++ [args.headD .nil]
  if ary.length=size then do
    let v ← yield [.array ary]
    pure ([],v)
  else pure (ary,.nil)

def eachConsI (size : ℤ) (ary : List Value) (args : List Value) : Body (List Value × Value) := do
  let ary := (if ary.length=size then ary.drop 1 else ary) ++ [args.headD .nil]
  if ary.length=size then do
    let v ← yield [.array ary]
    pure (ary,v)
  else pure (ary,.nil)

variable (m : Walk)

/-- A method of Enumerable: each is called, and what it returned is dropped. -/
def enumWith {τ : Type} (cb : τ → List Value → Body (τ × Value)) (t : τ)
    (result : τ → Body Value) (n : ℕ) : Body Value := do
  let r ← rbObjcBlockCall m cb t n
  result r.1

def sortByCmp : Value → Value → Body ℤ
  | .array [a,_],.array [b,_] => rbObjsCmp E a b
  | _,_ => raise

def qsortBy : Sorting → Body (List Value)
  | .sorted xs => pure xs
  | .compare a b next => do
    let c ← sortByCmp E a b
    qsortBy (next c)

def keyed : Value → Value
  | .array [_,i] => i
  | v => v

def sortPairs (ary : List Value) : Body (List Value) :=
  if 1 < ary.length then qsortBy E (E.qsort ary) else pure ary

def sortByResult (ary : List Value) : Body Value := do
  let sorted ← sortPairs E ary
  pure (.array (sorted.map keyed))

def findResult (ifNone : Value) : Option Value → Body Value
  | some i => pure i
  | none =>
    match ifNone with
    | .nil => pure .nil
    | ifNone => dispatch (E.call ifNone)

def truth (b : Bool) : Value := if b then .true else .false

def reverseRest (n : ℕ) (ary : List Value) : Body Value :=
  polledLoop
    (fun i : ℕ => pure (if 0 < i then some (i-1,[ary.getD (i-1) .nil]) else none))
    (fun i _ => pure (.inl i)) (fun _ => pure .receiver) n ary.length

/-- The rounds after the first one, in which the elements were collected. -/
def cycleRest (rounds : Option ℕ) (n : ℕ) (ary : List Value) : Body Value :=
  if ary=[] then pure .nil
  else loop (fun left : Option ℕ =>
    if left=some 0 then pure (.inr .nil)
    else do
      polledLoop
        (fun i : ℕ => pure (if i < ary.length then some (i,[ary.getD i .nil]) else none))
        (fun i _ => pure (.inl (i+1))) (fun _ => pure ()) n 0
      pure (.inl (left.map (·-1)))) n (rounds.map (·-1))

def enumCycle (rounds : Option ℤ) (n : ℕ) : Body Value :=
  if ∃ k ∈ rounds, k ≤ 0 then pure .nil
  else enumWith m cycleI [] (cycleRest (rounds.map Int.toNat) n) n

def sliceRest (ary : List Value) : Body Value :=
  if ary=[] then pure .nil
  else do
    let _ ← yield [.array ary]
    pure .nil

def enumEachSlice (size : ℤ) (n : ℕ) : Body Value :=
  if size ≤ 0 then raise else enumWith m (eachSliceI size) [] sliceRest n

def enumEachCons (size : ℤ) (n : ℕ) : Body Value :=
  if size ≤ 0 then raise else enumWith m (eachConsI size) [] (fun _ => pure .nil) n

def enumZip (args : ZipArgs) (n : ℕ) : Body Value :=
  match args with
  | .arrays arys => enumWith m (zipAry arys) 0 (fun _ => pure .nil) n
  | .enums count next =>
    enumWith m (zipI next) (0,List.replicate count Bool.true) (fun _ => pure .nil) n

def assoc (memo : Option (Value × Value)) : Value :=
  match memo with
  | some (a,b) => .array [a,b]
  | none => .array [.nil,.nil]

def findIndexResult (memo : Option ℕ × ℕ) : Value :=
  match memo.1 with
  | some k => .fixnum k
  | none => .nil

def hashResult (hash : List (Value × List Value)) : Value :=
  .hash (hash.map fun h => .array [h.1,.array h.2])

def bestOf (memo : Option (Value × Value)) : Value := (memo.map Prod.snd).getD .nil

def EnumIterator.code : EnumIterator → ℕ → Body Value
  | .grep pat,n => enumWith m (grepIterI E pat) [] (fun ary => pure (.array ary)) n
  | .count,n => enumWith m countIterI 0 (fun k => pure (.fixnum k)) n
  | .find ifNone,n => enumWith m findI none (findResult E ifNone) n
  | .findIndex,n => enumWith m findIndexIterI (none,0) (fun memo => pure (findIndexResult memo)) n
  | .findAll,n => enumWith m (selectI Bool.true) [] (fun ary => pure (.array ary)) n
  | .reject,n => enumWith m (selectI Bool.false) [] (fun ary => pure (.array ary)) n
  | .collect,n => enumWith m collectI [] (fun ary => pure (.array ary)) n
  | .inject init,n => enumWith m injectI init (fun memo => pure (memo.getD .nil)) n
  | .partition,n => enumWith m partitionI ([],[])
      (fun ary => pure (.array [.array ary.1,.array ary.2])) n
  | .groupBy,n => enumWith m (groupByI E) [] (fun hash => pure (hashResult hash)) n
  | .sort,n => enumWith m collectAll [] (rbArySortBang1 E Bool.true) n
  | .sortBy,n => enumWith m sortByI [] (sortByResult E) n
  | .allP,n => enumWith m allIterI Bool.true (fun memo => pure (truth memo)) n
  | .anyP,n => enumWith m anyIterI Bool.false (fun memo => pure (truth memo)) n
  | .oneP,n => enumWith m oneIterI none (fun memo => pure (truth (memo.getD Bool.false))) n
  | .noneP,n => enumWith m noneIterI Bool.true (fun memo => pure (truth memo)) n
  | .min,n => enumWith m (minII E) none (fun memo => pure (memo.getD .nil)) n
  | .max,n => enumWith m (maxII E) none (fun memo => pure (memo.getD .nil)) n
  | .minmax,n => enumWith m (minmaxII E) none (fun memo => pure (assoc memo)) n
  | .minBy,n => enumWith m (minByI E) none (fun memo => pure (bestOf memo)) n
  | .maxBy,n => enumWith m (maxByI E) none (fun memo => pure (bestOf memo)) n
  | .minmaxBy,n => enumWith m (minmaxByI E) none
      (fun memo => pure (assoc (memo.map fun b => (b.1.2,b.2.2)))) n
  | .eachWithIndex,n => enumWith m eachWithIndexI 0 (fun _ => pure .receiver) n
  | .reverseEach,n => enumWith m collectAll [] (reverseRest n) n
  | .zip args,n => enumZip m args n
  | .takeWhile,n => enumWith m takeWhileI [] (fun ary => pure (.array ary)) n
  | .dropWhile,n => enumWith m dropWhileI ([],Bool.false) (fun memo => pure (.array memo.1)) n
  | .cycle rounds,n => enumCycle m rounds n
  | .eachSlice size,n => enumEachSlice m size n
  | .eachCons size,n => enumEachCons m size n

end MacRuby.EnumerableIterators
