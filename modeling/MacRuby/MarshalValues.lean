import MacRuby.MarshalLoad

/-!
# Values without user classes

nil, true, false, Integers, Floats, Symbols, Strings, Arrays and Hashes on a
heap, and the environment of the loader for them. Floats are immediate values; a
Float that was in a Hash is a boxed one. Calls that only other classes come to
fail.
-/
namespace MacRuby.MarshalValues
open Faults MarshalFormat MarshalLoad Integers

variable {D : Type}

/-- A `VALUE`; `D` are the doubles of immediate Floats, with a single NaN. -/
inductive Val (D : Type)
  | nil
  | true
  | false
  | integer (x : Integer)
  | float (d : D)
  /-- An `RFloat`. -/
  | boxed (d : D)
  | symbol (name : Bytes)
  | ref (a : ℕ)

/-- `RSTRING_PTR` and `RSTRING_LEN`, which counts UTF-16 units. -/
structure Str where
  ptr : Bytes
  len : ℕ
  len_le : len ≤ ptr.length

inductive Node (D : Type)
  | string (s : Str)
  | array (elements : List (Val D))
  | hash (entries : List (Val D × Val D))

/-- The objects by address. `merged` remembers that a Hash was given a key it had. -/
structure Heap (D : Type) where
  nodes : List (Node D)
  merged : Bool

structure Platform (D : Type) where
  /-- The text of `w_float`, without its length. -/
  text : D → Bytes
  /-- `strtod`. -/
  parse : Bytes → D
  parse_text : ∀ d, parse (cstr (text d))=d
  text_length : ∀ d, (text d).length < 32
  /-- The number of UTF-16 units in a text. -/
  units : Bytes → ℕ
  units_le : ∀ bs, units bs ≤ bs.length
  /-- Whether a Hash takes two keys for the same. -/
  sameKey : List (Node D) → Val D → Val D → Bool

/-- `RB2OC` and `OC2RB`: a Float is boxed and stays so. -/
def Val.throughHash : Val D → Val D
  | .float d => .boxed d
  | v => v

def Val.isNil : Val D → Bool
  | .nil => .true
  | _ => .false

def Heap.alloc (h : Heap D) (node : Node D) : Val D × Heap D :=
  (.ref h.nodes.length,{h with nodes := h.nodes++[node]})

def Node.push (v : Val D) : Node D → Node D
  | .array vs => .array (vs++[v])
  | node => node

/-- `rb_ary_push`. -/
def Heap.push (h : Heap D) (a : ℕ) (v : Val D) : Heap D := {h with nodes := h.nodes.modify a (·.push v)}

/-- `CFDictionarySetValue`: the first key that is the same keeps its place. -/
def setValue (same : Val D → Bool) (k v : Val D) : List (Val D × Val D) → List (Val D × Val D) × Bool
  | [] => ([(k,v)],.false)
  | e::es =>
    if same e.1 then ((e.1,v)::es,.true)
    else
      let (es,merged) := setValue same k v es
      (e::es,merged)

variable (pf : Platform D)

/-- `rb_hash_aset`. -/
def Heap.aset (h : Heap D) (a : ℕ) (k v : Val D) : Heap D :=
  match h.nodes[a]? with
  | some (.hash es) =>
    let k := k.throughHash
    let (es,merged) := setValue (fun k' => pf.sameKey h.nodes k' k) k v.throughHash es
    ⟨h.nodes.set a (.hash es),h.merged || merged⟩
  | _ => h

def noCall {α : Type} : Call (Heap D) Unit α := fun _ => .error ()

def plainEnv : Env (Val D) (Heap D) Unit where
  qnil := .nil
  qtrue := .true
  qfalse := .false
  long2fix i := .integer (.fixnum (Integers.long2fix i))
  id2sym name := .symbol name
  nilP := Val.isNil
  stored := Val.throughHash
  realObject v h := .ok (v,h)
  leave v h := .ok (v,h)
  procCall v h := .ok (v,h)
  double2num ptr h := .ok (.float (pf.parse ptr),h)
  bigNorm b h := .ok (.integer (bignorm b),h)
  strNew2 ptr h := .ok (h.alloc (.string ⟨ptr,pf.units ptr,pf.units_le ptr⟩))
  bytestringNew bs h := .ok (h.alloc (.string ⟨bs,bs.length,le_rfl⟩))
  regNew _ _ := noCall
  aryNew h := .ok (h.alloc (.array []))
  aryPush v x h :=
    match v with
    | .ref a => .ok ((),h.push a x)
    | _ => .error ()
  hashNew h := .ok (h.alloc (.hash []))
  hashAset v k x h :=
    match v with
    | .ref a => .ok ((),h.aset pf a k x)
    | _ => .error ()
  rbPath2class _ := noCall
  path2class _ := noCall
  path2module _ := noCall
  isSingleton _ := noCall
  setUserClass _ _ := noCall
  extendObject _ _ := noCall
  structAlloc _ _ := noCall
  structInitialize _ _ := noCall
  needsLoad _ := noCall
  funcallLoad _ _ := noCall
  objAlloc _ := noCall
  needsMload _ := noCall
  funcallMload _ _ := noCall
  objAllocByPath _ := noCall
  dataAlloc _ := noCall
  needsLoadData _ := noCall
  funcallLoadData _ _ := noCall
  ivarSet _ _ _ := noCall

/-- `Marshal.load` on an empty heap, with a round for each byte and one more. -/
def loadPlain (mach : Machine) (src : Bytes) :
    End (LoadError Unit) (Val D) (LoadArg (Val D) (Heap D)) :=
  (marshalLoad (plainEnv pf) mach (src.length+1) src ⟨[],.false⟩).2

variable {pf} {arg : LoadArg (Val D) (Heap D)}

lemma loadPlain_eq (mach : Machine) (bs : Bytes) : loadPlain pf mach (4::8::bs) =
      (rObject (plainEnv pf) mach (bs.length+3) ⟨4::8::bs,2,[],[],⟨[],.false⟩⟩).2 := rfl

lemma rEntry_returns (v : Val D) :
    Returns (rEntry (plainEnv pf) v) arg v {arg with data := arg.data++[v.throughHash]} := rfl

lemma rEntryLeave_returns (v : Val D) :
    Returns (rEntryLeave (plainEnv pf) v) arg v {arg with data := arg.data++[v.throughHash]} := rfl

lemma rFixnum_returns {n : ℤ} {bs rest : Bytes} (hw : wLong n=.ok bs) (h : arg.unread=bs++rest) :
    Returns (rFixnum (plainEnv pf)) arg (.integer (.fixnum (Integers.long2fix n)))
      (arg.skip bs.length) :=
  (rLong_returns hw h).bind rfl

end MacRuby.MarshalValues
