import MacRuby.MarshalIntegers

/-!
# Dumping object graphs

`w_object` on a finite graph of nil, true, false, small Fixnums, Floats, Symbols,
Strings, Arrays and Hashes, which may share objects and have cycles. What is
written for one value before its contents is a record. An object that was
registered before is written as a link with its number; immediate Floats are not
registered.
-/
namespace MacRuby.MarshalDump
open MarshalFormat MarshalLoad MarshalValues MarshalIntegers Integers

variable {D : Type}

/-- A value of a graph with `n` objects. -/
def Val.Ok (n : ℕ) : Val D → Prop
  | .integer x => ∃ payload, x=.fixnum payload ∧ Short (fix2long payload)
  | .symbol name => 0 ∉ name
  | .ref a => a < n
  | _ => True

/-- The values in an object are values of the graph; a Hash holds no immediate Float. -/
def Node.Ok (n : ℕ) : Node D → Prop
  | .string _ => True
  | .array vs => ∀ v ∈ vs, Val.Ok n v
  | .hash es => ∀ e ∈ es, Val.Ok n e.1 ∧ Val.Ok n e.2 ∧ e.1.throughHash=e.1 ∧ e.2.throughHash=e.2

structure Graph (D : Type) where
  nodes : List (Node D)
  root : Val D
  nodes_ok : ∀ node ∈ nodes, Node.Ok nodes.length node
  root_ok : Val.Ok nodes.length root

inductive Record (D : Type)
  | nil
  | true
  | false
  | integer (x : Integer)
  | float (d : D)
  /-- `TypeError`: "can't dump Float". -/
  | boxed (d : D)
  | symbol (name : Bytes)
  | symlink (num : ℕ)
  | link (num : ℕ)
  | string (s : Str)
  | array (len : ℕ)
  | hash (len : ℕ)

/-- A type byte and a `long`. -/
def wCount (tag : Tag) (n : ℕ) : Except DumpError Bytes := do
  let bs ← wLong n
  pure (tag.code::bs)

def wText (tag : Tag) (s : Bytes) (len : ℕ) : Except DumpError Bytes := do
  let bs ← wBytes s len
  pure (tag.code::bs)

def Record.bytes (pf : Platform D) : Record D → Except DumpError Bytes
  | .nil => .ok [Tag.nil.code]
  | .true => .ok [Tag.true.code]
  | .false => .ok [Tag.false.code]
  | .integer x => wInteger x
  | .float d => wText .float (pf.text d) (pf.text d).length
  | .boxed _ => .error .cantDumpFloat
  | .symbol name => wText .symbol name name.length
  | .symlink num => wCount .symlink num
  | .link num => wCount .link num
  | .string s => wText .string s.ptr s.len
  | .array len => wCount .array len
  | .hash len => wCount .hash len

/-- `struct dump_arg`: the output, the objects by number and the symbols by number. -/
structure DumpArg where
  out : Bytes
  data : List ℕ
  symbols : List Bytes

variable (pf : Platform D)

def DumpArg.write (arg : DumpArg) (r : Record D) : Except DumpError DumpArg := do
  let bs ← r.bytes pf
  pure {arg with out := arg.out++bs}

def wSymbol (name : Bytes) (arg : DumpArg) : Except DumpError DumpArg :=
  if name ∈ arg.symbols then arg.write pf (.symlink (arg.symbols.idxOf name))
  else do
    let arg ← arg.write pf (.symbol name)
    pure {arg with symbols := arg.symbols++[name]}

def wElements (w : Val D → DumpArg → Except DumpError DumpArg) :
    List (Val D) → DumpArg → Except DumpError DumpArg
  | [],arg => .ok arg
  | v::vs,arg => do
    let arg ← w v arg
    wElements w vs arg

/-- `hash_each` over the entries of a Hash. -/
def wEntries (w : Val D → DumpArg → Except DumpError DumpArg) :
    List (Val D × Val D) → DumpArg → Except DumpError DumpArg
  | [],arg => .ok arg
  | (key,value)::es,arg => do
    let arg ← w key arg
    let arg ← w value arg
    wEntries w es arg

variable (g : Graph D)

/-- `w_object`; an object is registered before it is written. -/
def wObject : ℕ → ℤ → Val D → DumpArg → Except DumpError DumpArg
  | 0,_,_,_ => .error .rounds
  | fuel+1,limit,v,arg =>
    if limit=0 then .error .depthLimit
    else
      let limit := limit-1
      match v with
      | .nil => arg.write pf .nil
      | .true => arg.write pf .true
      | .false => arg.write pf .false
      | .integer x => arg.write pf (.integer x)
      | .float d => arg.write pf (.float d)
      | .boxed d => arg.write pf (.boxed d)
      | .symbol name => wSymbol pf name arg
      | .ref a =>
        if a ∈ arg.data then arg.write pf (.link (arg.data.idxOf a))
        else
          let arg := {arg with data := arg.data++[a]}
          match g.nodes[a]? with
          | some (.string s) => arg.write pf (.string s)
          | some (.array vs) => do
            let arg ← arg.write pf (.array vs.length)
            wElements (wObject fuel limit) vs arg
          | some (.hash es) => do
            let arg ← arg.write pf (.hash es.length)
            wEntries (wObject fuel limit) es arg
          | none => .error .rounds

/-- `Marshal.dump` without a limit; each level of nesting has an object of its own. -/
def marshalDump : Except DumpError Bytes := do
  let arg ← wObject pf g (g.nodes.length+1) (-1) g.root ⟨[4,8],[],[]⟩
  pure arg.out

end MacRuby.MarshalDump
