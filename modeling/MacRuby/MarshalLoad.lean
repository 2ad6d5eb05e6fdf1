import MacRuby.Integers
import MacRuby.MarshalFormat

/-!
# Loading Marshal data

`r_object0` with every type byte, over an environment that stands for what the
loader calls: classes, allocation, instance variables, user code. Each level of
nesting takes one round of fuel, and so does each turn of a loop that counts a
`long` of the data down.

The loader takes two kinds of numbers from the data on trust: how many bytes to
copy, and how many pieces of a Bignum. Whatever the data, it leaves its buffers
exactly when one of these numbers does not fit.
-/
namespace MacRuby.MarshalLoad
open Faults MarshalFormat Integers List

inductive Tag
  | nil | true | false | fixnum | extended | uclass | object | data | userdef | usrmarshal
  | float | bignum | string | regexp | array | hash | hashDef | struct | moduleOld | klass
  | mod | symbol | symlink | ivar | link
  deriving DecidableEq

def Tag.code : Tag → UInt8
  | nil => 48 | true => 84 | false => 70 | fixnum => 105 | extended => 101 | uclass => 67
  | object => 111 | data => 100 | userdef => 117 | usrmarshal => 85 | float => 102
  | bignum => 108 | string => 34 | regexp => 47 | array => 91 | hash => 123 | hashDef => 125
  | struct => 83 | moduleOld => 77 | klass => 99 | mod => 109 | symbol => 58
  | symlink => 59 | ivar => 73 | link => 64

def tags : List Tag :=
  [.nil,.true,.false,.fixnum,.extended,.uclass,.object,.data,.userdef,.usrmarshal,.float,.bignum,
    .string,.regexp,.array,.hash,.hashDef,.struct,.moduleOld,.klass,.mod,.symbol,.symlink,.ivar,
    .link]

def Tag.ofByte (c : UInt8) : Option Tag := tags.find? (·.code=c)

lemma ofByte_code (t : Tag) : Tag.ofByte t.code=some t := by
  cases t <;> rfl

abbrev Call (W E α : Type) : Type := W → Except E (α × W)

structure Env (V W E : Type) where
  qnil : V
  qtrue : V
  qfalse : V
  long2fix : ℤ → V
  id2sym : Bytes → V
  nilP : V → Bool
  /-- What `rb_hash_aref` gives back for a value that `rb_hash_aset` stored. -/
  stored : V → V
  /-- The object that `compat_tbl` has for another one, or the object itself. -/
  realObject : V → Call W E V
  /-- `r_leave`: the loader of `compat_tbl`, then the Proc of `Marshal.load`. -/
  leave : V → Call W E V
  /-- The Proc of `Marshal.load`, if there is one. -/
  procCall : V → Call W E V
  /-- `strcmp`, `strtod` and `load_mantissa`, then `DOUBLE2NUM`. -/
  double2num : Bytes → Call W E V
  bigNorm : Bignum → Call W E V
  strNew2 : Bytes → Call W E V
  bytestringNew : Bytes → Call W E V
  regNew : Bytes → UInt8 → Call W E V
  aryNew : Call W E V
  aryPush : V → V → Call W E Unit
  hashNew : Call W E V
  hashAset : V → V → V → Call W E Unit
  rbPath2class : Bytes → Call W E V
  path2class : Bytes → Call W E V
  path2module : Bytes → Call W E V
  isSingleton : V → Call W E Bool
  /-- The tests of a user class and its assignment. -/
  setUserClass : V → V → Call W E Unit
  extendObject : V → V → Call W E Unit
  /-- `rb_obj_alloc` with the tests for a Struct of that size: the Struct and its members. -/
  structAlloc : V → ℤ → Call W E (V × List Bytes)
  structInitialize : V → List V → Call W E Unit
  needsLoad : V → Call W E Unit
  funcallLoad : V → V → Call W E V
  objAlloc : V → Call W E V
  needsMload : V → Call W E Unit
  funcallMload : V → V → Call W E Unit
  /-- `obj_alloc_by_path` and the test of the type. -/
  objAllocByPath : Bytes → Call W E V
  /-- `_alloc` or `rb_obj_alloc`, and the test for a `T_DATA`. -/
  dataAlloc : V → Call W E V
  needsLoadData : V → Call W E Unit
  funcallLoadData : V → V → Call W E Unit
  ivarSet : V → Bytes → V → Call W E Unit

/-- What C leaves open: a shift of an `int` beyond its range, and the contents of
memory nobody has written. -/
structure Machine where
  shl : UInt8 → ℕ → BitVec 32
  shl_eq : ∀ b s, s < 32 → b.toNat*2^s < 2^31 → shl b s=BitVec.ofNat 32 (b.toNat*2^s)
  junk : ℕ → UInt8

section Bignums
variable (mach : Machine)

/-- `(len + 1) * 2 / sizeof(BDIGIT)`, an unsigned division. -/
def digitCount (len : ℤ) : ℕ := (long ((len+1)*2)%2^64).toNat/8

/-- The bytes behind `RBIGNUM_DIGITS`: three digits are inside the object. -/
def digitSpace (len : ℤ) : ℕ := 8*max 3 (digitCount len)

/-- `num |= (int)p[i] << shift` over the eight bytes of a digit. -/
def rDigit (p : ℕ → UInt8) : BitVec 64 :=
  (List.range 8).foldl (fun num i => num ||| (mach.shl (p i) (8*i)).signExtend 64) 0

def rDigits (copied : Bytes) (count : ℕ) : List ℕ :=
  (List.range count).map fun k =>
    (rDigit mach fun i => copied.getD (8*k+i) (mach.junk (8*k+i))).toNat

variable {V W E : Type}

def call {α : Type} (f : Call W E α) : Load V W E α := fun arg =>
  match f arg.world with
  | .ok (a,w) => ([],.ok a {arg with world := w})
  | .error e => ([],.raised (.other e))

def rSymlink : Load V W E Bytes := do
  let num ← rLong
  let arg ← state
  if num < 0 then raise .badSymbol
  else
    match arg.symbols[num.toNat]? with
    | some name => pure name
    | none => raise .badSymbol

/-- `RSTRING_PTR(r_bytes(arg))` as a C string. -/
def rCstr : Load V W E Bytes := do
  let data ← rBytes
  readCstr data

def rSymreal : Load V W E Bytes := do
  let name ← rCstr
  update (fun arg => {arg with symbols := arg.symbols++[name]})
  pure name

/-- `r_symbol`, and `r_unique`. -/
def rSymbol : Load V W E Bytes := do
  let type ← rByte
  if type=Tag.symbol.code then rSymreal
  else if type=Tag.symlink.code then rSymlink
  else raise (.formatError type)

variable (env : Env V W E) (mach : Machine)

def rEntry (v : V) : Load V W E V := do
  let real ← call (env.realObject v)
  update (fun arg => {arg with data := arg.data++[env.stored real]})
  pure v

/-- `r_entry` and `r_leave`. -/
def rEntryLeave (v : V) : Load V W E V := do
  let v ← rEntry env v
  call (env.leave v)

def rLink : Load V W E V := do
  let id ← rLong
  let arg ← state
  if id < 0 then raise .unlinked
  else
    match arg.data[id.toNat]? with
    | some v => if env.nilP v then raise .unlinked else call (env.procCall v)
    | none => raise .unlinked

def rFixnum : Load V W E V := do
  let i ← rLong
  call (env.leave (env.long2fix i))

def rFloat : Load V W E V := do
  let ptr ← rCstr
  let v ← call (env.double2num ptr)
  rEntryLeave env v

def rBignum : Load V W E V := do
  let sign ← rByte
  let len ← rLong
  let data ← rBytes0 (long (len*2))
  request (.digits len)
  let copied ← memcpy data 0 (long (len*2)) (digitSpace len)
  let v ← call (env.bigNorm (ofDigits (sign=43) (rDigits mach copied (digitCount len))))
  rEntryLeave env v

def rString : Load V W E V := do
  let ptr ← rCstr
  let v ← call (env.strNew2 ptr)
  rEntryLeave env v

def rRegexp : Load V W E V := do
  let ptr ← rCstr
  let options ← rByte
  let v ← call (env.regNew ptr options)
  rEntryLeave env v

def assertAryLen (len : ℤ) : Load V W E Unit :=
  if len < 0 ∨ len > (2^63-1)/8 then raise (.arraySize len) else pure ()

/-- `TYPE_MODULE_OLD`, `TYPE_CLASS` and `TYPE_MODULE`, by the function that finds the module. -/
def rPath (path : Bytes → Call W E V) : Load V W E V := do
  let ptr ← rCstr
  let v ← call (path ptr)
  rEntryLeave env v

def extendAll (v : V) : List V → Load V W E Unit
  | [] => pure ()
  | m::ms => do
    call (env.extendObject v m)
    extendAll v ms

variable (fuel : ℕ) (rObject : Load V W E V)

def rIvar (v : V) : Load V W E Unit := do
  let len ← rLong
  if len > 0 then
    whileDown (do
      let id ← rSymbol
      let val ← rObject
      call (env.ivarSet v id val)) fuel len
  else pure ()

def rArray : Load V W E V := do
  let len ← rLong
  assertAryLen len
  let v ← call env.aryNew
  let v ← rEntry env v
  whileDown (do
    let element ← rObject
    call (env.aryPush v element)) fuel len
  call (env.leave v)

def rHash : Load V W E V := do
  let len ← rLong
  let v ← call env.hashNew
  let v ← rEntry env v
  whileDown (do
    let key ← rObject
    let value ← rObject
    call (env.hashAset v key value)) fuel len
  call (env.leave v)

/-- The loop over the members of a Struct; the member must be the one the data names. -/
def rMembers : List Bytes → List V → Load V W E (List V)
  | [],values => pure values
  | member::members,values => do
    let slot ← rSymbol
    if member ≠ slot then raise (.structMember slot member)
    else do
      let value ← rObject
      rMembers members (values++[value])

def rStruct : Load V W E V := do
  let path ← rSymbol
  let klass ← call (env.path2class path)
  let len ← rLong
  let (v,members) ← call (env.structAlloc klass len)
  let v ← rEntry env v
  let values ← rMembers rObject members []
  call (env.structInitialize v values)
  call (env.leave v)

def rUserdef (ivp : Bool) : Load V W E V := do
  let path ← rSymbol
  let klass ← call (env.path2class path)
  call (env.needsLoad klass)
  let bytes ← rBytes
  let data ← call (env.bytestringNew bytes)
  if ivp then rIvar env fuel rObject data else pure ()
  let v ← call (env.funcallLoad klass data)
  rEntryLeave env v

def rUsrmarshal (extmod : Option (List V)) : Load V W E V := do
  let path ← rSymbol
  let klass ← call (env.path2class path)
  let v ← call (env.objAlloc klass)
  extendAll env v (extmod.getD []).reverse
  call (env.needsMload v)
  let v ← rEntry env v
  let data ← rObject
  call (env.funcallMload v data)
  call (env.leave v)

def rPlainObject : Load V W E V := do
  let path ← rSymbol
  let v ← call (env.objAllocByPath path)
  let v ← rEntry env v
  rIvar env fuel rObject v
  call (env.leave v)

end Bignums

variable {V W E : Type}

/-- What `r_object0` returns and leaves behind: the object, whether instance variables are
still to be read, and the modules still to extend an object with. -/
structure Loaded (V : Type) where
  value : V
  ivar : Bool
  extmod : Option (List V)

/-- A type that uses neither `ivp` nor `extmod`. -/
def plain (extmod : Option (List V)) (m : Load V W E V) : Load V W E (Loaded V) := do
  let v ← m
  pure ⟨v,true,extmod⟩

variable (env : Env V W E) (mach : Machine)

/-- The switch of `r_object0`; `ivp` says whether the caller reads instance variables. -/
def rTag (fuel : ℕ) (rec : Bool → Option (List V) → Load V W E (Loaded V)) (ivp : Bool)
    (extmod : Option (List V)) (tag : Tag) : Load V W E (Loaded V) :=
  let rObject : Load V W E V := do
    let r ← rec false none
    pure r.value
  match tag with
  | .link => plain extmod (rLink env)
  | .ivar => do
    let r ← rec true extmod
    if r.ivar then rIvar env fuel rObject r.value else pure ()
    pure ⟨r.value,true,r.extmod⟩
  | .extended => do
    let path ← rSymbol
    let m ← call (env.path2module path)
    let r ← rec false (some (extmod.getD []++[m]))
    extendAll env r.value (r.extmod.getD []).reverse
    pure ⟨r.value,true,extmod.map fun _ => []⟩
  | .uclass => do
    let path ← rSymbol
    let c ← call (env.path2class path)
    let singleton ← call (env.isSingleton c)
    if singleton then raise .singleton
    else do
      let r ← rec false extmod
      call (env.setUserClass r.value c)
      pure ⟨r.value,true,r.extmod⟩
  | .nil => plain extmod (call (env.leave env.qnil))
  | .true => plain extmod (call (env.leave env.qtrue))
  | .false => plain extmod (call (env.leave env.qfalse))
  | .fixnum => plain extmod (rFixnum env)
  | .float => plain extmod (rFloat env)
  | .bignum => plain extmod (rBignum env mach)
  | .string => plain extmod (rString env)
  | .regexp => plain extmod (rRegexp env)
  | .array => plain extmod (rArray env fuel rObject)
  | .hash => plain extmod (rHash env fuel rObject)
  | .hashDef => plain extmod (rHash env fuel rObject)
  | .struct => plain extmod (rStruct env rObject)
  | .userdef => do
    let v ← rUserdef env fuel rObject ivp
    pure ⟨v,!ivp,extmod⟩
  | .usrmarshal => do
    let v ← rUsrmarshal env rObject extmod
    pure ⟨v,true,extmod.map fun _ => []⟩
  | .object => plain extmod (rPlainObject env fuel rObject)
  | .data => do
    let path ← rSymbol
    let klass ← call (env.path2class path)
    let v ← call (env.dataAlloc klass)
    let v ← rEntry env v
    call (env.needsLoadData v)
    let r ← rec false extmod
    call (env.funcallLoadData v r.value)
    let v ← call (env.leave v)
    pure ⟨v,true,r.extmod⟩
  | .moduleOld => plain extmod (rPath env env.rbPath2class)
  | .klass => plain extmod (rPath env env.path2class)
  | .mod => plain extmod (rPath env env.path2module)
  | .symbol => do
    let name ← rSymreal
    plain extmod (call (env.leave (env.id2sym name)))
  | .symlink => do
    let name ← rSymlink
    pure ⟨env.id2sym name,true,extmod⟩

def rObject0 : ℕ → Bool → Option (List V) → Load V W E (Loaded V)
  | 0,_,_ => more
  | fuel+1,ivp,extmod => do
    let type ← rByte
    match Tag.ofByte type with
    | some tag => rTag env mach fuel (rObject0 fuel) ivp extmod tag
    | none => raise (.formatError type)

def rObject (fuel : ℕ) : Load V W E V := do
  let r ← rObject0 env mach fuel false none
  pure r.value

def load (fuel : ℕ) : Load V W E V := do
  let major ← rByte
  let minor ← rByte
  if major ≠ 4 ∨ minor > 8 then raise (.incompatible major minor)
  else rObject env mach fuel

/-- `marshal_load` on a String. -/
def marshalLoad (fuel : ℕ) (src : Bytes) (world : W) :
    List Request × End (LoadError E) V (LoadArg V W) :=
  load env mach fuel ⟨src,0,[],[],world⟩

variable {env} {mach} {arg : LoadArg V W} {tag : Tag}
variable {rest : Bytes}

lemma returns_call {α : Type} {f : Call W E α} {a : α} {w : W} (h : f arg.world=.ok (a,w)) :
    Returns (call f : Load V W E α) arg a {arg with world := w} := by
  rw [Returns,call,h]

lemma rObject_eq (fuel : ℕ) (h : arg.unread=tag.code::rest) : rObject env mach (fuel+1) arg =
      (rTag env mach fuel (rObject0 env mach fuel) false none tag >>= fun r => pure r.value)
        (arg.skip 1) := by
  have hb : (rByte : Load V W E UInt8) arg=([],.ok tag.code (arg.skip 1)) := rByte_eq h
  have ho : rObject0 env mach (fuel+1) false none arg =
      rTag env mach fuel (rObject0 env mach fuel) false none tag (arg.skip 1) := by
    rw [rObject0,bind_of_ok hb,ofByte_code]
    rfl
  change Comp.bind _ _ _=Comp.bind _ _ _
  rw [Comp.bind,Comp.bind,ho]

lemma rObject_returns {fuel : ℕ} {r : Loaded V} {arg' : LoadArg V W}
    (h : arg.unread=tag.code::rest)
    (hr : Returns (rTag env mach fuel (rObject0 env mach fuel) false none tag) (arg.skip 1) r arg') :
    Returns (rObject env mach (fuel+1)) arg r.value arg' := by
  rw [Returns,rObject_eq fuel h]
  exact hr.bind returns_pure

/-- A number that the loader can be trusted with: bytes that are not fewer than none, and
pieces of a Bignum that its digits have space for. -/
def Fits : Request → Prop
  | .bytes len => 0 ≤ len
  | .digits len => long (len*2) ≤ digitSpace len

variable {V W E : Type}

lemma guarded_call {α : Type} (f : Call W E α) : Guarded Fits (call f : Load V W E α) := by
  refine guarded_of_quiet (fun arg => ?_) fun arg => ?_
  · rw [call]
    split <;> rfl
  · rw [call]
    split <;> exact nofun

lemma guarded_rByte : Guarded Fits (rByte : Load V W E UInt8) := by
  intro arg
  refine (guarded_state arg).bind fun a s' h => ?_
  split_ifs with hl
  · have hg : a.src[a.offset]? = some a.src[a.offset] := getElem?_eq_getElem hl
    rw [hg]
    exact ((guarded_update _).bind fun _ => guarded_pure _) s'
  · exact guarded_raise _ s'

lemma guarded_rLongLoop (neg : Bool) (n i : ℕ) (x : BitVec 64) :
    Guarded Fits (rLongLoop neg n i x : Load V W E (BitVec 64)) := by
  induction n generalizing i x with
  | zero => exact guarded_pure x
  | succ n ih => exact guarded_rByte.bind fun c => ih (i+1) _

lemma guarded_rLong : Guarded Fits (rLong : Load V W E ℤ) := by
  refine guarded_rByte.bind fun c => (guarded_pure _).ite (Guarded.ite ?_ ?_)
  all_goals
    exact (guarded_pure _).ite ((guarded_raise _).ite
      ((guarded_rLongLoop _ _ _ _).bind fun x => guarded_pure _))

lemma guarded_rBytes0 (len : ℤ) : Guarded Fits (rBytes0 len : Load V W E Bytes) := by
  intro arg
  rw [rBytes0]
  split_ifs with hz
  · exact guarded_pure _ arg
  refine (guarded_state arg).bind fun a s' h => ?_
  split_ifs with hl
  · refine guardedAt_request (fun hf => ?_) fun hf => ?_
    · have hp : 0 ≤ len := hf
      rw [newBuffer,if_neg (by omega),memcpy,if_pos ⟨hp,by omega,by omega⟩]
      exact ((guarded_pure _).bind fun _ => (guarded_pure _).bind fun _ =>
        (guarded_update _).bind fun _ => guarded_pure _) s'
    · have hn : len < 0 := not_le.mp hf
      rw [memcpy,if_neg (by omega),newBuffer]
      split_ifs with hs <;> rfl
  · exact guarded_raise _ s'

lemma rBytes0_data {len : ℤ} {arg arg' : LoadArg V W} {data : Bytes}
    (h : Returns (rBytes0 len : Load V W E Bytes) arg data arg') :
    data=[] ∧ len=0 ∨ 0 ∈ data ∧ 0 ≤ len ∧ len ≤ data.length := by
  rw [rBytes0] at h
  split_ifs at h with hz
  · cases h
    exact .inl ⟨rfl,hz⟩
  obtain ⟨a,s,-,h⟩ := h.of_bind
  split_ifs at h with hl
  · obtain ⟨_,s,-,h⟩ := h.of_bind
    obtain ⟨_,s,-,h⟩ := h.of_bind
    obtain ⟨copied,s,hc,h⟩ := h.of_bind
    cases h
    rw [memcpy] at hc
    split_ifs at hc with hr
    · cases hc
      refine .inr ⟨mem_append_right _ mem_cons_self,hr.1,?_⟩
      rw [length_append,length_take,length_drop]
      omega
    · cases hc
  · cases h

lemma guarded_rBytes : Guarded Fits (rBytes : Load V W E Bytes) :=
  guarded_rLong.bind guarded_rBytes0

lemma guarded_rCstr : Guarded Fits (rCstr : Load V W E Bytes) := by
  intro arg
  refine (guarded_rBytes arg).bind fun data s' h => ?_
  obtain ⟨len,s,-,h⟩ := h.of_bind
  rw [readCstr,if_pos ((rBytes0_data h).imp (·.1) (·.1))]
  exact guarded_pure _ s'

lemma guarded_rSymlink : Guarded Fits (rSymlink : Load V W E Bytes) := by
  refine guarded_rLong.bind fun num => guarded_state.bind fun arg => (guarded_raise _).ite ?_
  split
  · exact guarded_pure _
  · exact guarded_raise _

lemma guarded_rSymreal : Guarded Fits (rSymreal : Load V W E Bytes) :=
  guarded_rCstr.bind fun name => (guarded_update _).bind fun _ => guarded_pure name

lemma guarded_rSymbol : Guarded Fits (rSymbol : Load V W E Bytes) :=
  guarded_rByte.bind fun _ => guarded_rSymreal.ite (guarded_rSymlink.ite (guarded_raise _))

variable (env : Env V W E) (mach : Machine)

lemma guarded_rEntry (v : V) : Guarded Fits (rEntry env v) :=
  (guarded_call _).bind fun _ => (guarded_update _).bind fun _ => guarded_pure v

lemma guarded_rEntryLeave (v : V) : Guarded Fits (rEntryLeave env v) :=
  (guarded_rEntry env v).bind fun _ => guarded_call _

lemma guarded_rLink : Guarded Fits (rLink env) := by
  refine guarded_rLong.bind fun id => guarded_state.bind fun arg => (guarded_raise _).ite ?_
  split
  · exact (guarded_raise _).ite (guarded_call _)
  · exact guarded_raise _

/-- The copy into the digits has its bytes; whether it has the space is up to the data. -/
lemma guarded_rBignum : Guarded Fits (rBignum env mach) := by
  refine guarded_rByte.bind fun sign => guarded_rLong.bind fun len => fun arg => ?_
  refine (guarded_rBytes0 (long (len*2)) arg).bind fun data arg' h => ?_
  have hd : 0 ≤ long (len*2) ∧ long (len*2) ≤ data.length := by
    rcases rBytes0_data h with ⟨-,hl⟩ | ⟨-,hl⟩
    · omega
    · exact hl
  refine guardedAt_request (fun hf => ?_) fun hf => ?_
  · have hs : long (len*2) ≤ digitSpace len := hf
    rw [memcpy,if_pos ⟨hd.1,by omega,hs⟩]
    exact ((guarded_pure _).bind fun _ => (guarded_call _).bind fun v =>
      guarded_rEntryLeave env v) arg'
  · have hs : ¬long (len*2) ≤ digitSpace len := hf
    rw [memcpy,if_neg fun h => hs h.2.2]
    rfl

lemma guarded_assertAryLen (len : ℤ) : Guarded Fits (assertAryLen len : Load V W E Unit) :=
  (guarded_raise _).ite (guarded_pure _)

lemma guarded_rPath (path : Bytes → Call W E V) : Guarded Fits (rPath env path) :=
  guarded_rCstr.bind fun _ => (guarded_call _).bind (guarded_rEntryLeave env)

lemma guarded_extendAll (v : V) (ms : List V) : Guarded Fits (extendAll env v ms) := by
  induction ms with
  | nil => exact guarded_pure _
  | cons m ms ih => exact (guarded_call _).bind fun _ => ih

section Nested
variable {env} {rObject : Load V W E V} (h : Guarded Fits rObject) (fuel : ℕ)
include h

lemma guarded_rIvar (v : V) : Guarded Fits (rIvar env fuel rObject v) :=
  guarded_rLong.bind fun len => (guarded_whileDown (guarded_rSymbol.bind fun _ =>
    h.bind fun _ => guarded_call _) fuel len).ite (guarded_pure _)

lemma guarded_rArray : Guarded Fits (rArray env fuel rObject) :=
  guarded_rLong.bind fun len => (guarded_assertAryLen len).bind fun _ =>
    (guarded_call _).bind fun v => (guarded_rEntry env v).bind fun _ =>
      (guarded_whileDown (h.bind fun _ => guarded_call _) fuel len).bind fun _ => guarded_call _

lemma guarded_rHash : Guarded Fits (rHash env fuel rObject) :=
  guarded_rLong.bind fun len => (guarded_call _).bind fun v => (guarded_rEntry env v).bind fun _ =>
    (guarded_whileDown (h.bind fun _ => h.bind fun _ => guarded_call _) fuel len).bind
      fun _ => guarded_call _

lemma guarded_rMembers (members : List Bytes) (values : List V) :
    Guarded Fits (rMembers rObject members values) := by
  induction members generalizing values with
  | nil => exact guarded_pure _
  | cons member members ih =>
    exact guarded_rSymbol.bind fun _ => (guarded_raise _).ite (h.bind fun _ => ih _)

lemma guarded_rStruct : Guarded Fits (rStruct env rObject) :=
  guarded_rSymbol.bind fun _ => (guarded_call _).bind fun _ => guarded_rLong.bind fun _ =>
    (guarded_call _).bind fun p => (guarded_rEntry env p.1).bind fun _ =>
      (guarded_rMembers h p.2 []).bind fun _ => (guarded_call _).bind fun _ => guarded_call _

lemma guarded_rUserdef (ivp : Bool) : Guarded Fits (rUserdef env fuel rObject ivp) := by
  refine guarded_rSymbol.bind fun _ => (guarded_call _).bind fun klass =>
    (guarded_call _).bind fun _ => guarded_rBytes.bind fun _ => (guarded_call _).bind fun data => ?_
  have hl : Guarded Fits (call (env.funcallLoad klass data) >>= rEntryLeave env) :=
    (guarded_call _).bind (guarded_rEntryLeave env)
  exact ((guarded_rIvar h fuel data).bind fun _ => hl).ite hl

lemma guarded_rUsrmarshal (extmod : Option (List V)) :
    Guarded Fits (rUsrmarshal env rObject extmod) :=
  guarded_rSymbol.bind fun _ => (guarded_call _).bind fun _ => (guarded_call _).bind fun v =>
    (guarded_extendAll env v _).bind fun _ => (guarded_call _).bind fun _ =>
      (guarded_rEntry env v).bind fun _ => h.bind fun _ => (guarded_call _).bind fun _ =>
        guarded_call _

lemma guarded_rPlainObject : Guarded Fits (rPlainObject env fuel rObject) :=
  guarded_rSymbol.bind fun _ => (guarded_call _).bind fun v => (guarded_rEntry env v).bind fun v =>
    (guarded_rIvar h fuel v).bind fun _ => guarded_call _

end Nested

lemma guarded_plain {extmod : Option (List V)} {m : Load V W E V} (h : Guarded Fits m) :
    Guarded Fits (plain extmod m) :=
  h.bind fun _ => guarded_pure _

lemma guarded_rTag {rec : Bool → Option (List V) → Load V W E (Loaded V)}
    (h : ∀ ivp extmod, Guarded Fits (rec ivp extmod)) (fuel : ℕ) (ivp : Bool)
    (extmod : Option (List V)) (tag : Tag) :
    Guarded Fits (rTag env mach fuel rec ivp extmod tag) := by
  have ho : Guarded Fits (do
      let r ← rec false none
      pure r.value) :=
    (h false none).bind fun _ => guarded_pure _
  cases tag with
  | link => exact guarded_plain (guarded_rLink env)
  | ivar =>
    exact (h true extmod).bind fun r =>
      ((guarded_rIvar ho fuel r.value).bind fun _ => guarded_pure _).ite (guarded_pure _)
  | extended =>
    exact guarded_rSymbol.bind fun _ => (guarded_call _).bind fun m => (h false _).bind fun r =>
      (guarded_extendAll env r.value _).bind fun _ => guarded_pure _
  | uclass =>
    exact guarded_rSymbol.bind fun _ => (guarded_call _).bind fun c =>
      (guarded_call _).bind fun _ => (guarded_raise _).ite
        ((h false extmod).bind fun r => (guarded_call _).bind fun _ => guarded_pure _)
  | nil | true | false => exact guarded_plain (guarded_call _)
  | fixnum => exact guarded_plain (guarded_rLong.bind fun _ => guarded_call _)
  | float => exact guarded_plain (guarded_rPath env env.double2num)
  | bignum => exact guarded_plain (guarded_rBignum env mach)
  | string => exact guarded_plain (guarded_rPath env env.strNew2)
  | regexp =>
    exact guarded_plain (guarded_rCstr.bind fun _ => guarded_rByte.bind fun _ =>
      (guarded_call _).bind (guarded_rEntryLeave env))
  | array => exact guarded_plain (guarded_rArray ho fuel)
  | hash | hashDef => exact guarded_plain (guarded_rHash ho fuel)
  | struct => exact guarded_plain (guarded_rStruct ho)
  | userdef => exact (guarded_rUserdef ho fuel ivp).bind fun _ => guarded_pure _
  | usrmarshal => exact (guarded_rUsrmarshal ho extmod).bind fun _ => guarded_pure _
  | object => exact guarded_plain (guarded_rPlainObject ho fuel)
  | data =>
    exact guarded_rSymbol.bind fun _ => (guarded_call _).bind fun _ => (guarded_call _).bind fun v =>
      (guarded_rEntry env v).bind fun _ => (guarded_call _).bind fun _ =>
        (h false extmod).bind fun _ => (guarded_call _).bind fun _ =>
          (guarded_call _).bind fun _ => guarded_pure _
  | moduleOld | klass | mod => exact guarded_plain (guarded_rPath env _)
  | symbol => exact guarded_rSymreal.bind fun _ => guarded_plain (guarded_call _)
  | symlink => exact guarded_rSymlink.bind fun _ => guarded_pure _

lemma guarded_rObject0 (fuel : ℕ) (ivp : Bool) (extmod : Option (List V)) :
    Guarded Fits (rObject0 env mach fuel ivp extmod) := by
  induction fuel generalizing ivp extmod with
  | zero => exact guarded_more
  | succ fuel ih =>
    refine guarded_rByte.bind fun type => ?_
    split
    · exact guarded_rTag env mach ih fuel ivp extmod _
    · exact guarded_raise _

lemma guarded_load (fuel : ℕ) : Guarded Fits (load env mach fuel) :=
  guarded_rByte.bind fun _ => guarded_rByte.bind fun _ => (guarded_raise _).ite
    ((guarded_rObject0 env mach fuel false none).bind fun _ => guarded_pure _)

/-- For every string, every environment and as many rounds as one likes: the loader stays
inside its buffers exactly when every number it takes on trust fits. -/
theorem marshalLoad_in_bounds_iff (fuel : ℕ) (src : Bytes) (world : W) :
    (marshalLoad env mach fuel src world).2 ≠ .fault ↔
      ∀ r ∈ (marshalLoad env mach fuel src world).1, Fits r := by
  have hg : (marshalLoad env mach fuel src world).2=.fault ↔
      ∃ r ∈ (marshalLoad env mach fuel src world).1, ¬Fits r :=
    guarded_load env mach fuel ⟨src,0,[],[],world⟩
  rw [ne_eq,hg]
  push Not
  rfl

set_option maxRecDepth 10000 in
/-- A String of -1 bytes, and a Bignum of 13 pieces for three digits. -/
theorem trusted_lengths_leave_the_buffers :
    (∀ {V W E : Type} (env : Env V W E) (mach : Machine) (world : W),
      marshalLoad env mach 1 [4,8,34,250] world = ([.bytes (-1)],.fault)) ∧
    (∀ {V W E : Type} (env : Env V W E) (mach : Machine) (world : W),
      marshalLoad env mach 1 ([4,8,108,43,18]++List.replicate 26 0) world =
        ([.bytes 26,.digits 13],.fault)) := by
  constructor
  all_goals
    intro V W E env mach world
    rfl

end MacRuby.MarshalLoad
