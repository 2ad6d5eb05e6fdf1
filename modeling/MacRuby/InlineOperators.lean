import MacRuby.BuiltinClasses
import MacRuby.Runs

/-!
# Inlined operators

For some operators the compiler emits more than a call. Fixnums and Floats are
compared in place, unless the operator was redefined, and everything else goes
to a function that looks at the type of the receiver and calls the C function
of the built-in class directly. Whether the operator was redefined is recorded
by a flag for each operator, which a definition sets for some classes only; the
functions for `==` and `===` do not look at it. A dispatch, by contrast, runs
the method that lookup finds. Definitions, compilations and evaluations form a run.
-/
namespace MacRuby.InlineOperators
open Runs BuiltinClasses Function

inductive Error
  | stackOverflow
  | argumentError
  | raised (n : ℕ)
deriving DecidableEq, Repr

def Eval (H α : Type) : Type := H → Except Error α × H

namespace Eval
variable {H α β : Type}

instance : Monad (Eval H) where
  pure a h := (.ok a,h)
  bind m f h := match m h with
    | (.ok a,h') => f a h'
    | (.error e,h') => (.error e,h')

def raise (e : Error) : Eval H α := fun h => (.error e,h)

def view (f : H → α) : Eval H α := fun h => (.ok (f h),h)

@[simp] lemma pure_apply (a : α) (h : H) : (pure a : Eval H α) h=(.ok a,h) := rfl

@[simp] lemma bind_apply (m : Eval H α) (f : α → Eval H β) (h : H) :
    (m >>= f) h=match m h with
      | (.ok a,h') => f a h'
      | (.error e,h') => (.error e,h') := rfl

@[simp] lemma map_apply (m : Eval H α) (f : α → β) (h : H) :
    (f <$> m) h=match m h with
      | (.ok a,h') => (.ok (f a),h')
      | (.error e,h') => (.error e,h') := rfl

lemma map_map {γ : Type} (m : Eval H α) (f : α → β) (g : β → γ) :
    g <$> f <$> m=(fun a => g (f a)) <$> m := by
  funext h
  simp only [map_apply]
  rcases m h with ⟨_ | a,h'⟩ <;> rfl

@[simp] lemma view_apply (f : H → α) (h : H) : view f h=(.ok (f h),h) := rfl

end Eval

variable {D : Type}

structure Doubles (D : Type) where
  eq : D → D → Bool
  isNaN : D → Bool
  ofInt : ℤ → D
  eq_nan_left : ∀ {a} b, isNaN a=true → eq a b=false
  eq_nan_right : ∀ a {b}, isNaN b=true → eq a b=false
  eq_self : ∀ {a}, isNaN a=false → eq a a=true

def ofBool (b : Bool) : Value D := if b then .qtrue else .qfalse

def rtest : Value D → Bool
  | .qfalse => false
  | .qnil => false
  | _ => true

@[simp] lemma rtest_ofBool (b : Bool) : rtest (ofBool b : Value D)=b := by cases b <;> rfl

/-- The conversions for which `==` asks its argument. -/
inductive Conversion
  | toStr
  | toAry
  | toHash
deriving DecidableEq, Repr

/-- The code that an evaluation can call: the bodies of methods, `method_missing`,
`respond_to?`, and the functions of the library on the contents of objects. `CFEqual`
compares strings by their characters, and hashes of different sizes are not equal. -/
structure Library (D H : Type) where
  body : ℕ → Value D → List (Value D) → Eval H (Value D)
  methodMissing : Op → Value D → List (Value D) → Eval H (Value D)
  respondTo : Value D → Conversion → Eval H Bool
  characters : Value D → H → List ℕ
  isPure : Value D → H → Bool
  hashSize : Value D → H → ℕ
  cfEqualHash : Value D → Value D → Eval H Bool
  cfEqualHash_size : ∀ {x y h}, hashSize x h ≠ hashSize y h → cfEqualHash x y h=(.ok false,h)
  rbAryEqual : Value D → Value D → Eval H Bool
  rbBigEq : Value D → Value D → Eval H Bool
  rbBig2Dbl : Value D → H → D
  rbRegEqq : Value D → Value D → Eval H (Value D)
  rbObjIsKindOf : Value D → Value D → Eval H Bool
  rbAryPush : Value D → Value D → Eval H Unit
  rbAryEntry : Value D → ℤ → Eval H (Value D)
  rbArySubseq : Value D → Value D → Eval H (Value D)
  rbAryStore : Value D → ℤ → Value D → Eval H Unit
  rbArySplice : Value D → Value D → Value D → Eval H Unit
  rbStrConcat : Value D → Value D → Eval H Unit

/-- The state of the core: the methods of the operators, and for each of them whether its
flag exists and whether it is set. -/
structure Core where
  own : Op → ℕ → Option Code
  compiled : Op → Bool
  redefined : Op → Bool
  running : Bool

/-- `RoxorCore::should_invalidate_inline_op`. -/
def shouldInvalidateInlineOp : Op → ℕ → Bool
  | .eq,k | .eqq,k | .neq,k =>
    k ∈ [fixnum,float,bignum,symbol,nsString,nsMutableString,nsArray,nsMutableArray,nsHash,
      nsMutableHash]
  | .shift,k | .aref,k | .aset,k => k ∈ [nsArray,nsMutableArray]

section Methods
variable {D H : Type} [DecidableEq D] (P : Program) (F : Doubles D) (L : Library D H)
variable (eqCall : Value D → Value D → Eval H (Value D))

/-- `rb_equal`; `eqCall` calls the method `==`. -/
def rbEqual (x y : Value D) : Eval H Bool :=
  if x=y then pure true else rtest <$> eqCall x y

def numEqual (x y : Value D) : Eval H (Value D) :=
  if x=y then pure .qtrue else eqCall y x

/-- `fix_equal`, for the receivers that are Fixnums. -/
def fixEqual (x y : Value D) : Eval H (Value D) :=
  if x=y then pure .qtrue
  else match x,y with
    | .fixnum _,.fixnum _ => pure .qfalse
    | .fixnum a,.float b => pure (ofBool (F.eq (F.ofInt a) b))
    | _,_ => if P.rbType y=.bignum then ofBool <$> L.rbBigEq y x else numEqual eqCall x y

/-- `flo_eq`, for the receivers that are Floats. -/
def floEq (x y : Value D) : Eval H (Value D) :=
  match x,y with
  | .float a,.fixnum b => pure (ofBool (!F.isNaN a && F.eq a (F.ofInt b)))
  | .float a,.float b => pure (ofBool (!F.isNaN b && !F.isNaN a && F.eq a b))
  | .float a,_ =>
    if P.rbType y=.bignum then
      Eval.view fun h => ofBool (!F.isNaN a && F.eq a (L.rbBig2Dbl y h))
    else numEqual eqCall x y
  | _,_ => numEqual eqCall x y

/-- `CFEqual` on strings. -/
def cfEqualString (x y : Value D) : Eval H Bool :=
  Eval.view fun h => L.characters x h == L.characters y h

def rbStrEqual (x y : Value D) : Eval H Bool :=
  if x=y then pure true
  else if P.rbType y ≠ .string then do
    if ← L.respondTo y .toStr then rbEqual eqCall y x else pure false
  else do
    let lengths ← Eval.view fun h => ((L.characters x h).length,(L.characters y h).length)
    if P.classOf x=P.classOf y ∧ lengths.1 ≠ lengths.2 then pure false
    else
      if ← Eval.view (L.isPure y) then cfEqualString L x y else cfEqualString L y x

def rbAryEqualImp (x y : Value D) : Eval H Bool :=
  if x=y then pure true
  else if P.rbType y ≠ .array then do
    if ← L.respondTo y .toAry then rbEqual eqCall y x else pure false
  else L.rbAryEqual x y

def rbHashEqual (x y : Value D) : Eval H Bool :=
  if x=y then pure true
  else if P.rbType y ≠ .hash then do
    if ← L.respondTo y .toHash then rbEqual eqCall y x else pure false
  else do
    let sizes ← Eval.view fun h => (L.hashSize x h,L.hashSize y h)
    if sizes.1 ≠ sizes.2 then pure false else L.cfEqualHash x y

/-- `rb_ary_aref` with one argument. -/
def rbAryAref (x : Value D) : Value D → Eval H (Value D)
  | .fixnum i => L.rbAryEntry x i
  | i => L.rbArySubseq x i

/-- `rb_ary_aset` with two arguments. -/
def rbAryAset (x : Value D) : Value D → Value D → Eval H (Value D)
  | .fixnum i,v => do
    L.rbAryStore x i v
    return v
  | i,v => do
    L.rbArySplice x i v
    return v

def exec : Code → Value D → List (Value D) → Eval H (Value D)
  | .rbObjEqual,x,[y] => pure (ofBool (x=y))
  | .rbObjNotEqual,x,[y] => (fun v => ofBool (!rtest v)) <$> eqCall x y
  | .rbEqualImp,x,[y] => ofBool <$> rbEqual eqCall x y
  | .rbModEqq,x,[y] => ofBool <$> L.rbObjIsKindOf y x
  | .symEqual,x,[y] => pure (ofBool (x=y))
  | .rbStrEqualImp,x,[y] => ofBool <$> rbStrEqual P L eqCall x y
  | .rbStrConcatImp,x,[y] => do
    L.rbStrConcat x y
    return x
  | .rbAryEqualImp,x,[y] => ofBool <$> rbAryEqualImp P L eqCall x y
  | .rbAryPushImp,x,[y] => do
    L.rbAryPush x y
    return x
  | .rbAryAref,x,[y] => rbAryAref L x y
  | .rbAryAset,x,[i,v] => rbAryAset L x i v
  | .rbHashEqual,x,[y] => ofBool <$> rbHashEqual P L eqCall x y
  | .fixEqual,x,[y] => fixEqual P F L eqCall x y
  | .rbBigEqImp,x,[y] => ofBool <$> L.rbBigEq x y
  | .floEq,x,[y] => floEq P F L eqCall x y
  | .rbRegEqq,x,[y] => L.rbRegEqq x y
  | .ruby n,x,args => L.body n x args
  | _,_,_ => .raise .argumentError

end Methods

section Evaluation
variable {D H : Type} [DecidableEq D] (P : Program) (F : Doubles D) (L : Library D H) (s : Core)
variable (turns : ℕ)

def lookup (op : Op) (x : Value D) : Option Code :=
  (P.tree.nearest (s.own op) (P.classOf x)).map Prod.snd

/-- Calls `==`. The C stack is measured by how often a built-in `==` may turn to its
argument. -/
def eqCall : ℕ → Value D → Value D → Eval H (Value D)
  | 0,_,_ => .raise .stackOverflow
  | turns+1,x,y => match lookup P s .eq x with
      | none => L.methodMissing .eq x [y]
      | some code => exec P F L (eqCall turns) code x [y]

def dispatch (op : Op) (x : Value D) (args : List (Value D)) : Eval H (Value D) :=
  match lookup P s op x with
  | none => L.methodMissing op x args
  | some code => exec P F L (eqCall P F L s (if op=.eq then turns else turns+1)) code x args

def rbVmFastEq (x y : Value D) : Eval H (Value D) :=
  match P.rbType x with
  | .symbol => pure (ofBool (x=y))
  | .string =>
    if x=y then pure .qtrue
    else if P.rbType y ≠ .string then pure .qfalse
    else ofBool <$> cfEqualString L x y
  | .array =>
    if x=y then pure .qtrue
    else if P.rbType y ≠ .array then pure .qfalse
    else ofBool <$> L.rbAryEqual x y
  | .hash =>
    if x=y then pure .qtrue
    else if P.rbType y ≠ .hash then pure .qfalse
    else ofBool <$> L.cfEqualHash x y
  | .bignum => ofBool <$> L.rbBigEq x y
  | _ => dispatch P F L s turns .eq x [y]

def rbVmFastNeq (x y : Value D) : Eval H (Value D) := dispatch P F L s turns .neq x [y]

def rbVmFastEqq (x y : Value D) : Eval H (Value D) :=
  match P.rbType x with
  | .string =>
    if x=y then pure .qtrue else ofBool <$> rbStrEqual P L (eqCall P F L s turns) x y
  | .regexp => L.rbRegEqq x y
  | .symbol => pure (ofBool (x=y))
  | .mod => ofBool <$> L.rbObjIsKindOf y x
  | .klass => ofBool <$> L.rbObjIsKindOf y x
  | _ => dispatch P F L s turns .eqq x [y]

def rbVmFastShift (x y : Value D) (overriden : Bool) : Eval H (Value D) :=
  match overriden,P.rbType x with
  | false,.array => do
    L.rbAryPush x y
    return x
  | false,.string => do
    L.rbStrConcat x y
    return x
  | _,_ => dispatch P F L s turns .shift x [y]

def rbVmFastAref (x y : Value D) (overriden : Bool) : Eval H (Value D) :=
  if overriden=false ∧ P.rbType x=.array then
    match y with
    | .fixnum i => L.rbAryEntry x i
    | y => rbAryAref L x y
  else dispatch P F L s turns .aref x [y]

def rbVmFastAset (x i v : Value D) (overriden : Bool) : Eval H (Value D) :=
  match overriden,P.rbType x,i with
  | false,.array,.fixnum i => do
    L.rbAryStore x i v
    return v
  | _,_,_ => dispatch P F L s turns .aset x [i,v]

/-- `compile_fast_op_call`, for the comparisons. -/
def fastOp (op : Op) (x y : Value D) : Eval H (Value D) :=
  match op with
  | .eq => rbVmFastEq P F L s turns x y
  | .neq => rbVmFastNeq P F L s turns x y
  | .eqq => rbVmFastEqq P F L s turns x y
  | _ => dispatch P F L s turns op x [y]

/-- `compile_double_coercion`. -/
def toDouble : Value D → Option D
  | .fixnum n => some (F.ofInt n)
  | .float d => some d
  | _ => none

/-- Comparisons of numbers in place: `optimized_const_immediate_op` for constants, and the
code of `optimized_immediate_op` otherwise, which compares by `FCMP_ONE` for `!=`. -/
def optimizedImmediateOp (folded : Bool) (op : Op) (x y : Value D) : Option Bool :=
  match x,y with
  | .fixnum a,.fixnum b => some (if op=.neq then a ≠ b else a=b)
  | _,_ => match toDouble F x,toDouble F y with
      | some a,some b =>
        some (if op=.neq then
            if folded then !F.eq a b else !F.isNaN a && !F.isNaN b && !F.eq a b
          else F.eq a b)
      | _,_ => none

/-- The code for `==`, `!=` and `===`; `folded` says that both operands are constants. -/
def compileComparison (folded : Bool) (op : Op) (x y : Value D) : Eval H (Value D) :=
  if folded=true ∧ P.rbType x=.symbol ∧ P.rbType y=.symbol then
    if s.redefined op then dispatch P F L s turns op x [y]
    else pure (ofBool (if op=.neq then x ≠ y else x=y))
  else match optimizedImmediateOp F folded op x y with
    | some b =>
      if s.redefined op then
        if folded then dispatch P F L s turns op x [y] else fastOp P F L s turns op x y
      else pure (ofBool b)
    | none => fastOp P F L s turns op x y

/-- `compile_optimized_dispatch_call`; operators with other numbers of arguments are not
inlined. -/
def compileOptimizedDispatchCall (folded : Bool) (op : Op) (x : Value D) (args : List (Value D)) :
    Eval H (Value D) :=
  match op,args with
  | .eq,[y] => compileComparison P F L s turns folded .eq x y
  | .neq,[y] => compileComparison P F L s turns folded .neq x y
  | .eqq,[y] => compileComparison P F L s turns folded .eqq x y
  | .shift,[y] => rbVmFastShift P F L s turns x y (s.redefined .shift)
  | .aref,[y] => rbVmFastAref P F L s turns x y (s.redefined .aref)
  | .aset,[i,v] => rbVmFastAset P F L s turns x i v (s.redefined .aset)
  | _,_ => dispatch P F L s turns op x args

inductive Step (D : Type)
  | define (klass : ℕ) (op : Op) (n : ℕ)
  | compile (op : Op)
  | setRunning (flag : Bool)
  | evaluate (folded : Bool) (op : Op) (x : Value D) (args : List (Value D))

structure State (H : Type) where
  core : Core
  heap : H

/-- `RoxorCore::add_method`, for an operator: the method also goes to the classes that
include a module, and the flag is set for the class itself. -/
def addMethod (s : Core) (klass : ℕ) (op : Op) (n : ℕ) : Core :=
  {s with
    own := update s.own op fun c =>
      if c ∈ klass::P.users klass then some (.ruby n) else s.own op c
    redefined :=
      if s.running && s.compiled op && shouldInvalidateInlineOp op klass then
        update s.redefined op true
      else s.redefined}

def step (s : State H) : Step D → State H
  | .define klass op n => {s with core := addMethod P s.core klass op n}
  | .compile op => {s with core := {s.core with compiled := update s.core.compiled op true}}
  | .setRunning flag => {s with core := {s.core with running := flag}}
  | .evaluate folded op x args =>
    {s with heap := (compileOptimizedDispatchCall P F L s.core turns folded op x args s.heap).2}

def start (h : H) : State H := ⟨⟨P.boot,fun _ => false,fun _ => false,false⟩,h⟩

/-- An evaluation gives what a dispatch gives, and has its effects. -/
def Respected (s : State H) (folded : Bool) (op : Op) (x : Value D) (args : List (Value D)) : Prop :=
  compileOptimizedDispatchCall P F L s.core turns folded op x args s.heap =
    dispatch P F L s.core turns op x args s.heap

/-- The operators for whose methods the inlined code of an operator stands. -/
def relies : Op → Ty → List Op
  | .eq,.fixnum | .eq,.float | .eq,.symbol | .eq,.string | .eq,.array | .eq,.hash | .eq,.bignum =>
    [.eq]
  | .neq,.fixnum | .neq,.float | .neq,.symbol => [.neq,.eq]
  | .eqq,.fixnum | .eqq,.float | .eqq,.symbol | .eqq,.string => [.eqq,.eq]
  | .eqq,.regexp | .eqq,.mod | .eqq,.klass => [.eqq]
  | .shift,.string | .shift,.array => [.shift]
  | .aref,.array => [.aref]
  | .aset,.array => [.aset]
  | _,_ => []

/-- The inlined code is used only while the flag of the operator is not set. -/
def guarded : Op → Ty → Bool
  | .eq,t | .eqq,t => t ∈ [.fixnum,.float]
  | _,_ => true

/-- The conversion for which a built-in `==` asks an argument of another type. -/
def conversion : Ty → Option Conversion
  | .string => some .toStr
  | .array => some .toAry
  | .hash => some .toHash
  | _ => none

/-- The operands for which the inlined code is right. An argument of `==` of another type
is not asked to compare itself. A class or module has the `===` of `Module` from the
library. NaN is not compared in place by `===` with itself, or by `!=` with
anything. -/
def Fits (s : State H) (folded : Bool) : Op → Value D → List (Value D) → Prop
  | .eq,x,[y] => ∀ conv, conversion (P.rbType x)=some conv → x ≠ y → P.rbType y ≠ P.rbType x →
      L.respondTo y conv s.heap=(.ok false,s.heap)
  | .eqq,x,[y] =>
    (P.rbType x=.mod ∨ P.rbType x=.klass →
      P.tree.nearest (P.boot .eqq) (P.classOf x)=some (nsObjectMeta,.rbModEqq)) ∧
    ∀ d, x=.float d → y=x → s.core.redefined .eqq=false → F.isNaN d=false
  | .neq,x,[y] => ∀ a b, toDouble F x=some a → toDouble F y=some b →
      s.core.redefined .neq=false → folded=true ∨ F.isNaN a=false ∧ F.isNaN b=false
  | _,_,_ => True

/-- The steps that keep inlining right. A definition comes to no class that lookup passes
from a value of a built-in type to the method of the library, unless the code inlined
for the value is guarded by a flag that is set, or that the definition sets. -/
def Harmless (s : State H) : Step D → Prop
  | .define klass op _ => ∀ op' (x : Value D), op ∈ relies op' (P.rbType x) →
      (∃ c ∈ klass::P.users klass, P.tree.Tried (P.boot op) (P.classOf x) c) →
      guarded op' (P.rbType x)=true ∧
        (s.core.redefined op'=true ∨ op'=op ∧ s.core.running=true ∧
          s.core.compiled op=true ∧ shouldInvalidateInlineOp op klass=true)
  | .compile _ => True
  | .setRunning _ => True
  | .evaluate folded op x args => Fits P F L s folded op x args

/-- The methods for which inlined code stands are those of the library, or the code is not
used. -/
def Kept (D : Type) (s : Core) : Prop := ∀ op (x : Value D),
  guarded op (P.rbType x)=true ∧ s.redefined op=true ∨
    ∀ op' ∈ relies op (P.rbType x), ∀ c, P.tree.Tried (P.boot op') (P.classOf x) c →
      s.own op' c=P.boot op' c

end Evaluation

section Lookups
variable {D : Type} {P : Program} {s : Core} {x : Value D}

def Found (P : Program) (s : Core) (op : Op) (x : Value D) : Prop :=
  ∀ op' ∈ relies op (P.rbType x), lookup P s op' x=(standard op' (P.rbType x)).map Prod.snd

lemma Found.finds {op op' : Op} {t : Ty} (hf : Found P s op x) (ht : P.rbType x=t)
    (hr : op' ∈ relies op t) : lookup P s op' x=(standard op' t).map Prod.snd :=
  ht ▸ hf op' (ht ▸ hr)

variable {F : Doubles D} {y : Value D}
variable {folded b : Bool} {op op' : Op}

lemma type_of_number (hn : optimizedImmediateOp F folded op x y=some b) :
    P.rbType x=.fixnum ∨ P.rbType x=.float := by
  cases x with
  | fixnum n => exact .inl rfl
  | float d => exact .inr rfl
  | _ => simp [optimizedImmediateOp,toDouble] at hn

lemma number_self (hna : ∀ d, x=.float d → F.isNaN d=false)
    (hn : optimizedImmediateOp F folded .eq x x=some b) : b=true := by
  cases x with
  | fixnum n =>
    obtain ⟨rfl⟩ : decide (n=n)=b := Option.some.inj hn
    simp
  | float d =>
    obtain ⟨rfl⟩ : F.eq d d=b := Option.some.inj hn
    exact F.eq_self (hna d rfl)
  | _ => simp [optimizedImmediateOp,toDouble] at hn

lemma number_eqq :
    optimizedImmediateOp F folded .eqq x y=optimizedImmediateOp F folded .eq x y := by
  cases x <;> cases y <;> rfl

lemma negated_double {c d : D} (hna : folded=true ∨ F.isNaN c=false ∧ F.isNaN d=false)
    (hn : some (if folded then !F.eq c d else !F.isNaN c && !F.isNaN d && !F.eq c d)=some b) :
    some (F.eq c d)=some (!b) := by
  rw [Option.some.injEq] at hn
  rcases hna with rfl | ⟨hc,hd⟩
  · simp [← hn]
  · cases folded <;> simp [← hn,hc,hd]

lemma number_neq (hna : ∀ c d, toDouble F x=some c → toDouble F y=some d →
      folded=true ∨ F.isNaN c=false ∧ F.isNaN d=false)
    (hn : optimizedImmediateOp F folded .neq x y=some b) :
    optimizedImmediateOp F folded .eq x y=some (!b) := by
  cases x with
  | fixnum m =>
    cases y with
    | fixnum n =>
      obtain ⟨rfl⟩ : decide (m ≠ n)=b := Option.some.inj hn
      simp [optimizedImmediateOp]
    | float e => exact negated_double (hna _ _ rfl rfl) hn
    | _ => simp [optimizedImmediateOp,toDouble] at hn
  | float d =>
    cases y with
    | fixnum | float => exact negated_double (hna _ _ rfl rfl) hn
    | _ => simp [optimizedImmediateOp,toDouble] at hn
  | _ => simp [optimizedImmediateOp,toDouble] at hn

lemma Found.inherited {op'' : Op} {code : Code} (hf : Found P s op x)
    (hr : op' ∈ relies op .fixnum ∧ op' ∈ relies op .float)
    (hc : (standard op' .fixnum).map Prod.snd=some code ∧
      (standard op' .float).map Prod.snd=some code)
    (hb : optimizedImmediateOp F folded op'' x y=some b) : lookup P s op' x=some code := by
  rcases type_of_number hb with ht | ht
  · exact (hf.finds ht hr.1).trans hc.1
  · exact (hf.finds ht hr.2).trans hc.2

lemma Found.number (hf : Found P s op x)
    (hr : Op.eq ∈ relies op .fixnum ∧ Op.eq ∈ relies op .float)
    (hb : optimizedImmediateOp F folded op' x y=some b) :
    ∃ code, (standard .eq (P.rbType x)).map Prod.snd=some code ∧ lookup P s .eq x=some code := by
  rcases type_of_number hb with ht | ht
  · exact ⟨_,by rw [ht]; rfl,hf.finds ht hr.1⟩
  · exact ⟨_,by rw [ht]; rfl,hf.finds ht hr.2⟩

variable {H : Type} [DecidableEq D] {L : Library D H}
variable {turns : ℕ} {h : H} {code : Code}

lemma dispatch_of_lookup {op : Op} {args : List (Value D)} (hl : lookup P s op x=some code) :
    dispatch P F L s turns op x args =
      exec P F L (eqCall P F L s (if op=.eq then turns else turns+1)) code x args := by
  unfold dispatch
  rw [hl]

lemma eqCall_of_lookup (hl : lookup P s .eq x=some code) :
    eqCall P F L s (turns+1) x y=exec P F L (eqCall P F L s turns) code x [y] := by
  rw [eqCall,hl]

lemma rbStrEqual_of_string (eqCall : Value D → Value D → Eval H (Value D)) (hn : x ≠ y)
    (hy : P.rbType y=.string) : rbStrEqual P L eqCall x y h=cfEqualString L x y h := by
  unfold rbStrEqual cfEqualString
  rw [if_neg hn,if_neg (by simp [hy])]
  simp only [Eval.bind_apply,Eval.view_apply]
  split
  · next hl =>
      have hd : L.characters x h ≠ L.characters y h := fun he => hl.2 (by rw [he])
      simp [hd]
  · simp only [Eval.bind_apply,Eval.view_apply]
    split
    · rfl
    · simp only [Eval.view_apply,Prod.mk.injEq,Except.ok.injEq,and_true]
      exact Bool.beq_comm

lemma rbHashEqual_of_hash (eqCall : Value D → Value D → Eval H (Value D)) (hn : x ≠ y)
    (hy : P.rbType y=.hash) : rbHashEqual P L eqCall x y h=L.cfEqualHash x y h := by
  unfold rbHashEqual
  rw [if_neg hn,if_neg (by simp [hy])]
  simp only [Eval.bind_apply,Eval.view_apply]
  split
  · next hs =>
      rw [L.cfEqualHash_size hs]
      rfl
  · rfl

lemma comparison_of_fits {t : Ty} {conv : Conversion} (hx : P.rbType x=t)
    (hc : conversion t=some conv) (hf : ∀ conv, conversion (P.rbType x)=some conv →
      x ≠ y → P.rbType y ≠ P.rbType x → L.respondTo y conv h=(.ok false,h))
    {same other : Eval H Bool} {turn : Eval H Bool} (hs : x ≠ y → P.rbType y=t → same h=other h) :
    (if x=y then pure .qtrue else if P.rbType y ≠ t then pure .qfalse
      else ofBool <$> other : Eval H (Value D)) h = (ofBool <$> (if x=y then pure true
      else if P.rbType y ≠ t then do
        if ← L.respondTo y conv then turn else pure false
      else same) : Eval H (Value D)) h := by
  by_cases hxy : x=y
  · rw [if_pos hxy,if_pos hxy]
    rfl
  · rw [if_neg hxy,if_neg hxy]
    by_cases hy : P.rbType y=t
    · rw [if_neg (not_not.mpr hy),if_neg (not_not.mpr hy),Eval.map_apply,Eval.map_apply, hs hxy hy]
    · have hr := hf conv (hx ▸ hc) hxy (hx ▸ hy)
      rw [if_pos hy,if_pos hy,Eval.map_apply,Eval.bind_apply,hr]
      rfl

lemma rbVmFastEq_eq_dispatch (hf : Found P s .eq x)
    (hfi : ∀ conv, conversion (P.rbType x)=some conv → x ≠ y → P.rbType y ≠ P.rbType x →
      L.respondTo y conv h=(.ok false,h)) :
    rbVmFastEq P F L s turns x y h=dispatch P F L s turns .eq x [y] h := by
  unfold rbVmFastEq
  cases ht : P.rbType x with
  | symbol | bignum =>
    rw [dispatch_of_lookup (hf.finds ht (by decide))]
    rfl
  | string =>
    rw [dispatch_of_lookup (hf.finds ht (by decide))]
    apply comparison_of_fits ht rfl hfi
    intro hn hy
    have he := rbStrEqual_of_string (L := L) (h := h) (eqCall P F L s turns) hn hy
    unfold rbStrEqual at he
    rw [if_neg hn,if_neg (not_not.mpr hy)] at he
    exact he
  | array =>
    rw [dispatch_of_lookup (hf.finds ht (by decide))]
    exact comparison_of_fits ht rfl hfi fun _ _ => rfl
  | hash =>
    rw [dispatch_of_lookup (hf.finds ht (by decide))]
    apply comparison_of_fits ht rfl hfi
    intro hn hy
    have he := rbHashEqual_of_hash (L := L) (h := h) (eqCall P F L s turns) hn hy
    unfold rbHashEqual at he
    rw [if_neg hn,if_neg (not_not.mpr hy)] at he
    exact he
  | _ => rfl

lemma dispatch_eqq_of_lookup (he : lookup P s .eqq x=some .rbEqualImp)
    (heq : lookup P s .eq x=some code) : dispatch P F L s turns .eqq x [y] = if x=y then pure .qtrue
      else (fun v => ofBool (rtest v)) <$> exec P F L (eqCall P F L s turns) code x [y] := by
  rw [dispatch_of_lookup he,if_neg (by decide)]
  change ofBool <$> rbEqual _ x y=_
  unfold rbEqual
  split
  · rfl
  · rw [eqCall_of_lookup heq,Eval.map_map]

lemma dispatch_neq_of_lookup (hn : lookup P s .neq x=some .rbObjNotEqual)
    (he : lookup P s .eq x=some code) : dispatch P F L s turns .neq x [y] =
      (fun v => ofBool (!rtest v)) <$> exec P F L (eqCall P F L s turns) code x [y] := by
  rw [dispatch_of_lookup hn]
  change (fun v => ofBool !rtest v) <$> eqCall P F L s (turns+1) x y=_
  rw [eqCall_of_lookup he]

lemma rbVmFastEqq_eq_dispatch (hf : Found P s .eqq x) :
    rbVmFastEqq P F L s turns x y h=dispatch P F L s turns .eqq x [y] h := by
  unfold rbVmFastEqq
  cases ht : P.rbType x with
  | string =>
    rw [dispatch_eqq_of_lookup (hf.finds ht (by decide)) (hf.finds ht (by decide))]
    dsimp only [exec]
    rw [Eval.map_map]
    simp only [rtest_ofBool]
  | regexp | mod | klass =>
    rw [dispatch_of_lookup (hf.finds ht (by decide))]
    rfl
  | symbol =>
    rw [dispatch_eqq_of_lookup (hf.finds ht (by decide)) (hf.finds ht (by decide))]
    split
    · next hx => simp [hx,ofBool]
    · next hx => simp [exec]
  | _ => rfl

lemma exec_number {eqCall : Value D → Value D → Eval H (Value D)} {folded b : Bool}
    (hc : (standard .eq (P.rbType x)).map Prod.snd=some code)
    (hn : optimizedImmediateOp F folded .eq x y=some b) :
    exec P F L eqCall code x [y]=pure (ofBool b) := by
  cases x with
  | fixnum m =>
    obtain ⟨rfl⟩ : Code.fixEqual=code := Option.some.inj hc
    cases y with
    | fixnum n =>
      obtain ⟨rfl⟩ : decide (m=n)=b := Option.some.inj hn
      by_cases hm : m=n <;> simp [exec,fixEqual,hm,ofBool]
    | float d =>
      obtain ⟨rfl⟩ : F.eq (F.ofInt m) d=b := Option.some.inj hn
      simp [exec,fixEqual]
    | _ => simp [optimizedImmediateOp,toDouble] at hn
  | float d =>
    obtain ⟨rfl⟩ : Code.floEq=code := Option.some.inj hc
    cases y with
    | fixnum n =>
      obtain ⟨rfl⟩ : F.eq d (F.ofInt n)=b := Option.some.inj hn
      have hna : (!F.isNaN d && F.eq d (F.ofInt n))=F.eq d (F.ofInt n) := by
        cases hd : F.isNaN d with
        | false => rfl
        | true => rw [F.eq_nan_left _ hd]; rfl
      simp only [exec,floEq,hna]
    | float e =>
      obtain ⟨rfl⟩ : F.eq d e=b := Option.some.inj hn
      have hna : (!F.isNaN e && !F.isNaN d && F.eq d e)=F.eq d e := by
        cases hd : F.isNaN d with
        | true => rw [F.eq_nan_left _ hd,Bool.and_false]
        | false =>
          cases he : F.isNaN e with
          | true => rw [F.eq_nan_right _ he]; rfl
          | false => rfl
      simp only [exec,floEq,hna]
    | _ => simp [optimizedImmediateOp,toDouble] at hn
  | _ => simp [optimizedImmediateOp,toDouble] at hn

end Lookups

variable {D H : Type} [DecidableEq D] {P : Program} {F : Doubles D} {L : Library D H}
variable {s : State H} {turns : ℕ} {x y : Value D} {folded : Bool} {op : Op}

lemma compileComparison_eq_dispatch (hsy : P.rbType x=.symbol → s.core.redefined op=false →
      (pure (ofBool (if op=.neq then x ≠ y else x=y)) : Eval H (Value D)) s.heap =
        dispatch P F L s.core turns op x [y] s.heap)
    (hn : ∀ b, optimizedImmediateOp F folded op x y=some b → s.core.redefined op=false →
      (pure (ofBool b) : Eval H (Value D)) s.heap=dispatch P F L s.core turns op x [y] s.heap)
    (hfa : fastOp P F L s.core turns op x y s.heap = dispatch P F L s.core turns op x [y] s.heap) :
    compileComparison P F L s.core turns folded op x y s.heap =
      dispatch P F L s.core turns op x [y] s.heap := by
  unfold compileComparison
  by_cases hs : folded=true ∧ P.rbType x=.symbol ∧ P.rbType y=.symbol
  · rw [if_pos hs]
    cases hf : s.core.redefined op with
    | true => rfl
    | false => exact hsy hs.2.1 hf
  · rw [if_neg hs]
    cases hb : optimizedImmediateOp F folded op x y with
    | none => exact hfa
    | some b =>
      cases hf : s.core.redefined op with
      | false => exact hn b hb hf
      | true =>
        cases folded with
        | true => rfl
        | false => exact hfa

lemma compileComparison_of_redefined (hf : s.core.redefined op=true)
    (hfa : fastOp P F L s.core turns op x y s.heap = dispatch P F L s.core turns op x [y] s.heap) :
    compileComparison P F L s.core turns folded op x y s.heap =
      dispatch P F L s.core turns op x [y] s.heap := by
  apply compileComparison_eq_dispatch
  · intro _ hn
    simp [hf] at hn
  · intro _ _ hn
    simp [hf] at hn
  · exact hfa

lemma eq_respected (hk : guarded .eq (P.rbType x)=true ∧ s.core.redefined .eq=true ∨
      Found P s.core .eq x) (hfi : Fits P F L s folded .eq x [y]) :
    Respected P F L turns s folded .eq x [y] := by
  rcases hk with ⟨hg,hfl⟩ | hf
  · apply compileComparison_of_redefined hfl
    change rbVmFastEq P F L s.core turns x y s.heap=_
    unfold rbVmFastEq
    cases ht : P.rbType x <;> first | rfl | simp [guarded,ht] at hg
  · apply compileComparison_eq_dispatch
    · intro ht _
      rw [dispatch_of_lookup (hf.finds ht (by decide))]
      rfl
    · intro b hb _
      obtain ⟨code,hc,hl⟩ := hf.number (by decide) hb
      rw [dispatch_of_lookup hl,exec_number hc hb]
    · exact rbVmFastEq_eq_dispatch hf hfi

lemma eqq_respected (hk : guarded .eqq (P.rbType x)=true ∧ s.core.redefined .eqq=true ∨
      Found P s.core .eqq x) (hfi : Fits P F L s folded .eqq x [y]) :
    Respected P F L turns s folded .eqq x [y] := by
  rcases hk with ⟨hg,hfl⟩ | hf
  · apply compileComparison_of_redefined hfl
    change rbVmFastEqq P F L s.core turns x y s.heap=_
    unfold rbVmFastEqq
    cases ht : P.rbType x <;> first | rfl | simp [guarded,ht] at hg
  · apply compileComparison_eq_dispatch
    · intro ht
      rw [dispatch_eqq_of_lookup (hf.finds ht (by decide)) (hf.finds ht (by decide))]
      by_cases hx : x=y
      · simp [hx,ofBool]
      · simp [exec,hx]
    · intro b hb hfl
      obtain ⟨code,hc,heq⟩ := hf.number (by decide) hb
      have he : lookup P s.core .eqq x=some .rbEqualImp :=
        hf.inherited (by decide) (by decide) hb
      rw [number_eqq] at hb
      rw [dispatch_eqq_of_lookup he heq,exec_number hc hb]
      by_cases hx : x=y
      · subst hx
        have htr := number_self (fun d hd => hfi.2 d hd rfl hfl) hb
        rw [htr,if_pos rfl]
        rfl
      · rw [if_neg hx]
        simp
    · exact rbVmFastEqq_eq_dispatch hf

lemma neq_respected (hk : s.core.redefined .neq=true ∨ Found P s.core .neq x)
    (hfi : Fits P F L s folded .neq x [y]) : Respected P F L turns s folded .neq x [y] := by
  rcases hk with hfl | hf
  · exact compileComparison_of_redefined hfl rfl
  · apply compileComparison_eq_dispatch
    · intro ht
      rw [dispatch_neq_of_lookup (hf.finds ht (by decide)) (hf.finds ht (by decide))]
      simp [exec]
    · intro b hb hfl
      obtain ⟨code,hco,he⟩ := hf.number (by decide) hb
      have hne : lookup P s.core .neq x=some .rbObjNotEqual :=
        hf.inherited (by decide) (by decide) hb
      have hn := number_neq (fun c d hc hd => hfi c d hc hd hfl) hb
      rw [dispatch_neq_of_lookup hne he,exec_number hco hn]
      simp
    · rfl

lemma shift_respected (hk : s.core.redefined .shift=true ∨ Found P s.core .shift x) :
    Respected P F L turns s folded .shift x [y] := by
  change rbVmFastShift P F L s.core turns x y (s.core.redefined .shift) s.heap=_
  unfold rbVmFastShift
  rcases hk with hfl | hf
  · rw [hfl]
  · cases s.core.redefined .shift with
    | true => rfl
    | false =>
      cases ht : P.rbType x with
      | array | string =>
        rw [dispatch_of_lookup (hf.finds ht (by decide))]
        rfl
      | _ => rfl

lemma aref_respected (hk : s.core.redefined .aref=true ∨ Found P s.core .aref x) :
    Respected P F L turns s folded .aref x [y] := by
  change rbVmFastAref P F L s.core turns x y (s.core.redefined .aref) s.heap=_
  unfold rbVmFastAref
  by_cases ha : s.core.redefined .aref=false ∧ P.rbType x=.array
  · rcases hk with hfl | hf
    · simp [hfl] at ha
    · rw [if_pos ha,dispatch_of_lookup (hf.finds ha.2 (by decide))]
      cases y <;> rfl
  · rw [if_neg ha]

lemma aset_respected {i v : Value D} (hk : s.core.redefined .aset=true ∨ Found P s.core .aset x) :
    Respected P F L turns s folded .aset x [i,v] := by
  change rbVmFastAset P F L s.core turns x i v (s.core.redefined .aset) s.heap=_
  unfold rbVmFastAset
  rcases hk with hfl | hf
  · rw [hfl]
  · cases s.core.redefined .aset with
    | true => rfl
    | false =>
      cases ht : P.rbType x with
      | array =>
        cases i with
        | fixnum i =>
          rw [dispatch_of_lookup (hf.finds ht (by decide))]
          rfl
        | _ => rfl
      | _ => rfl

variable {args : List (Value D)}

omit [DecidableEq D] in
/-- What lookup finds for the operands that fit, while the methods of the library are in
place. -/
lemma nearest_boot_of_fits (ha : op=.eqq → args.length=1) (hf : Fits P F L s folded op x args) :
    ∀ op' ∈ relies op (P.rbType x),
      P.tree.nearest (P.boot op') (P.classOf x)=standard op' (P.rbType x) := by
  intro op' ho'
  have hso : ∀ op t, ∀ op' ∈ relies op t, (standard op' t).isSome := by
    intro op t
    cases op <;> cases t <;> decide
  by_cases hmo : P.rbType x=.mod ∨ P.rbType x=.klass
  · have hr : ∀ op t, t=.mod ∨ t=.klass → ∀ op' ∈ relies op t, op=.eqq ∧ op'=.eqq := by
      intro op t ht
      rcases ht with rfl | rfl <;> cases op <;> decide
    obtain ⟨rfl,rfl⟩ := hr op _ hmo op' ho'
    obtain ⟨y,rfl⟩ := List.length_eq_one_iff.mp (ha rfl)
    rw [hf.1 hmo]
    rcases hmo with hmo | hmo <;> rw [hmo] <;> rfl
  · obtain ⟨⟨c,code⟩,hs⟩ := Option.isSome_iff_exists.mp (hso op _ op' ho')
    rw [hs]
    exact nearest_boot P (fun hm => hmo (.inl hm)) (fun hk => hmo (.inr hk)) hs

omit [DecidableEq D] in
lemma Kept.found (hk : Kept P D s.core) (ha : op=.eqq → args.length=1)
    (hf : Fits P F L s folded op x args) :
    guarded op (P.rbType x)=true ∧ s.core.redefined op=true ∨ Found P s.core op x := by
  rcases hk op x with hfl | how
  · exact .inl hfl
  · refine .inr fun op' ho' => ?_
    unfold lookup
    rw [P.tree.nearest_congr_of_tried (how op' ho'),nearest_boot_of_fits ha hf op' ho']

lemma Kept.respected (hk : Kept P D s.core) (hf : Fits P F L s folded op x args) :
    Respected P F L turns s folded op x args := by
  match op,args with
  | .eq,[y] => exact eq_respected (hk.found (fun _ => rfl) hf) hf
  | .neq,[y] => exact neq_respected ((hk.found (fun _ => rfl) hf).imp_left And.right) hf
  | .eqq,[y] => exact eqq_respected (hk.found (fun _ => rfl) hf) hf
  | .shift,[y] => exact shift_respected ((hk.found (fun _ => rfl) hf).imp_left And.right)
  | .aref,[y] => exact aref_respected ((hk.found (fun _ => rfl) hf).imp_left And.right)
  | .aset,[i,v] =>
    have ha : Op.aset=.eqq → [i,v].length=1 := nofun
    exact aset_respected ((hk.found ha hf).imp_left And.right)
  | .eq,[] | .neq,[] | .eqq,[] | .shift,[] | .aref,[] | .aset,[] => rfl
  | .eq,_::_::_ | .neq,_::_::_ | .eqq,_::_::_ | .shift,_::_::_ | .aref,_::_::_ => rfl
  | .aset,[_] | .aset,_::_::_::_ => rfl

omit [DecidableEq D] in
lemma define_kept (hk : Kept P D s.core) {klass n : ℕ}
    (hh : Harmless P F L s (.define klass op n)) : Kept P D (addMethod P s.core klass op n) := by
  intro op' x
  have hf : s.core.redefined op'=true → (addMethod P s.core klass op n).redefined op'=true := by
    intro hs
    unfold addMethod
    dsimp only
    split
    · by_cases ho : op'=op
      · rw [ho,update_self]
      · rw [update_of_ne ho]
        exact hs
    · exact hs
  rcases hk op' x with ⟨hg,hs⟩ | how
  · exact .inl ⟨hg,hf hs⟩
  · by_cases hp : op ∈ relies op' (P.rbType x) ∧
        ∃ c ∈ klass::P.users klass, P.tree.Tried (P.boot op) (P.classOf x) c
    · obtain ⟨hg,hs⟩ := hh op' x hp.1 hp.2
      refine .inl ⟨hg,?_⟩
      rcases hs with hs | ⟨rfl,hr,hco,hi⟩
      · exact hf hs
      · unfold addMethod
        simp [hr,hco,hi]
    · refine .inr fun op'' ho'' c hc => ?_
      rw [← how op'' ho'' c hc]
      unfold addMethod
      dsimp only
      by_cases ho : op''=op
      · subst ho
        rw [update_self,if_neg fun hm => hp ⟨ho'',c,hm,hc⟩]
      · rw [update_of_ne ho]

lemma step_kept (s : State H) (a : Step D) (hk : Kept P D s.core)
    (hh : Harmless P F L s a) : Kept P D (step P F L turns s a).core := by
  cases a with
  | define klass op n => exact define_kept hk hh
  | compile | setRunning | evaluate => exact hk

theorem inlining_respects_overriding {D H : Type} [DecidableEq D] (P : Program) (F : Doubles D)
    (L : Library D H) (turns : ℕ) (h : H) (steps : List (Step D)) (folded : Bool) (op : Op)
    (x : Value D) (args : List (Value D))
    (hharm : Along (step P F L turns) (Harmless P F L) (start P h)
      (steps++[.evaluate folded op x args])) :
    Respected P F L turns (run (step P F L turns) (start P h) steps) folded op x args := by
  rw [along_append] at hharm
  have hs : Kept P D (start P h).core := fun _ _ => .inr fun _ _ _ _ => rfl
  have hk := run_invariant step_kept hs hharm.1
  exact hk.respected hharm.2.1

/-- A program with a subclass of `String`, an instance of it, a string and an array. -/
def names : Program where
  tree := ⟨fun k => if k=builtins then some nsMutableString else builtinTree.superclass k,by
    intro k c hc
    split at hc
    · next hk =>
        obtain ⟨rfl⟩ := hc
        rw [hk]
        decide
    · exact builtinTree.superclass_lt hc⟩
  tree_builtin k hk := if_neg hk.ne
  isMeta k := k=nsObjectMeta
  meta_below h := by
    obtain rfl := of_decide_eq_true h
    exact ClassTree.self_mem_chain _ _
  users _ := []
  klassOf o := if o=0 then builtins else if o=1 then cfString else rubyArray
  isModule _ := false
  header _ := .other
  header_bignum h := nomatch h
  header_regexp h := nomatch h
  unboxed o := by
    split
    · decide
    · split <;> decide
  symbol_final {o} h := by
    split at h
    · exact absurd h (by decide)
    · split at h
      · exact absurd h (by decide)
      · exact absurd h (by decide)
  library _ _ := none
  library_apart _ _ _ _ _ _ _ := rfl

def noDoubles : Doubles Unit where
  eq _ _ := true
  isNaN _ := false
  ofInt _ := ()
  eq_nan_left _ h := nomatch h
  eq_nan_right _ _ h := nomatch h
  eq_self _ := rfl

/-- The objects are their own contents, and every method returns `true`. -/
def contents : Library Unit Unit where
  body _ _ _ := pure .qtrue
  methodMissing _ _ _ := .raise (.raised 0)
  respondTo _ _ := pure false
  characters x _ := match x with
    | .obj o => [o]
    | _ => []
  isPure _ _ := true
  hashSize _ _ := 0
  cfEqualHash x y := pure (x=y)
  cfEqualHash_size h := (h rfl).elim
  rbAryEqual x y := pure (x=y)
  rbBigEq x y := pure (x=y)
  rbBig2Dbl _ _ := ()
  rbRegEqq _ _ := pure .qfalse
  rbObjIsKindOf _ _ := pure false
  rbAryPush _ _ := pure ()
  rbAryEntry _ _ := pure .qnil
  rbArySubseq _ _ := pure .qnil
  rbAryStore _ _ _ := pure ()
  rbArySplice _ _ _ := pure ()
  rbStrConcat _ _ := pure ()

/-- A subclass of `String` defines `==`; the operator still compares the characters. -/
theorem subclass_method_is_ignored : ¬Respected names noDoubles contents 0
      (run (step names noDoubles contents 0) (start names ())
        [.setRunning true,.compile .eq,.define builtins .eq 0]) false .eq (.obj 0) [.obj 1] := by
  unfold Respected
  decide

/-- `Array#<<` is redefined while the program runs; the flag is set. -/
theorem redefined_shift_is_dispatched : Respected names noDoubles contents 0
      (run (step names noDoubles contents 0) (start names ())
        [.setRunning true,.compile .shift,.define nsMutableArray .shift 0])
      false .shift (.obj 2) [.qnil] := by
  apply inlining_respects_overriding
  refine ⟨trivial,trivial,?_,trivial,trivial⟩
  intro op' x ho' _
  have hr : ∀ op t, Op.shift ∈ relies op t → op=.shift := by
    intro op t
    cases op <;> cases t <;> decide
  obtain rfl := hr op' _ ho'
  exact ⟨rfl,.inr ⟨rfl,rfl,rfl,rfl⟩⟩
end MacRuby.InlineOperators
