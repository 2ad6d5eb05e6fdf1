import MacRuby.ClassTree

/-!
# Built-in classes, types and operators

`TYPE` tells the type of an object from its class: the classes of Core
Foundation, metaclasses and `Symbol` are compared directly, and a class that is
created below `Array`, `Hash` or `String` is flagged as such, so that its
instances have the type of the built-in class. Which method an operator has is
a matter of the class only. Here both are stated together, and as long as the
library's own methods are in place they agree: an object of a built-in type
inherits the operators of that type.
-/
namespace MacRuby.BuiltinClasses

@[match_pattern] abbrev nsObject : ℕ := 0
@[match_pattern] abbrev basicObject : ℕ := 1
@[match_pattern] abbrev nsObjectMeta : ℕ := 2
@[match_pattern] abbrev nsString : ℕ := 3
@[match_pattern] abbrev nsMutableString : ℕ := 4
@[match_pattern] abbrev cfString : ℕ := 5
@[match_pattern] abbrev symbol : ℕ := 6
@[match_pattern] abbrev nsArray : ℕ := 7
@[match_pattern] abbrev nsMutableArray : ℕ := 8
@[match_pattern] abbrev cfArray : ℕ := 9
@[match_pattern] abbrev rubyArray : ℕ := 10
@[match_pattern] abbrev nsHash : ℕ := 11
@[match_pattern] abbrev nsMutableHash : ℕ := 12
@[match_pattern] abbrev cfHash : ℕ := 13
@[match_pattern] abbrev nsValue : ℕ := 14
@[match_pattern] abbrev nsNumber : ℕ := 15
@[match_pattern] abbrev numeric : ℕ := 16
@[match_pattern] abbrev integer : ℕ := 17
@[match_pattern] abbrev fixnum : ℕ := 18
@[match_pattern] abbrev bignum : ℕ := 19
@[match_pattern] abbrev float : ℕ := 20
@[match_pattern] abbrev regexp : ℕ := 21
@[match_pattern] abbrev moduleClass : ℕ := 22
@[match_pattern] abbrev classClass : ℕ := 23
@[match_pattern] abbrev trueClass : ℕ := 24
@[match_pattern] abbrev falseClass : ℕ := 25
@[match_pattern] abbrev nilClass : ℕ := 26

def supers : List (Option ℕ) :=
  [none,none,some nsObject,some nsObject,some nsString,some nsMutableString,some nsString,
    some nsObject,some nsArray,some nsMutableArray,some nsMutableArray,
    some nsObject,some nsHash,some nsMutableHash,
    some nsObject,some nsValue,some nsNumber,some numeric,some integer,some integer,some numeric,
    some nsObject,some nsObject,some moduleClass,some nsObject,some nsObject,some nsObject]

/-- How many built-in classes there are; all other classes have larger numbers. -/
def builtins : ℕ := supers.length

def builtinTree : ClassTree where
  superclass k := (supers[k]?).join
  superclass_lt := by
    have hall : ∀ k < builtins, ∀ s, (supers[k]?).join=some s → s < k := by decide
    intro k s h
    by_cases hk : k < builtins
    · exact hall k hk s h
    · rw [List.getElem?_eq_none (Nat.not_lt.mp hk)] at h
      simp at h

/-- The operators that the compiler inlines by way of a function for the operator. -/
inductive Op
  | eq
  | neq
  | eqq
  | shift
  | aref
  | aset
deriving DecidableEq, Repr

inductive Ty
  | fixnum
  | float
  | symbol
  | string
  | array
  | hash
  | bignum
  | regexp
  | mod
  | klass
  | other
deriving DecidableEq, Repr

inductive Header
  | bignum
  | regexp
  | other
deriving DecidableEq, Repr

def Header.type : Header → Ty
  | .bignum => .bignum
  | .regexp => .regexp
  | .other => .other

/-- Ruby values; `D` is the type of the machine's doubles. -/
inductive Value (D : Type)
  | fixnum (n : ℤ)
  | float (d : D)
  | qtrue
  | qfalse
  | qnil
  | obj (o : ℕ)
deriving DecidableEq, Repr

/-- The methods of the library that the built-in types have for the operators, by the
names of their C functions, and all other methods. -/
inductive Code
  | rbObjEqual
  | rbObjNotEqual
  | rbEqualImp
  | rbModEqq
  | symEqual
  | rbStrEqualImp
  | rbStrConcatImp
  | rbAryEqualImp
  | rbAryPushImp
  | rbAryAref
  | rbAryAset
  | rbHashEqual
  | fixEqual
  | rbBigEqImp
  | floEq
  | rbRegEqq
  | ruby (n : ℕ)
deriving DecidableEq, Repr

/-- The operators that the `Init` functions define on the built-in classes, as far as the
built-in types use them. The metaclass of `NSObject` gets the methods of `Module`. -/
def initMethods : Op → ℕ → Option Code
  | .eq,nsObject => some .rbObjEqual
  | .eq,basicObject => some .rbObjEqual
  | .eq,nsObjectMeta => some .rbObjEqual
  | .eq,nsString => some .rbStrEqualImp
  | .eq,symbol => some .symEqual
  | .eq,nsArray => some .rbAryEqualImp
  | .eq,nsHash => some .rbHashEqual
  | .eq,fixnum => some .fixEqual
  | .eq,bignum => some .rbBigEqImp
  | .eq,float => some .floEq
  | .eq,moduleClass => some .rbObjEqual
  | .neq,nsObject => some .rbObjNotEqual
  | .neq,basicObject => some .rbObjNotEqual
  | .eqq,nsObject => some .rbEqualImp
  | .eqq,nsObjectMeta => some .rbModEqq
  | .eqq,regexp => some .rbRegEqq
  | .eqq,moduleClass => some .rbModEqq
  | .shift,nsString => some .rbStrConcatImp
  | .shift,nsArray => some .rbAryPushImp
  | .aref,nsArray => some .rbAryAref
  | .aset,nsArray => some .rbAryAset
  | _,_ => none

def base : Ty → Option ℕ
  | .fixnum => some BuiltinClasses.fixnum
  | .float => some BuiltinClasses.float
  | .symbol => some BuiltinClasses.symbol
  | .string => some nsString
  | .array => some nsArray
  | .hash => some nsHash
  | .bignum => some BuiltinClasses.bignum
  | .regexp => some BuiltinClasses.regexp
  | .mod => some nsObjectMeta
  | .klass => some nsObjectMeta
  | .other => none

/-- The method that a type has for an operator on which inlining relies, with its class. -/
def standard : Op → Ty → Option (ℕ × Code)
  | .eq,.fixnum => some (BuiltinClasses.fixnum,.fixEqual)
  | .eq,.float => some (BuiltinClasses.float,.floEq)
  | .eq,.symbol => some (BuiltinClasses.symbol,.symEqual)
  | .eq,.string => some (nsString,.rbStrEqualImp)
  | .eq,.array => some (nsArray,.rbAryEqualImp)
  | .eq,.hash => some (nsHash,.rbHashEqual)
  | .eq,.bignum => some (BuiltinClasses.bignum,.rbBigEqImp)
  | .neq,.fixnum => some (nsObject,.rbObjNotEqual)
  | .neq,.float => some (nsObject,.rbObjNotEqual)
  | .neq,.symbol => some (nsObject,.rbObjNotEqual)
  | .eqq,.fixnum => some (nsObject,.rbEqualImp)
  | .eqq,.float => some (nsObject,.rbEqualImp)
  | .eqq,.symbol => some (nsObject,.rbEqualImp)
  | .eqq,.string => some (nsObject,.rbEqualImp)
  | .eqq,.regexp => some (BuiltinClasses.regexp,.rbRegEqq)
  | .eqq,.mod => some (nsObjectMeta,.rbModEqq)
  | .eqq,.klass => some (nsObjectMeta,.rbModEqq)
  | .shift,.string => some (nsString,.rbStrConcatImp)
  | .shift,.array => some (nsArray,.rbAryPushImp)
  | .aref,.array => some (nsArray,.rbAryAref)
  | .aset,.array => some (nsArray,.rbAryAset)
  | _,_ => none

/-- The classes and objects of a program; `users` are the classes that include a module.
The fields that are not data say what Foundation and the `Init` functions set up: how
the built-in classes inherit, where metaclasses, Bignums and regular expressions belong,
that `Symbol` has no instances but its own, that no boxed Fixnum is seen, and that no
other method of the library is between the objects of a built-in type and the method of
that type. -/
structure Program where
  tree : ClassTree
  tree_builtin : ∀ k < builtins, tree.superclass k=builtinTree.superclass k
  isMeta : ℕ → Bool
  meta_below : ∀ {k}, isMeta k=true → nsObjectMeta ∈ tree.chain k
  users : ℕ → List ℕ
  klassOf : ℕ → ℕ
  isModule : ℕ → Bool
  header : ℕ → Header
  header_bignum : ∀ {o}, header o=.bignum → bignum ∈ tree.chain (klassOf o)
  header_regexp : ∀ {o}, header o=.regexp → regexp ∈ tree.chain (klassOf o)
  unboxed : ∀ o, klassOf o ≠ fixnum
  symbol_final : ∀ {o}, symbol ∈ tree.chain (klassOf o) → klassOf o=symbol
  library : Op → ℕ → Option ℕ
  library_apart : ∀ {op t b c code d}, t ≠ .mod → t ≠ .klass → base t=some b →
    standard op t=some (c,code) → b ∈ tree.chain d ∨ d ∈ tree.chain b → c ∈ tree.chain d →
    d ≠ c → library op d=none

namespace Program
variable (P : Program) {D : Type}

/-- `rb_objc_install_primitives`, for a class that is created below another. -/
def installPrimitives (k : ℕ) : Option Ty :=
  (P.tree.chain k).tail.findSome? fun c =>
    if c=rubyArray ∨ c=nsArray then some .array
    else if c=nsHash then some .hash
    else if c=nsString then some .string
    else none

def subclassFlag (k : ℕ) : Option Ty := if k < builtins then none else P.installPrimitives k

def classOf : Value D → ℕ
  | .fixnum _ => BuiltinClasses.fixnum
  | .float _ => BuiltinClasses.float
  | .qtrue => trueClass
  | .qfalse => falseClass
  | .qnil => nilClass
  | .obj o => P.klassOf o

def rbType : Value D → Ty
  | .fixnum _ => .fixnum
  | .float _ => .float
  | .qtrue => .other
  | .qfalse => .other
  | .qnil => .other
  | .obj o =>
    let k := P.klassOf o
    if k=cfString then .string
    else if k=cfArray ∨ k=rubyArray then .array
    else if k=cfHash then .hash
    else if P.isMeta k then (if P.isModule o then .mod else .klass)
    else if k=BuiltinClasses.symbol then .symbol
    else if k=BuiltinClasses.fixnum then .fixnum
    else (P.subclassFlag k).getD (P.header o).type

def boot (op : Op) (k : ℕ) : Option Code := (initMethods op k).or ((P.library op k).map .ruby)

end Program

variable (P : Program) {D : Type} {k : ℕ}

lemma chain_builtin (hk : k < builtins) : P.tree.chain k=builtinTree.chain k :=
  ClassTree.chain_congr P.tree_builtin hk

lemma mem_chain_builtin {c l : ℕ} (hk : k < builtins) (hc : c ∈ builtinTree.chain k)
    (hkl : k ∈ P.tree.chain l) : c ∈ P.tree.chain l := by
  rw [← chain_builtin P hk] at hc
  exact P.tree.chain_trans hc hkl

lemma base_of_installPrimitives {t : Ty} (h : P.installPrimitives k=some t) :
    ∃ b, base t=some b ∧ b ∈ P.tree.chain k := by
  obtain ⟨c,hc,hf⟩ := List.exists_of_findSome?_eq_some h
  replace hc := List.mem_of_mem_tail hc
  split_ifs at hf with ha hh hs
  · obtain ⟨rfl⟩ := hf
    rcases ha with rfl | rfl
    · exact ⟨nsArray,rfl,mem_chain_builtin P (by decide) (by decide) hc⟩
    · exact ⟨nsArray,rfl,hc⟩
  · obtain ⟨rfl⟩ := hf
    exact ⟨nsHash,rfl,hh ▸ hc⟩
  · obtain ⟨rfl⟩ := hf
    exact ⟨nsString,rfl,hs ▸ hc⟩

lemma base_mem_chain {v : Value D} {b : ℕ} (h : base (P.rbType v)=some b) :
    b ∈ P.tree.chain (P.classOf v) := by
  cases v with
  | fixnum | float => obtain ⟨rfl⟩ := h; exact P.tree.self_mem_chain _
  | qtrue | qfalse | qnil => simp [Program.rbType,base] at h
  | obj o =>
    unfold Program.rbType at h
    unfold Program.classOf
    dsimp only at h ⊢
    split_ifs at h with hs ha hha hm hmo hsy hfi
    · obtain ⟨rfl⟩ := h
      rw [hs,chain_builtin P (by decide)]
      decide
    · obtain ⟨rfl⟩ := h
      rcases ha with ha | ha
      all_goals
        rw [ha,chain_builtin P (by decide)]
        decide
    · obtain ⟨rfl⟩ := h
      rw [hha,chain_builtin P (by decide)]
      decide
    · obtain ⟨rfl⟩ := h
      exact P.meta_below hm
    · obtain ⟨rfl⟩ := h
      exact P.meta_below hm
    · obtain ⟨rfl⟩ := h
      rw [hsy]
      exact P.tree.self_mem_chain _
    · exact (P.unboxed o hfi).elim
    · unfold Program.subclassFlag at h
      split_ifs at h with hbu
      · cases hh : P.header o with
        | bignum => rw [hh] at h; obtain ⟨rfl⟩ := h; exact P.header_bignum hh
        | regexp => rw [hh] at h; obtain ⟨rfl⟩ := h; exact P.header_regexp hh
        | other => rw [hh] at h; simp [Header.type,base] at h
      · cases hf : P.installPrimitives (P.klassOf o) with
        | none =>
          rw [hf] at h
          cases hh : P.header o with
          | bignum => rw [hh] at h; obtain ⟨rfl⟩ := h; exact P.header_bignum hh
          | regexp => rw [hh] at h; obtain ⟨rfl⟩ := h; exact P.header_regexp hh
          | other => rw [hh] at h; simp [Header.type,base] at h
        | some t =>
          rw [hf] at h
          obtain ⟨b',hb',hme⟩ := base_of_installPrimitives P hf
          obtain rfl : b'=b := Option.some.inj (hb'.symm.trans h)
          exact hme

variable {op : Op}

lemma initMethods_of_le {d : ℕ} (h : builtins ≤ d) : initMethods op d=none := by
  have hl : builtins=27 := rfl
  unfold initMethods
  split <;> first | rfl | omega

set_option synthInstance.maxSize 1000 in
lemma initMethods_between (op : Op) (t : Ty) : ∀ d < builtins, ∀ p ∈ (standard op t).toList,
    ((base t).any fun b => b ∈ builtinTree.chain d ∨ d ∈ builtinTree.chain b) →
      p.1 ∈ builtinTree.chain d → d ≠ p.1 → (t=.string → d ≠ symbol) → initMethods op d=none := by
  cases op <;> cases t <;> decide

lemma initMethods_standard (op : Op) (t : Ty) :
    ∀ p ∈ (standard op t).toList, initMethods op p.1=some p.2 := by
  cases op <;> cases t <;> decide

lemma standard_above_base (op : Op) (t : Ty) : ∀ p ∈ (standard op t).toList,
    (base t).any fun b => b < builtins ∧ p.1 ∈ builtinTree.chain b := by
  cases op <;> cases t <;> decide

/-- While the methods of the library are in place, lookup finds the method of the type.
Only classes and modules can have another one, such as `SystemCallError.===`. -/
lemma nearest_boot {v : Value D} {c : ℕ} {code : Code} (hmo : P.rbType v ≠ .mod)
    (hk : P.rbType v ≠ .klass) (h : standard op (P.rbType v)=some (c,code)) :
    P.tree.nearest (P.boot op) (P.classOf v)=some (c,code) := by
  have hp : (c,code) ∈ (standard op (P.rbType v)).toList := by simp [h]
  obtain ⟨b,hba,hb,hcb⟩ : ∃ b, base (P.rbType v)=some b ∧ b < builtins ∧
      c ∈ builtinTree.chain b := by
    simpa [Option.any_eq_true] using standard_above_base op _ _ hp
  have hbv := base_mem_chain P hba
  rw [ClassTree.nearest_eq_some]
  refine ⟨mem_chain_builtin P hb hcb hbv,?_,?_⟩
  · unfold Program.boot
    rw [initMethods_standard op _ _ hp]
    rfl
  · intro d hd hc hn
    have hsi := P.tree.chain_total hbv hd
    unfold Program.boot
    rw [P.library_apart hmo hk hba h hsi hc hn,Option.map_none,Option.or_none]
    by_cases hdb : d < builtins
    · -- Strings are not instances of `Symbol`, which inherits from `String`.
      have hsy : P.rbType v=.string → d ≠ symbol := by
        rintro hs rfl
        cases v with
        | obj o =>
          have hf := P.symbol_final hd
          unfold Program.rbType at hs
          dsimp only at hs
          rw [hf] at hs
          by_cases hm : P.isMeta symbol=true
          · have hme := P.meta_below hm
            rw [chain_builtin P (by decide)] at hme
            exact absurd hme (by decide)
          · rw [if_neg hm] at hs
            cases hs
        | _ => simp [Program.rbType] at hs
      rw [chain_builtin P hdb,chain_builtin P hb] at hsi
      rw [chain_builtin P hdb] at hc
      exact initMethods_between op _ d hdb _ hp (by simp [hba,hsi]) hc hn hsy
    · exact initMethods_of_le (not_lt.mp hdb)

end MacRuby.BuiltinClasses
