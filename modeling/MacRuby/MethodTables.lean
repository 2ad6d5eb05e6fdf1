import MacRuby.ClassTree
import MacRuby.SortedMap

/-!
# Method tables

For each selector the runtime has the methods that classes implement themselves,
and the core has the sources of methods that are not compiled yet and one dispatch
cache. The state of the core is a record per selector, together with the modules
that classes include.

A method of the runtime can have a Ruby method node, which stays when the
implementation is replaced. A lookup goes up the superclasses over implemented
methods only, and asks for the sources of the selector when it finds nothing.

Classes and modules are numbers. A method name has two selectors, one that ends
with a colon for calls with arguments and one without.
-/
namespace MacRuby.MethodTables
open Function

abbrev SEL := List Char

instance : LawfulBEq SEL := inferInstanceAs (LawfulBEq (List Char))

/-- What `snprintf` and `strlcpy` leave in a buffer of 100 bytes. -/
def buf100 (s : SEL) : SEL := s.take 99

/-- A `genuine_selector` ends with a colon. -/
def genuine (sel : SEL) : Bool := sel.getLast? == some ':'

def midToSel (mid : SEL) (arity : ℕ) : SEL :=
  if ¬genuine mid ∧ 0 < arity then buf100 (mid++[':']) else mid

/-- `rb_vm_arity_t`; no `max` is `-1`. -/
structure Arity where
  min : ℕ
  max : Option ℕ
  real : ℕ
deriving DecidableEq, Repr

/-- `rb_vm_node_arity` of a method written in Ruby. -/
def rbVmNodeArity (req opt : ℕ) (rest : Bool) : Arity :=
  if rest then ⟨req,none,req+opt+1⟩ else ⟨req,some (req+opt),req+opt⟩

/-- The check at the start of `__rb_vm_ruby_dispatch`. -/
def Arity.admits (a : Arity) (argc : ℕ) : Bool :=
  decide (a.min ≤ argc) && a.max.all fun max => decide (argc ≤ max)

/-- The selectors under which a definition is entered: the one given, and the other
one of the method name if the arity allows calls of both kinds. -/
def definedSels (sel : SEL) (a : Arity) : List SEL :=
  if ¬genuine sel ∧ a.max ≠ some a.min then [sel,buf100 (sel++[':'])]
  else if genuine sel ∧ a.min=0 then [sel,(buf100 sel).dropLast]
  else [sel]

/-- `rb_vm_method_node_t`. -/
structure Node where
  rubyImp : ℕ
  arity : Arity
deriving DecidableEq, Repr

/-- An implementation; `undefined` is `undefined_imp`. -/
inductive Imp
  | undefined
  | code (imp : ℕ)
deriving DecidableEq, Repr

/-- A `Method` of the runtime with its entry in `ruby_methods`. -/
structure Method where
  imp : Imp
  node : Option Node
deriving DecidableEq, Repr

/-- What made a dispatch fill a cache: the method of the selector itself, or one of
the detours, for a receiver and a number of arguments. The code does not keep it. -/
inductive Filler
  | found
  | detour (self argc : ℕ)
deriving DecidableEq, Repr

/-- `struct mcache`. The node of a Ruby call is the one of a method of this selector,
given by the class that implements it. -/
inductive MCache
  | empty
  | rcall (klass owner : ℕ)
  | ocall (klass imp : ℕ) (filler : Filler)
  | fcall (function : ℕ)
deriving DecidableEq, Repr

/-- What is kept for one selector. `sourceSels` is how often a class has the selector
in `method_source_sels`. -/
structure Table where
  own : ℕ → Option Method
  sources : SortedMap ℕ Node
  sourceSels : ℕ → ℕ
  mcache : MCache

namespace Table
variable (tree : ClassTree) (users : ℕ → List ℕ) (t : Table)

def classReplaceMethod (klass : ℕ) (imp : Imp) : Table :=
  {t with own := update t.own klass (some ⟨imp,(t.own klass).bind Method.node⟩)}

/-- `class_replaceMethod`, and the node of the method is written. -/
def put (klass : ℕ) (m : Method) : Table := {t with own := update t.own klass (some m)}

/-- `RoxorCore::add_method`; `users` are the classes that include a module. -/
def addMethod (klass : ℕ) (imp : Imp) (n : Node) : Table :=
  (users klass).foldl (fun t c => t.put c ⟨imp,some n⟩)
    {t.put klass ⟨imp,some n⟩ with mcache := .empty}

/-- `RoxorCore::resolve_method`. -/
def resolveMethod (klass : ℕ) (n : Node) : Table :=
  addMethod users {t with
    sourceSels := update t.sourceSels klass (t.sourceSels klass-1)}
    klass (.code n.rubyImp) n

/-- One round of the loop of `resolve_methods`. -/
def resolveEntry (klass : ℕ) (t : Table) (e : ℕ × Node) : Table :=
  if klass ∈ tree.chain e.1 then
    {resolveMethod users t e.1 e.2 with sources := t.sources.erase e.1}
  else t

/-- `RoxorCore::resolve_methods`: the sources of a class and its subclasses. -/
def resolveMethods (klass : ℕ) : Table :=
  t.sources.entries.foldl (resolveEntry tree users klass) t

/-- The class from which on `rb_vm_resolve_method` compiles. -/
def sourceClass (klass : ℕ) : Option ℕ := (tree.nearest t.sources.find klass).map Prod.fst

/-- The method that the runtime finds, with the class that implements it. -/
def visible (klass : ℕ) : Option (ℕ × Method) := tree.nearest t.own klass

/-- The table after a lookup by `class_getInstanceMethod`, which asks
`rb_vm_resolve_method` when there is no method; what it returns is then visible. -/
def lookup (klass : ℕ) : Table :=
  match t.visible tree klass with
  | some _ => t
  | none => match t.sourceClass tree klass with
      | none => t
      | some c => resolveMethods tree users t c

/-- `RoxorCore::prepare_method`. -/
def keepSource (klass : ℕ) (n : Node) : Table :=
  {t with
    sources := t.sources.assign klass n
    sourceSels := if (t.sources.find klass).isSome then t.sourceSels
      else update t.sourceSels klass (t.sourceSels klass+1)}

/-- The part of `prepare_method` for one class and selector. -/
def prepare (klass : ℕ) (n : Node) : Table :=
  let t' := lookup tree users t klass
  match t'.visible tree klass with
  | some _ => resolveMethod users t' klass n
  | none => t'.keepSource klass n

/-- The part of `__rb_vm_define_method` for one selector. -/
def define (klass : ℕ) (n : Node) : Table :=
  addMethod users (lookup tree users t klass) klass (.code n.rubyImp) n

/-- The first loop of `copy_methods`: a compiled Ruby method. -/
def copyCompiled (fromClass toClass : ℕ) : Table :=
  match t.own fromClass with
  | some ⟨imp,some n⟩ => resolveMethods tree users (t.put toClass ⟨imp,some n⟩) toClass
  | _ => t

/-- The second loop of `copy_methods`: a source. -/
def copySource (fromClass toClass : ℕ) : Table :=
  match t.sourceSels fromClass,t.sources.find fromClass with
  | count+1,some n => {t with
      sources := t.sources.insert toClass n
      sourceSels := update t.sourceSels toClass (t.sourceSels toClass+(count+1))}
  | _,_ => t

/-- `RoxorCore::copy_methods`, for one selector. -/
def copyMethods (fromClass toClass : ℕ) : Table :=
  copySource (copyCompiled tree users t fromClass toClass) fromClass toClass

section Frames
variable {tree users t} {klass fromClass : ℕ} {m : Method} {imp : Imp} {n : Node}

@[simp] lemma put_sources (klass : ℕ) (m : Method) : (t.put klass m).sources=t.sources := rfl

@[simp] lemma own_put_self (klass : ℕ) (m : Method) : (t.put klass m).own klass=some m :=
  update_self _ _ _

lemma own_put_of_ne {c : ℕ} (h : c ≠ klass) (m : Method) :
    (t.put klass m).own c=t.own c := update_of_ne h _ _

lemma put_eq_self (h : t.own klass=some m) : t.put klass m=t := by
  unfold put
  rw [← h,update_eq_self]

lemma foldl_put_eq_self {cs : List ℕ} (h : ∀ c ∈ cs, t.own c=some m) :
    cs.foldl (fun t c => t.put c m) t=t := by
  induction cs with
  | nil => rfl
  | cons c cs ih =>
    rw [List.foldl_cons,put_eq_self (h c List.mem_cons_self)]
    exact ih fun d hd => h d (List.mem_cons_of_mem c hd)

lemma addMethod_of_users (h : ∀ c ∈ users klass, t.own c=some ⟨imp,some n⟩) :
    addMethod users t klass imp n={t.put klass ⟨imp,some n⟩ with mcache := .empty} := by
  apply foldl_put_eq_self
  intro c hc
  by_cases hck : c=klass
  · rw [hck]
    exact own_put_self klass _
  · exact (own_put_of_ne hck _).trans (h c hc)

lemma own_foldl_put (cs : List ℕ) (m : Method) (c : ℕ) :
    (cs.foldl (fun t c => t.put c m) t).own c=if c ∈ cs then some m else t.own c := by
  induction cs generalizing t with
  | nil => simp
  | cons d cs ih =>
    rw [List.foldl_cons,ih]
    by_cases hc : c ∈ cs
    · simp [hc]
    · by_cases hcd : c=d
      · simp [hcd]
      · simp [hcd,own_put_of_ne hcd]

lemma foldl_put_sources (cs : List ℕ) (m : Method) :
    (cs.foldl (fun t c => t.put c m) t).sources=t.sources ∧
      (cs.foldl (fun t c => t.put c m) t).sourceSels=t.sourceSels ∧
      (cs.foldl (fun t c => t.put c m) t).mcache=t.mcache := by
  induction cs generalizing t with
  | nil => exact ⟨rfl,rfl,rfl⟩
  | cons d cs ih => exact ih

lemma own_addMethod (klass : ℕ) (imp : Imp) (n : Node) (c : ℕ) :
    (addMethod users t klass imp n).own c =
      if c ∈ klass::users klass then some ⟨imp,some n⟩ else t.own c := by
  rw [addMethod,own_foldl_put]
  by_cases hc : c ∈ users klass
  · simp [hc]
  · by_cases hck : c=klass
    · simp [hck]
    · simp [hck,own_put_of_ne hck]

@[simp] lemma addMethod_sources (klass : ℕ) (imp : Imp) (n : Node) :
    (addMethod users t klass imp n).sources=t.sources := (foldl_put_sources _ _).1

@[simp] lemma addMethod_sourceSels (klass : ℕ) (imp : Imp) (n : Node) :
    (addMethod users t klass imp n).sourceSels=t.sourceSels := (foldl_put_sources _ _).2.1

@[simp] lemma addMethod_mcache (klass : ℕ) (imp : Imp) (n : Node) :
    (addMethod users t klass imp n).mcache=.empty := (foldl_put_sources _ _).2.2

lemma resolveMethods_of_empty (h : t.sources=∅) (klass : ℕ) :
    resolveMethods tree users t klass=t := by
  rw [resolveMethods,h]
  rfl

lemma lookup_of_empty (h : t.sources=∅) (klass : ℕ) : t.lookup tree users klass=t := by
  have hs : t.sourceClass tree klass=none := by
    rw [sourceClass,Option.map_eq_none_iff,ClassTree.nearest_eq_none,h]
    exact fun c _ => SortedMap.find_empty c
  rw [lookup,hs]
  cases t.visible tree klass <;> rfl

lemma copySource_of_none (h : t.sources.find fromClass=none) (toClass : ℕ) :
    t.copySource fromClass toClass=t := by
  unfold copySource
  rw [h]
  cases t.sourceSels fromClass <;> rfl

lemma copyMethods_of_ruby (h : t.sources=∅)
    (ho : t.own fromClass=some ⟨imp,some n⟩) (toClass : ℕ) :
    t.copyMethods tree users fromClass toClass=t.put toClass ⟨imp,some n⟩ := by
  unfold copyMethods copyCompiled
  rw [ho]
  dsimp only
  have he : (t.put toClass ⟨imp,some n⟩).sources=∅ := h
  rw [resolveMethods_of_empty he,copySource_of_none]
  rw [he]
  exact SortedMap.find_empty fromClass

lemma copyMethods_of_not_ruby (h : t.sources.find fromClass=none)
    (ho : ∀ imp n, t.own fromClass ≠ some ⟨imp,some n⟩) (toClass : ℕ) :
    t.copyMethods tree users fromClass toClass=t := by
  have hc : t.copyCompiled tree users fromClass toClass=t := by
    unfold copyCompiled
    split
    · next imp n hf => exact (ho imp n hf).elim
    · rfl
  rw [copyMethods,hc,copySource_of_none h]

end Frames
end Table

/-- What does not change during a run. `native` are the methods that are there from the
start; `canForward` is `can_forwardInvocation` and `bsFunction` is
`find_bs_function`. -/
structure Program where
  tree : ClassTree
  isModule : ℕ → Bool
  native : SEL → ℕ → Option ℕ
  canForward : ℕ → SEL → Bool
  objcMsgSend : ℕ
  bsFunction : SEL → Option ℕ
  stack : ℕ
  stack_pos : 0 < stack

/-- The tables, and for each class the modules that it includes and the classes
that include it. -/
structure Core where
  includedModules : ℕ → List ℕ
  includedInClasses : ℕ → List ℕ
  table : SEL → Table

def start (P : Program) : Core :=
  ⟨fun _ => [],fun _ => [],fun sel =>
    ⟨fun k => (P.native sel k).map fun imp => ⟨.code imp,none⟩,∅,fun _ => 0,.empty⟩⟩

namespace Core
variable (P : Program) (s : Core)

def setTable (sel : SEL) (t : Table) : Core := {s with table := update s.table sel t}

@[simp] lemma table_setTable_self (sel : SEL) (t : Table) : (s.setTable sel t).table sel=t :=
  update_self _ _ _

lemma table_setTable_of_ne {sel sel' : SEL} (h : sel' ≠ sel) (t : Table) :
    (s.setTable sel t).table sel'=s.table sel' := update_of_ne h _ _

/-- `class_getInstanceMethod`. -/
def lookup (klass : ℕ) (sel : SEL) : Core :=
  s.setTable sel ((s.table sel).lookup P.tree s.includedInClasses klass)

/-- What `class_getInstanceMethod` returned. -/
def visible (klass : ℕ) (sel : SEL) : Option (ℕ × Method) := (s.table sel).visible P.tree klass

def rbIncludeModule (klass mod : ℕ) : Core :=
  if ¬P.isModule mod ∨ mod ∈ s.includedModules klass then s
  else
    let users := update s.includedInClasses mod (s.includedInClasses mod++[klass])
    { includedModules := update s.includedModules klass (mod::s.includedModules klass)
      includedInClasses := users
      table := fun sel => (s.table sel).copyMethods P.tree users mod klass }

/-- One selector of `__rb_vm_define_method`. -/
def defineEntry (klass : ℕ) (n : Node) (s : Core) (sel : SEL) : Core :=
  s.setTable sel ((s.table sel).define P.tree s.includedInClasses klass n)

def rbVmDefineMethod (klass : ℕ) (sel : SEL) (n : Node) (direct : Bool) : Core :=
  (if direct then [sel] else definedSels sel n.arity).foldl (defineEntry P klass n) s

def joinPaths (path : ℕ → Option (List ℕ)) : List ℕ → Option (List ℕ)
  | [] => some []
  | c::cs => match path c,joinPaths path cs with
      | some p,some ps => some (p++ps)
      | _,_ => none

/-- The classes to which `prepare_method` goes, in this order: a module is followed by
the classes that include it. There is none when the recursion exceeds the stack. -/
def forwardPath (users : ℕ → List ℕ) : ℕ → ℕ → Option (List ℕ)
  | 0,_ => none
  | stack+1,klass => (joinPaths (forwardPath users stack) (users klass)).map (klass::·)

/-- One class and selector of `prepare_method`. -/
def prepareEntry (n : Node) (s : Core) (e : ℕ × SEL) : Core :=
  s.setTable e.2 ((s.table e.2).prepare P.tree s.includedInClasses e.1 n)

/-- The classes and selectors that `prepare_method` goes through. -/
def prepareEntries (klass : ℕ) (sel : SEL) (a : Arity) : Option (List (ℕ × SEL)) :=
  (forwardPath s.includedInClasses P.stack klass).map fun path =>
    path.flatMap fun c => (definedSels sel a).map (c,·)

/-- `prepare_method`; without a result when the stack overflows. -/
def prepareMethod (klass : ℕ) (sel : SEL) (n : Node) : Option Core :=
  (s.prepareEntries P klass sel n.arity).map (List.foldl (prepareEntry P n) s)

/-- `rb_vm_alias_method` of the method that `owner` has for `old`, and whether it
returns: only Ruby methods can be aliased. -/
def rbVmAliasMethod (klass owner : ℕ) (old sel : SEL) : Bool × Core :=
  match (s.table old).own owner with
  | some ⟨imp,some n⟩ =>
    (true,s.setTable sel ((s.table sel).addMethod s.includedInClasses klass imp n))
  | _ => (false,s)

/-- The end of `rb_vm_alias2`, with the owners of the two methods that were found. -/
def aliasFound (klass : ℕ) (name old : SEL) : Option ℕ → Option ℕ → Bool × Core
  | none,none => (false,s)
  | some owner,none => s.rbVmAliasMethod klass owner old name
  | none,some owner => s.rbVmAliasMethod klass owner (buf100 (old++[':'])) (buf100 (name++[':']))
  | some owner,some owner' => match s.rbVmAliasMethod klass owner old name with
      | (false,s') => (false,s')
      | (true,s') =>
        s'.rbVmAliasMethod klass owner' (buf100 (old++[':'])) (buf100 (name++[':']))

/-- The lookups of `rb_vm_alias2`. -/
def aliasLookups (klass : ℕ) (old : SEL) : Core :=
  if genuine old then s.lookup P klass old
  else (s.lookup P klass old).lookup P klass (buf100 (old++[':']))

def owner (klass : ℕ) (sel : SEL) : Option ℕ := (s.visible P klass sel).map Prod.fst

/-- `rb_vm_alias2`, and whether it returns. -/
def rbVmAlias2 (klass : ℕ) (name old : SEL) : Bool × Core :=
  (s.aliasLookups P klass old).aliasFound klass name old ((s.lookup P klass old).owner P klass old)
    (if genuine old then none else (s.aliasLookups P klass old).owner P klass (buf100 (old++[':'])))

/-- `rb_vm_lookup_method2`: the selector under which a name is found. -/
def rbVmLookupMethod2 (klass : ℕ) (name : SEL) : Option (SEL × Method) × Core :=
  let s₁ := s.lookup P klass name
  match s₁.visible P klass name with
  | some m => (some (name,m.2),s₁)
  | none =>
    let sel := buf100 (name++[':'])
    let s₂ := s₁.lookup P klass sel
    match s₂.visible P klass sel with
    | some m => (some (sel,m.2),s₂)
    | none => (none,s₂)

/-- `RoxorCore::undef_method`. -/
def undefMethod (klass : ℕ) (sel : SEL) : Core :=
  s.setTable sel ((s.table sel).classReplaceMethod klass .undefined)

/-- `rb_vm_undef_method`, and whether it returns. -/
def rbVmUndefMethod (klass : ℕ) (name : SEL) (mustExist : Bool) : Bool × Core :=
  match s.rbVmLookupMethod2 P klass name with
  | (none,s') => if mustExist then (false,s') else (true,s'.undefMethod klass name)
  | (some (_,⟨_,none⟩),s') => (!mustExist,s')
  | (some (sel,⟨_,some _⟩),s') => (true,s'.undefMethod klass sel)

/-- The selector that `rb_vm_undef_method` undefines, if any. -/
def undefSel (klass : ℕ) (name : SEL) (mustExist : Bool) : Option SEL :=
  match (s.rbVmLookupMethod2 P klass name).1 with
  | none => if mustExist then none else some name
  | some (_,⟨_,none⟩) => none
  | some (sel,⟨_,some _⟩) => some sel

lemma rbVmUndefMethod_eq (klass : ℕ) (name : SEL) (mustExist : Bool) :
    (s.rbVmUndefMethod P klass name mustExist).2 = match s.undefSel P klass name mustExist with
      | none => (s.rbVmLookupMethod2 P klass name).2
      | some sel => (s.rbVmLookupMethod2 P klass name).2.undefMethod klass sel := by
  unfold rbVmUndefMethod undefSel
  cases s.rbVmLookupMethod2 P klass name with
  | mk found s' =>
    cases found with
    | none => cases mustExist <;> rfl
    | some found =>
      obtain ⟨sel,imp,node⟩ := found
      cases node <;> rfl

end Core

def twoClasses : Program where
  tree := .pair
  isModule _ := false
  native _ _ := none
  canForward _ _ := false
  objcMsgSend := 0
  bsFunction _ := none
  stack := 2
  stack_pos := by decide

def body (imp : ℕ) : Node := ⟨imp,rbVmNodeArity 0 0 false⟩
end MacRuby.MethodTables
