import MacRuby.MethodTables
import MacRuby.Runs

/-!
# Visibility of methods

A declaration of visibility looks a name up from a class. If the superclass shares
the implementation, the method is defined again in the class, with its flags
cleared, and the flag of the declaration is added; otherwise it is added to the
flags that are there. A method that the class has by its own definition thus keeps
the flags of earlier declarations.

A method that can be called with and without arguments has an entry under two
selectors; a declaration adds its flag to one of them.
-/
namespace MacRuby.MethodVisibility
open MethodTables (SEL Arity definedSels buf100)
open Function
open Runs

inductive Visibility
  | noexPublic
  | noexPrivate
  | noexProtected
deriving DecidableEq, Repr

/-- `VM_METHOD_PRIVATE` and `VM_METHOD_PROTECTED`. -/
structure Flags where
  vmMethodPrivate : Bool
  vmMethodProtected : Bool
deriving DecidableEq, Repr

/-- The visibility as `push_method` reads it from the flags. -/
def Flags.visibility (f : Flags) : Visibility :=
  if f.vmMethodPrivate then .noexPrivate
  else if f.vmMethodProtected then .noexProtected
  else .noexPublic

/-- The `switch` at the end of `rb_export_method`. -/
def Flags.add (f : Flags) : Visibility → Flags
  | .noexPublic => f
  | .noexPrivate => {f with vmMethodPrivate := true}
  | .noexProtected => {f with vmMethodProtected := true}

/-- The part of `rb_vm_method_node_t` that is used here. -/
structure Node where
  arity : Arity
  flags : Flags
deriving DecidableEq, Repr

/-- A `Method` of the runtime; only Ruby methods have a node. -/
structure Method where
  imp : ℕ
  node : Option Node
deriving DecidableEq, Repr

/-- The methods that the classes have themselves, for each selector. -/
abbrev Tables := SEL → ℕ → Option Method

variable (tree : ClassTree)

/-- `class_getInstanceMethod`, with the class that has the method. -/
def classGetInstanceMethod (own : Tables) (klass : ℕ) (sel : SEL) : Option (ℕ × Method) :=
  tree.nearest (own sel) klass

/-- `rb_vm_lookup_method2`: the selector, the class and the method. -/
def rbVmLookupMethod2 (own : Tables) (klass : ℕ) (name : SEL) : Option (SEL × ℕ × Method) :=
  match classGetInstanceMethod tree own klass name with
  | some m => some (name,m)
  | none => (classGetInstanceMethod tree own klass (buf100 (name++[':']))).map
      fun m => (buf100 (name++[':']),m)

/-- `selInitialize`, `selInitialize2` and `selInitializeCopy`. -/
def alwaysPrivate (sel : SEL) : Bool :=
  decide (sel ∈ ["initialize".toList,"initialize:".toList,"initialize_copy:".toList])

def put (own : Tables) (klass : ℕ) (sel : SEL) (m : Method) : Tables :=
  update own sel (update (own sel) klass (some m))

/-- `RoxorCore::add_method` for a class. -/
def addMethod (imp : ℕ) (n : Node) (klass : ℕ) (own : Tables) (sel : SEL) : Tables :=
  put own klass sel ⟨imp,some {n with
    flags := if alwaysPrivate sel then n.flags.add .noexPrivate else n.flags}⟩

/-- `rb_vm_define_method2`, which clears the flags. -/
def rbVmDefineMethod2 (own : Tables) (klass : ℕ) (sel : SEL) (imp : ℕ) (n : Node) : Tables :=
  (definedSels sel n.arity).foldl (addMethod imp {n with flags := ⟨false,false⟩} klass) own

def addFlag (own : Tables) (klass : ℕ) (sel : SEL) (noex : Visibility) : Tables :=
  match own sel klass with
  | some ⟨imp,some n⟩ => put own klass sel ⟨imp,some {n with flags := n.flags.add noex}⟩
  | _ => own

def shared (own : Tables) (klass : ℕ) (sel : SEL) (imp : ℕ) : Bool :=
  match tree.superclass klass with
  | none => false
  | some sklass => match classGetInstanceMethod tree own sklass sel with
      | none => false
      | some m => decide (m.2.imp=imp)

/-- `rb_export_method`; without a result when it raises. The node that
`rb_vm_define_method2` returns is that of the last selector. -/
def rbExportMethod (own : Tables) (klass : ℕ) (name : SEL) (noex : Visibility) : Option Tables :=
  match rbVmLookupMethod2 tree own klass name with
  | some (sel,owner,⟨imp,some n⟩) =>
    if shared tree own klass sel imp then
      some (addFlag (rbVmDefineMethod2 own klass sel imp n) klass
        ((definedSels sel n.arity).getLastD sel) noex)
    else some (addFlag own owner sel noex)
  | _ => none

variable (own₀ : Tables) (name : SEL)

def sels : List SEL := [name,buf100 (name++[':'])]

structure State where
  own : Tables
  declared : ℕ → Option Visibility

/-- A declaration of a class; one that raises does not count. -/
structure Declaration where
  klass : ℕ
  noex : Visibility

def step (s : State) (d : Declaration) : State :=
  match rbExportMethod tree s.own d.klass name d.noex with
  | none => s
  | some own => ⟨own,update s.declared d.klass (some d.noex)⟩

def start : State := ⟨own₀,fun _ => none⟩

def Method.visibility (m : Method) : Option Visibility := m.node.map fun n => n.flags.visibility

/-- What holds for the method of a class: its last declaration, or else the visibility with which
the class defined the method. -/
def stated (s : State) (sel : SEL) (k : ℕ) : Option Visibility :=
  (s.declared k).or ((own₀ sel k).bind Method.visibility)

/-- Every Ruby method that a class finds under the name has the visibility that the class itself
states, or else the nearest of its ancestors. -/
def Declared (s : State) : Prop :=
  ∀ c, ∀ sel ∈ sels name, ∀ owner imp n,
    classGetInstanceMethod tree s.own c sel=some (owner,⟨imp,some n⟩) →
    (tree.nearest (stated own₀ s sel) c).map Prod.snd=some n.flags.visibility

def Flags.Takes (f : Flags) : Visibility → Prop
  | .noexPublic => f.vmMethodPrivate=false ∧ f.vmMethodProtected=false
  | .noexPrivate => True
  | .noexProtected => f.vmMethodPrivate=false

instance (f : Flags) : (noex : Visibility) → Decidable (f.Takes noex)
  | .noexPublic =>
    inferInstanceAs (Decidable (f.vmMethodPrivate=false ∧ f.vmMethodProtected=false))
  | .noexPrivate => isTrue trivial
  | .noexProtected => inferInstanceAs (Decidable (f.vmMethodPrivate=false))

/-- The class finds the method under one selector only. A method that it shares with its
superclass has no other selector, and is no initializer unless it is made private; one that it
does not share has no flag that the declaration would have to clear. -/
def Safe (s : State) (d : Declaration) : Prop :=
  ∀ sel owner imp n, rbVmLookupMethod2 tree s.own d.klass name=some (sel,owner,⟨imp,some n⟩) →
    (∀ sel' ∈ sels name, sel' ≠ sel → classGetInstanceMethod tree s.own d.klass sel'=none) ∧
    if shared tree s.own d.klass sel imp then
      definedSels sel n.arity=[sel] ∧ (alwaysPrivate sel=true → d.noex=.noexPrivate)
    else n.flags.Takes d.noex

variable {tree name} {own : Tables} {klass c : ℕ} {sel sel' : SEL}
variable {own' : Tables} {noex : Visibility}

lemma put_self (m : Method) : put own klass sel m sel klass=some m := by
  unfold put
  rw [update_self,update_self]

lemma put_of_sel (h : sel' ≠ sel) (m : Method) : put own klass sel m sel'=own sel' :=
  update_of_ne h _ _

lemma put_of_klass (h : c ≠ klass) (sel' : SEL) (m : Method) :
    put own klass sel m sel' c=own sel' c := by
  unfold put
  by_cases hs : sel'=sel
  · rw [hs,update_self,update_of_ne h]
  · rw [update_of_ne hs]

lemma put_put (m m' : Method) : put (put own klass sel m) klass sel m'=put own klass sel m' := by
  unfold put
  rw [update_self,update_idem,update_idem]

lemma rbVmDefineMethod2_of_klass (h : c ≠ klass) (imp : ℕ) (n : Node) (sel' : SEL) :
    rbVmDefineMethod2 own klass sel imp n sel' c=own sel' c := by
  unfold rbVmDefineMethod2
  induction definedSels sel n.arity generalizing own with
  | nil => rfl
  | cons s ss ih => exact ih.trans (put_of_klass h sel' _)

lemma addFlag_of_klass (h : c ≠ klass) (noex : Visibility) (sel' : SEL) :
    addFlag own klass sel noex sel' c=own sel' c := by
  unfold addFlag
  cases own sel klass with
  | none => rfl
  | some m =>
    obtain ⟨imp,node⟩ := m
    cases node with
    | none => rfl
    | some n => exact put_of_klass h sel' _

lemma addFlag_own {imp : ℕ} {n : Node} (h : own sel klass=some ⟨imp,some n⟩) (noex : Visibility) :
    addFlag own klass sel noex=put own klass sel ⟨imp,some {n with flags := n.flags.add noex}⟩ := by
  unfold addFlag
  rw [h]

lemma lookup_spec {m : ℕ × Method} (h : rbVmLookupMethod2 tree own klass name=some (sel,m)) :
    sel ∈ sels name ∧ classGetInstanceMethod tree own klass sel=some m := by
  unfold rbVmLookupMethod2 at h
  split at h
  · next hf =>
      cases h
      exact ⟨List.mem_cons_self,hf⟩
  · obtain ⟨m',hm',he⟩ := Option.map_eq_some_iff.mp h
    cases he
    exact ⟨List.mem_cons_of_mem _ List.mem_cons_self,hm'⟩

lemma owner_of_not_shared {owner imp : ℕ} {node : Option Node}
    (h : classGetInstanceMethod tree own klass sel=some (owner,⟨imp,node⟩))
    (hn : shared tree own klass sel imp=false) : owner=klass := by
  by_contra hne
  obtain ⟨hm,ho,hb⟩ := tree.nearest_eq_some.mp h
  have hno : own sel klass=none :=
    hb klass (tree.self_mem_chain klass) hm (Ne.symm hne)
  unfold shared at hn
  cases hs : tree.superclass klass with
  | none =>
    rw [tree.chain_root hs,List.mem_singleton] at hm
    exact hne hm
  | some sklass =>
    have hsu : classGetInstanceMethod tree own sklass sel=some (owner,⟨imp,node⟩) :=
      (tree.nearest_step _ hno hs).symm.trans h
    rw [hs] at hn
    dsimp only at hn
    rw [hsu] at hn
    simp at hn

lemma rbExportMethod_cases (h : rbExportMethod tree own klass name noex=some own') :
    ∃ sel owner imp n, rbVmLookupMethod2 tree own klass name=some (sel,owner,⟨imp,some n⟩) ∧
      (shared tree own klass sel imp=true ∧
          own'=addFlag (rbVmDefineMethod2 own klass sel imp n) klass
            ((definedSels sel n.arity).getLastD sel) noex ∨
        shared tree own klass sel imp=false ∧ owner=klass ∧ own'=addFlag own klass sel noex) := by
  unfold rbExportMethod at h
  split at h
  · next sel owner imp n hf =>
      refine ⟨sel,owner,imp,n,hf,?_⟩
      cases hs : shared tree own klass sel imp with
      | true =>
        rw [hs] at h
        cases h
        exact .inl ⟨rfl,rfl⟩
      | false =>
        rw [hs] at h
        cases h
        have ho := owner_of_not_shared (lookup_spec hf).2 hs
        exact .inr ⟨rfl,ho,by rw [ho]⟩
  · cases h

lemma rbExportMethod_of_klass
    (h : rbExportMethod tree own klass name noex=some own') (hc : c ≠ klass) (sel : SEL) :
    own' sel c=own sel c := by
  obtain ⟨s,owner,imp,n,_,⟨_,rfl⟩ | ⟨_,_,rfl⟩⟩ := rbExportMethod_cases h
  · exact (addFlag_of_klass hc noex sel).trans (rbVmDefineMethod2_of_klass hc imp n sel)
  · exact addFlag_of_klass hc noex sel

lemma rbExportMethod_frame
    (h : rbExportMethod tree own klass name noex=some own') (hc : klass ∉ tree.chain c) (sel : SEL) :
    classGetInstanceMethod tree own' c sel=classGetInstanceMethod tree own c sel := by
  refine tree.nearest_congr fun d hd => rbExportMethod_of_klass h ?_ sel
  rintro rfl
  exact hc hd

lemma visibility_add {f : Flags} (h : f.Takes noex) : (f.add noex).visibility=noex := by
  cases noex with
  | noexPublic => simp [Flags.add,Flags.visibility,h.1,h.2]
  | noexPrivate => rfl
  | noexProtected =>
    have hp : f.vmMethodPrivate=false := h
    simp [Flags.add,Flags.visibility,hp]

lemma rbExportMethod_of_safe {s : State} {d : Declaration}
    (h : rbExportMethod tree s.own d.klass name d.noex=some own') (hsa : Safe tree name s d) :
    ∃ sel ∈ sels name, ∃ m, classGetInstanceMethod tree s.own d.klass sel ≠ none ∧
      (∀ sel' ∈ sels name, sel' ≠ sel → classGetInstanceMethod tree s.own d.klass sel'=none) ∧
      m.visibility=some d.noex ∧ own'=put s.own d.klass sel m := by
  obtain ⟨sel,owner,imp,n,hfo,hc⟩ := rbExportMethod_cases h
  obtain ⟨hon,hf⟩ := hsa sel owner imp n hfo
  obtain ⟨hse,hg⟩ := lookup_spec hfo
  have hn : classGetInstanceMethod tree s.own d.klass sel ≠ none := by
    rw [hg]
    exact nofun
  cases hc with
  | inl hd =>
    obtain ⟨hs,rfl⟩ := hd
    rw [hs] at hf
    obtain ⟨hsels,hp⟩ := hf
    have ho : ∀ f, addFlag (put s.own d.klass sel ⟨imp,some {n with flags := f}⟩) d.klass
        sel d.noex=put s.own d.klass sel ⟨imp,some {n with flags := f.add d.noex}⟩ := by
      intro f
      rw [addFlag_own (put_self _),put_put]
    unfold rbVmDefineMethod2
    rw [hsels]
    refine ⟨sel,hse,_,hn,hon,?_,ho _⟩
    refine congrArg some (visibility_add ?_)
    split_ifs with ha
    · rw [hp ha]
      trivial
    · cases d.noex with
      | noexPublic => exact ⟨rfl,rfl⟩
      | noexPrivate => trivial
      | noexProtected => rfl
  | inr ho =>
    obtain ⟨hs,rfl,rfl⟩ := ho
    rw [hs] at hf
    have he := (tree.nearest_eq_some.mp hg).2.1
    refine ⟨sel,hse,_,hn,hon,?_,addFlag_own he d.noex⟩
    exact congrArg some (visibility_add hf)

variable {own₀} {s : State}

/-- The entries of a class have the visibility that the class states, and a class without an
entry states nothing. -/
structure Tracked (tree : ClassTree) (own₀ : Tables) (name : SEL) (s : State) : Prop where
  entry : ∀ {sel}, sel ∈ sels name → ∀ {k m}, s.own sel k=some m → m.node ≠ none →
    stated own₀ s sel k=m.visibility
  absent : ∀ {sel}, sel ∈ sels name → ∀ {k}, s.own sel k=none →
    own₀ sel k=none ∧ (s.declared k=none ∨ classGetInstanceMethod tree s.own k sel=none)

lemma Tracked.declared (h : Tracked tree own₀ name s) : Declared tree own₀ name s := by
  intro c sel hs owner imp n hf
  obtain ⟨hm,how,hb⟩ := tree.nearest_eq_some.mp hf
  have hnea : tree.nearest (stated own₀ s sel) c=some (owner,n.flags.visibility) := by
    refine tree.nearest_eq_some.mpr ⟨hm,h.entry hs how nofun,?_⟩
    intro d hd ho hne
    obtain ⟨hst,hde⟩ := h.absent hs (hb d hd ho hne)
    unfold stated
    rw [hst]
    cases hde with
    | inl hn =>
      rw [hn]
      rfl
    | inr hn =>
      rw [tree.nearest_eq_none.mp hn owner ho] at how
      cases how
  rw [hnea]
  rfl

lemma tracked_start (tree : ClassTree) (own₀ : Tables) (name : SEL) :
    Tracked tree own₀ name (start own₀) := by
  constructor
  · intro sel _ k m ho _
    change own₀ sel k=some m at ho
    unfold stated
    rw [ho]
    rfl
  · intro sel _ k ho
    exact ⟨ho,.inl rfl⟩

lemma stated_of_ne {d : Declaration} {own : Tables} {k : ℕ} (h : k ≠ d.klass) (sel : SEL) :
    stated own₀ ⟨own,update s.declared d.klass (some d.noex)⟩ sel k = stated own₀ s sel k := by
  unfold stated
  dsimp only
  rw [update_of_ne h]

lemma tracked_step (s : State) (d : Declaration) (h : Tracked tree own₀ name s)
    (hsa : Safe tree name s d) : Tracked tree own₀ name (step tree name s d) := by
  unfold step
  cases hex : rbExportMethod tree s.own d.klass name d.noex with
  | none => exact h
  | some own' =>
    obtain ⟨sel,hse,m,hf,hon,hv,rfl⟩ := rbExportMethod_of_safe hex hsa
    constructor
    · intro sel' hse' k m' ho hno
      dsimp only at ho
      by_cases hk : k=d.klass
      · by_cases hs : sel'=sel
        · rw [hk,hs,put_self] at ho
          cases ho
          unfold stated
          dsimp only
          rw [hk,update_self,hv]
          rfl
        · -- the class found nothing under the other selector
          rw [hk,put_of_sel hs,tree.nearest_eq_none.mp (hon sel' hse' hs) d.klass
            (tree.self_mem_chain _)] at ho
          cases ho
      · rw [put_of_klass hk] at ho
        rw [stated_of_ne hk]
        exact h.entry hse' ho hno
    · intro sel' hse' k ho
      dsimp only at ho ⊢
      by_cases hk : k=d.klass
      · have hs : sel' ≠ sel := by
          rintro rfl
          rw [hk,put_self] at ho
          cases ho
        rw [put_of_sel hs] at ho
        refine ⟨(h.absent hse' ho).1,.inr ?_⟩
        unfold classGetInstanceMethod
        rw [put_of_sel hs,hk]
        exact hon sel' hse' hs
      · rw [put_of_klass hk] at ho
        rw [update_of_ne hk]
        refine (h.absent hse' ho).imp_right fun hold => hold.imp_right fun hn => ?_
        by_cases hs : sel'=sel
        · subst hs
          have hb : d.klass ∉ tree.chain k := by
            intro hm
            refine hf (tree.nearest_eq_none.mpr fun e he => ?_)
            exact tree.nearest_eq_none.mp hn e (tree.chain_trans he hm)
          exact (rbExportMethod_frame hex hb sel').trans hn
        · unfold classGetInstanceMethod
          rw [put_of_sel hs]
          exact hn

/-- A declaration changes nothing for the classes that are not below its class. In a run whose
declarations are all safe the visibility in every class is the one that the class or else its nearest
ancestor has declared last, or defined the method with. -/
theorem last_declaration_wins (tree : ClassTree) (own₀ : Tables) (name : SEL) :
    (∀ s d c sel, d.klass ∉ tree.chain c →
      classGetInstanceMethod tree (step tree name s d).own c sel =
        classGetInstanceMethod tree s.own c sel) ∧
      ∀ ds, Along (step tree name) (Safe tree name) (start own₀) ds →
        Declared tree own₀ name (run (step tree name) (start own₀) ds) := by
  constructor
  · intro s d c sel hc
    unfold step
    cases he : rbExportMethod tree s.own d.klass name d.noex with
    | none => rfl
    | some own' => exact rbExportMethod_frame he hc sel
  · intro ds hd
    exact (run_invariant tracked_step (tracked_start tree own₀ name) hd).declared

/-- The class 0 defines the public method `f`. -/
def definedPublic : Tables := fun sel k =>
  if sel=['f'] ∧ k=0 then some ⟨1,some ⟨⟨0,some 0,0⟩,⟨false,false⟩⟩⟩ else none

/-- The subclass makes the method private and public again, and then the class makes it private. -/
def subclassFirst : List Declaration := [⟨1,.noexPrivate⟩,⟨1,.noexPublic⟩,⟨0,.noexPrivate⟩]

theorem subclassFirst_declared :
    Declared .pair definedPublic ['f']
      (run (step .pair ['f']) (start definedPublic) subclassFirst) := by
  refine (last_declaration_wins .pair definedPublic ['f']).2 subclassFirst ⟨?_,?_,?_,trivial⟩
  all_goals
    intro sel owner imp n hf
    cases hf
    exact ⟨by decide,by decide⟩

def privateThenPublic : List Declaration := [⟨0,.noexPrivate⟩,⟨0,.noexPublic⟩]

/-- The method is still private. -/
theorem public_again_stays_private : (classGetInstanceMethod .pair
        (run (step .pair ['f']) (start definedPublic) privateThenPublic).own 0 ['f']).map
          (fun m => m.2.visibility) = some (some .noexPrivate) ∧ ¬Declared .pair definedPublic ['f']
        (run (step .pair ['f']) (start definedPublic) privateThenPublic) := by
  refine ⟨by decide,fun h => ?_⟩
  have hp := h 0 ['f'] (by decide) 0 1 ⟨⟨0,some 0,0⟩,⟨true,false⟩⟩ (by decide)
  exact absurd hp (by decide)
end MacRuby.MethodVisibility
