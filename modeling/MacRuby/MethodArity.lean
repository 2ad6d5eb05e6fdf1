import MacRuby.Dispatch
import MacRuby.MethodSources
import MacRuby.Runs

/-!
# Definitions and the number of arguments

A call without arguments uses the selector without a colon, and a call with
arguments the one with a colon. A definition is entered under one of the two or
under both, as its arity demands, and an alias copies those that it finds, while
`undef` undefines the first that it finds. The selector that an operation
leaves out keeps what it had, so an older definition can stay alive under it.

Here one class is defined, aliased, undefined and called. `latest` records the
definition that each name has at that time; no operation of the core reads it.
-/
namespace MacRuby.MethodArity
open Runs MethodTables MethodSources Dispatch Function List Option Core

variable {a : Arity} {sel : SEL}

/-- Names of methods that are not selectors with named arguments, and that fit the
buffers. -/
def Named (name : SEL) : Prop := ':' ∉ name ∧ name.length ≤ 98

instance (name : SEL) : Decidable (Named name) := inferInstanceAs (Decidable (_ ∧ _))

def colon (name : SEL) : SEL := name++[':']

def halves (name : SEL) : List SEL := [name,colon name]

variable {name other : SEL}

lemma buf100_colon (h : Named name) : buf100 (name++[':'])=colon name := by
  apply take_of_length_le
  have hl := h.2
  simp only [length_append,length_singleton]
  omega

lemma genuine_colon (name : SEL) : genuine (colon name)=true := by
  simp [genuine,colon]

lemma not_genuine (h : Named name) : genuine name=false := by
  unfold genuine
  cases hl : name.getLast? with
  | none => rfl
  | some c =>
    have hm : c ∈ name := mem_of_getLast? hl
    have hn : c ≠ ':' := by
      rintro rfl
      exact h.1 hm
    simp [hn]

lemma midToSel_zero (name : SEL) : midToSel name 0=name := by simp [midToSel]

lemma midToSel_succ (h : Named name) (argc : ℕ) : midToSel name (argc+1)=colon name := by
  simp [midToSel,not_genuine h,buf100_colon h]

lemma midToSel_mem_halves (h : Named name) (argc : ℕ) : midToSel name argc ∈ halves name := by
  cases argc with
  | zero => simp [midToSel_zero,halves]
  | succ argc => simp [midToSel_succ h,halves]

lemma colon_not_named (name : SEL) : ¬Named (colon name) := fun h => h.1 (by simp [colon])

lemma ne_colon (h : Named name) : name ≠ colon other := fun he => colon_not_named other (he ▸ h)

lemma colon_inj (h : colon name=colon other) : name=other :=
  append_cancel_right h

lemma halves_disjoint (h : Named name) (h' : Named other) (hs : sel ∈ halves name)
    (hs' : sel ∈ halves other) : name=other := by
  simp only [halves,mem_cons,not_mem_nil,or_false] at hs hs'
  rcases hs with rfl | rfl
  · rcases hs' with rfl | hs'
    · rfl
    · exact (ne_colon h hs').elim
  · rcases hs' with hs' | hs'
    · exact (ne_colon h' hs'.symm).elim
    · exact colon_inj hs'

/-- The selectors of a definition by `def`. -/
def defSels (name : SEL) (a : Arity) : List SEL := definedSels (midToSel name a.real) a

lemma defSels_zero (h : Named name) (hr : a.real=0) :
    defSels name a=if a.max ≠ some a.min then [name,colon name] else [name] := by
  unfold defSels definedSels
  rw [hr,midToSel_zero,not_genuine h,buf100_colon h]
  by_cases hm : a.max=some a.min <;> simp [hm]

lemma defSels_pos (h : Named name) (hr : 0 < a.real) :
    defSels name a=if a.min=0 then [colon name,name] else [colon name] := by
  obtain ⟨k,hk⟩ : ∃ k, a.real=k+1 := ⟨a.real-1,by omega⟩
  have hd : (buf100 (colon name)).dropLast=name := by
    unfold colon
    rw [buf100_colon h]
    simp [colon]
  unfold defSels definedSels
  rw [hk,midToSel_succ h,genuine_colon,hd]
  by_cases hm : a.min=0 <;> simp [hm]

lemma defSels_subset (h : Named name) (hs : sel ∈ defSels name a) : sel ∈ halves name := by
  rcases eq_zero_or_pos a.real with hr | hr
  · rw [defSels_zero h hr] at hs
    split at hs <;> simp_all [halves]
  · rw [defSels_pos h hr] at hs
    split at hs
    · simp only [mem_cons,not_mem_nil,or_false] at hs
      simp only [halves,mem_cons,not_mem_nil,or_false]
      exact hs.symm
    · simp_all [halves]

lemma midToSel_mem_defSels (h : Named name) {req opt argc : ℕ} {rest : Bool}
    (ha : (rbVmNodeArity req opt rest).admits argc=true) :
    midToSel name argc ∈ defSels name (rbVmNodeArity req opt rest) := by
  rcases eq_zero_or_pos (rbVmNodeArity req opt rest).real with hr | hr
  · rw [defSels_zero h hr]
    cases rest with
    | true => simp [rbVmNodeArity] at hr
    | false =>
      simp only [rbVmNodeArity,Bool.false_eq_true,if_false] at hr ha
      have har : argc=0 := by
        simp only [Arity.admits,all_some,Bool.and_eq_true,decide_eq_true_eq] at ha
        omega
      rw [har,midToSel_zero]
      split <;> simp
  · rw [defSels_pos h hr]
    cases argc with
    | zero =>
      have hm : (rbVmNodeArity req opt rest).min=0 := by
        simp only [Arity.admits,Bool.and_eq_true,decide_eq_true_eq] at ha
        omega
      rw [if_pos hm,midToSel_zero]
      simp
    | succ argc =>
      rw [midToSel_succ h]
      split <;> simp

variable (P : Program) (klass : ℕ)

/-- The operations on one class: `def`, `define_method`, `alias`, `undef` and calls. -/
inductive Op
  | define (name : SEL) (req opt : ℕ) (rest : Bool) (imp : ℕ)
  | defineMethod (name : SEL) (imp : ℕ)
  | aliasName (name old : SEL)
  | undefName (name : SEL) (mustExist : Bool)
  | call (self : ℕ) (name : SEL) (argc : ℕ)

structure State where
  core : Core
  latest : SEL → Option Node

/-- The arity that `define_method` gives its methods. -/
def blockArity : Arity := ⟨0,none,2⟩

/-- The call that is compiled for a name and a number of arguments. -/
def callOf (self : ℕ) (name : SEL) (argc : ℕ) : Call := ⟨self,klass,midToSel name argc,argc⟩

def step (s : State) : Op → State
  | .define name req opt rest imp =>
    let n : Node := ⟨imp,rbVmNodeArity req opt rest⟩
    match s.core.prepareMethod P klass (midToSel name n.arity.real) n with
    | none => s
    | some core => ⟨core,update s.latest name (some n)⟩
  | .defineMethod name imp =>
    ⟨s.core.rbVmDefineMethod P klass name ⟨imp,blockArity⟩ false,
      update s.latest name (some ⟨imp,blockArity⟩)⟩
  | .aliasName name old => match s.core.rbVmAlias2 P klass name old with
      | (false,core) => {s with core := core}
      | (true,core) => ⟨core,update s.latest name (s.latest old)⟩
  | .undefName name mustExist => match s.core.rbVmUndefMethod P klass name mustExist with
      | (false,core) => {s with core := core}
      | (true,core) => ⟨core,update s.latest name none⟩
  | .call self name argc => {s with core := (rbVmDispatch P s.core (callOf klass self name argc)).2}

def begin : State := ⟨start P,fun _ => none⟩

inductive Outcome
  | runs (n : Node)
  | argumentError
  | noMethodError
  | native
deriving DecidableEq, Repr

/-- The check of `__rb_vm_ruby_dispatch`, and `method_missing`. -/
def outcome : Exit → Outcome
  | .ruby n argc => if n.arity.admits argc then .runs n else .argumentError
  | .argumentError => .argumentError
  | .methodMissing => .noMethodError
  | .objc _ => .native
  | .function _ => .native

/-- The latest definition runs if it admits the arguments; nothing else runs. -/
def Decides (latest : Option Node) (argc : ℕ) (o : Outcome) : Prop :=
  match latest with
  | some n => if n.arity.admits argc then o=.runs n else o=.argumentError ∨ o=.noMethodError
  | none => o=.argumentError ∨ o=.noMethodError

instance (latest : Option Node) (argc : ℕ) (o : Outcome) : Decidable (Decides latest argc o) := by
  unfold Decides
  cases latest with
  | none => infer_instance
  | some n => dsimp only; infer_instance

/-- Nothing but the class itself answers: no native methods in the class or above it, no
forwarding and no C functions. -/
structure Plain (P : Program) (klass : ℕ) : Prop where
  native : ∀ sel, ∀ c ∈ P.tree.chain klass, P.native sel c=none
  forward : ∀ self sel, P.canForward self sel=false
  function : ∀ name, P.bsFunction name=none

section Tables
variable {tree : ClassTree} {klass : ℕ} {t : Table}

def entry (klass : ℕ) (t : Table) : Option Method :=
  (t.own klass).or ((t.sources.find klass).map compiled)

def live : Option Method → Option Node
  | some ⟨.code _,some n⟩ => some n
  | _ => none

/-- Only the class itself has something for the selector, and the cache is right. -/
structure Solo (tree : ClassTree) (klass : ℕ) (t : Table) : Prop where
  own : ∀ c ∈ tree.chain klass, c ≠ klass → t.own c=none
  sources : ∀ c, c ≠ klass → t.sources.find c=none
  native : ∀ imp, t.own klass ≠ some ⟨.code imp,none⟩
  cache : t.mcache=.empty ∨
    t.mcache=.rcall klass klass ∧ ∃ imp n, t.own klass=some ⟨.code imp,some n⟩

lemma Solo.visible_eq (h : Solo tree klass t) :
    t.visible tree klass=(t.own klass).map (klass,·) := by
  unfold Table.visible
  cases ho : t.own klass with
  | some m => exact tree.nearest_own t.own ho
  | none =>
    rw [map_none,ClassTree.nearest_eq_none]
    intro c hc
    by_cases hck : c=klass
    · rw [hck,ho]
    · exact h.own c hc hck

lemma Solo.sourceClass_eq (h : Solo tree klass t) :
    t.sourceClass tree klass=(t.sources.find klass).map fun _ => klass := by
  unfold Table.sourceClass
  cases hf : t.sources.find klass with
  | some n => rw [tree.nearest_own t.sources.find hf]; rfl
  | none =>
    rw [map_none,map_eq_none_iff,ClassTree.nearest_eq_none]
    intro c _
    by_cases hc : c=klass
    · rw [hc,hf]
    · exact h.sources c hc

lemma resolveMethods_mcache {users : ℕ → List ℕ} (h : t.mcache=.empty) (k : ℕ) :
    (Table.resolveMethods tree users t k).mcache=.empty := by
  unfold Table.resolveMethods
  generalize t.sources.entries=es
  induction es generalizing t with
  | nil => exact h
  | cons e es ih =>
    apply ih
    unfold Table.resolveEntry
    split
    · exact Table.addMethod_mcache _ _ _
    · exact h

structure Looked (tree : ClassTree) (klass : ℕ) (t t' : Table) : Prop where
  solo : Solo tree klass t'
  entry_eq : entry klass t'=entry klass t
  kept : ∀ {m}, t.own klass=some m → t'.own klass=some m
  cool : t.mcache=.empty → t'.mcache=.empty

lemma Solo.looked (h : Solo tree klass t) : Looked tree klass t t :=
  ⟨h,rfl,fun hm => hm,fun hm => hm⟩

lemma Solo.lookup (h : Solo tree klass t) :
    Looked tree klass t (t.lookup tree (fun _ => []) klass) ∧
      (t.lookup tree (fun _ => []) klass).own klass=entry klass t := by
  unfold Table.lookup
  rw [h.visible_eq,h.sourceClass_eq]
  cases ho : t.own klass with
  | some m =>
    refine ⟨h.looked,?_⟩
    simp [entry,ho]
  | none =>
    cases hf : t.sources.find klass with
    | none =>
      refine ⟨h.looked,?_⟩
      simp [entry,hf]
    | some n =>
      dsimp only [map_none,map_some]
      have hca : t.mcache=.empty := by
        rcases h.cache with hca | ⟨_,imp,m,hm⟩
        · exact hca
        · rw [ho] at hm
          simp at hm
      have hr : Resolved tree klass t (Table.resolveMethods tree (fun _ => []) t klass) := by
        apply resolveMethods_resolved
        · intro c m hc _
          by_cases hck : c=klass
          · rw [hck,ho]
          · rw [h.sources c hck] at hc
            simp at hc
        · intro c m _ _ d hd
          simp at hd
      have hs : (Table.resolveMethods tree (fun _ => []) t klass).own klass =
          some (compiled n) := by
        rw [hr.own,if_pos (tree.self_mem_chain klass),implements_of_source hf]
      have he : entry klass t=some (compiled n) := by simp [entry,ho,hf]
      refine ⟨⟨⟨?_,?_,?_,?_⟩,?_,?_,?_⟩,?_⟩
      · intro c hc hck
        have hn : klass ∉ tree.chain c := fun hk => hck (tree.chain_antisymm hc hk)
        rw [hr.own,if_neg hn]
        exact h.own c hc hck
      · intro c hck
        rw [hr.sources,h.sources c hck]
        exact ite_self none
      · intro imp hi
        rw [hs] at hi
        simp [compiled] at hi
      · exact .inl (resolveMethods_mcache hca klass)
      · rw [he,entry,hs]
        rfl
      · intro m hm
        rw [ho] at hm
        simp at hm
      · exact fun _ => resolveMethods_mcache hca klass
      · rw [hs,he]

lemma Looked.trans {t₁ t₂ : Table} (h : Looked tree klass t t₁) (h' : Looked tree klass t₁ t₂) :
    Looked tree klass t t₂ :=
  ⟨h'.solo,h'.entry_eq.trans h.entry_eq,fun hm => h'.kept (h.kept hm),fun hm => h'.cool (h.cool hm)⟩

lemma Solo.addMethod (h : Solo tree klass t) (imp : Imp) (n : Node) :
    Solo tree klass (Table.addMethod (fun _ => []) t klass imp n) ∧
      entry klass (Table.addMethod (fun _ => []) t klass imp n)=some ⟨imp,some n⟩ := by
  have hs : (Table.addMethod (fun _ => []) t klass imp n).own klass=some ⟨imp,some n⟩ :=
    Table.own_put_self klass _
  refine ⟨⟨?_,?_,?_,?_⟩,?_⟩
  · intro c hc hck
    exact (Table.own_put_of_ne hck _).trans (h.own c hc hck)
  · exact h.sources
  · intro i hi
    rw [hs] at hi
    simp at hi
  · exact .inl rfl
  · rw [entry,hs]
    rfl

lemma Solo.define (h : Solo tree klass t) (n : Node) :
    Solo tree klass (t.define tree (fun _ => []) klass n) ∧
      entry klass (t.define tree (fun _ => []) klass n)=some (compiled n) :=
  h.lookup.1.solo.addMethod _ n

lemma Solo.prepare (h : Solo tree klass t) (n : Node) :
    Solo tree klass (t.prepare tree (fun _ => []) klass n) ∧
      entry klass (t.prepare tree (fun _ => []) klass n)=some (compiled n) := by
  have hl := h.lookup.1.solo
  unfold Table.prepare
  dsimp only
  cases hv : (t.lookup tree (fun _ => []) klass).visible tree klass with
  | some m =>
    apply Solo.addMethod
    exact ⟨hl.own,hl.sources,hl.native,hl.cache⟩
  | none =>
    have ho : (t.lookup tree (fun _ => []) klass).own klass=none := by
      rw [hl.visible_eq] at hv
      exact map_eq_none_iff.mp hv
    have hf : ∀ c, ((t.lookup tree (fun _ => []) klass).keepSource klass n).sources.find c =
        if c=klass then some n else (t.lookup tree (fun _ => []) klass).sources.find c :=
      fun c => SortedMap.find_assign _ _ _ _
    refine ⟨⟨hl.own,?_,hl.native,?_⟩,?_⟩
    · intro c hck
      rw [hf,if_neg hck]
      exact hl.sources c hck
    · rcases hl.cache with hc | ⟨_,imp,m,hm⟩
      · exact .inl hc
      · rw [ho] at hm
        simp at hm
    · rw [entry,hf,if_pos rfl]
      dsimp only [Table.keepSource]
      rw [ho]
      rfl

variable {P : Program} {s s' : Core} {m : Method}

/-- The class is defined by no one else, and no class includes it. -/
structure Alone (P : Program) (klass : ℕ) (s : Core) : Prop where
  users : s.includedInClasses=fun _ => []
  solo : ∀ sel, Solo P.tree klass (s.table sel)

structure Quiet (P : Program) (klass : ℕ) (s s' : Core) : Prop where
  users : s'.includedInClasses=fun _ => []
  table : ∀ sel, Looked P.tree klass (s.table sel) (s'.table sel)

lemma Alone.quiet (h : Alone P klass s) : Quiet P klass s s :=
  ⟨h.users,fun sel => (h.solo sel).looked⟩

lemma Quiet.alone (h : Quiet P klass s s') : Alone P klass s' :=
  ⟨h.users,fun sel => (h.table sel).solo⟩

lemma Quiet.trans {s₁ s₂ : Core} (h : Quiet P klass s s₁) (h' : Quiet P klass s₁ s₂) :
    Quiet P klass s s₂ := ⟨h'.users,fun sel => (h.table sel).trans (h'.table sel)⟩

lemma Alone.lookup (h : Alone P klass s) (sel : SEL) : Quiet P klass s (s.lookup P klass sel) ∧
      ((s.lookup P klass sel).table sel).own klass=entry klass (s.table sel) := by
  have hl := (h.solo sel).lookup
  unfold Core.lookup
  rw [h.users]
  refine ⟨⟨h.users,?_⟩,?_⟩
  · intro sel'
    by_cases hs : sel'=sel
    · subst hs
      rw [table_setTable_self]
      exact hl.1
    · rw [table_setTable_of_ne s hs]
      exact (h.solo sel').looked
  · rw [table_setTable_self]
    exact hl.2

lemma Alone.visible_lookup (h : Alone P klass s) (sel : SEL) :
    (s.lookup P klass sel).visible P klass sel=(entry klass (s.table sel)).map (klass,·) := by
  have hl := h.lookup sel
  rw [← hl.2]
  exact (hl.1.alone.solo sel).visible_eq

/-- The class gets `m` for some selectors. -/
structure Writes (P : Program) (klass : ℕ) (s s' : Core) (sels : List SEL) (m : Method) : Prop where
  alone : Alone P klass s'
  entry_eq : ∀ sel, entry klass (s'.table sel) =
    if sel ∈ sels then some m else entry klass (s.table sel)

lemma Alone.setTable (h : Alone P klass s) {sel : SEL} {t : Table}
    (ht : Solo P.tree klass t ∧ entry klass t=some m) :
    Writes P klass s (s.setTable sel t) [sel] m := by
  refine ⟨⟨h.users,?_⟩,?_⟩
  · intro sel'
    by_cases hs : sel'=sel
    · rw [hs,table_setTable_self]
      exact ht.1
    · rw [table_setTable_of_ne s hs]
      exact h.solo sel'
  · intro sel'
    by_cases hs : sel'=sel
    · rw [hs,table_setTable_self,if_pos mem_cons_self]
      exact ht.2
    · rw [table_setTable_of_ne s hs,if_neg (by simpa using hs)]

lemma writes_loop {f : Core → SEL → Core}
    (hf : ∀ s sel, Alone P klass s → Writes P klass s (f s sel) [sel] m) (h : Alone P klass s)
    (sels : List SEL) : Writes P klass s (sels.foldl f s) sels m := by
  induction sels generalizing s with
  | nil => exact ⟨h,fun sel => by simp⟩
  | cons sel sels ih =>
    have hfi := hf s sel h
    have hr := ih hfi.alone
    refine ⟨hr.alone,?_⟩
    intro sel'
    rw [foldl_cons,hr.entry_eq,hfi.entry_eq]
    by_cases hm : sel' ∈ sels <;> simp [hm]

lemma prepare_writes (h : Alone P klass s) (sel : SEL) (n : Node) :
    ∃ s', s.prepareMethod P klass sel n=some s' ∧
      Writes P klass s s' (definedSels sel n.arity) (compiled n) := by
  obtain ⟨stack,hst⟩ : ∃ stack, P.stack=stack+1 := ⟨P.stack-1,by have := P.stack_pos; omega⟩
  have he : s.prepareEntries P klass sel n.arity =
      some ((definedSels sel n.arity).map (klass,·)) := by
    unfold Core.prepareEntries
    rw [h.users,hst]
    simp [Core.forwardPath,Core.joinPaths]
  unfold Core.prepareMethod
  rw [he,map_some,foldl_map]
  refine ⟨_,rfl,writes_loop ?_ h _⟩
  intro s sel hs
  apply hs.setTable
  rw [hs.users]
  exact (hs.solo sel).prepare n

lemma define_writes (h : Alone P klass s) (sel : SEL) (n : Node) :
    Writes P klass s (s.rbVmDefineMethod P klass sel n false) (definedSels sel n.arity)
      (compiled n) := by
  refine writes_loop ?_ h _
  intro s sel hs
  apply hs.setTable
  rw [hs.users]
  exact (hs.solo sel).define n

variable {c : Call}

def IsError (e : Exit) : Prop := e=.argumentError ∨ e=.methodMissing

lemma callMethodMissing_error (h : Alone P c.klass s) (sel : SEL) (argc : ℕ) :
    IsError (callMethodMissing P s c sel argc).1 ∧
      Quiet P c.klass s (callMethodMissing P s c sel argc).2 := by
  unfold callMethodMissing
  cases otherSel sel argc with
  | none => exact ⟨.inr rfl,h.quiet⟩
  | some sel' =>
    have hl := (h.lookup sel').1
    dsimp only
    split
    · exact ⟨.inl rfl,hl⟩
    · exact ⟨.inr rfl,hl⟩

lemma tryFunction_error (h : Alone P c.klass s) (hp : Plain P c.klass) :
    IsError (tryFunction P s c).1 ∧ Quiet P c.klass s (tryFunction P s c).2 := by
  unfold tryFunction
  rw [hp.function]
  exact callMethodMissing_error h c.sel c.argc

lemma tryHelper_error (h : Alone P c.klass s) (hp : Plain P c.klass) :
    IsError (tryHelper P s c).1 ∧ Quiet P c.klass s (tryHelper P s c).2 := by
  unfold tryHelper
  cases helperSel c.sel with
  | none => exact tryFunction_error h hp
  | some sel =>
    have hl := (h.lookup sel).1
    have ho := (h.lookup sel).2
    dsimp only
    split
    · next owner imp hv =>
        -- a method without a node is an undefined one
        rw [h.visible_lookup,← ho] at hv
        obtain ⟨m,hm,hpa⟩ := map_eq_some_iff.mp hv
        obtain ⟨rfl,rfl⟩ := Prod.mk.inj hpa
        cases imp with
        | code imp => exact ((hl.alone.solo sel).native imp hm).elim
        | undefined =>
          have he := callMethodMissing_error hl.alone sel c.argc
          exact ⟨he.1,hl.trans he.2⟩
    · have he := tryFunction_error hl.alone hp
      exact ⟨he.1,hl.trans he.2⟩

lemma tryHash_error (h : Alone P c.klass s) (hp : Plain P c.klass)
    (hh : ∀ sel, headSel c.sel c.argc=some sel → sel=c.sel)
    (hn : entry c.klass (s.table c.sel)=none) :
    IsError (tryHash P s c).1 ∧ Quiet P c.klass s (tryHash P s c).2 := by
  unfold tryHash
  cases hs : headSel c.sel c.argc with
  | none => exact tryHelper_error h hp
  | some sel =>
    obtain rfl := hh sel hs
    dsimp only
    rw [h.visible_lookup,hn]
    have hl := (h.lookup c.sel).1
    have he := tryHelper_error hl.alone hp
    exact ⟨he.1,hl.trans he.2⟩

lemma recache_error (h : Alone P c.klass s) (hp : Plain P c.klass)
    (hh : ∀ sel, headSel c.sel c.argc=some sel → sel=c.sel)
    (hd : live (entry c.klass (s.table c.sel))=none) :
    IsError (recache P s c).1 ∧ Quiet P c.klass s (recache P s c).2 := by
  have hl := h.lookup c.sel
  unfold recache
  dsimp only
  rw [h.visible_lookup]
  cases hen : entry c.klass (s.table c.sel) with
  | none =>
    rw [if_neg (by simp [hp.forward])]
    have hn : entry c.klass ((s.lookup P c.klass c.sel).table c.sel)=none :=
      (hl.1.table c.sel).entry_eq.trans hen
    have he := tryHash_error hl.1.alone hp hh hn
    exact ⟨he.1,hl.1.trans he.2⟩
  | some m =>
    obtain ⟨imp,node⟩ := m
    cases imp with
    | undefined =>
      have he := callMethodMissing_error hl.1.alone c.sel c.argc
      exact ⟨he.1,hl.1.trans he.2⟩
    | code imp =>
      cases node with
      | some n => simp [hen,live] at hd
      | none =>
        rw [hen] at hl
        exact ((hl.1.alone.solo c.sel).native imp hl.2).elim

structure Keeps (P : Program) (klass : ℕ) (s s' : Core) : Prop where
  alone : Alone P klass s'
  entry_eq : ∀ sel, entry klass (s'.table sel)=entry klass (s.table sel)

lemma Quiet.keeps {klass : ℕ} (h : Quiet P klass s s') : Keeps P klass s s' :=
  ⟨h.alone,fun sel => (h.table sel).entry_eq⟩

lemma recache_live (h : Alone P c.klass s) {imp : ℕ} {n : Node}
    (hli : entry c.klass (s.table c.sel)=some ⟨.code imp,some n⟩) :
    (recache P s c).1=.ruby n c.argc ∧ Keeps P c.klass s (recache P s c).2 := by
  have hl := h.lookup c.sel
  have ho := hl.2.trans hli
  unfold recache
  dsimp only
  rw [h.visible_lookup,hli]
  refine ⟨rfl,⟨hl.1.users,?_⟩,?_⟩
  · intro sel
    by_cases hs : sel=c.sel
    · subst hs
      have hso := (hl.1.table c.sel).solo
      change Solo P.tree c.klass ((fill _ c.sel (.rcall c.klass c.klass)).table c.sel)
      unfold fill
      rw [table_setTable_self]
      exact ⟨hso.own,hso.sources,hso.native,.inr ⟨rfl,imp,n,ho⟩⟩
    · change Solo P.tree c.klass ((fill _ c.sel (.rcall c.klass c.klass)).table sel)
      unfold fill
      rw [table_setTable_of_ne _ hs]
      exact (hl.1.table sel).solo
  · intro sel
    change entry c.klass ((fill _ c.sel (.rcall c.klass c.klass)).table sel)=_
    unfold fill
    by_cases hs : sel=c.sel
    · rw [hs,table_setTable_self]
      exact (hl.1.table c.sel).entry_eq
    · rw [table_setTable_of_ne _ hs]
      exact (hl.1.table sel).entry_eq

lemma dispatch_live (h : Alone P c.klass s) (hp : Plain P c.klass)
    (hh : ∀ sel, headSel c.sel c.argc=some sel → sel=c.sel) :
    (match live (entry c.klass (s.table c.sel)) with
      | some n => (rbVmDispatch P s c).1=.ruby n c.argc
      | none => IsError (rbVmDispatch P s c).1) ∧
      Keeps P c.klass s (rbVmDispatch P s c).2 := by
  have hs : (match live (entry c.klass (s.table c.sel)) with
      | some n => (recache P s c).1=.ruby n c.argc
      | none => IsError (recache P s c).1) ∧ Keeps P c.klass s (recache P s c).2 := by
    cases hl : live (entry c.klass (s.table c.sel)) with
    | none =>
      have her := recache_error h hp hh hl
      exact ⟨her.1,her.2.keeps⟩
    | some n =>
      unfold live at hl
      split at hl
      · next imp m he =>
          obtain ⟨rfl⟩ := hl
          exact recache_live h he
      · simp at hl
  unfold rbVmDispatch
  rcases (h.solo c.sel).cache with hc | ⟨hc,imp,n,ho⟩
  · rw [hc]
    exact hs
  · rw [hc]
    dsimp only
    rw [if_pos rfl,ho]
    have he : entry c.klass (s.table c.sel)=some ⟨.code imp,some n⟩ := by
      rw [entry,ho]
      rfl
    rw [he]
    exact ⟨rfl,h.quiet.keeps⟩

end Tables

variable (P : Program) (klass : ℕ)

def State.alive (s : State) (sel : SEL) : Option Node := live (entry klass (s.core.table sel))

/-- No operation leaves a definition alive under the other selector of the name, and
`undef` finds the cache of the selector empty. -/
def Harmless (s : State) : Op → Prop
  | .define name req opt rest _ => Named name ∧
      ∀ sel ∈ halves name, sel ∉ defSels name (rbVmNodeArity req opt rest) →
        s.alive klass sel=none
  | .defineMethod name _ => Named name
  | .aliasName name old => Named name ∧ Named old ∧
      (entry klass (s.core.table old)=none → entry klass (s.core.table (colon old)) ≠ none →
        s.alive klass name=none) ∧
      (entry klass (s.core.table (colon old))=none → entry klass (s.core.table old) ≠ none →
        s.alive klass (colon name)=none)
  | .undefName name _ => Named name ∧
      (entry klass (s.core.table name) ≠ none →
        s.alive klass (colon name)=none ∧ (s.core.table name).mcache=.empty) ∧
      (entry klass (s.core.table name)=none → (s.core.table (colon name)).mcache=.empty)
  | .call _ name _ => Named name

/-- The selectors of each name agree with its latest definition. -/
structure Agrees (s : State) : Prop where
  alone : Alone P klass s.core
  node : ∀ {name}, Named name → ∀ m, entry klass (s.core.table (colon name))=some m →
    m.node ≠ none
  stale : ∀ {name}, Named name → ∀ sel ∈ halves name, ∀ n, s.alive klass sel=some n →
    s.latest name=some n
  served : ∀ {name}, Named name → ∀ n argc, s.latest name=some n →
    n.arity.admits argc=true → s.alive klass (midToSel name argc)=some n

variable {P klass} {s : State} {core : Core} {name old sel : SEL} {n : Node}
variable {imp : Imp}

lemma Agrees.keeps (h : Agrees P klass s) (hk : Keeps P klass s.core core) :
    Agrees P klass {s with core := core} := by
  have ha : ∀ sel, State.alive klass {s with core := core} sel=s.alive klass sel :=
    fun sel => congrArg live (hk.entry_eq sel)
  refine ⟨hk.alone,?_,?_,?_⟩
  · intro name hna m hm
    exact h.node hna m ((hk.entry_eq _).symm.trans hm)
  · intro name hna sel hs n hn
    rw [ha] at hn
    exact h.stale hna sel hs n hn
  · intro name hna n argc hn had
    rw [ha]
    exact h.served hna n argc hn had

lemma Agrees.rename (h : Agrees P klass s) (hna : Named name) {m : Option Node}
    (hal : Alone P klass core)
    (ho : ∀ sel, sel ∉ halves name → entry klass (core.table sel)=entry klass (s.core.table sel))
    (hno : ∀ m, entry klass (core.table (colon name))=some m → m.node ≠ none)
    (hst : ∀ sel ∈ halves name, ∀ n, live (entry klass (core.table sel))=some n → m=some n)
    (hse : ∀ n argc, m=some n → n.arity.admits argc=true →
      live (entry klass (core.table (midToSel name argc)))=some n) :
    Agrees P klass ⟨core,update s.latest name m⟩ := by
  have hk : ∀ {name'}, Named name' → name' ≠ name → ∀ sel ∈ halves name',
      entry klass (core.table sel)=entry klass (s.core.table sel) := by
    intro name' hna' hne sel hs
    exact ho sel fun hs' => hne (halves_disjoint hna' hna hs hs')
  refine ⟨hal,?_,?_,?_⟩
  · intro name' hna' m' hm'
    by_cases hne : name'=name
    · exact hno m' (hne ▸ hm')
    · have hsa := hk hna' hne (colon name') (by simp [halves])
      exact h.node hna' m' (hsa.symm.trans hm')
  · intro name' hna' sel hs n hn
    unfold State.alive at hn
    dsimp only at hn ⊢
    by_cases hne : name'=name
    · subst hne
      rw [update_self]
      exact hst sel hs n hn
    · rw [update_of_ne hne]
      rw [hk hna' hne sel hs] at hn
      exact h.stale hna' sel hs n hn
  · intro name' hna' n argc hn ha
    unfold State.alive
    dsimp only at hn ⊢
    by_cases hne : name'=name
    · subst hne
      rw [update_self] at hn
      exact hse n argc hn ha
    · rw [update_of_ne hne] at hn
      rw [hk hna' hne _ (midToSel_mem_halves hna' argc)]
      exact h.served hna' n argc hn ha

/-- A definition is entered under all selectors that it needs, and the name's other
selector is not alive. -/
lemma Agrees.write (h : Agrees P klass s) (hna : Named name)
    {sels : List SEL} (hw : Writes P klass s.core core sels (compiled n))
    (hsels : ∀ sel ∈ sels, sel ∈ halves name)
    (hd : ∀ sel ∈ halves name, sel ∉ sels → s.alive klass sel=none)
    (hse : ∀ argc, n.arity.admits argc=true → midToSel name argc ∈ sels) :
    Agrees P klass ⟨core,update s.latest name (some n)⟩ := by
  apply h.rename hna hw.alone
  · intro sel hs
    rw [hw.entry_eq,if_neg fun hme => hs (hsels sel hme)]
  · intro m hm
    rw [hw.entry_eq] at hm
    split at hm
    · obtain ⟨rfl⟩ := hm
      simp [compiled]
    · exact h.node hna m hm
  · intro sel hs n' hn'
    rw [hw.entry_eq] at hn'
    split at hn'
    · exact hn'
    · next hnot =>
        have hno := hd sel hs hnot
        unfold State.alive at hno
        rw [hno] at hn'
        simp at hn'
  · intro n' argc hn' ha
    obtain ⟨rfl⟩ := hn'
    rw [hw.entry_eq,if_pos (hse argc ha)]
    rfl

lemma define_agrees (h : Agrees P klass s) {req opt imp : ℕ} {rest : Bool}
    (hh : Harmless klass s (.define name req opt rest imp)) :
    Agrees P klass (step P klass s (.define name req opt rest imp)) := by
  obtain ⟨hn,hd⟩ := hh
  obtain ⟨core,hc,hw⟩ := prepare_writes h.alone
    (midToSel name (rbVmNodeArity req opt rest).real) ⟨imp,rbVmNodeArity req opt rest⟩
  unfold step
  dsimp only
  rw [hc]
  apply h.write hn hw
  · exact fun sel hs => defSels_subset hn hs
  · exact hd
  · exact fun argc ha => midToSel_mem_defSels hn ha

lemma defineMethod_agrees (h : Agrees P klass s) {imp : ℕ}
    (hn : Named name) : Agrees P klass (step P klass s (.defineMethod name imp)) := by
  have hse : definedSels name blockArity=halves name := by
    simp [definedSels,not_genuine hn,blockArity,buf100_colon hn,halves]
  have hw := define_writes h.alone name ⟨imp,blockArity⟩
  rw [hse] at hw
  apply h.write hn hw
  · exact fun sel hs => hs
  · exact fun sel hs hno => (hno hs).elim
  · exact fun argc _ => midToSel_mem_halves hn argc

lemma aliasMethod_writes (h : Alone P klass core) (sel : SEL)
    (ho : (core.table old).own klass=some ⟨imp,some n⟩) :
    (core.rbVmAliasMethod klass klass old sel).1=true ∧
      Writes P klass core (core.rbVmAliasMethod klass klass old sel).2 [sel] ⟨imp,some n⟩ ∧
      ∀ sel', sel' ≠ sel →
        (core.rbVmAliasMethod klass klass old sel).2.table sel'=core.table sel' := by
  unfold Core.rbVmAliasMethod
  rw [ho]
  refine ⟨rfl,?_,fun sel' hn => table_setTable_of_ne core hn _⟩
  apply h.setTable
  rw [h.users]
  exact (h.solo sel).addMethod imp n

lemma aliasMethod_of_no_node (sel : SEL) (ho : (core.table old).own klass=some ⟨imp,none⟩) :
    core.rbVmAliasMethod klass klass old sel=(false,core) := by
  unfold Core.rbVmAliasMethod
  rw [ho]

lemma aliasLookups_spec (h : Alone P klass core) (hold : Named old) :
    Quiet P klass core (core.aliasLookups P klass old) ∧
      (core.lookup P klass old).owner P klass old =
        (entry klass (core.table old)).map (fun _ => klass) ∧
      (core.aliasLookups P klass old).owner P klass (buf100 (old++[':'])) =
        (entry klass (core.table (colon old))).map (fun _ => klass) ∧
      (∀ m, entry klass (core.table old)=some m →
        ((core.aliasLookups P klass old).table old).own klass=some m) ∧
      ((core.aliasLookups P klass old).table (colon old)).own klass =
        entry klass (core.table (colon old)) := by
  have hf := h.lookup old
  have hs := hf.1.alone.lookup (colon old)
  have he := (hf.1.table (colon old)).entry_eq
  unfold Core.aliasLookups
  rw [if_neg (by simp [not_genuine hold]),buf100_colon hold]
  refine ⟨hf.1.trans hs.1,?_,?_,?_,hs.2.trans he⟩
  · rw [Core.owner,h.visible_lookup,Option.map_map]
    rfl
  · rw [Core.owner,hf.1.alone.visible_lookup,he,Option.map_map]
    rfl
  · intro m hm
    exact (hs.1.table old).kept (hf.2.trans hm)

/-- An alias raises and leaves the class as it was, or it copies what the old name has. -/
lemma alias_spec (h : Agrees P klass s) (hn : Named name) (hold : Named old) :
    ((s.core.rbVmAlias2 P klass name old).1=false ∧
        Keeps P klass s.core (s.core.rbVmAlias2 P klass name old).2) ∨
      ((s.core.rbVmAlias2 P klass name old).1=true ∧
        Alone P klass (s.core.rbVmAlias2 P klass name old).2 ∧
        (entry klass (s.core.table old)=none → entry klass (s.core.table (colon old)) ≠ none) ∧
        ∀ sel, entry klass ((s.core.rbVmAlias2 P klass name old).2.table sel) = if sel=name then
            (entry klass (s.core.table old)).or (entry klass (s.core.table name))
          else if sel=colon name then
            (entry klass (s.core.table (colon old))).or (entry klass (s.core.table (colon name)))
          else entry klass (s.core.table sel)) := by
  obtain ⟨hq,how,how',ho,ho'⟩ := aliasLookups_spec h.alone hold
  have hsa := fun sel => (hq.table sel).entry_eq
  have hne : colon name ≠ name := fun he => ne_colon hn he.symm
  unfold Core.rbVmAlias2
  rw [how,if_neg (by simp [not_genuine hold]),how']
  cases he : entry klass (s.core.table old) with
  | none =>
    cases he' : entry klass (s.core.table (colon old)) with
    | none => exact .inl ⟨rfl,hq.keeps⟩
    | some m =>
      obtain ⟨imp,node⟩ := m
      cases node with
      | none => exact (h.node hold _ he' rfl).elim
      | some n =>
        rw [he'] at ho'
        have hw := aliasMethod_writes hq.alone (colon name) ho'
        dsimp only [map_none,map_some,Core.aliasFound]
        rw [buf100_colon hold,buf100_colon hn]
        refine .inr ⟨hw.1,hw.2.1.alone,fun _ => by simp,?_⟩
        intro sel
        rw [hw.2.1.entry_eq,hsa]
        by_cases hs : sel=colon name
        · simp [hs,hne]
        · by_cases hs' : sel=name
          · simp [hs',hne.symm]
          · simp [hs']
  | some m =>
    obtain ⟨imp,node⟩ := m
    have hf := ho _ he
    cases node with
    | none =>
      have hfa := aliasMethod_of_no_node name hf
      cases he' : entry klass (s.core.table (colon old)) with
      | none =>
        dsimp only [map_none,map_some,Core.aliasFound]
        rw [hfa]
        exact .inl ⟨rfl,hq.keeps⟩
      | some m' =>
        dsimp only [map_some,Core.aliasFound]
        rw [hfa]
        exact .inl ⟨rfl,hq.keeps⟩
    | some n =>
      have hw := aliasMethod_writes hq.alone name hf
      cases he' : entry klass (s.core.table (colon old)) with
      | none =>
        dsimp only [map_none,map_some,Core.aliasFound]
        refine .inr ⟨hw.1,hw.2.1.alone,fun hno => by simp at hno,?_⟩
        intro sel
        rw [hw.2.1.entry_eq,hsa]
        by_cases hs : sel=name
        · simp [hs]
        · by_cases hs' : sel=colon name
          · simp [hs']
          · simp [hs']
      | some m' =>
        obtain ⟨imp',node'⟩ := m'
        cases node' with
        | none => exact (h.node hold _ he' rfl).elim
        | some n' =>
          have hk := hw.2.2 (colon old) (ne_colon hn).symm
          rw [he',← hk] at ho'
          have hw' := aliasMethod_writes hw.2.1.alone (colon name) ho'
          dsimp only [map_some,Core.aliasFound]
          rw [buf100_colon hold,buf100_colon hn]
          cases hfi : (s.core.aliasLookups P klass old).rbVmAliasMethod klass klass old name with
          | mk ok core =>
            rw [hfi] at hw hw'
            obtain rfl : ok=true := hw.1
            refine .inr ⟨hw'.1,hw'.2.1.alone,fun hno => by simp at hno,?_⟩
            intro sel
            rw [hw'.2.1.entry_eq,hw.2.1.entry_eq,hsa]
            by_cases hs : sel=name
            · simp [hs,hne.symm]
            · by_cases hs' : sel=colon name
              · simp [hs',hne]
              · simp [hs']

lemma live_or {e e' : Option Method} (hd : e=none → live e'=none) : live (e.or e')=live e := by
  cases e with
  | none =>
    rw [none_or,hd rfl]
    rfl
  | some m => rfl

lemma alias_agrees (h : Agrees P klass s) (hh : Harmless klass s (.aliasName name old)) :
    Agrees P klass (step P klass s (.aliasName name old)) := by
  obtain ⟨hna,hold,hp,hc⟩ := hh
  have hsp := alias_spec h hna hold
  have hne : colon name ≠ name := fun he => ne_colon hna he.symm
  unfold step
  dsimp only
  cases hr : s.core.rbVmAlias2 P klass name old with
  | mk ok core =>
    rw [hr] at hsp
    rcases hsp with ⟨rfl,hk⟩ | ⟨rfl,hal,hso,hent⟩
    · exact h.keeps hk
    · have hen := hent (colon name)
      rw [if_neg hne,if_pos rfl] at hen
      have hli : live (entry klass (core.table name))=s.alive klass old := by
        rw [hent,if_pos rfl]
        exact live_or fun he => hp he (hso he)
      have hl : live (entry klass (core.table (colon name))) = s.alive klass (colon old) := by
        rw [hen]
        exact live_or fun he => hc he fun hno => hso hno he
      apply h.rename hna hal
      · intro sel hs
        simp only [halves,mem_cons,not_mem_nil,or_false,not_or] at hs
        rw [hent,if_neg hs.1,if_neg hs.2]
      · intro m hm
        rw [hen] at hm
        rcases or_eq_some_iff.1 hm with hm | ⟨-,hm⟩
        · exact h.node hold m hm
        · exact h.node hna m hm
      · intro sel hs n hn
        simp only [halves,mem_cons,not_mem_nil,or_false] at hs
        rcases hs with rfl | rfl
        · exact h.stale hold old (by simp [halves]) n (hli ▸ hn)
        · exact h.stale hold (colon old) (by simp [halves]) n (hl ▸ hn)
      · intro n argc hn ha
        have hliv := h.served hold n argc hn ha
        cases argc with
        | zero =>
          rw [midToSel_zero] at hliv ⊢
          exact hli.trans hliv
        | succ argc =>
          rw [midToSel_succ hold] at hliv
          rw [midToSel_succ hna]
          exact hl.trans hliv

lemma lookupMethod2_spec (h : Alone P klass core) (hn : Named name) :
    Quiet P klass core (core.rbVmLookupMethod2 P klass name).2 ∧
      (core.rbVmLookupMethod2 P klass name).1 = ((entry klass (core.table name)).map (name,·)).or
          ((entry klass (core.table (colon name))).map (colon name,·)) ∧
      ∀ sel m, (core.rbVmLookupMethod2 P klass name).1=some (sel,m) →
        ((core.rbVmLookupMethod2 P klass name).2.table sel).own klass=some m := by
  have hf := h.lookup name
  have hs := hf.1.alone.lookup (colon name)
  have hsa := (hf.1.table (colon name)).entry_eq
  unfold Core.rbVmLookupMethod2
  dsimp only
  rw [h.visible_lookup,buf100_colon hn,hf.1.alone.visible_lookup,hsa]
  rw [hsa] at hs
  cases he : entry klass (core.table name) with
  | some m =>
    refine ⟨hf.1,rfl,?_⟩
    intro sel m' hm'
    obtain ⟨rfl,rfl⟩ : name=sel ∧ m=m' := by simpa using hm'
    exact hf.2.trans he
  | none =>
    cases he' : entry klass (core.table (colon name)) with
    | none => exact ⟨hf.1.trans hs.1,rfl,fun _ _ hm => by simp at hm⟩
    | some m =>
      refine ⟨hf.1.trans hs.1,rfl,?_⟩
      intro sel m' hm'
      obtain ⟨rfl,rfl⟩ : colon name=sel ∧ m=m' := by simpa using hm'
      exact hs.2.trans he'

lemma undefMethod_writes (h : Alone P klass core) (hco : (core.table sel).mcache=.empty) :
    Writes P klass core (core.undefMethod klass sel) [sel]
      ⟨.undefined,((core.table sel).own klass).bind Method.node⟩ := by
  have hs := h.solo sel
  apply h.setTable
  unfold Table.classReplaceMethod entry
  dsimp only
  refine ⟨⟨?_,hs.sources,?_,.inl hco⟩,?_⟩
  · intro c hc hn
    dsimp only
    rw [update_of_ne hn]
    exact hs.own c hc hn
  · intro imp
    simp
  · rw [update_self]
    rfl

lemma Agrees.undefine (h : Agrees P klass s) (hna : Named name)
    (hq : Quiet P klass s.core core) (hs : sel ∈ halves name)
    (hc : (s.core.table sel).mcache=.empty)
    (hno : sel=colon name → ((core.table sel).own klass).bind Method.node ≠ none)
    (hd : ∀ sel' ∈ halves name, sel' ≠ sel → s.alive klass sel'=none) :
    Agrees P klass ⟨core.undefMethod klass sel,update s.latest name none⟩ := by
  have hw := undefMethod_writes hq.alone ((hq.table sel).cool hc)
  have hsa := fun sel' => (hq.table sel').entry_eq
  apply h.rename hna hw.alone
  · intro sel' hs'
    have hne : sel' ∉ [sel] := fun hme => hs' (mem_singleton.1 hme ▸ hs)
    rw [hw.entry_eq,if_neg hne,hsa]
  · intro m hm
    rw [hw.entry_eq] at hm
    split at hm
    · next hme =>
        obtain ⟨rfl⟩ := hm
        exact hno (mem_singleton.1 hme).symm
    · exact h.node hna m ((hsa _).symm.trans hm)
  · intro sel' hs' n hn
    rw [hw.entry_eq] at hn
    split at hn
    · simp [live] at hn
    · next hme =>
        have hnon := hd sel' hs' fun he => hme (he ▸ mem_singleton_self sel)
        rw [hsa] at hn
        exact absurd (hnon.symm.trans hn) (by simp)
  · intro n argc hn
    simp at hn

lemma undef_agrees (h : Agrees P klass s) {mustExist : Bool}
    (hh : Harmless klass s (.undefName name mustExist)) :
    Agrees P klass (step P klass s (.undefName name mustExist)) := by
  obtain ⟨hna,hp,hco⟩ := hh
  obtain ⟨hq,hf,how⟩ := lookupMethod2_spec h.alone hna
  unfold step Core.rbVmUndefMethod
  dsimp only
  cases hr : s.core.rbVmLookupMethod2 P klass name with
  | mk found core =>
    rw [hr] at hq hf how
    cases he : entry klass (s.core.table name) with
    | some m =>
      obtain ⟨hd,hcoo⟩ := hp (by simp [he])
      rw [he] at hf
      subst hf
      obtain ⟨imp,node⟩ := m
      have ho : ∀ sel ∈ halves name, sel ≠ name → s.alive klass sel=none := by
        intro sel hs hne
        simp only [halves,mem_cons,not_mem_nil,or_false,hne,false_or] at hs
        exact hs ▸ hd
      cases node with
      | some n =>
        exact h.undefine hna hq (by simp [halves]) hcoo (fun heq => (ne_colon hna heq).elim) ho
      | none =>
        cases mustExist with
        | true => exact h.keeps hq.keeps
        | false =>
          -- A method that is already undefined.
          have hsa := fun sel => (hq.table sel).entry_eq
          apply h.rename hna hq.alone
          · exact fun sel _ => hsa sel
          · exact fun m hm => h.node hna m ((hsa _).symm.trans hm)
          · intro sel hs n hn
            rw [hsa] at hn
            by_cases hne : sel=name
            · rw [hne,he] at hn
              cases imp <;> simp [live] at hn
            · exact absurd ((ho sel hs hne).symm.trans hn) (by simp)
          · exact fun n argc hn => by simp at hn
    | none =>
      have hno : s.alive klass name=none := by
        unfold State.alive
        rw [he]
        rfl
      cases he' : entry klass (s.core.table (colon name)) with
      | some m =>
        rw [he,he'] at hf
        subst hf
        obtain ⟨imp,node⟩ := m
        cases node with
        | none => exact (h.node hna _ he' rfl).elim
        | some n =>
          apply h.undefine hna hq (by simp [halves]) (hco he)
          · intro
            rw [how _ _ rfl]
            simp
          · intro sel hs hne
            simp only [halves,mem_cons,not_mem_nil,hne,or_false] at hs
            exact hs ▸ hno
      | none =>
        rw [he,he'] at hf
        subst hf
        cases mustExist with
        | true => exact h.keeps hq.keeps
        | false =>
          apply h.undefine hna hq (by simp [halves])
          · rcases (h.alone.solo name).cache with hc | ⟨-,imp,n,hn⟩
            · exact hc
            · simp [entry,hn] at he
          · exact fun heq => (ne_colon hna heq).elim
          · intro sel hs hne
            simp only [halves,mem_cons,not_mem_nil,or_false,hne,false_or] at hs
            unfold State.alive
            rw [hs,he']
            rfl

lemma headSel_midToSel (hn : Named name) {argc : ℕ}
    (h : headSel (midToSel name argc) argc=some sel) : sel=midToSel name argc := by
  unfold headSel at h
  split at h
  · next hco =>
      obtain ⟨k,rfl⟩ : ∃ k, argc=k+1 := ⟨argc-1,by omega⟩
      rw [midToSel_succ hn] at h ⊢
      obtain ⟨rfl⟩ := h
      have ht : (colon name).takeWhile (· ≠ ':')=name := by
        unfold colon
        rw [takeWhile_append_of_pos fun c hc => by
          have hne : c ≠ ':' := fun he => hn.1 (he ▸ hc)
          simp [hne]]
        simp
      rw [ht]
      rfl
  · simp at h

lemma call_live (h : Agrees P klass s) (hp : Plain P klass) (hn : Named name) (self argc : ℕ) :
    (match s.alive klass (midToSel name argc) with
      | some n => (rbVmDispatch P s.core (callOf klass self name argc)).1=.ruby n argc
      | none => IsError (rbVmDispatch P s.core (callOf klass self name argc)).1) ∧
      Keeps P klass s.core (rbVmDispatch P s.core (callOf klass self name argc)).2 :=
  dispatch_live (c := callOf klass self name argc) h.alone hp fun _ hs => headSel_midToSel hn hs

lemma step_agrees (hp : Plain P klass) (s : State) (op : Op) (h : Agrees P klass s)
    (hh : Harmless klass s op) : Agrees P klass (step P klass s op) := by
  cases op with
  | define name req opt rest imp => exact define_agrees h hh
  | defineMethod name imp => exact defineMethod_agrees h hh
  | aliasName name old => exact alias_agrees h hh
  | undefName name mustExist => exact undef_agrees h hh
  | call self name argc => exact h.keeps (call_live h hp hh self argc).2

lemma begin_agrees (hp : Plain P klass) : Agrees P klass (begin P) := by
  have hna : ∀ sel, P.native sel klass=none :=
    fun sel => hp.native sel klass (P.tree.self_mem_chain klass)
  have he : ∀ sel, entry klass ((begin P).core.table sel)=none := by
    intro sel
    simp [begin,start,entry,hna]
  refine ⟨⟨rfl,?_⟩,?_,?_,?_⟩
  · intro sel
    refine ⟨?_,fun c _ => rfl,?_,.inl rfl⟩
    · intro c hc
      simp [begin,start,hp.native sel c hc]
    · intro imp
      simp [begin,start,hna]
  · intro name _ m hm
    simp [he] at hm
  · intro name _ sel _ n hn
    simp [State.alive,he,live] at hn
  · intro name _ n argc hn
    simp [begin] at hn

lemma Agrees.decides (h : Agrees P klass s) (hp : Plain P klass)
    (hn : Named name) (self argc : ℕ) : Decides (s.latest name) argc
      (outcome (rbVmDispatch P s.core (callOf klass self name argc)).1) := by
  have hl := (call_live h hp hn self argc).1
  have he : ∀ {e}, IsError e → outcome e=.argumentError ∨ outcome e=.noMethodError := by
    rintro e (rfl | rfl)
    · exact .inl rfl
    · exact .inr rfl
  cases ha : s.alive klass (midToSel name argc) with
  | some n =>
    -- Whatever is alive is the latest definition; it may still refuse the arguments.
    rw [ha] at hl
    have hla := h.stale hn _ (midToSel_mem_halves hn argc) n ha
    rw [hla,hl]
    unfold Decides outcome
    by_cases had : n.arity.admits argc=true <;> simp [had]
  | none =>
    rw [ha] at hl
    unfold Decides
    cases hla : s.latest name with
    | none => exact he hl
    | some n =>
      dsimp only
      split
      · next had =>
          have hs := h.served hn n argc hla had
          exact absurd (ha.symm.trans hs) (by simp)
      · exact he hl

theorem latest_definition_decides (P : Program) (klass : ℕ) (hplain : Plain P klass) (ops : List Op)
    (self : ℕ) (name : SEL) (argc : ℕ)
    (hharm : Along (step P klass) (Harmless klass) (begin P) (ops++[.call self name argc])) :
    Decides ((run (step P klass) (begin P) ops).latest name) argc
      (outcome (rbVmDispatch P (run (step P klass) (begin P) ops).core
        (callOf klass self name argc)).1) := by
  rw [along_append] at hharm
  have ha := run_invariant (step_agrees hplain) (begin_agrees hplain) hharm.1
  exact ha.decides hplain hharm.2.1 self argc

/-- `def f(a = 1)`, then `def f`: the call `f(1)` still runs the first. -/
theorem replaced_definition_runs : ¬Decides ((run (step twoClasses 0) (begin twoClasses)
        [.define ['f'] 0 1 false 1,.define ['f'] 0 0 false 2]).latest ['f']) 1
      (outcome (rbVmDispatch twoClasses (run (step twoClasses 0) (begin twoClasses)
        [.define ['f'] 0 1 false 1,.define ['f'] 0 0 false 2]).core (callOf 0 0 ['f'] 1)).1) := by
  decide

/-- `def f`, a call of it, then `def f(a = 1)` and the call `f(1)`. -/
theorem wider_definition_decides : (run (step twoClasses 0) (begin twoClasses)
        [.define ['f'] 0 0 false 1,.call 0 ['f'] 0,.define ['f'] 0 1 false 2]).latest ['f'] =
      some ⟨2,rbVmNodeArity 0 1 false⟩ ∧ Decides ((run (step twoClasses 0) (begin twoClasses)
        [.define ['f'] 0 0 false 1,.call 0 ['f'] 0,.define ['f'] 0 1 false 2]).latest ['f']) 1
      (outcome (rbVmDispatch twoClasses (run (step twoClasses 0) (begin twoClasses)
        [.define ['f'] 0 0 false 1,.call 0 ['f'] 0,.define ['f'] 0 1 false 2]).core
          (callOf 0 0 ['f'] 1)).1) := by
  have hp : Plain twoClasses 0 := ⟨fun _ _ _ => rfl,fun _ _ => rfl,fun _ => rfl⟩
  have hn : Named ['f'] := by decide
  refine ⟨by decide,latest_definition_decides twoClasses 0 hp _ 0 ['f'] 1 ?_⟩
  refine ⟨⟨hn,?_⟩,hn,⟨hn,?_⟩,hn,trivial⟩
  · exact fun sel _ _ => rfl
  · have hs : halves ['f'] ⊆ defSels ['f'] (rbVmNodeArity 0 1 false) := by decide
    exact fun sel hse hno => (hno (hs hse)).elim
end MacRuby.MethodArity
