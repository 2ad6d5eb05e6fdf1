import MacRuby.ClassTree
import MacRuby.Runs
import MacRuby.SearchPath

/-!
# Constants and their cache

A constant is looked for in the modules around a class, if the lookup is a
lexical one, and then in the class and its superclasses, each with its included
modules. There is one cache for each name. It holds a value and the class the
lookup started from, and it is emptied only when a constant of that name is
defined. Removing a constant and including a module leave it alone, and the kind
of the lookup is not part of it. `depth` measures how deep modules are nested.
-/
namespace MacRuby.ConstantCache
open Runs SearchPath Function List

abbrev ID := ℕ

inductive Kind
  | klass
  | mod
  | other
deriving DecidableEq, Repr

inductive ConstError
  | stackOverflow
  | typeError
  | nameError
deriving DecidableEq, Repr

/-- What does not change during a run. `outers` are the classes around a class, from
itself outwards; `objcClass` is `objc_getClass` for pure Objective-C classes, and
`constMissing` the method of that name, without a value when it raises. -/
structure Program (V : Type*) where
  tree : ClassTree
  kind : ℕ → Kind
  object : ℕ
  nsObject : ℕ
  outers : ℕ → List ℕ
  objcClass : ID → Option V
  constMissing : ℕ → ID → Option V
  stack : ℕ
  depth : ℕ → ℕ
  depth_lt : ∀ k, depth k < stack

/-- The constants and the included modules of each class and module. -/
structure Tables (V : Type*) where
  consts : ℕ → ID → Option V
  included : ℕ → List ℕ

variable {V α : Type*}

section Search
variable (P : Program V) (included : ℕ → List ℕ) (entry : ℕ → Option α)

def firstFound (search : ℕ → Except ConstError (Option α)) :
    List ℕ → Except ConstError (Option α)
  | [] => .ok none
  | m::ms => match search m with
      | .error e => .error e
      | .ok (some a) => .ok (some a)
      | .ok none => firstFound search ms

/-- `rb_const_get_direct`, with what is left of the stack. -/
def rbConstGetDirect : ℕ → ℕ → Except ConstError (Option α)
  | 0,_ => .error .stackOverflow
  | stack+1,klass => match entry klass with
      | some a => .ok (some a)
      | none => firstFound (rbConstGetDirect stack) (included klass)

/-- One class of the loop of `rb_const_get_0`: its own constants, then those of the
modules that it includes itself. -/
def constGetOwn (tmp : ℕ) : Option α :=
  match entry tmp with
  | some a => some a
  | none => (included tmp).findSome? entry

/-- The loop of `rb_const_get_0`; a module is followed by `Object`. -/
def constGetHierarchy (klass : ℕ) : Option α :=
  match (P.tree.chain klass).findSome? (constGetOwn included entry) with
  | some a => some a
  | none =>
    if P.kind klass=.mod then
      (P.tree.chain P.object).findSome? (constGetOwn included entry)
    else none

/-- The lexical part of `rb_vm_const_lookup`. -/
def constGetLexical (outer : ℕ) : Except ConstError (Option α) :=
  firstFound (rbConstGetDirect included entry P.stack)
    ((P.outers outer).takeWhile fun o => o ≠ P.nsObject)

def constSearch (outer : ℕ) (lexical : Bool) : Except ConstError (Option α) :=
  if lexical then
    match constGetLexical P included entry outer with
    | .error e => .error e
    | .ok (some a) => .ok (some a)
    | .ok none => .ok (constGetHierarchy P included entry outer)
  else .ok (constGetHierarchy P included entry outer)

end Search

variable (P : Program V)

def Tables.entry (T : Tables V) (id : ID) (klass : ℕ) : Option V := T.consts klass id

def Tables.setConst (T : Tables V) (klass : ℕ) (id : ID) (v : Option V) : Tables V :=
  {T with consts := update T.consts klass (update (T.consts klass) id v)}

def retrieveDynamicObjcClass (klass : ℕ) (id : ID) : Option V :=
  if klass=P.object then P.objcClass id else none

/-- `check_if_module` and `rb_vm_const_lookup`: a value or an exception, and the
tables, to which an Objective-C class may have been added. -/
def rbVmConstLookup (T : Tables V) (outer : ℕ) (id : ID) (lexical : Bool) :
    Except ConstError V × Tables V :=
  if P.kind outer=.other then (.error .typeError,T)
  else match constSearch P T.included (T.entry id) outer lexical with
    | .error e => (.error e,T)
    | .ok (some v) => (.ok v,T)
    | .ok none => match retrieveDynamicObjcClass P outer id with
        | some k => (.ok k,T.setConst outer id (some k))
        | none => match P.constMissing outer id with
            | some v => (.ok v,T)
            | none => (.error .nameError,T)

/-- `struct ccache`; no value is `Qundef`. `lexical` records the kind of the lookup
that filled it, which the code does not keep. -/
structure CCache (V : Type*) where
  outer : Option ℕ
  val : Option V
  lexical : Bool

structure State (V : Type*) where
  tables : Tables V
  cache : ID → CCache V

/-- The cache of a name after `const_defined`. -/
def constDefined (cache : ID → CCache V) (id : ID) : ID → CCache V :=
  update cache id {cache id with val := none}

def rbConstSet (s : State V) (klass : ℕ) (id : ID) (v : V) : State V :=
  ⟨s.tables.setConst klass id (some v),constDefined s.cache id⟩

/-- `rb_mod_remove_const`; a name that is not there is an error. -/
def rbModRemoveConst (s : State V) (mod : ℕ) (id : ID) : State V :=
  match s.tables.consts mod id with
  | none => s
  | some _ => {s with tables := s.tables.setConst mod id none}

/-- `rb_include_module`; what is not a module is an error. -/
def rbIncludeModule (s : State V) (klass mod : ℕ) : State V :=
  if P.kind mod ≠ .mod ∨ mod ∈ s.tables.included klass then s
  else {s with tables := {s.tables with
    included := update s.tables.included klass (mod::s.tables.included klass)}}

/-- `rb_vm_get_const`, for the outer class that it decides on. -/
def rbVmGetConst (s : State V) (outer : ℕ) (lexical : Bool) (id : ID) :
    Except ConstError V × State V :=
  match (s.cache id).val,decide ((s.cache id).outer=some outer) with
  | some v,true => (.ok v,s)
  | _,_ => match rbVmConstLookup P s.tables outer id lexical with
      | (.error e,T) => (.error e,{s with tables := T})
      | (.ok v,T) => (.ok v,⟨T,update s.cache id ⟨some outer,some v,lexical⟩⟩)

inductive Op (V : Type*)
  | constSet (klass : ℕ) (id : ID) (v : V)
  | removeConst (mod : ℕ) (id : ID)
  | includeModule (klass mod : ℕ)
  | getConst (outer : ℕ) (lexical : Bool) (id : ID)

def step (P : Program V) (s : State V) : Op V → State V
  | .constSet klass id v => rbConstSet s klass id v
  | .removeConst mod id => rbModRemoveConst s mod id
  | .includeModule klass mod => rbIncludeModule P s klass mod
  | .getConst outer lexical id => (rbVmGetConst P s outer lexical id).2

def start : State V := ⟨⟨fun _ _ => none,fun _ => []⟩,fun _ => ⟨none,none,false⟩⟩

def Transparent (P : Program V) (s : State V) (outer : ℕ) (lexical : Bool) (id : ID) : Prop :=
  (rbVmGetConst P s outer lexical id).1=(rbVmConstLookup P s.tables outer id lexical).1

variable (P : Program V) (included : ℕ → List ℕ)

/-- The order in which `rb_const_get_direct` goes through a class. -/
def directPath : ℕ → ℕ → List ℕ
  | 0,_ => []
  | stack+1,klass => klass::(included klass).flatMap (directPath stack)

def ownPath (klass : ℕ) : List ℕ := klass::included klass

def hierarchyPath (klass : ℕ) : List ℕ :=
  (P.tree.chain klass).flatMap (ownPath included)++
    if P.kind klass=.mod then (P.tree.chain P.object).flatMap (ownPath included) else []

def lexicalPath (outer : ℕ) : List ℕ :=
  ((P.outers outer).takeWhile fun o => o ≠ P.nsObject).flatMap (directPath included P.stack)

def searchPath (outer : ℕ) (lexical : Bool) : List ℕ :=
  (if lexical then lexicalPath P included outer else [])++hierarchyPath P included outer

def Nested : Prop := ∀ k, ∀ m ∈ included k, P.depth m < P.depth k

variable {P included} (entry : ℕ → Option α)

lemma firstFound_eq {search : ℕ → Except ConstError (Option α)} {path : ℕ → List ℕ}
    {ms : List ℕ} (h : ∀ m ∈ ms, search m=.ok ((path m).findSome? entry)) :
    firstFound search ms=.ok ((ms.flatMap path).findSome? entry) := by
  induction ms with
  | nil => rfl
  | cons m ms ih =>
    rw [firstFound,h m mem_cons_self,flatMap_cons,findSome?_append]
    cases (path m).findSome? entry with
    | some a => rfl
    | none => exact ih fun j hj => h j (mem_cons_of_mem m hj)

lemma rbConstGetDirect_eq (h : Nested P included) {stack klass : ℕ} (hs : P.depth klass < stack) :
    rbConstGetDirect included entry stack klass =
      .ok ((directPath included stack klass).findSome? entry) := by
  induction stack generalizing klass with
  | zero => omega
  | succ stack ih =>
    rw [rbConstGetDirect,directPath,findSome?_cons]
    cases entry klass with
    | some a => rfl
    | none =>
      apply firstFound_eq
      intro m hm
      have hl := h klass m hm
      exact ih (by omega)

lemma constGetOwn_eq (tmp : ℕ) :
    constGetOwn included entry tmp=(ownPath included tmp).findSome? entry := by
  cases entry tmp <;> rfl

lemma constGetHierarchy_eq (klass : ℕ) : constGetHierarchy P included entry klass =
      (hierarchyPath P included klass).findSome? entry := by
  have ho : constGetOwn included entry=fun tmp => (ownPath included tmp).findSome? entry :=
    funext (constGetOwn_eq entry)
  rw [constGetHierarchy,hierarchyPath,findSome?_append,findSome_flatMap,ho]
  cases (P.tree.chain klass).findSome? fun tmp => (ownPath included tmp).findSome? entry with
  | some a => rfl
  | none =>
    split_ifs with hm
    · simp only [findSome_flatMap,Option.none_or]
    · simp only [findSome?_nil,Option.none_or]

lemma constSearch_eq (h : Nested P included) (outer : ℕ) (lexical : Bool) :
    constSearch P included entry outer lexical =
      .ok ((searchPath P included outer lexical).findSome? entry) := by
  have hl : constGetLexical P included entry outer =
      .ok ((lexicalPath P included outer).findSome? entry) :=
    firstFound_eq entry fun m _ => rbConstGetDirect_eq entry h (P.depth_lt m)
  cases lexical with
  | false =>
    rw [constSearch,constGetHierarchy_eq]
    rfl
  | true =>
    rw [constSearch,searchPath,hl,constGetHierarchy_eq,if_pos rfl,if_pos rfl, findSome?_append]
    cases (lexicalPath P included outer).findSome? entry <;> rfl

variable (P)

def constValue (T : Tables V) (outer : ℕ) (id : ID) (lexical : Bool) : Option V :=
  ((searchPath P T.included outer lexical).findSome? (T.entry id)).or
    ((retrieveDynamicObjcClass P outer id).or (P.constMissing outer id))

variable {P}

lemma rbVmConstLookup_eq {T : Tables V} (h : Nested P T.included) {outer : ℕ}
    (hk : P.kind outer ≠ .other) (id : ID) (lexical : Bool) :
    (rbVmConstLookup P T outer id lexical).1 =
      (constValue P T outer id lexical).elim (.error .nameError) .ok := by
  rw [rbVmConstLookup,if_neg hk,constSearch_eq (T.entry id) h,constValue]
  cases (searchPath P T.included outer lexical).findSome? (T.entry id) with
  | some v => rfl
  | none =>
    cases retrieveDynamicObjcClass P outer id with
    | some k => rfl
    | none => cases hm : P.constMissing outer id <;> simp

variable {klass mod : ℕ} {stack c : ℕ}

lemma nested_include (h : Nested P included) (hd : P.depth mod < P.depth klass) :
    Nested P (update included klass (mod::included klass)) := by
  intro k m hm
  by_cases hk : k=klass
  · rw [hk,update_self] at hm
    rcases mem_cons.mp hm with rfl | hm
    · rwa [hk]
    · exact hk ▸ h klass m hm
  · rw [update_of_ne hk] at hm
    exact h k m hm

lemma directPath_include_of_lt (h : Nested P included) (mods : List ℕ) (stack : ℕ)
    (hc : P.depth c < P.depth klass) :
    directPath (update included klass mods) stack c=directPath included stack c := by
  induction stack generalizing c with
  | zero => rfl
  | succ stack ih =>
    have hn : c ≠ klass := by
      intro hck
      rw [hck] at hc
      omega
    rw [directPath,update_of_ne hn]
    apply congrArg (c::·)
    exact flatMap_congr fun m hm => ih ((h c m hm).trans hc)

lemma directPath_mono {stack' : ℕ} (hl : stack ≤ stack') {j : ℕ}
    (hj : j ∈ directPath included stack c) : j ∈ directPath included stack' c := by
  induction stack generalizing stack' c with
  | zero => simp [directPath] at hj
  | succ stack ih =>
    obtain ⟨n,rfl⟩ : ∃ n, stack'=n+1 := ⟨stack'-1,by omega⟩
    rw [directPath,mem_cons,mem_flatMap] at hj ⊢
    apply hj.imp_right
    rintro ⟨m,hm,hjm⟩
    exact ⟨m,hm,ih (by omega) hjm⟩

lemma self_mem_directPath (P : Program V) (c : ℕ) : c ∈ directPath included P.stack c := by
  have hl := P.depth_lt c
  obtain ⟨n,hn⟩ : ∃ n, P.stack=n+1 := ⟨P.stack-1,by omega⟩
  rw [hn]
  exact mem_cons_self

/-- What an inclusion adds to the lookups is the module and what it includes. -/
def Added (P : Program V) (included : ℕ → List ℕ) (mod j : ℕ) : Prop :=
  j ∈ directPath included P.stack mod

lemma directPath_expands (h : Nested P included) (hd : P.depth mod < P.depth klass)
    (hl : stack ≤ P.stack) (c : ℕ) :
    Expands klass (Added P included mod) (directPath included stack c)
      (directPath (update included klass (mod::included klass)) stack c) := by
  induction stack generalizing c with
  | zero => exact .nil
  | succ stack ih =>
    have hr := Expands.flatMap (l := included c) fun m _ => ih (by omega) m
    rw [directPath,directPath]
    by_cases hc : c=klass
    · subst hc
      rw [update_self,flatMap_cons,directPath_include_of_lt h _ _ hd]
      exact .insert (fun j hj => directPath_mono (by omega) hj) hr
    · rw [update_of_ne hc]
      exact .keep hr

lemma ownPath_expands (c : ℕ) : Expands klass (Added P included mod) (ownPath included c)
      (ownPath (update included klass (mod::included klass)) c) := by
  unfold ownPath
  by_cases hc : c=klass
  · subst hc
    rw [update_self]
    have hs : ∀ j ∈ [mod], Added P included mod j := by
      intro j hj
      rw [mem_singleton.mp hj]
      exact self_mem_directPath P mod
    exact .insert hs (.refl _)
  · rw [update_of_ne hc]
    exact .refl _

lemma searchPath_expands (h : Nested P included) (hd : P.depth mod < P.depth klass)
    (outer : ℕ) (lexical : Bool) :
    Expands klass (Added P included mod) (searchPath P included outer lexical)
      (searchPath P (update included klass (mod::included klass)) outer lexical) := by
  have hc : ∀ k, Expands klass (Added P included mod) ((P.tree.chain k).flatMap (ownPath included))
      ((P.tree.chain k).flatMap (ownPath (update included klass (mod::included klass)))) :=
    fun k => .flatMap fun c _ => ownPath_expands c
  apply Expands.append
  · cases lexical with
    | false => exact .nil
    | true => exact .flatMap fun c _ => directPath_expands h hd le_rfl c
  · apply (hc outer).append
    split_ifs with hm
    · exact hc P.object
    · exact .nil

variable (P)
variable {s : State V} {id id' : ID} {outer : ℕ} {lexical : Bool} {T' T : Tables V}

/-- The cache of `id` holds `v`, found by a lookup from `outer`. -/
def Filled (s : State V) (id : ID) (outer : ℕ) (v : V) (lexical : Bool) : Prop :=
  s.cache id=⟨some outer,some v,lexical⟩

/-- Every cached value is what its lookup would find now. -/
structure Coherent (s : State V) : Prop where
  nested : Nested P s.tables.included
  fresh : ∀ {id outer v lexical}, Filled s id outer v lexical →
    P.kind outer ≠ .other ∧ constValue P s.tables outer id lexical=some v

/-- A removed constant is not the one that the filled cache stands for. An included
module makes no cycle, and for every filled cache it is either not tried before
the constant that was found, or it and what it includes have no constant of that
name. A cached value is used by a lookup of the other kind only when both kinds end
in the same class. -/
def Harmless (s : State V) : Op V → Prop
  | .constSet _ _ _ => True
  | .removeConst mod id => ∀ outer v lexical, Filled s id outer v lexical →
      holder (s.tables.entry id) (searchPath P s.tables.included outer lexical) ≠ some mod
  | .includeModule klass mod => P.depth mod < P.depth klass ∧
      ∀ id outer v lexical, Filled s id outer v lexical →
        klass ∉ passed (s.tables.entry id) (searchPath P s.tables.included outer lexical) ∨
          ∀ j, Added P s.tables.included mod j → s.tables.entry id j=none
  | .getConst outer lexical id => ∀ v lexical', Filled s id outer v lexical' →
      holder (s.tables.entry id) (searchPath P s.tables.included outer lexical') =
        holder (s.tables.entry id) (searchPath P s.tables.included outer lexical)

variable {P}

lemma entry_setConst_self (T : Tables V) (klass : ℕ) (id : ID) (v : Option V) :
    (T.setConst klass id v).entry id=update (T.entry id) klass v := by
  funext k
  by_cases hk : k=klass <;> simp [Tables.entry,Tables.setConst,hk]

lemma entry_setConst_of_ne (T : Tables V) (klass : ℕ) (h : id' ≠ id)
    (v : Option V) : (T.setConst klass id v).entry id'=T.entry id' := by
  funext k
  by_cases hk : k=klass
  · simp [Tables.entry,Tables.setConst,hk,h]
  · simp [Tables.entry,Tables.setConst,hk]

lemma constValue_congr (h : (searchPath P T'.included outer lexical).findSome? (T'.entry id) =
      (searchPath P T.included outer lexical).findSome? (T.entry id)) :
    constValue P T' outer id lexical=constValue P T outer id lexical := by
  rw [constValue,constValue,h]

lemma constValue_setConst_of_ne (T : Tables V) (klass outer : ℕ) (h : id' ≠ id)
    (v : Option V) (lexical : Bool) : constValue P (T.setConst klass id v) outer id' lexical =
      constValue P T outer id' lexical := by
  apply constValue_congr
  rw [entry_setConst_of_ne T klass h v]
  rfl

lemma coherent_start : Coherent P (start : State V) :=
  ⟨fun _ _ hm => by simp [start] at hm,fun h => by simp [Filled,start] at h⟩

lemma constSet_coherent (h : Coherent P s) (klass : ℕ) (id : ID) (v : V) :
    Coherent P (rbConstSet s klass id v) := by
  refine ⟨h.nested,?_⟩
  intro id' outer w lexical hf
  by_cases hi : id'=id
  · -- the cache of this name has just been emptied
    simp [Filled,rbConstSet,constDefined,hi] at hf
  · have hold : Filled s id' outer w lexical := by
      simpa [Filled,rbConstSet,constDefined,hi] using hf
    have hfr := h.fresh hold
    exact ⟨hfr.1,(constValue_setConst_of_ne _ _ _ hi _ _).trans hfr.2⟩

lemma removeConst_coherent (h : Coherent P s)
    (hh : Harmless P s (.removeConst mod id)) : Coherent P (rbModRemoveConst s mod id) := by
  unfold rbModRemoveConst
  cases s.tables.consts mod id with
  | none => exact h
  | some _ =>
    refine ⟨h.nested,?_⟩
    intro id' outer w lexical hf
    have hfr := h.fresh hf
    refine ⟨hfr.1,.trans ?_ hfr.2⟩
    by_cases hi : id'=id
    · subst hi
      apply constValue_congr
      rw [entry_setConst_self]
      exact findSome_remove (hh outer w lexical hf)
    · exact constValue_setConst_of_ne _ _ _ hi _ _

lemma includeModule_coherent (h : Coherent P s) {klass : ℕ}
    (hh : Harmless P s (.includeModule klass mod)) :
    Coherent P (rbIncludeModule P s klass mod) := by
  unfold rbIncludeModule
  split
  · exact h
  · refine ⟨nested_include h.nested hh.1,?_⟩
    intro id outer w lexical hf
    have hfr := h.fresh hf
    refine ⟨hfr.1,.trans ?_ hfr.2⟩
    apply constValue_congr
    exact (searchPath_expands h.nested hh.1 outer lexical).findSome (hh.2 id outer w lexical hf)

/-- An Objective-C class that is found becomes a constant of `Object`, and the search
finds it there from then on. -/
lemma constValue_after_lookup (h : Nested P T.included) {v : V}
    (hl : rbVmConstLookup P T outer id lexical=(.ok v,T')) :
    T'.included=T.included ∧ P.kind outer ≠ .other ∧ constValue P T' outer id lexical=some v ∧
      ∀ {id' : ID}, id' ≠ id → ∀ outer' lexical',
        constValue P T' outer' id' lexical'=constValue P T outer' id' lexical' := by
  have hk : P.kind outer ≠ .other := by
    intro hk
    simp [rbVmConstLookup,hk] at hl
  have hv := rbVmConstLookup_eq h hk id lexical
  rw [hl] at hv
  rw [rbVmConstLookup,if_neg hk,constSearch_eq (T.entry id) h] at hl
  have hs : constValue P T outer id lexical=some v := by
    cases hc : constValue P T outer id lexical with
    | none => simp [hc] at hv
    | some w =>
      simp only [hc,Option.elim_some,Except.ok.injEq] at hv
      rw [hv]
  cases hf : (searchPath P T.included outer lexical).findSome? (T.entry id) with
  | some w =>
    simp only [hf,Prod.mk.injEq] at hl
    rw [← hl.2]
    exact ⟨rfl,hk,hs,fun _ _ _ => rfl⟩
  | none =>
    cases ho : retrieveDynamicObjcClass P outer id with
    | some k =>
      simp only [hf,ho,Prod.mk.injEq,Except.ok.injEq] at hl
      obtain ⟨rfl,rfl⟩ := hl
      refine ⟨rfl,hk,?_,fun hi _ _ => constValue_setConst_of_ne _ _ _ hi _ _⟩
      have hse : outer ∈ searchPath P T.included outer lexical := by
        apply mem_append_right
        apply mem_append_left
        rw [mem_flatMap]
        exact ⟨outer,P.tree.self_mem_chain outer,mem_cons_self⟩
      rw [constValue,entry_setConst_self]
      rw [show (T.setConst outer id (some k)).included=T.included from rfl, findSome_add hf hse k]
      rfl
    | none =>
      cases hm : P.constMissing outer id with
      | none => simp [hf,ho,hm] at hl
      | some w =>
        simp only [hf,ho,hm,Prod.mk.injEq] at hl
        rw [← hl.2]
        exact ⟨rfl,hk,hs,fun _ _ _ => rfl⟩

lemma tables_of_lookup_error
    {e : ConstError} (hl : rbVmConstLookup P T outer id lexical=(.error e,T')) : T'=T := by
  unfold rbVmConstLookup at hl
  split at hl
  · exact (Prod.mk.inj hl).2.symm
  split at hl
  · exact (Prod.mk.inj hl).2.symm
  · simp at hl
  split at hl
  · simp at hl
  split at hl
  · simp at hl
  · exact (Prod.mk.inj hl).2.symm

lemma getConst_coherent (h : Coherent P s) (outer : ℕ) (lexical : Bool)
    (id : ID) : Coherent P (rbVmGetConst P s outer lexical id).2 := by
  unfold rbVmGetConst
  split
  · exact h
  · cases hl : rbVmConstLookup P s.tables outer id lexical with
    | mk r T => cases r with
      | error e =>
        rw [tables_of_lookup_error hl]
        exact h
      | ok v =>
        have ha := constValue_after_lookup h.nested hl
        refine ⟨ha.1 ▸ h.nested,?_⟩
        intro id' outer' w lexical' hf
        by_cases hi : id'=id
        · subst hi
          simp only [Filled,update_self] at hf
          obtain ⟨rfl,rfl,rfl⟩ := hf
          exact ⟨ha.2.1,ha.2.2.1⟩
        · have hold : Filled s id' outer' w lexical' := by
            simpa [Filled,hi] using hf
          have hfr := h.fresh hold
          exact ⟨hfr.1,(ha.2.2.2 hi _ _).trans hfr.2⟩

lemma step_coherent (s : State V) (op : Op V) (h : Coherent P s) (hh : Harmless P s op) :
    Coherent P (step P s op) := by
  cases op with
  | constSet klass id v => exact constSet_coherent h klass id v
  | removeConst mod id => exact removeConst_coherent h hh
  | includeModule klass mod => exact includeModule_coherent h hh
  | getConst outer lexical id => exact getConst_coherent h outer lexical id

lemma coherent_transparent (h : Coherent P s) (hh : Harmless P s (.getConst outer lexical id)) :
    Transparent P s outer lexical id := by
  unfold Transparent rbVmGetConst
  split
  · next v hva ho =>
      have hf : Filled s id outer v (s.cache id).lexical := by
        rw [Filled,← of_decide_eq_true ho,← hva]
      have hfr := h.fresh hf
      have hs := hh v _ hf
      have hv : constValue P s.tables outer id lexical=some v := by
        rw [← hfr.2,constValue,constValue,findSome_eq_holder,findSome_eq_holder,hs]
      rw [rbVmConstLookup_eq h.nested hfr.1,hv]
      rfl
  · cases hl : rbVmConstLookup P s.tables outer id lexical with
    | mk r T => cases r <;> rfl

/-- In a run whose steps are harmless, every lookup through the cache gives what it
would give without it. -/
theorem get_const_transparent (P : Program V) {ops : List (Op V)} {outer : ℕ} {lexical : Bool}
    {id : ID} (h : Along (step P) (Harmless P) start (ops++[.getConst outer lexical id])) :
    Transparent P (run (step P) start ops) outer lexical id := by
  rw [along_append] at h
  have hc := run_invariant step_coherent coherent_start h.1
  exact coherent_transparent hc h.2.1

/-- `Object`, the class `A` numbered 1 and the module `M` numbered 2. -/
def oneClass : Program ℕ where
  tree := .pair
  kind k := if k=2 then .mod else .klass
  object := 0
  nsObject := 0
  outers k := [k]
  objcClass _ := none
  constMissing _ _ := none
  stack := 3
  depth k := if k=2 then 0 else 1
  depth_lt k := by split <;> omega

/-- `A::X` is defined, looked up and removed; the cache still has it. -/
theorem removed_constant_is_found : ¬Transparent oneClass
      (run (step oneClass) start [.constSet 1 0 7,.getConst 1 true 0,.removeConst 1 0])
      1 true 0 := by
  unfold Transparent
  decide

/-- `A::X` and `M::X` are defined, `X` is looked up in `A`, and `A` includes `M`. -/
def includeAfterLookup : List (Op ℕ) :=
  [.constSet 1 0 7,.constSet 2 0 8,.getConst 1 true 0,.includeModule 1 2]

lemma filled_after_lookup {id outer v : ℕ} {lexical : Bool}
    (h : Filled (run (step oneClass) start (includeAfterLookup.take 3)) id outer v lexical) :
    id=0 ∧ outer=1 ∧ lexical=true := by
  have hc : (run (step oneClass) start (includeAfterLookup.take 3)).cache =
      update (constDefined (constDefined start.cache 0) 0) 0 ⟨some 1,some 7,true⟩ := rfl
  rw [Filled,hc] at h
  by_cases hi : id=0
  · simp only [hi,update_self,CCache.mk.injEq,Option.some.injEq] at h
    exact ⟨hi,h.1.symm,h.2.2.symm⟩
  · simp [constDefined,start,hi] at h

theorem own_constant_found_after_inclusion :
    Transparent oneClass (run (step oneClass) start includeAfterLookup) 1 true 0 := by
  apply get_const_transparent
  refine ⟨trivial,trivial,?_,⟨by decide,?_⟩,?_,trivial⟩
  · intro v lexical hf
    simp [Filled,step,rbConstSet,constDefined] at hf
  · intro id outer v lexical hf
    obtain ⟨rfl,rfl,rfl⟩ := filled_after_lookup hf
    exact .inl (by decide)
  · intro v lexical hf
    -- an inclusion leaves the cache alone
    have hb : Filled (run (step oneClass) start (includeAfterLookup.take 3)) 0 1 v lexical :=
      hf
    rw [(filled_after_lookup hb).2.2]
end MacRuby.ConstantCache
