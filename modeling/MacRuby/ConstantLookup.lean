import MacRuby.ClassTree

/-!
# Constants that are defined and constants that are found

`rb_const_get` and `rb_const_defined` go through a class and its superclasses, and
for a module then through `Object` and its superclasses. The first one looks into
the class's table and then into those of the modules that the class includes. The
second one looks into the tables of the classes only.

An entry can be `Qundef`, which stands for an autoload. `rb_const_get` loads its
file and looks again, or removes the entry and goes on. `rb_const_defined` stops at
the entry and asks for the file of the class it started from.
-/
namespace MacRuby.ConstantLookup

abbrev ID := ℕ

/-- An entry of a table; `undef` is `Qundef`. -/
inductive Slot (V : Type)
  | value (v : V)
  | undef
deriving DecidableEq

def write {α : Type} (f : ℕ → ID → α) (c : ℕ) (id : ID) (x : α) (c' : ℕ) (id' : ID) : α :=
  if c'=c ∧ id'=id then x else f c' id'

lemma write_self {α : Type} (f : ℕ → ID → α) (c : ℕ) (id : ID) (x : α) : write f c id x c id=x :=
  if_pos ⟨rfl,rfl⟩

lemma write_of_ne {α : Type} (f : ℕ → ID → α) {c c' : ℕ} (id : ID) (x : α) (h : c' ≠ c) :
    write f c id x c' id=f c' id := if_neg fun he => h he.1

/-- The constants, the files of the `__autoload__` tables and the included modules. A file
is registered together with a `Qundef`. -/
structure Tables (V F : Type) where
  consts : ℕ → ID → Option (Slot V)
  autoload : ℕ → ID → Option F
  included : ℕ → List ℕ
  registered : ∀ {c id f}, autoload c id=some f → consts c id=some .undef

variable {V F E : Type}

namespace Tables
variable (T : Tables V F)

def autoloadDelete (c : ℕ) (id : ID) : Tables V F where
  consts := write T.consts c id none
  autoload := write T.autoload c id none
  included := T.included
  registered := by
    intro c' id' f h
    unfold write at h ⊢
    split_ifs at h ⊢ with heq
    exact T.registered h

/-- A file that is loaded already is taken from the `__autoload__` table. -/
def dropFile (c : ℕ) (id : ID) : Tables V F where
  consts := T.consts
  autoload := write T.autoload c id none
  included := T.included
  registered := by
    intro c' id' f h
    unfold write at h
    split_ifs at h with heq
    exact T.registered h

/-- `rb_const_set` of a value. -/
def rbConstSet (c : ℕ) (id : ID) (v : V) : Tables V F where
  consts := write T.consts c id (some (.value v))
  autoload := write T.autoload c id none
  included := T.included
  registered := by
    intro c' id' f h
    unfold write at h ⊢
    split_ifs at h ⊢ with heq
    exact T.registered h

end Tables

/-- What the lookups depend on. `objcClass` is `objc_getClass` for pure Objective-C
classes; `require` is `rb_require_safe`, which runs a file. -/
structure Env (V F E : Type) where
  tree : ClassTree
  isModule : ℕ → Bool
  object : ℕ
  objcClass : ID → Option V
  provided : F → Bool
  require : F → Tables V F → Except E (Bool × Tables V F)

/-- A file is not loaded twice, and a file that is registered for a constant defines it. -/
structure Autoloads (env : Env V F E) (T : Tables V F) : Prop where
  once : ∀ f T', env.provided f=true → env.require f T'=.ok (false,T')
  defines : ∀ c id f, T.autoload c id=some f → env.provided f=false →
    ∀ T', ∃ T'' v, env.require f T'=.ok (true,T'') ∧ T''.consts c id=some (.value v)

variable (env : Env V F E) (id : ID)

/-- The classes that the loops go through; `goto retry` starts over with `Object`. -/
def searchPath (klass : ℕ) : List ℕ :=
  env.tree.chain klass++if env.isModule klass then env.tree.chain env.object else []

def retrieveDynamicObjcClass (klass : ℕ) : Option V :=
  if klass=env.object then env.objcClass id else none

def rbAutoloadLoad (T : Tables V F) (c : ℕ) : Except E (Bool × Tables V F) :=
  match T.autoload c id with
  | none => .ok (false,T.autoloadDelete c id)
  | some f => env.require f (T.autoloadDelete c id)

def autoloadFile (T : Tables V F) (c : ℕ) : Option F × Tables V F :=
  match T.autoload c id with
  | none => (none,T)
  | some f => if env.provided f then (none,T.dropFile c id) else (some f,T)

/-- What a lookup comes to; `undef` is `Qundef` given out as a value, `missing` is a call
of `const_missing`. -/
inductive Outcome (V E : Type)
  | value (v : V)
  | undef
  | missing
  | raised (e : E)

inductive Walk (V F E : Type)
  | ends (o : Outcome V E) (T : Tables V F)
  | goes (T : Tables V F)

/-- The inner `while` loop of `rb_const_get_0`; without a result when the rounds run out. -/
def ownLoop : ℕ → Tables V F → ℕ → Option (Walk V F E)
  | 0,_,_ => none
  | rounds+1,T,tmp => match T.consts tmp id with
      | none => some (.goes T)
      | some (.value v) => some (.ends (.value v) T)
      | some .undef => match rbAutoloadLoad env id T tmp with
          | .error e => some (.ends (.raised e) T)
          | .ok (false,T') => some (.goes T')
          | .ok (true,T') => ownLoop rounds T' tmp

def modulesLoop (T : Tables V F) : List ℕ → Walk V F E
  | [] => .goes T
  | m::ms => match T.consts m id with
      | some (.value v) => .ends (.value v) T
      | some .undef => .ends .undef T
      | none => modulesLoop T ms

def classLoop (rounds : ℕ) : List ℕ → Tables V F → Option (Walk V F E)
  | [],T => some (.goes T)
  | tmp::path,T => match ownLoop env id rounds T tmp with
      | none => none
      | some (.ends o T') => some (.ends o T')
      | some (.goes T') => match modulesLoop id T' (T'.included tmp) with
          | .ends o T'' => some (.ends o T'')
          | .goes T'' => classLoop rounds path T''

def rbConstGet (rounds : ℕ) (T : Tables V F) (klass : ℕ) : Option (Outcome V E × Tables V F) :=
  match classLoop env id rounds (searchPath env klass) T with
  | none => none
  | some (.ends o T') => some (o,T')
  | some (.goes T') => match retrieveDynamicObjcClass env id klass with
      | some k => some (.value k,T'.rbConstSet klass id k)
      | none => some (.missing,T')

/-- The loop of `rb_const_defined_0`. -/
def definedLoop (T : Tables V F) (klass : ℕ) : List ℕ → Option (Bool × Tables V F)
  | [] => none
  | tmp::path => match T.consts tmp id with
      | none => definedLoop T klass path
      | some (.value _) => some (true,T)
      | some .undef => some ((autoloadFile env id T klass).1.isSome,(autoloadFile env id T klass).2)

def rbConstDefined (T : Tables V F) (klass : ℕ) : Bool × Tables V F :=
  match definedLoop env id T klass (searchPath env klass) with
  | some r => r
  | none => match retrieveDynamicObjcClass env id klass with
      | some k => (true,T.rbConstSet klass id k)
      | none => (false,T)

def loadable (T : Tables V F) (c : ℕ) : Bool := (T.autoload c id).any fun f => !env.provided f

/-- Where the search of `rb_const_get` ends: at a value in a class's own table, at an
autoload of a class that can be loaded, or at an entry of an included module. -/
inductive Ending (V : Type)
  | held (c : ℕ)
  | loaded (c : ℕ)
  | inModule (slot : Slot V)
  | nowhere

def ownEnding (T : Tables V F) (c : ℕ) : Option (Ending V) :=
  match T.consts c id with
  | none => none
  | some (.value _) => some (.held c)
  | some .undef => if loadable env id T c then some (.loaded c) else none

def pass (T : Tables V F) (c : ℕ) : Tables V F :=
  match T.consts c id with
  | some .undef => T.autoloadDelete c id
  | _ => T

def moduleSlot (T : Tables V F) (c : ℕ) : Option (Slot V) := (T.included c).findSome? (T.consts · id)

def ending : List ℕ → Tables V F → Ending V
  | [],_ => .nowhere
  | c::path,T => match ownEnding env id T c with
      | some e => e
      | none => match moduleSlot id (pass id T c) c with
          | some slot => .inModule slot
          | none => ending path (pass id T c)

def firstOwn (path : List ℕ) (T : Tables V F) : Option (Slot V) := path.findSome? (T.consts · id)

/-- Without regard to autoloads and modules: a class has a value, or no class has an entry
and there is an Objective-C class. -/
def Plain (T : Tables V F) (klass : ℕ) : Prop :=
  (∃ v, firstOwn id (searchPath env klass) T=some (.value v)) ∨
    firstOwn id (searchPath env klass) T=none ∧ retrieveDynamicObjcClass env id klass ≠ none

def Agrees (T : Tables V F) (klass : ℕ) : Prop :=
  match ending env id (searchPath env klass) T with
  | .held _ => ∃ v, firstOwn id (searchPath env klass) T=some (.value v)
  | .loaded c => c=klass
  | .inModule (.value _) => Plain env id T klass
  | .inModule .undef => ¬Plain env id T klass
  | .nowhere => retrieveDynamicObjcClass env id klass=none ∨
      firstOwn id (searchPath env klass) T=none

variable {env} {id} {T : Tables V F}

lemma Autoloads.delete (h : Autoloads env T) (c : ℕ) : Autoloads env (T.autoloadDelete c id) := by
  refine ⟨h.once,?_⟩
  intro c' id' f hf
  have hold : T.autoload c' id'=some f := by
    change write T.autoload c id none c' id'=some f at hf
    unfold write at hf
    split_ifs at hf
    exact hf
  exact h.defines c' id' f hold

lemma Autoloads.pass (h : Autoloads env T) (c : ℕ) : Autoloads env (pass id T c) := by
  unfold ConstantLookup.pass
  split
  · exact h.delete c
  · exact h

lemma ownLoop_spec (id : ID) (h : Autoloads env T) (rounds c : ℕ) :
    match ownEnding env id T c with
    | some _ => ∃ v T', ownLoop env id (rounds+2) T c=some (.ends (.value v) T')
    | none => ownLoop env id (rounds+2) T c=some (.goes (pass id T c)) := by
  unfold ownEnding
  rw [ownLoop,pass]
  cases hs : T.consts c id with
  | none => rfl
  | some slot =>
    cases slot with
    | value v => exact ⟨v,T,rfl⟩
    | undef =>
      unfold loadable rbAutoloadLoad
      cases hf : T.autoload c id with
      | none => rfl
      | some f =>
        cases hp : env.provided f with
        | true =>
          simp only [Option.any_some,hp,Bool.not_true,Bool.false_eq_true,if_false]
          rw [h.once f _ hp]
        | false =>
          obtain ⟨T',v,hl,hv⟩ := h.defines c id f hf hp (T.autoloadDelete c id)
          simp only [Option.any_some,hp,hl]
          exact ⟨v,T',by rw [ownLoop,hv]⟩

lemma modulesLoop_eq (ms : List ℕ) :
    (modulesLoop id T ms : Walk V F E)=match ms.findSome? (T.consts · id) with
      | some (.value v) => .ends (.value v) T
      | some .undef => .ends .undef T
      | none => .goes T := by
  induction ms with
  | nil => rfl
  | cons m ms ih =>
    rw [modulesLoop,List.findSome?_cons]
    cases T.consts m id with
    | none => exact ih
    | some slot => cases slot <;> rfl

def EndsAs (w : Option (Walk V F E)) : Ending V → Prop
  | .held _ | .loaded _ | .inModule (.value _) => ∃ v T', w=some (.ends (.value v) T')
  | .inModule .undef => ∃ T', w=some (.ends .undef T')
  | .nowhere => ∃ T', w=some (.goes T')

lemma ownEnding_found {c : ℕ} {e : Ending V} (h : ownEnding env id T c=some e)
    {w : Option (Walk V F E)} (hw : ∃ v T', w=some (.ends (.value v) T')) : EndsAs w e := by
  unfold ownEnding at h
  split at h
  · cases h
  · cases h
    exact hw
  · split_ifs at h
    cases h
    exact hw

lemma classLoop_spec (h : Autoloads env T) (rounds : ℕ) (path : List ℕ) :
    EndsAs (classLoop env id (rounds+2) path T) (ending env id path T) := by
  induction path generalizing T with
  | nil => exact ⟨T,rfl⟩
  | cons c path ih =>
    have ho := ownLoop_spec id h rounds c
    rw [classLoop,ending]
    cases he : ownEnding env id T c with
    | some e =>
      rw [he] at ho
      obtain ⟨v,T',hl⟩ := ho
      rw [hl]
      exact ownEnding_found he ⟨v,T',rfl⟩
    | none =>
      rw [he] at ho
      rw [ho]
      dsimp only
      rw [modulesLoop_eq,moduleSlot]
      cases List.findSome? (fun x => (pass id T c).consts x id) ((pass id T c).included c) with
      | none => exact ih (h.pass c)
      | some slot =>
        cases slot with
        | value v => exact ⟨v,pass id T c,rfl⟩
        | undef => exact ⟨pass id T c,rfl⟩

/-- `rb_const_get` finds a value. -/
def Finds (env : Env V F E) (id : ID) (rounds : ℕ) (T : Tables V F) (klass : ℕ) : Prop :=
  ∃ v T', rbConstGet env id rounds T klass=some (.value v,T')

lemma finds_iff (h : Autoloads env T) (rounds klass : ℕ) :
    Finds env id (rounds+2) T klass ↔ match ending env id (searchPath env klass) T with
      | .held _ | .loaded _ | .inModule (.value _) => True
      | .inModule .undef => False
      | .nowhere => retrieveDynamicObjcClass env id klass ≠ none := by
  have hs : EndsAs _ (ending env id (searchPath env klass) T) := classLoop_spec h rounds _
  have hv : (∃ v T', classLoop env id (rounds+2) (searchPath env klass) T =
      some (.ends (.value v) T')) → Finds env id (rounds+2) T klass := by
    rintro ⟨v,T',hl⟩
    exact ⟨v,T',by rw [rbConstGet,hl]⟩
  cases he : ending env id (searchPath env klass) T with
  | held | loaded =>
    rw [he] at hs
    exact iff_of_true (hv hs) trivial
  | inModule slot =>
    rw [he] at hs
    cases slot with
    | value v => exact iff_of_true (hv hs) trivial
    | undef =>
      obtain ⟨T',hl⟩ := hs
      refine iff_of_false ?_ not_false
      rintro ⟨v,T'',hg⟩
      rw [rbConstGet,hl] at hg
      cases hg
  | nowhere =>
    rw [he] at hs
    obtain ⟨T',hl⟩ := hs
    unfold Finds
    rw [rbConstGet,hl]
    cases retrieveDynamicObjcClass env id klass <;> simp

variable {klass : ℕ} {c : ℕ} {path : List ℕ}

lemma isSome_autoloadFile (c : ℕ) : (autoloadFile env id T c).1.isSome=loadable env id T c := by
  unfold autoloadFile loadable
  cases T.autoload c id with
  | none => rfl
  | some f => cases hp : env.provided f <;> simp [hp]

lemma definedLoop_eq (env : Env V F E) (id : ID) (T : Tables V F) (klass : ℕ) (path : List ℕ) :
    (definedLoop env id T klass path).map Prod.fst=(firstOwn id path T).map fun
      | .value _ => true
      | .undef => loadable env id T klass := by
  unfold firstOwn
  induction path with
  | nil => rfl
  | cons c path ih =>
    rw [definedLoop,List.findSome?_cons]
    cases T.consts c id with
    | none => exact ih
    | some slot =>
      cases slot with
      | value v => rfl
      | undef => exact congrArg some (isSome_autoloadFile klass)

lemma rbConstDefined_iff : (rbConstDefined env id T klass).1=true ↔ Plain env id T klass ∨
      firstOwn id (searchPath env klass) T=some .undef ∧ loadable env id T klass=true := by
  have hl := definedLoop_eq env id T klass (searchPath env klass)
  unfold rbConstDefined Plain
  cases ho : firstOwn id (searchPath env klass) T with
  | none =>
    rw [ho] at hl
    rw [Option.map_eq_none_iff.mp hl]
    cases retrieveDynamicObjcClass env id klass <;> simp
  | some slot =>
    rw [ho] at hl
    obtain ⟨r,hr,hf⟩ := Option.map_eq_some_iff.mp hl
    rw [hr]
    cases slot <;> simp [hf]

lemma exists_searchPath (env : Env V F E) (klass : ℕ) : ∃ rest, searchPath env klass=klass::rest := by
  exact ⟨_,rfl⟩

lemma undef_of_loadable (h : loadable env id T c=true) : T.consts c id=some .undef := by
  unfold loadable at h
  cases hf : T.autoload c id with
  | none =>
    rw [hf] at h
    cases h
  | some f => exact T.registered hf

lemma ending_of_loadable (h : loadable env id T klass=true) :
    ending env id (searchPath env klass) T=.loaded klass ∧
      firstOwn id (searchPath env klass) T=some .undef := by
  obtain ⟨rest,hp⟩ := exists_searchPath env klass
  have hs := undef_of_loadable h
  rw [hp]
  constructor
  · rw [ending,ownEnding,hs]
    rw [if_pos h]
  · rw [firstOwn,List.findSome?_cons,hs]

lemma pass_of_none (h : T.consts c id=none) : pass id T c=T := by
  rw [pass,h]

/-- How the lookup ends if no class has the constant itself, or one has a value. -/
lemma ending_cases (env : Env V F E) (id : ID) (path : List ℕ) (T : Tables V F) :
    (∃ slot, ending env id path T=.inModule slot) ∨
      (firstOwn id path T=none → ending env id path T=.nowhere) ∧
        ∀ v, firstOwn id path T=some (.value v) → ∃ c, ending env id path T=.held c := by
  induction path with
  | nil => exact .inr ⟨fun _ => rfl,fun v h => by cases h⟩
  | cons c path ih =>
    rw [firstOwn,List.findSome?_cons,ending,ownEnding]
    cases hs : T.consts c id with
    | some slot =>
      refine .inr ⟨(by cases ·),fun v h => ?_⟩
      cases h
      exact ⟨c,rfl⟩
    | none =>
      rw [pass_of_none hs]
      cases moduleSlot id T c with
      | some slot => exact .inl ⟨slot,rfl⟩
      | none => exact ih

lemma firstOwn_ne_none (h : ending env id path T=.held c ∨ ending env id path T=.loaded c) :
    firstOwn id path T ≠ none := by
  intro hn
  rcases ending_cases env id path T with ⟨slot,hm⟩ | ⟨hno,-⟩
  · rw [hm] at h
    simp at h
  · rw [hno hn] at h
    simp at h

lemma firstOwn_ne_value
    (h : (∃ c, ending env id path T=.loaded c) ∨ ending env id path T=.nowhere) (v : V) :
    firstOwn id path T ≠ some (.value v) := by
  intro hv
  rcases ending_cases env id path T with ⟨slot,hm⟩ | ⟨-,hh⟩
  · rw [hm] at h
    simp at h
  · obtain ⟨c,hc⟩ := hh v hv
    rw [hc] at h
    simp at h

lemma loadable_delete {d : ℕ} (h : loadable env id (T.autoloadDelete d id) c=true) :
    loadable env id T c=true := by
  unfold loadable at h ⊢
  by_cases hc : c=d
  · subst hc
    have hn : (T.autoloadDelete c id).autoload c id=none := write_self _ _ _ _
    rw [hn] at h
    cases h
  · have hs : (T.autoloadDelete d id).autoload c id=T.autoload c id := write_of_ne _ _ _ hc
    rwa [hs] at h

lemma loadable_of_ending (h : ending env id path T=.loaded c) : loadable env id T c=true := by
  induction path generalizing T with
  | nil => cases h
  | cons d path ih =>
    have hr : loadable env id (pass id T d) c=true → loadable env id T c=true := by
      intro hp
      unfold pass at hp
      split at hp
      · exact loadable_delete hp
      · exact hp
    rw [ending] at h
    cases ho : ownEnding env id T d with
    | some e =>
      rw [ho] at h
      cases h
      unfold ownEnding at ho
      split at ho
      · cases ho
      · cases ho
      · split_ifs at ho with hl
        cases ho
        exact hl
    | none =>
      rw [ho] at h
      cases hs : moduleSlot id (pass id T d) d with
      | some slot =>
        rw [hs] at h
        cases h
      | none =>
        rw [hs] at h
        exact hr (ih h)

lemma rbConstDefined_iff_plain (h : ∀ c, ending env id (searchPath env klass) T ≠ .loaded c) :
    (rbConstDefined env id T klass).1=true ↔ Plain env id T klass := by
  rw [rbConstDefined_iff]
  constructor
  · rintro (hp | ⟨-,hl⟩)
    · exact hp
    · exact (h klass (ending_of_loadable hl).1).elim
  · exact .inl

/-- Defined means found, exactly in the tables that agree. -/
theorem defined_iff_found_iff_agrees (env : Env V F E) (id : ID) (T : Tables V F)
    (hload : Autoloads env T) (klass rounds : ℕ) :
    ((rbConstDefined env id T klass).1 = true ↔ Finds env id (rounds+2) T klass) ↔
      Agrees env id T klass := by
  rw [finds_iff hload]
  unfold Agrees
  cases he : ending env id (searchPath env klass) T with
  | held c =>
    rw [rbConstDefined_iff_plain (by rw [he]; nofun)]
    rw [iff_true]
    constructor
    · rintro (hv | ⟨hn,-⟩)
      · exact hv
      · exact (firstOwn_ne_none (.inl he) hn).elim
    · exact .inl
  | loaded c =>
    rw [iff_true,rbConstDefined_iff]
    constructor
    · rintro ((⟨v,hv⟩ | ⟨hn,-⟩) | ⟨-,hk⟩)
      · exact (firstOwn_ne_value (.inl ⟨c,he⟩) v hv).elim
      · exact (firstOwn_ne_none (.inr he) hn).elim
      · have hf := (ending_of_loadable hk).1
        rw [he] at hf
        cases hf
        rfl
    · rintro rfl
      have hk := loadable_of_ending he
      exact .inr ⟨(ending_of_loadable hk).2,hk⟩
  | inModule slot =>
    rw [rbConstDefined_iff_plain (by rw [he]; nofun)]
    cases slot with
    | value v => exact iff_of_eq (iff_true _)
    | undef => exact iff_of_eq (iff_false _)
  | nowhere =>
    rw [rbConstDefined_iff_plain (by rw [he]; nofun)]
    have hno := firstOwn_ne_value (.inr he)
    unfold Plain
    constructor
    · intro hi
      by_cases hc : retrieveDynamicObjcClass env id klass=none
      · exact .inl hc
      · rcases hi.mpr hc with ⟨v,hv⟩ | ⟨hn,-⟩
        · exact (hno v hv).elim
        · exact .inr hn
    · rintro (hc | hn)
      · rw [hc]
        simp [hno]
      · simp [hn]

/-- A class 1 that includes the module 2, which has the constant 0. -/
def heldByModule : Tables Unit Unit where
  consts c _ := if c=2 then some (.value ()) else none
  autoload _ _ := none
  included c := if c=1 then [2] else []
  registered := nofun

def oneFile : Env Unit Unit Empty where
  tree := .discrete
  isModule c := c == 2
  object := 0
  objcClass _ := none
  provided _ := false
  require _ T := .ok (true,⟨fun _ _ => some (.value ()),fun _ _ => none,T.included,nofun⟩)

lemma autoloads_oneFile (T : Tables Unit Unit) : Autoloads oneFile T :=
  ⟨nofun,fun _ _ _ _ _ _ => ⟨_,(),rfl,rfl⟩⟩

/-- `Agrees` is decided in tables with an autoload of the class itself. -/
theorem defined_iff_found_own_autoload :
    ((rbConstDefined oneFile 0 ⟨fun _ _ => some .undef,fun _ _ => some (),fun _ => [],fun _ => rfl⟩ 1).1 = true ↔
      Finds oneFile 0 2 ⟨fun _ _ => some .undef,fun _ _ => some (),fun _ => [],fun _ => rfl⟩ 1) :=
  (defined_iff_found_iff_agrees oneFile 0 _ (autoloads_oneFile _) 1 0).mpr rfl

/-- The constant is found in the included module, but it is not defined. -/
theorem held_by_module_found_not_defined :
    (rbConstDefined oneFile 0 heldByModule 1).1 = false ∧ Finds oneFile 0 2 heldByModule 1 := by
  constructor
  · decide
  · exact ⟨(),heldByModule,rfl⟩

end MacRuby.ConstantLookup
