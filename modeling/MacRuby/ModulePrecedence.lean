import MacRuby.LazyMethods
import MacRuby.ModuleTables

/-!
# A class and the modules it includes

The methods of an included module are copied into the method table of the class, and
later definitions of the module are written there too. Nothing in the table tells
the methods of the class from copies. Here the core runs beside a record of the
definitions themselves: those of the class, those of each module, and the order of
the inclusions. The record says which definition a call has to run.

A definition is one of a selector: a method name with and without arguments has
two of them.
-/
namespace MacRuby.ModulePrecedence
open Runs MethodTables MethodSources ModuleTables Function List Option

inductive Place (S : Scene)
  | klass
  | module (m : ℕ) (isModule : S.P.isModule m=true)

def Place.id {S : Scene} : Place S → ℕ
  | klass => S.klass
  | module m _ => m

/-- Definitions, inclusions in the class and calls on its instances. -/
inductive Op (S : Scene)
  | prepare (place : Place S) (sel : SEL) (n : Node)
  | define (place : Place S) (sel : SEL) (n : Node) (direct : Bool)
  | includeModule (mod : ℕ)
  | call (sel : SEL)

def Op.lift {S : Scene} : Op S → LazyMethods.Op
  | prepare place sel n => .prepare place.id sel n
  | define place sel n direct => .define place.id sel n direct
  | includeModule mod => .includeModule S.klass mod
  | call sel => .call S.klass sel

/-- The last definitions of the class and of each module, and the included modules with
the most recent one first. -/
structure Definitions where
  own : SEL → Option Method
  inModule : ℕ → SEL → Option Node
  included : List ℕ

namespace Definitions

def start (S : Scene) : Definitions where
  own sel := ((MethodTables.start S.P).table sel).own S.klass
  inModule _ _ := none
  included := []

variable {S : Scene} (d : Definitions)

def define (place : Place S) (sels : List SEL) (n : Node) : Definitions :=
  match place with
  | .klass => {d with own := fun sel => if sel ∈ sels then some (compiled n) else d.own sel}
  | .module m _ => {d with
      inModule := update d.inModule m
        (fun sel => if sel ∈ sels then some n else d.inModule m sel)}

def includeModule (S : Scene) (mod : ℕ) : Definitions :=
  if ¬S.P.isModule mod ∨ mod ∈ d.included then d else {d with included := mod::d.included}

def step : Op S → Definitions
  | .prepare place sel n => d.define place (definedSels sel n.arity) n
  | .define place sel n direct =>
    d.define place (if direct then [sel] else definedSels sel n.arity) n
  | .includeModule mod => d.includeModule S mod
  | .call _ => d

/-- The definition of the class, or else of the most recently included module that has one. -/
def winner (sel : SEL) : Option Method :=
  (d.own sel).or ((d.included.findSome? (d.inModule · sel)).map compiled)

/-- No definition of the class, and none of a module included more recently. -/
def Latest (sel : SEL) (m : ℕ) : Prop :=
  d.own sel=none ∧ ∀ k ∈ d.included.takeWhile (· ≠ m), d.inModule k sel=none

end Definitions

variable (S : Scene)

def step (s : Option Core × Definitions) (op : Op S) : Option Core × Definitions :=
  (LazyMethods.step S.P s.1 op.lift,s.2.step op)

def start : Option Core × Definitions := (some (MethodTables.start S.P),.start S)

/-- Every call on an instance reaches the definition that the record gives. -/
def Precedence (s : Option Core × Definitions) : Prop :=
  ∀ core, s.1=some core → ∀ sel m, s.2.winner sel=some m →
    (core.lookup S.P S.klass sel).visible S.P S.klass sel=some (S.klass,m)

def SafeDefinition (d : Definitions) (sels : List SEL) : Place S → Prop
  | .klass => True
  | .module m _ => m ∈ d.included → ∀ sel ∈ sels, d.Latest sel m

/-- An included module defines what neither the class nor a more recently included module
defines, and a module is included when the class defines nothing of what it defines. -/
def Safe (s : Option Core × Definitions) : Op S → Prop
  | .prepare place sel n => SafeDefinition S s.2 (definedSels sel n.arity) place
  | .define place sel n direct =>
    SafeDefinition S s.2 (if direct then [sel] else definedSels sel n.arity) place
  | .includeModule mod => ∀ core, s.1=some core → S.P.isModule mod=true →
      mod ∉ s.2.included → ∀ sel n, s.2.inModule mod sel=some n →
        s.2.own sel=none ∧ Copyable S (core.table sel) mod
  | .call _ => True

variable {S} {d : Definitions} {sel : SEL} {m : ℕ} {n : Node} {sels : List SEL}
variable {h : S.P.isModule m=true}

lemma findSome_update (ms : List ℕ) (f : ℕ → Option Node) (hm : m ∈ ms)
    (hr : ∀ k ∈ ms.takeWhile (· ≠ m), f k=none) : ms.findSome? (update f m (some n))=some n := by
  induction ms with
  | nil => cases hm
  | cons k ms ih =>
    by_cases hk : k=m
    · rw [hk,findSome?_cons,update_self]
    · have hke : (k::ms).takeWhile (· ≠ m)=k::ms.takeWhile (· ≠ m) := by
        rw [takeWhile_cons_of_pos (by simpa using hk)]
      rw [hke] at hr
      rw [findSome?_cons,update_of_ne hk,hr k mem_cons_self]
      exact ih ((mem_cons.mp hm).resolve_left (Ne.symm hk)) fun j hj => hr j (mem_cons_of_mem k hj)

lemma findSome_update_of_notMem (ms : List ℕ) (f : ℕ → Option Node) (hm : m ∉ ms) :
    ms.findSome? (update f m (some n))=ms.findSome? f := by
  induction ms with
  | nil => rfl
  | cons k ms ih =>
    rw [mem_cons,not_or] at hm
    rw [findSome?_cons,findSome?_cons,update_of_ne (Ne.symm hm.1),ih hm.2]

lemma inModule_define (sel : SEL) : ((d.define (.module m h) sels n).inModule · sel) =
    if sel ∈ sels then update (d.inModule · sel) m (some n) else (d.inModule · sel) := by
  funext k
  unfold Definitions.define
  by_cases hk : k=m
  · subst hk
    split_ifs with hs <;> simp only [update_self,hs,if_true,if_false]
  · split_ifs <;> simp only [update_of_ne hk]

lemma winner_define_klass (hs : sel ∈ sels) :
    (d.define (.klass : Place S) sels n).winner sel=some (compiled n) := by
  simp only [Definitions.winner,Definitions.define,if_pos hs,some_or]

lemma winner_define_module (hs : sel ∈ sels) (hm : m ∈ d.included) (hl : d.Latest sel m) :
    (d.define (.module m h) sels n).winner sel=some (compiled n) := by
  unfold Definitions.winner
  rw [inModule_define,if_pos hs]
  change (d.own sel).or ((d.included.findSome? _).map compiled)=_
  rw [hl.1,findSome_update _ _ hm hl.2]
  rfl

lemma winner_define_of_notMem (sels : List SEL)
    (hm : m ∉ d.included) : (d.define (.module m h) sels n).winner sel=d.winner sel := by
  unfold Definitions.winner
  by_cases hs : sel ∈ sels
  · rw [inModule_define,if_pos hs]
    change (d.own sel).or ((d.included.findSome? _).map compiled)=_
    rw [findSome_update_of_notMem _ _ hm]
  · rw [inModule_define,if_neg hs]
    rfl

lemma winner_define_of_sel {place : Place S} (hs : sel ∉ sels) :
    (d.define place sels n).winner sel=d.winner sel := by
  cases place with
  | klass => simp only [Definitions.winner,Definitions.define,if_neg hs]
  | module m h =>
    unfold Definitions.winner
    rw [inModule_define,if_neg hs]
    rfl

variable {f : (ℕ → List ℕ) → Table → Table} {s : Core}

def onTable (f : (ℕ → List ℕ) → Table → Table) (s : Core) (sel : SEL) : Core :=
  s.setTable sel (f s.includedInClasses (s.table sel))

lemma foldl_onTable_modules (f : (ℕ → List ℕ) → Table → Table) (s : Core) (sels : List SEL) :
    (sels.foldl (onTable f) s).includedModules=s.includedModules ∧
      (sels.foldl (onTable f) s).includedInClasses=s.includedInClasses := by
  induction sels generalizing s with
  | nil => exact ⟨rfl,rfl⟩
  | cons sel sels ih => exact ih (onTable f s sel)

lemma table_foldl_of_notMem (h : sel ∉ sels) :
    (sels.foldl (onTable f) s).table sel=s.table sel := by
  induction sels generalizing s with
  | nil => rfl
  | cons sel' sels ih =>
    rw [mem_cons,not_or] at h
    exact (ih h.2).trans (Core.table_setTable_of_ne s h.1 _)

/-- The operation may come more than once, so what it leaves is something it can start from. -/
lemma table_foldl_of_mem (before after : Table → Prop)
    (h : sel ∈ sels) (hf : ∀ t, before t → after (f s.includedInClasses t))
    (ha : ∀ t, after t → before t) (hs : before (s.table sel)) :
    after ((sels.foldl (onTable f) s).table sel) := by
  induction sels generalizing s with
  | nil => cases h
  | cons sel' sels ih =>
    rw [foldl_cons]
    by_cases hse : sel=sel'
    · subst hse
      have hfi : after ((onTable f s sel).table sel) := by
        unfold onTable
        rw [Core.table_setTable_self]
        exact hf _ hs
      by_cases hm : sel ∈ sels
      · exact ih hm hf (ha _ hfi)
      · rw [table_foldl_of_notMem hm]
        exact hfi
    · refine ih ((mem_cons.mp h).resolve_left hse) hf ?_
      unfold onTable
      rw [Core.table_setTable_of_ne _ hse]
      exact hs

variable {core : Core} {stack c : ℕ}
variable {core' : Core} {place : Place S}
variable {users : ℕ → List ℕ} {included : List ℕ}

structure Consistent (S : Scene) (core : Core) (d : Definitions) : Prop where
  included : core.includedModules S.klass=d.included
  users : Users S d.included core.includedInClasses
  modules : ∀ sel, Modules S (d.inModule · sel) (core.table sel)
  reaches : ∀ sel, Reaches S d.included (d.winner sel) (core.table sel)

lemma Consistent.precedence (h : Consistent S core d) {m : Method} (hm : d.winner sel=some m) :
    (core.lookup S.P S.klass sel).visible S.P S.klass sel=some (S.klass,m) := by
  have hr := (h.reaches sel).lookup (h.modules sel) h.users h.users.not_mem_klass
  change ((core.lookup S.P S.klass sel).table sel).visible S.P.tree S.klass=_
  rw [show (core.lookup S.P S.klass sel).table sel=_ from Core.table_setTable_self _ _ _]
  cases hr.found hm with
  | inl ho => exact visible_of_own ho
  | inr hk =>
    obtain ⟨hv,n,hs,_⟩ := hk
    obtain ⟨hsa,hn⟩ := lookup_of_not_visible (h.modules sel) h.users hv
    rw [hsa,hn] at hs
    cases hs

lemma Consistent.define (h : Consistent S core d)
    (hmo : core'.includedModules=core.includedModules)
    (hu : core'.includedInClasses=core.includedInClasses)
    (ho : ∀ sel ∉ sels, core'.table sel=core.table sel) (ht : ∀ sel ∈ sels,
      Modules S ((d.define place sels n).inModule · sel) (core'.table sel) ∧
        Reaches S d.included ((d.define place sels n).winner sel) (core'.table sel)) :
    Consistent S core' (d.define place sels n) := by
  have hi : (d.define place sels n).included=d.included := by
    cases place <;> rfl
  refine ⟨?_,?_,?_,?_⟩
  · rw [hmo,hi]
    exact h.included
  · rw [hu,hi]
    exact h.users
  · intro sel
    by_cases hs : sel ∈ sels
    · exact (ht sel hs).1
    · rw [ho sel hs]
      cases place with
      | klass => exact h.modules sel
      | module m hm =>
        rw [inModule_define,if_neg hs]
        exact h.modules sel
  · intro sel
    rw [hi]
    by_cases hs : sel ∈ sels
    · exact (ht sel hs).2
    · rw [ho sel hs,winner_define_of_sel hs]
      exact h.reaches sel

def InOrder (S : Scene) (defs : ℕ → Option Node) (included : List ℕ) (winner : Option Method)
    (t : Table) : Prop :=
  Modules S defs t ∧ Reaches S included winner t

def Waiting (S : Scene) (defs : ℕ → Option Node) (included : List ℕ) (n : Node) (t : Table) : Prop :=
  Modules S defs t ∧ Ready S included n t

/-- The tables of a module, where its definition can be entered again. -/
def Entering (S : Scene) (defs : ℕ → Option Node) (m : ℕ) (n : Node) (t : Table) : Prop :=
  Modules S defs t ∨ Modules S (update defs m (some n)) t

lemma Entering.modules {defs : ℕ → Option Node} {t t' : Table} (h : Entering S defs m n t)
    (hf : ∀ defs', Modules S defs' t → Modules S (update defs' m (some n)) t') :
    Modules S (update defs m (some n)) t' := by
  cases h with
  | inl hold => exact hf _ hold
  | inr hn =>
    have ha := hf _ hn
    rwa [update_idem] at ha

lemma Consistent.enter_klass (h : Consistent S core d) (sels : List SEL)
    (hf : ∀ defs t, Modules S defs t → Ready S d.included n t →
      Modules S defs (f core.includedInClasses t) ∧
        Reaches S d.included (some (compiled n)) (f core.includedInClasses t)) :
    Consistent S (sels.foldl (onTable f) core) (d.define (.klass : Place S) sels n) := by
  have hfo := foldl_onTable_modules f core sels
  refine h.define hfo.1 hfo.2 (fun sel hs => table_foldl_of_notMem hs) ?_
  intro sel hs
  rw [winner_define_klass hs]
  refine table_foldl_of_mem (Waiting S (d.inModule · sel) d.included n)
    (InOrder S (d.inModule · sel) d.included (some (compiled n))) hs ?_ ?_
    ⟨h.modules sel,(h.reaches sel).ready n⟩
  · intro t ht
    exact hf _ t ht.1 ht.2
  · intro t ht
    exact ⟨ht.1,ht.2.ready n⟩

lemma Consistent.enter_module (h : Consistent S core d) (hm : S.P.isModule m=true)
    (hno : m ∉ d.included) (sels : List SEL) (hf : ∀ defs t, Modules S defs t →
      Modules S (update defs m (some n)) (f core.includedInClasses t) ∧
        ∀ winner, Reaches S d.included winner t →
          Reaches S d.included winner (f core.includedInClasses t)) :
    Consistent S (sels.foldl (onTable f) core) (d.define (.module m hm) sels n) := by
  have hfo := foldl_onTable_modules f core sels
  refine h.define hfo.1 hfo.2 (fun sel hs => table_foldl_of_notMem hs) ?_
  intro sel hs
  rw [inModule_define,if_pos hs,winner_define_of_notMem sels hno]
  refine table_foldl_of_mem
    (fun t => Entering S (d.inModule · sel) m n t ∧ Reaches S d.included (d.winner sel) t)
    (InOrder S (update (d.inModule · sel) m (some n)) d.included (d.winner sel)) hs
    ?_ ?_ ⟨.inl (h.modules sel),h.reaches sel⟩
  · intro t ht
    refine ⟨ht.1.modules fun defs' ht' => (hf defs' t ht').1,?_⟩
    cases ht.1 with
    | inl hold => exact (hf _ t hold).2 _ ht.2
    | inr hn => exact (hf _ t hn).2 _ ht.2
  · intro t ht
    exact ⟨.inr ht.1,ht.2⟩

lemma Consistent.define_included (h : Consistent S core d) (hm : S.P.isModule m=true)
    (hme : m ∈ d.included) (n : Node) (hsa : ∀ sel ∈ sels, d.Latest sel m) :
    Consistent S (sels.foldl (onTable fun users t => t.define S.P.tree users m n) core)
      (d.define (.module m hm) sels n) := by
  have hf := foldl_onTable_modules (fun users t => t.define S.P.tree users m n) core sels
  refine h.define hf.1 hf.2 (fun sel hs => table_foldl_of_notMem hs) ?_
  intro sel hs
  rw [inModule_define,if_pos hs,winner_define_module hs hme (hsa sel hs)]
  refine table_foldl_of_mem (Entering S (d.inModule · sel) m n)
    (InOrder S (update (d.inModule · sel) m (some n)) d.included (some (compiled n))) hs
    ?_ ?_ (.inl (h.modules sel))
  · intro t ht
    refine ⟨ht.modules fun defs' ht' => (define_module ht' h.users hm n).1,?_⟩
    cases ht with
    | inl hold => exact (define_module hold h.users hm n).2.2 hme
    | inr hn => exact (define_module hn h.users hm n).2.2 hme
  · intro t ht
    exact .inr ht.1

lemma Consistent.prepare_included (h : Consistent S core d) (hm : S.P.isModule m=true)
    (hme : m ∈ d.included) (n : Node) (hsa : ∀ sel ∈ sels, d.Latest sel m) :
    Consistent S (sels.foldl (onTable fun users t => t.prepare S.P.tree users S.klass n)
        (sels.foldl (onTable fun users t => t.prepare S.P.tree users m n) core))
      (d.define (.module m hm) sels n) := by
  have hf := foldl_onTable_modules (fun users t => t.prepare S.P.tree users m n) core sels
  have hf' := foldl_onTable_modules (fun users t => t.prepare S.P.tree users S.klass n)
    (sels.foldl (onTable fun users t => t.prepare S.P.tree users m n) core) sels
  refine h.define (hf'.1.trans hf.1) (hf'.2.trans hf.2) ?_ ?_
  · intro sel hs
    rw [table_foldl_of_notMem hs,table_foldl_of_notMem hs]
  · intro sel hs
    rw [inModule_define,if_pos hs,winner_define_module hs hme (hsa sel hs)]
    have hmo : Waiting S (update (d.inModule · sel) m (some n)) d.included n
        ((sels.foldl (onTable fun users t => t.prepare S.P.tree users m n) core).table sel) := by
      refine table_foldl_of_mem
        (fun t => Entering S (d.inModule · sel) m n t ∧ Ready S d.included n t) _ hs
        ?_ ?_ ⟨.inl (h.modules sel),(h.reaches sel).ready n⟩
      · intro t ht
        refine ⟨ht.1.modules fun defs' ht' => (prepare_module ht' h.users hm n).1,?_⟩
        cases ht.1 with
        | inl hold => exact (prepare_module hold h.users hm n).2.2 hme ht.2
        | inr hn => exact (prepare_module hn h.users hm n).2.2 hme ht.2
      · intro t ht
        exact ⟨.inr ht.1,ht.2⟩
    refine table_foldl_of_mem _
      (InOrder S (update (d.inModule · sel) m (some n)) d.included (some (compiled n))) hs ?_ ?_ hmo
    · intro t ht
      rw [hf.2]
      exact prepare_klass ht.1 h.users ht.2
    · intro t ht
      exact ⟨ht.1,ht.2.ready n⟩

lemma Consistent.start (S : Scene) : Consistent S (MethodTables.start S.P) (.start S) := by
  refine ⟨rfl,⟨nofun,fun _ => rfl⟩,?_,?_⟩
  · intro sel
    refine ⟨fun _ _ => rfl,?_,nofun,nofun⟩
    intro m _ _
    refine ⟨rfl,fun imp n ho => ?_⟩
    obtain ⟨_,_,hm⟩ := map_eq_some_iff.mp ho
    cases hm
  · intro sel
    refine ⟨?_,nofun⟩
    intro m hm
    left
    unfold Definitions.winner at hm
    rw [show (Definitions.start S).included=[] from rfl,findSome?_nil,map_none,
      or_none] at hm
    exact hm

lemma forwardPath_of_nil (hs : 0 < stack)
    (h : users c=[]) : Core.forwardPath users stack c=some [c] := by
  cases stack with
  | zero => cases hs
  | succ stack =>
    unfold Core.forwardPath
    rw [h]
    rfl

/-- A `def` in an included module goes through the module and the class, or overflows the
stack. -/
lemma forwardPath_of_included (h : Users S included users) (hm : m ∈ included) {path : List ℕ}
    (hp : Core.forwardPath users stack m=some path) : path=[m,S.klass] := by
  cases stack with
  | zero => cases hp
  | succ stack =>
    unfold Core.forwardPath at hp
    rw [h.eq_klass hm] at hp
    cases stack with
    | zero => cases hp
    | succ stack =>
      unfold Core.joinPaths at hp
      rw [forwardPath_of_nil (Nat.succ_pos stack) h.klass_eq_nil] at hp
      cases hp
      rfl

lemma prepareMethod_of_nil (hu : core.includedInClasses c=[])
    (h : core.prepareMethod S.P c sel n=some core') : core'=(definedSels sel n.arity).foldl
      (onTable fun users t => t.prepare S.P.tree users c n) core := by
  unfold Core.prepareMethod Core.prepareEntries at h
  rw [forwardPath_of_nil S.P.stack_pos hu] at h
  simp only [map_some,flatMap_singleton,some.injEq,foldl_map] at h
  exact h.symm

lemma prepareMethod_of_included (hu : Users S included core.includedInClasses) (hm : m ∈ included)
    (h : core.prepareMethod S.P m sel n=some core') : core'=(definedSels sel n.arity).foldl
      (onTable fun users t => t.prepare S.P.tree users S.klass n)
      ((definedSels sel n.arity).foldl (onTable fun users t => t.prepare S.P.tree users m n) core) := by
  obtain ⟨es,he,rfl⟩ := map_eq_some_iff.mp h
  obtain ⟨path,hp,rfl⟩ := map_eq_some_iff.mp he
  rw [forwardPath_of_included hu hm hp]
  simp only [flatMap_cons,foldl_append,foldl_map]
  rfl

lemma Consistent.prepare (h : Consistent S core d)
    (hs : SafeDefinition S d (definedSels sel n.arity) place)
    (hc : core.prepareMethod S.P place.id sel n=some core') :
    Consistent S core' (d.define place (definedSels sel n.arity) n) := by
  cases place with
  | klass =>
    rw [prepareMethod_of_nil h.users.klass_eq_nil hc]
    exact h.enter_klass _ fun defs t ht hr => prepare_klass ht h.users hr
  | module m hm =>
    by_cases hme : m ∈ d.included
    · rw [prepareMethod_of_included h.users hme hc]
      exact h.prepare_included hm hme n (hs hme)
    · rw [prepareMethod_of_nil (h.users.eq_nil hme) hc]
      refine h.enter_module hm hme _ fun defs t ht => ?_
      have hp := prepare_module ht h.users hm n
      exact ⟨hp.1,hp.2.1 hme⟩

lemma Consistent.direct (h : Consistent S core d) (hs : SafeDefinition S d sels place) :
    Consistent S (sels.foldl (Core.defineEntry S.P place.id n) core) (d.define place sels n) := by
  change Consistent S (sels.foldl (onTable fun users t => t.define S.P.tree users place.id n) core) _
  cases place with
  | klass => exact h.enter_klass sels fun defs t ht _ => define_klass ht h.users n
  | module m hm =>
    by_cases hme : m ∈ d.included
    · exact h.define_included hm hme n (hs hme)
    · refine h.enter_module hm hme sels fun defs t ht => ?_
      have hd := define_module ht h.users hm n
      exact ⟨hd.1,hd.2.1 hme⟩

lemma Consistent.call (h : Consistent S core d) (sel : SEL) :
    Consistent S (core.lookup S.P S.klass sel) d := by
  have ht : ∀ sel', Modules S (d.inModule · sel') ((core.lookup S.P S.klass sel).table sel') ∧
      Reaches S d.included (d.winner sel') ((core.lookup S.P S.klass sel).table sel') := by
    intro sel'
    by_cases hs : sel'=sel
    · rw [hs,show (core.lookup S.P S.klass sel).table sel=_ from Core.table_setTable_self _ _ _]
      exact ⟨(h.modules sel).lookup h.users S.klass,
        (h.reaches sel).lookup (h.modules sel) h.users h.users.not_mem_klass⟩
    · rw [show (core.lookup S.P S.klass sel).table sel'=_ from Core.table_setTable_of_ne _ hs _]
      exact ⟨h.modules sel',h.reaches sel'⟩
  exact ⟨h.included,h.users,fun sel' => (ht sel').1,fun sel' => (ht sel').2⟩

lemma winner_include_defined (ho : d.own sel=none) (hd : d.inModule m sel=some n) :
    {d with included := m::d.included}.winner sel=some (compiled n) := by
  unfold Definitions.winner
  rw [ho,findSome?_cons,hd]
  rfl

lemma winner_include_undefined (hd : d.inModule m sel=none) :
    {d with included := m::d.included}.winner sel=d.winner sel := by
  unfold Definitions.winner
  rw [findSome?_cons,hd]

lemma Consistent.includeModule (h : Consistent S core d)
    (hsa : S.P.isModule m=true → m ∉ d.included → ∀ sel n, d.inModule m sel=some n →
      d.own sel=none ∧ Copyable S (core.table sel) m) :
    Consistent S (core.rbIncludeModule S.P S.klass m) (d.includeModule S m) := by
  unfold Core.rbIncludeModule Definitions.includeModule
  rw [h.included]
  split_ifs with hsk
  · exact h
  · rw [not_or,not_not] at hsk
    obtain ⟨hm,hn⟩ := hsk
    have ht : ∀ sel, Modules S (d.inModule · sel)
          ((core.table sel).copyMethods S.P.tree (update core.includedInClasses m
            (core.includedInClasses m++[S.klass])) m S.klass) ∧
        Reaches S (m::d.included) ({d with included := m::d.included}.winner sel)
          ((core.table sel).copyMethods S.P.tree (update core.includedInClasses m
            (core.includedInClasses m++[S.klass])) m S.klass) := by
      intro sel
      cases hd : d.inModule m sel with
      | none =>
        rw [copyMethods_of_undefined (h.modules sel) hm hd,winner_include_undefined hd]
        refine ⟨h.modules sel,(h.reaches sel).found,?_⟩
        intro hv k n hk hs
        cases mem_cons.mp hk with
        | inl hkm =>
          rw [hkm,((h.modules sel).undefined hm hd).1] at hs
          cases hs
        | inr hme => exact (h.reaches sel).sources hv hme hs
      | some n =>
        obtain ⟨ho,hc⟩ := hsa hm hn sel n hd
        rw [winner_include_defined ho hd]
        exact copyMethods_defined (h.modules sel) (h.reaches sel) h.users.modules hm hd hc _
    refine ⟨?_,h.users.cons hm hn,fun sel => (ht sel).1,fun sel => (ht sel).2⟩
    exact update_self _ _ _

/-- Until the stack overflows, the core and the definitions belong together. -/
def Sound (S : Scene) (s : Option Core × Definitions) : Prop :=
  ∀ core, s.1=some core → Consistent S core s.2

lemma sound_step (s : Option Core × Definitions) (op : Op S) (h : Sound S s) (hsa : Safe S s op) :
    Sound S (step S s op) := by
  intro core' hc'
  obtain ⟨core,hc,hs⟩ := bind_eq_some_iff.mp hc'
  have hold := h core hc
  cases op with
  | prepare place sel n => exact hold.prepare hsa hs
  | define place sel n direct =>
    cases hs
    exact hold.direct hsa
  | includeModule mod =>
    cases hs
    exact hold.includeModule (hsa core hc)
  | call sel =>
    cases hs
    exact hold.call sel

/-- In every run in which no included module defines what the class or a more recently included
module defines, and no included module brings a definition that the class has, every call reaches
the definition of the class, or else of the most recently included module that has one. -/
theorem own_method_wins (S : Scene) (ops : List (Op S)) (h : Along (step S) (Safe S) (start S) ops) :
    Precedence S (run (step S) (start S) ops) := by
  have hst : Sound S (start S) := by
    rintro _ ⟨⟩
    exact .start S
  have hs := run_invariant sound_step hst h
  intro core hc sel m hm
  exact (hs core hc).precedence hm

/-- The class 0, its subclass 1 and the module 2, which is a subclass of 0 for the runtime. -/
def siblings : ClassTree where
  superclass k := if k=1 ∨ k=2 then some 0 else none
  superclass_lt := by
    intro k s h
    split_ifs at h with hk
    cases h
    omega

def scene : Scene where
  P := {
    tree := siblings
    isModule := fun k => k == 2
    native := fun _ k => if k=0 then some 0 else none
    canForward := fun _ _ => false
    objcMsgSend := 0
    bsFunction := fun _ => none
    stack := 3
    stack_pos := by decide }
  klass := 1
  klass_not_module := rfl
  superclass_not_module := by
    intro c m h
    unfold siblings at h
    dsimp only at h
    split_ifs at h
    cases h
    rfl

def inModule : Place scene := .module 2 rfl

/-- The module is included first, and then the class and the module define methods. -/
def includedFirst : List (Op scene) :=
  [.includeModule 2,.prepare inModule ['f'] (body 2),.prepare .klass ['f'] (body 1),
    .prepare inModule ['g'] (body 3)]

theorem includedFirst_precedence :
    Precedence scene (run (step scene) (start scene) includedFirst) := by
  refine own_method_wins scene includedFirst ?_
  refine ⟨?_,?_,trivial,?_,trivial⟩
  · intro _ _ _ _ _ _ h
    cases h
  · intro _ sel hs
    cases mem_singleton.mp hs
    exact ⟨rfl,by decide⟩
  · intro _ sel hs
    cases mem_singleton.mp hs
    exact ⟨rfl,by decide⟩

/-- The class and the module define a method, and then the module is included. -/
def includedLast : List (Op scene) :=
  [.prepare .klass ['f'] (body 1),.prepare inModule ['f'] (body 2),.includeModule 2]

/-- The call on an instance of the class runs the method of the module. -/
theorem module_replaces_own_method :
    LazyMethods.reached scene.P (run (step scene) (start scene) includedLast).1 scene.klass ['f'] =
        some (some (compiled (body 2))) ∧
      (run (step scene) (start scene) includedLast).2.winner ['f'] = some (compiled (body 1)) ∧
      ¬Precedence scene (run (step scene) (start scene) includedLast) := by
  have hr : LazyMethods.reached scene.P (run (step scene) (start scene) includedLast).1
      scene.klass ['f']=some (some (compiled (body 2))) := by decide
  have hw : (run (step scene) (start scene) includedLast).2.winner ['f'] =
      some (compiled (body 1)) := by decide
  refine ⟨hr,hw,fun h => ?_⟩
  obtain ⟨core,hco,hc⟩ := map_eq_some_iff.mp hr
  rw [h core hco ['f'] _ hw] at hc
  exact absurd hc (by decide)
end MacRuby.ModulePrecedence
