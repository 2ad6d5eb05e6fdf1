import MacRuby.MethodSources
import MacRuby.Runs

/-!
# Methods compiled on demand

`prepare_method` keeps the source of a method when the class does not respond
to the selector yet, and compiles it right away otherwise. A kept source is
compiled when a lookup finds nothing. Here this is compared with a core that
compiles every method when it is prepared.

Lookups and `def` leave no source hidden. Direct definitions, aliases and
inclusions do only if they leave alone the classes below which there are
sources; and compiling a module passes its method on to the classes that include
the module, whatever these have defined since.
-/
namespace MacRuby.LazyMethods
open Runs MethodTables MethodSources List Core

variable {users : ℕ → List ℕ} {path cs : List ℕ}

/-- Every class of the list is followed by the classes that include it. -/
def Forwards (users : ℕ → List ℕ) : List ℕ → Prop
  | [] => True
  | c::cs => (∀ d ∈ users c, d ∈ cs) ∧ Forwards users cs

lemma Forwards.append {ds : List ℕ} (hc : Forwards users cs) (hd : Forwards users ds) :
    Forwards users (cs++ds) := by
  induction cs with
  | nil => exact hd
  | cons c cs ih =>
    refine ⟨?_,ih hc.2⟩
    intro d hm
    exact mem_append_left ds (hc.1 d hm)

lemma joinPaths_forwards {path : ℕ → Option (List ℕ)}
    (hpa : ∀ {c p}, path c=some p → c ∈ p ∧ Forwards users p) {joined : List ℕ}
    (h : Core.joinPaths path cs=some joined) : (∀ c ∈ cs, c ∈ joined) ∧ Forwards users joined := by
  induction cs generalizing joined with
  | nil =>
    simp only [Core.joinPaths,Option.some.injEq] at h
    subst h
    exact ⟨by simp,trivial⟩
  | cons c cs ih =>
    unfold Core.joinPaths at h
    split at h
    · next p ps hp hps =>
        simp only [Option.some.injEq] at h
        subst h
        have hf := hpa hp
        have hr := ih hps
        refine ⟨?_,hf.2.append hr.2⟩
        intro d hd
        rcases mem_cons.mp hd with rfl | hd
        · exact mem_append_left _ hf.1
        · exact mem_append_right _ (hr.1 d hd)
    · simp at h

lemma forwardPath_forwards {stack klass : ℕ} (h : Core.forwardPath users stack klass=some path) :
    klass ∈ path ∧ Forwards users path := by
  induction stack generalizing klass path with
  | zero => simp [Core.forwardPath] at h
  | succ stack ih =>
    obtain ⟨joined,hj,rfl⟩ := Option.map_eq_some_iff.mp h
    have hr := joinPaths_forwards ih hj
    exact ⟨mem_cons_self,hr.1,hr.2⟩

def ForwardsEntries (users : ℕ → List ℕ) : List (ℕ × SEL) → Prop
  | [] => True
  | e::es => (∀ d ∈ users e.1, (d,e.2) ∈ es) ∧ ForwardsEntries users es

lemma forwardsEntries_append {c : ℕ} {sels : List SEL} {es : List (ℕ × SEL)}
    (hc : ∀ sel ∈ sels, ∀ d ∈ users c, (d,sel) ∈ es) (he : ForwardsEntries users es) :
    ForwardsEntries users (sels.map (c,·)++es) := by
  induction sels with
  | nil => exact he
  | cons sel sels ih =>
    refine ⟨?_,ih fun sel' hs' => hc sel' (mem_cons_of_mem sel hs')⟩
    intro d hd
    exact mem_append_right _ (hc sel mem_cons_self d hd)

lemma Forwards.entries (h : Forwards users path) (sels : List SEL) :
    ForwardsEntries users (path.flatMap fun c => sels.map (c,·)) := by
  induction path with
  | nil => trivial
  | cons c cs ih =>
    apply forwardsEntries_append _ (ih h.2)
    intro sel hs d hd
    rw [mem_flatMap]
    exact ⟨d,h.1 d hd,mem_map_of_mem hs⟩

variable (P : Program)

inductive Op
  | prepare (klass : ℕ) (sel : SEL) (n : Node)
  | define (klass : ℕ) (sel : SEL) (n : Node) (direct : Bool)
  | aliasName (klass : ℕ) (name old : SEL)
  | includeModule (klass mod : ℕ)
  | call (klass : ℕ) (sel : SEL)

def stepCore (s : Core) : Op → Option Core
  | .prepare klass sel n => s.prepareMethod P klass sel n
  | .define klass sel n direct => some (s.rbVmDefineMethod P klass sel n direct)
  | .aliasName klass name old => some (s.rbVmAlias2 P klass name old).2
  | .includeModule klass mod => some (s.rbIncludeModule P klass mod)
  | .call klass sel => some (s.lookup P klass sel)

def step (s : Option Core) (op : Op) : Option Core := s.bind fun s => stepCore P s op

def prepareEntryNow (n : Node) (s : Core) (e : ℕ × SEL) : Core :=
  s.setTable e.2 (prepareNow P.tree s.includedInClasses (s.table e.2) e.1 n)

def prepareMethodNow (s : Core) (klass : ℕ) (sel : SEL) (n : Node) : Option Core :=
  (s.prepareEntries P klass sel n.arity).map (List.foldl (prepareEntryNow P n) s)

def eagerCore (s : Core) : Op → Option Core
  | .prepare klass sel n => prepareMethodNow P s klass sel n
  | op => stepCore P s op

def eagerStep (s : Option Core) (op : Op) : Option Core := s.bind fun s => eagerCore P s op

def reached (s : Option Core) (klass : ℕ) (sel : SEL) : Option (Option Method) :=
  s.map fun s => ((s.lookup P klass sel).visible P klass sel).map Prod.snd

def ClearUsers (s : Core) (klass : ℕ) (sel : SEL) : Prop :=
  ∀ c ∈ klass::s.includedInClasses klass, Clear P.tree (s.table sel) c

def HarmlessCore (s : Core) : Op → Prop
  | .prepare klass sel n => ∀ es, s.prepareEntries P klass sel n.arity=some es →
      Along (Core.prepareEntry P n)
        (fun s e => PrepareSettled P.tree s.includedInClasses (s.table e.2) e.1) s es
  | .define klass sel n direct =>
    Along (Core.defineEntry P klass n)
      (fun s sel => DefineSettled P.tree s.includedInClasses (s.table sel) klass) s
      (if direct then [sel] else definedSels sel n.arity)
  | .aliasName klass name old =>
    LookupSettled P.tree s.includedInClasses (s.table old) klass ∧
    (¬genuine old → LookupSettled P.tree s.includedInClasses
      ((s.lookup P klass old).table (buf100 (old++[':']))) klass) ∧
    ClearUsers P (s.aliasLookups P klass old) klass name ∧
    ClearUsers P (s.aliasLookups P klass old) klass (buf100 (name++[':']))
  | .includeModule klass mod => P.isModule mod=true → mod ∉ s.includedModules klass →
      ∀ sel, CopySettled P.tree
        (Function.update s.includedInClasses mod (s.includedInClasses mod++[klass]))
        (s.table sel) mod klass
  | .call klass sel => LookupSettled P.tree s.includedInClasses (s.table sel) klass

def Harmless (s : Option Core) (op : Op) : Prop := ∀ core, s=some core → HarmlessCore P core op

/-- The core `s` stands for the core `e`, except for what is left to be passed on. -/
structure StandsCore (P : Program) (left : List (ℕ × SEL)) (s e : Core) : Prop where
  modules : s.includedModules=e.includedModules
  users : s.includedInClasses=e.includedInClasses
  table : ∀ sel, Stands P.tree (fun c => (c,sel) ∈ left) (s.table sel) (e.table sel)

variable {P : Program} {s e : Core} {klass c : ℕ} {sel old sel' name : SEL} {n : Node} {m : Method}
variable {left : List (ℕ × SEL)}

lemma StandsCore.full (h : StandsCore P [] s e) (sel : SEL) :
    Stands P.tree (fun _ => False) (s.table sel) (e.table sel) :=
  (h.table sel).mono fun c hc => by simp at hc

lemma StandsCore.setTable (h : StandsCore P left s e)
    {t t' : Table} (ht : Stands P.tree (fun c => (c,sel) ∈ left) t t') :
    StandsCore P left (s.setTable sel t) (e.setTable sel t') := by
  refine ⟨h.modules,h.users,?_⟩
  intro sel'
  by_cases hs : sel'=sel
  · subst hs
    rw [table_setTable_self,table_setTable_self]
    exact ht
  · rw [table_setTable_of_ne s hs,table_setTable_of_ne e hs]
    exact h.table sel'

lemma StandsCore.lookup (h : StandsCore P left s e)
    (hs : LookupSettled P.tree s.includedInClasses (s.table sel) klass) :
    StandsCore P left (s.lookup P klass sel) (e.lookup P klass sel) := by
  have ht := (h.table sel).lookup hs
  apply h.setTable
  rwa [Table.lookup_of_empty (h.table sel).eager]

lemma StandsCore.visible_eq (h : StandsCore P [] s e)
    (hs : LookupSettled P.tree s.includedInClasses (s.table sel) klass) :
    (s.lookup P klass sel).visible P klass sel=(e.lookup P klass sel).visible P klass sel := by
  have hv := (h.full sel).visible_eq hs
  unfold Core.visible Core.lookup
  rw [table_setTable_self,table_setTable_self,← h.users]
  exact hv

lemma prepare_loop {es : List (ℕ × SEL)} (h : StandsCore P es s e)
    (hf : ForwardsEntries s.includedInClasses es) (hs : Along (Core.prepareEntry P n)
      (fun s x => PrepareSettled P.tree s.includedInClasses (s.table x.2) x.1) s es) :
    StandsCore P [] (es.foldl (Core.prepareEntry P n) s) (es.foldl (prepareEntryNow P n) e) := by
  induction es generalizing s e with
  | nil => exact h
  | cons x es ih =>
    refine ih ?_ hf.2 hs.2
    refine ⟨h.modules,h.users,?_⟩
    intro sel
    by_cases hse : sel=x.2
    · subst hse
      unfold Core.prepareEntry prepareEntryNow
      rw [table_setTable_self,table_setTable_self,← h.users]
      refine (h.table x.2).prepare hs.1 ?_ hf.1 n
      intro c hc
      rcases mem_cons.mp hc with hcx | hc
      · exact .inr (congrArg Prod.fst hcx)
      · exact .inl hc
    · unfold Core.prepareEntry prepareEntryNow
      rw [table_setTable_of_ne s hse,table_setTable_of_ne e hse]
      apply (h.table sel).mono
      intro c hc
      rcases mem_cons.mp hc with rfl | hc
      · exact (hse rfl).elim
      · exact hc

lemma define_loop {sels : List SEL} (h : StandsCore P [] s e)
    (hs : Along (Core.defineEntry P klass n)
      (fun s sel => DefineSettled P.tree s.includedInClasses (s.table sel) klass) s sels) :
    StandsCore P [] (sels.foldl (Core.defineEntry P klass n) s)
      (sels.foldl (Core.defineEntry P klass n) e) := by
  induction sels generalizing s e with
  | nil => exact h
  | cons sel sels ih =>
    refine ih ?_ hs.2
    have hd := (h.table sel).define hs.1 n
    apply h.setTable
    rwa [← h.users]

lemma StandsCore.includeModule (h : StandsCore P [] s e) {mod : ℕ}
    (hh : HarmlessCore P s (.includeModule klass mod)) :
    StandsCore P [] (s.rbIncludeModule P klass mod) (e.rbIncludeModule P klass mod) := by
  unfold Core.rbIncludeModule
  rw [← h.modules,← h.users]
  split
  · exact h
  · next hd =>
      rw [not_or,not_not] at hd
      refine ⟨rfl,rfl,?_⟩
      intro sel
      exact ((h.full sel).copyMethods (hh hd.1 hd.2 sel)).mono fun c hc => hc.elim

lemma StandsCore.own_lookup (h : StandsCore P [] s e)
    (hs : LookupSettled P.tree s.includedInClasses (s.table sel') klass)
    (ho : (s.table sel).own c=some m) : ((s.lookup P klass sel').table sel).own c=some m := by
  unfold Core.lookup
  by_cases hse : sel=sel'
  · subst hse
    rw [table_setTable_self]
    exact MethodSources.own_lookup (h.table sel).unhidden hs ho
  · rw [table_setTable_of_ne s hse]
    exact ho

lemma StandsCore.aliasMethod (h : StandsCore P [] s e) {owner : ℕ}
    (ho : (s.table old).own owner=some m) (hcl : ClearUsers P s klass sel) :
    (s.rbVmAliasMethod klass owner old sel).1=(e.rbVmAliasMethod klass owner old sel).1 ∧
      StandsCore P [] (s.rbVmAliasMethod klass owner old sel).2
        (e.rbVmAliasMethod klass owner old sel).2 := by
  have hs := (h.table old).unhidden.source_eq_none ho (P.tree.self_mem_chain owner)
  have hsa : (e.table old).own owner=some m := by
    rw [(h.full old).same owner id,implements_of_no_source hs,ho]
  unfold Core.rbVmAliasMethod
  rw [ho,hsa]
  obtain ⟨imp,node⟩ := m
  cases node with
  | none => exact ⟨rfl,h⟩
  | some n =>
    refine ⟨rfl,?_⟩
    apply h.setTable
    rw [← h.users]
    exact (h.table sel).addMethod hcl (fun _ hc => .inl hc) imp n

lemma sources_aliasMethod (s : Core) (klass owner : ℕ) (old sel sel' : SEL) :
    ((s.rbVmAliasMethod klass owner old sel).2.table sel').sources=(s.table sel').sources := by
  unfold Core.rbVmAliasMethod
  split
  · by_cases hs : sel'=sel
    · rw [hs,table_setTable_self,Table.addMethod_sources]
    · rw [table_setTable_of_ne s hs]
  · rfl

lemma users_aliasMethod (s : Core) (klass owner : ℕ) (old sel : SEL) :
    (s.rbVmAliasMethod klass owner old sel).2.includedInClasses=s.includedInClasses := by
  unfold Core.rbVmAliasMethod
  split <;> rfl

lemma own_aliasMethod (klass owner : ℕ) (old sel : SEL) (ho : (s.table sel').own c=some m) :
    ∃ m', ((s.rbVmAliasMethod klass owner old sel).2.table sel').own c=some m' := by
  unfold Core.rbVmAliasMethod
  split
  · by_cases hs : sel'=sel
    · rw [hs,table_setTable_self,Table.own_addMethod]
      split
      · exact ⟨_,rfl⟩
      · exact ⟨m,hs ▸ ho⟩
    · rw [table_setTable_of_ne s hs]
      exact ⟨m,ho⟩
  · exact ⟨m,ho⟩

lemma own_of_owner (h : s.owner P klass sel=some c) : ∃ m, (s.table sel).own c=some m := by
  obtain ⟨⟨d,m⟩,hf,rfl⟩ := Option.map_eq_some_iff.mp h
  exact ⟨m,(P.tree.nearest_eq_some.mp hf).2.1⟩

lemma StandsCore.aliasFound (h : StandsCore P [] s e)
    {c₁ c₂ : Option ℕ} (hc₁ : ∀ c, c₁=some c → ∃ m, (s.table old).own c=some m)
    (hc₂ : ∀ c, c₂=some c → ∃ m, (s.table (buf100 (old++[':']))).own c=some m)
    (hcl : ClearUsers P s klass name) (hcl' : ClearUsers P s klass (buf100 (name++[':']))) :
    StandsCore P [] (s.aliasFound klass name old c₁ c₂).2
      (e.aliasFound klass name old c₁ c₂).2 := by
  cases c₁ with
  | none =>
    cases c₂ with
    | none => exact h
    | some c₂ =>
      obtain ⟨m₂,hm₂⟩ := hc₂ c₂ rfl
      exact (h.aliasMethod hm₂ hcl').2
  | some c₁ =>
    obtain ⟨m₁,hm₁⟩ := hc₁ c₁ rfl
    have hf := h.aliasMethod hm₁ hcl
    cases c₂ with
    | none => exact hf.2
    | some c₂ =>
      obtain ⟨m₂,hm₂⟩ := hc₂ c₂ rfl
      obtain ⟨m',hm'⟩ := own_aliasMethod klass c₁ old name hm₂
      have ht : ClearUsers P (s.rbVmAliasMethod klass c₁ old name).2 klass
          (buf100 (name++[':'])) := by
        intro c hc d hd
        rw [users_aliasMethod] at hc
        rw [sources_aliasMethod]
        exact hcl' c hc d hd
      have hse := hf.2.aliasMethod hm' ht
      unfold Core.aliasFound
      dsimp only
      cases hs : s.rbVmAliasMethod klass c₁ old name with
      | mk ok s' =>
        cases he : e.rbVmAliasMethod klass c₁ old name with
        | mk ok' e' =>
          rw [hs,he] at hf hse
          obtain rfl : ok=ok' := hf.1
          cases ok with
          | false => exact hf.2
          | true => exact hse.2

lemma StandsCore.aliasName (h : StandsCore P [] s e)
    (hh : HarmlessCore P s (.aliasName klass name old)) :
    StandsCore P [] (s.rbVmAlias2 P klass name old).2 (e.rbVmAlias2 P klass name old).2 := by
  obtain ⟨hold,hco,hcl,hcl'⟩ := hh
  have h₁ := h.lookup hold
  have ho : (s.lookup P klass old).owner P klass old =
      (e.lookup P klass old).owner P klass old := congrArg _ (h.visible_eq hold)
  unfold Core.rbVmAlias2
  unfold Core.aliasLookups at hcl hcl' ⊢
  by_cases hg : genuine old=true
  · rw [if_pos hg] at hcl hcl' ⊢
    rw [if_pos hg,if_pos hg,if_pos hg,← ho]
    apply h₁.aliasFound _ _ hcl hcl'
    · intro c hc
      exact own_of_owner hc
    · intro c hc
      simp at hc
  · rw [if_neg hg] at hcl hcl' ⊢
    rw [if_neg hg,if_neg hg,if_neg hg]
    have hs := hco hg
    have ho' : ((s.lookup P klass old).lookup P klass (buf100 (old++[':']))).owner P klass
        (buf100 (old++[':']))=((e.lookup P klass old).lookup P klass
        (buf100 (old++[':']))).owner P klass (buf100 (old++[':'])) :=
      congrArg _ (h₁.visible_eq hs)
    rw [← ho,← ho']
    apply (h₁.lookup hs).aliasFound _ _ hcl hcl'
    · intro c hc
      obtain ⟨m,hm⟩ := own_of_owner hc
      exact ⟨m,h₁.own_lookup hs hm⟩
    · intro c hc
      exact own_of_owner hc

/-- Both processes still run, or both have overflowed their stacks. -/
def StandsProcess (P : Program) : Option Core → Option Core → Prop
  | none,none => True
  | some s,some e => StandsCore P [] s e
  | _,_ => False

lemma StandsCore.prepare (h : StandsCore P [] s e)
    (hh : HarmlessCore P s (.prepare klass sel n)) :
    StandsProcess P (s.prepareMethod P klass sel n) (prepareMethodNow P e klass sel n) := by
  have hs : e.prepareEntries P klass sel n.arity=s.prepareEntries P klass sel n.arity := by
    unfold Core.prepareEntries
    rw [h.users]
  unfold Core.prepareMethod prepareMethodNow
  rw [hs]
  cases he : s.prepareEntries P klass sel n.arity with
  | none => trivial
  | some es =>
    obtain ⟨path,hp,rfl⟩ := Option.map_eq_some_iff.mp he
    have hf := (forwardPath_forwards hp).2.entries (definedSels sel n.arity)
    apply prepare_loop _ hf (hh _ he)
    exact ⟨h.modules,h.users,fun sel => (h.full sel).mono fun c hc => hc.elim⟩

lemma stands_step (s e : Option Core) (op : Op) (h : StandsProcess P s e)
    (hh : Harmless P s op) : StandsProcess P (step P s op) (eagerStep P e op) := by
  cases s with
  | none =>
    cases e with
    | none => trivial
    | some e => exact h.elim
  | some s =>
    cases e with
    | none => exact h.elim
    | some e =>
      have hc := hh s rfl
      cases op with
      | prepare klass sel n => exact StandsCore.prepare h hc
      | define klass sel n direct => exact define_loop h hc
      | aliasName klass name old => exact StandsCore.aliasName h hc
      | includeModule klass mod => exact StandsCore.includeModule h hc
      | call klass sel => exact StandsCore.lookup h hc

lemma stands_start (P : Program) : StandsProcess P (some (start P)) (some (start P)) := by
  refine ⟨rfl,rfl,?_⟩
  intro sel
  refine ⟨⟨?_,?_⟩,fun c _ => rfl,rfl⟩
  all_goals
    intro c n hc
    simp [start] at hc

/-- In a run of harmless steps, every call reaches the method that it reaches when all
methods are compiled at once. -/
theorem call_reaches_eager_method (P : Program) {ops : List Op} {klass : ℕ} {sel : SEL}
    (h : Along (step P) (Harmless P) (some (start P)) (ops++[.call klass sel])) :
    reached P (run (step P) (some (start P)) ops) klass sel =
      reached P (run (eagerStep P) (some (start P)) ops) klass sel := by
  rw [along_append] at h
  have hst := run_simulation stands_step (stands_start P) h.1
  have hh := h.2.1
  cases hs : run (step P) (some (start P)) ops with
  | none =>
    cases he : run (eagerStep P) (some (start P)) ops with
    | none => rfl
    | some e => rw [hs,he] at hst; exact hst.elim
  | some s =>
    cases he : run (eagerStep P) (some (start P)) ops with
    | none => rw [hs,he] at hst; exact hst.elim
    | some e =>
      rw [hs,he] at hst
      have hv := StandsCore.visible_eq hst (hh s hs)
      simp only [reached,Option.map_some,hv]

/-- A method of the subclass is prepared, and then one of the superclass is defined
directly. A call on the subclass reaches the method of the superclass. -/
theorem direct_definition_hides_source :
    reached twoClasses (run (step twoClasses) (some (start twoClasses))
        [.prepare 1 ['f'] (body 1),.define 0 ['f'] (body 2) false]) 1 ['f'] ≠
      reached twoClasses (run (eagerStep twoClasses) (some (start twoClasses))
        [.prepare 1 ['f'] (body 1),.define 0 ['f'] (body 2) false]) 1 ['f'] := by
  decide

lemma no_modules_settled (tree : ClassTree) (t : Table) (klass : ℕ) :
    LookupSettled tree (fun _ => []) t klass :=
  fun _ _ _ _ _ _ _ _ hd => by simp at hd

/-- Both classes define the method with `def`. -/
theorem prepared_in_both_classes :
    reached twoClasses (run (step twoClasses) (some (start twoClasses))
        [.prepare 0 ['f'] (body 1),.prepare 1 ['f'] (body 2)]) 1 ['f'] =
      reached twoClasses (run (eagerStep twoClasses) (some (start twoClasses))
        [.prepare 0 ['f'] (body 1),.prepare 1 ['f'] (body 2)]) 1 ['f'] := by
  apply call_reaches_eager_method
  refine ⟨?_,?_,?_,trivial⟩
  · rintro core ⟨rfl⟩ es ⟨rfl⟩
    exact ⟨⟨no_modules_settled _ _ _,fun _ c hc => by simp [start] at hc⟩,trivial⟩
  · rintro core ⟨rfl⟩ es ⟨rfl⟩
    exact ⟨⟨no_modules_settled _ _ _,fun _ c hc => by cases hc⟩,trivial⟩
  · rintro core ⟨rfl⟩
    exact no_modules_settled _ _ _
end MacRuby.LazyMethods
