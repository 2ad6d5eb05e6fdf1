import MacRuby.MethodTables
import MacRuby.Runs

/-!
# The two indexes of the sources

`method_sources` has the source of a selector for each class, and
`method_source_sels` lists the selectors of a class. `prepare_method` enters a
source in both, and `resolve_method` and `resolve_methods` take it out of both. But
`resolve_method` is also called when a method is prepared that the class responds
to already, and `copy_methods` lists the selector of a copied source for a class
that has a source of its own. The indexes agree after a step exactly when it is not
one of those two.
-/
namespace MacRuby.SourceListings
open Runs MethodTables Function List SortedMap

/-- The selector is listed once for a class with a source, and for no other class. -/
def Listed (t : Table) : Prop := ∀ c, t.sourceSels c=if (t.sources.find c).isSome then 1 else 0

variable {tree : ClassTree} {users : ℕ → List ℕ} {t t' : Table} {klass : ℕ} {mod c : ℕ}

lemma Listed.of_none (h : Listed t) (hc : t.sources.find c=none) : t.sourceSels c=0 := by
  rw [h c,hc]
  rfl

lemma Listed.of_some (h : Listed t) {n : Node} (hc : t.sources.find c=some n) :
    t.sourceSels c=1 := by
  rw [h c,hc]
  rfl

lemma Listed.change (h : Listed t) (k : ℕ) (hs : ∀ c, c ≠ k → t'.sources.find c=t.sources.find c)
    (hse : ∀ c, c ≠ k → t'.sourceSels c=t.sourceSels c) :
    Listed t' ↔ t'.sourceSels k=if (t'.sources.find k).isSome then 1 else 0 := by
  constructor
  · intro h'
    exact h' k
  · intro hk c
    by_cases hc : c=k
    · rw [hc]
      exact hk
    · rw [hs c hc,hse c hc]
      exact h c

lemma Listed.of_eq (h : Listed t) (hs : t'.sources=t.sources)
    (hse : t'.sourceSels=t.sourceSels) : Listed t' := by
  intro c
  rw [hs,hse]
  exact h c

lemma listed_resolveMethod_iff (h : Listed t) (n : Node) :
    Listed (Table.resolveMethod users t klass n) ↔ t.sources.find klass=none := by
  have hs : (Table.resolveMethod users t klass n).sources=t.sources :=
    Table.addMethod_sources _ _ _
  have hse : (Table.resolveMethod users t klass n).sourceSels =
      update t.sourceSels klass (t.sourceSels klass-1) := Table.addMethod_sourceSels _ _ _
  rw [h.change klass fun c _ => by rw [hs]
    fun c hc => by rw [hse,update_of_ne hc],hs,hse]
  cases hf : t.sources.find klass with
  | none => simp [h.of_none hf]
  | some m => simp [h.of_some hf]

lemma listed_keepSource (h : Listed t) (n : Node) : Listed (t.keepSource klass n) := by
  have hf : ∀ c, (t.keepSource klass n).sources.find c =
      if c=klass then some n else t.sources.find c := fun c => find_assign _ _ _ _
  have hs : ∀ c, (t.keepSource klass n).sourceSels c=if c=klass then 1 else t.sourceSels c := by
    intro c
    cases hold : t.sources.find klass with
    | none =>
      simp only [Table.keepSource,hold,Option.isSome_none,Bool.false_eq_true,if_false,
        h.of_none hold,update_apply]
    | some m =>
      simp only [Table.keepSource,hold,Option.isSome_some,if_true]
      split_ifs with hc
      · rw [hc,h.of_some hold]
      · rfl
  rw [h.change klass fun c hc => by rw [hf,if_neg hc] fun c hc => by rw [hs,if_neg hc],
    hf,hs,if_pos rfl,if_pos rfl]
  rfl

lemma listed_resolveEntry (h : Listed t) {e : ℕ × Node} (he : t.sources.find e.1=some e.2) :
    Listed (Table.resolveEntry tree users klass t e) := by
  unfold Table.resolveEntry
  split_ifs with hb
  · have hs : (Table.resolveMethod users t e.1 e.2).sourceSels =
        update t.sourceSels e.1 (t.sourceSels e.1-1) := Table.addMethod_sourceSels _ _ _
    rw [h.change e.1 fun c hc => by rw [find_erase,if_neg hc]
      fun c hc => by rw [hs,update_of_ne hc]]
    rw [hs,update_self,h.of_some he,find_erase,if_pos rfl]
    rfl
  · exact h

lemma find_resolveEntry (t : Table) (e : ℕ × Node) (c : ℕ) :
    (Table.resolveEntry tree users klass t e).sources.find c =
      if c=e.1 ∧ klass ∈ tree.chain e.1 then none else t.sources.find c := by
  unfold Table.resolveEntry
  split_ifs with hb hc hc
  · rw [find_erase,if_pos hc.1]
  · rw [find_erase,if_neg fun he => hc ⟨he,hb⟩]
  · exact (hb hc.2).elim
  · rfl

lemma listed_resolve_loop {es : List (ℕ × Node)} (h : Listed t) (hn : (es.map Prod.fst).Nodup)
    (he : ∀ e ∈ es, t.sources.find e.1=some e.2) :
    Listed (es.foldl (Table.resolveEntry tree users klass) t) := by
  induction es generalizing t with
  | nil => exact h
  | cons e es ih =>
    rw [map_cons,nodup_cons] at hn
    refine ih (listed_resolveEntry h (he e mem_cons_self)) hn.2 ?_
    intro x hx
    have hne : x.1 ≠ e.1 := fun heq => hn.1 (heq ▸ mem_map_of_mem hx)
    rw [find_resolveEntry,if_neg fun hc => hne hc.1]
    exact he x (mem_cons_of_mem e hx)

lemma listed_resolveMethods (h : Listed t) : Listed (Table.resolveMethods tree users t klass) :=
  listed_resolve_loop h t.sources.nodup_keys fun _ he => find_eq_some.mpr he

lemma find_resolve_loop (es : List (ℕ × Node)) (t : Table) (c : ℕ) :
    (es.foldl (Table.resolveEntry tree users klass) t).sources.find c =
      if c ∈ es.map Prod.fst ∧ klass ∈ tree.chain c then none else t.sources.find c := by
  induction es generalizing t with
  | nil => simp
  | cons e es ih =>
    rw [foldl_cons,ih,find_resolveEntry]
    by_cases hc : c=e.1
    · subst hc
      split_ifs <;> tauto
    · simp only [map_cons,mem_cons,hc,false_or,false_and,if_false]

lemma find_resolveMethods (hc : klass ∈ tree.chain c) :
    (Table.resolveMethods tree users t klass).sources.find c=none := by
  rw [Table.resolveMethods,find_resolve_loop]
  split_ifs with hm
  · rfl
  · by_contra hsome
    obtain ⟨n,hn⟩ := Option.ne_none_iff_exists'.mp hsome
    exact hm ⟨mem_map.mpr ⟨(c,n),find_eq_some.mp hn,rfl⟩,hc⟩

lemma listed_lookup (h : Listed t) : Listed (t.lookup tree users klass) := by
  unfold Table.lookup
  cases t.visible tree klass with
  | some m => exact h
  | none =>
    cases t.sourceClass tree klass with
    | none => exact h
    | some c => exact listed_resolveMethods h

lemma find_lookup (hv : t.visible tree klass=none) :
    (t.lookup tree users klass).sources.find klass=none := by
  unfold Table.lookup
  rw [hv]
  cases hs : t.sourceClass tree klass with
  | none =>
    exact tree.nearest_eq_none.mp (Option.map_eq_none_iff.mp hs) klass (tree.self_mem_chain klass)
  | some c =>
    obtain ⟨⟨d,n⟩,hn,rfl⟩ := Option.map_eq_some_iff.mp hs
    exact find_resolveMethods (tree.nearest_eq_some.mp hn).1

lemma lookup_of_visible {found : ℕ × Method} (hv : t.visible tree klass=some found) :
    t.lookup tree users klass=t := by
  rw [Table.lookup,hv]

/-- One round from the label of `prepare_method`, for a function or a compiled method. -/
def prepareRound (tree : ClassTree) (users : ℕ → List ℕ) (t : Table) (klass : ℕ) (n : Node)
    (precompiled : Bool) : Table :=
  if precompiled then Table.resolveMethod users (t.lookup tree users klass) klass n
  else t.prepare tree users klass n

lemma listed_prepareRound_iff (h : Listed t) (n : Node) (precompiled : Bool) :
    Listed (prepareRound tree users t klass n precompiled) ↔
      (t.visible tree klass ≠ none → t.sources.find klass=none) := by
  cases hv : t.visible tree klass with
  | some found =>
    have hro : prepareRound tree users t klass n precompiled =
        Table.resolveMethod users t klass n := by
      unfold prepareRound Table.prepare
      dsimp only
      rw [lookup_of_visible hv,hv]
      exact ite_self _
    rw [hro,listed_resolveMethod_iff h]
    exact ⟨fun hf _ => hf,fun hf => hf (Option.some_ne_none found)⟩
  | none =>
    -- the lookup has compiled the source of the class, if there was one
    have hl : Listed (t.lookup tree users klass) := listed_lookup h
    have hr : Listed (Table.resolveMethod users (t.lookup tree users klass) klass n) :=
      (listed_resolveMethod_iff hl n).mpr (find_lookup hv)
    refine ⟨fun _ hn => (hn rfl).elim,fun _ => ?_⟩
    unfold prepareRound
    split_ifs with hp
    · exact hr
    · unfold Table.prepare
      dsimp only
      cases (t.lookup tree users klass).visible tree klass with
      | some found => exact hr
      | none => exact listed_keepSource hl n

def Compiled (t : Table) (klass : ℕ) : Prop := ∃ imp n, t.own klass=some ⟨imp,some n⟩

lemma copyCompiled_of_compiled (tree : ClassTree) (users : ℕ → List ℕ) (klass : ℕ)
    (ho : Compiled t mod) : ∃ u : Table, u.sources=t.sources ∧ u.sourceSels=t.sourceSels ∧
      t.copyCompiled tree users mod klass=Table.resolveMethods tree users u klass := by
  obtain ⟨imp,n,ho⟩ := ho
  refine ⟨t.put klass ⟨imp,some n⟩,rfl,rfl,?_⟩
  rw [Table.copyCompiled,ho]

lemma copyCompiled_of_not (ho : ¬Compiled t mod) : t.copyCompiled tree users mod klass=t := by
  unfold Table.copyCompiled
  split
  · next imp n hf => exact (ho ⟨imp,n,hf⟩).elim
  · rfl

lemma listed_copySource_iff (h : Listed t) : Listed (t.copySource mod klass) ↔
      (t.sources.find mod ≠ none → t.sources.find klass=none) := by
  unfold Table.copySource
  cases hm : t.sources.find mod with
  | none =>
    rw [h.of_none hm]
    exact ⟨fun _ hn => (hn rfl).elim,fun _ => h⟩
  | some n =>
    rw [h.of_some hm]
    rw [h.change klass fun c hc => by rw [find_insert,if_neg fun hc' => hc hc'.1]
      fun c hc => update_of_ne hc _ _]
    rw [find_insert]
    cases hk : t.sources.find klass with
    | none => simp [h.of_none hk]
    | some m => simp [h.of_some hk]

lemma listed_copyMethods_iff (h : Listed t) : Listed (t.copyMethods tree users mod klass) ↔
      (t.sources.find mod ≠ none → t.sources.find klass ≠ none → Compiled t mod) := by
  unfold Table.copyMethods
  by_cases ho : Compiled t mod
  · obtain ⟨u,hs,hse,hc⟩ := copyCompiled_of_compiled tree users klass ho
    rw [hc,listed_copySource_iff (listed_resolveMethods (h.of_eq hs hse))]
    exact ⟨fun _ _ _ => ho,fun _ _ => find_resolveMethods (tree.self_mem_chain klass)⟩
  · rw [copyCompiled_of_not ho,listed_copySource_iff h]
    constructor
    · intro hc hm hk
      exact (hk (hc hm)).elim
    · intro hsa hm
      by_contra hk
      exact ho (hsa hm hk)

variable (P : Program)

inductive Op
  | prepare (klass : ℕ) (sel : SEL) (n : Node) (precompiled : Bool)
  | includeModule (klass mod : ℕ)
  | resolve (klass : ℕ) (sel : SEL)
  | lookup (klass : ℕ) (sel : SEL)
  | addMethod (klass : ℕ) (sel : SEL) (imp : Imp) (n : Node)
  | undefMethod (klass : ℕ) (sel : SEL)

def rbVmResolveMethod (s : Core) (klass : ℕ) (sel : SEL) : Core :=
  match (s.table sel).sourceClass P.tree klass with
  | none => s
  | some c => s.setTable sel ((s.table sel).resolveMethods P.tree s.includedInClasses c)

def step (s : Core) : Op → Core
  | .prepare klass sel n precompiled =>
    s.setTable sel (prepareRound P.tree s.includedInClasses (s.table sel) klass n precompiled)
  | .includeModule klass mod => s.rbIncludeModule P klass mod
  | .resolve klass sel => rbVmResolveMethod P s klass sel
  | .lookup klass sel => s.lookup P klass sel
  | .addMethod klass sel imp n =>
    s.setTable sel ((s.table sel).addMethod s.includedInClasses klass imp n)
  | .undefMethod klass sel => s.undefMethod klass sel

/-- The assertion in the loops of `get_methods`: a listed selector has a source. -/
def GetMethodsAsserts (s : Core) (klass : ℕ) : Prop :=
  ∀ k ∈ P.tree.chain klass, ∀ sel, 0 < (s.table sel).sourceSels k → (s.table sel).sources.find k ≠ none

/-- The indexes agree, and `get_methods` does not fail. -/
structure Consistent (s : Core) : Prop where
  listed : ∀ sel, Listed (s.table sel)
  asserts : ∀ klass, GetMethodsAsserts P s klass

/-- A class with a source does not respond to a selector when a method is prepared
for it; and a module that is included by a class with a source has no source of that
selector, or a compiled method as well. -/
def Safe (s : Core) : Op → Prop
  | .prepare klass sel _ _ =>
    s.visible P klass sel ≠ none → (s.table sel).sources.find klass=none
  | .includeModule klass mod => P.isModule mod=true → mod ∉ s.includedModules klass →
      ∀ sel, (s.table sel).sources.find mod ≠ none → (s.table sel).sources.find klass ≠ none →
        Compiled (s.table sel) mod
  | _ => True

variable {P} {s : Core}

lemma consistent_iff_listed : Consistent P s ↔ ∀ sel, Listed (s.table sel) := by
  constructor
  · exact Consistent.listed
  · intro h
    refine ⟨h,?_⟩
    intro klass k _ sel hp hn
    rw [(h sel).of_none hn] at hp
    exact lt_irrefl 0 hp

lemma consistent_setTable (h : Consistent P s) (sel : SEL) (t : Table) :
    Consistent P (s.setTable sel t) ↔ Listed t := by
  rw [consistent_iff_listed]
  constructor
  · intro ha
    have hs := ha sel
    rwa [Core.table_setTable_self] at hs
  · intro ht sel'
    by_cases hs : sel'=sel
    · rw [hs,Core.table_setTable_self]
      exact ht
    · rw [Core.table_setTable_of_ne s hs]
      exact h.listed sel'

lemma consistent_includeModule (h : Consistent P s) (klass mod : ℕ) :
    Consistent P (s.rbIncludeModule P klass mod) ↔ Safe P s (.includeModule klass mod) := by
  unfold Core.rbIncludeModule
  split_ifs with hs
  · refine ⟨fun _ hm hf => ?_,fun _ => h⟩
    exact (hs.elim (fun hn => hn hm) hf).elim
  · rw [not_or,not_not] at hs
    rw [consistent_iff_listed]
    constructor
    · intro ha _ _ sel
      exact (listed_copyMethods_iff (h.listed sel)).mp (ha sel)
    · intro hsa sel
      exact (listed_copyMethods_iff (h.listed sel)).mpr (hsa hs.1 hs.2 sel)

lemma consistent_resolve (h : Consistent P s) (klass : ℕ) (sel : SEL) :
    Consistent P (rbVmResolveMethod P s klass sel) := by
  unfold rbVmResolveMethod
  cases (s.table sel).sourceClass P.tree klass with
  | none => exact h
  | some c => exact (consistent_setTable h sel _).mpr (listed_resolveMethods (h.listed sel))

lemma consistent_step (s : Core) (op : Op) (h : Consistent P s) :
    Consistent P (step P s op) ↔ Safe P s op := by
  cases op with
  | prepare klass sel n precompiled =>
    exact (consistent_setTable h sel _).trans (listed_prepareRound_iff (h.listed sel) n precompiled)
  | includeModule klass mod => exact consistent_includeModule h klass mod
  | resolve klass sel => exact iff_of_true (consistent_resolve h klass sel) trivial
  | lookup klass sel =>
    exact iff_of_true ((consistent_setTable h sel _).mpr (listed_lookup (h.listed sel))) trivial
  | addMethod klass sel imp n =>
    refine iff_of_true ((consistent_setTable h sel _).mpr ?_) trivial
    exact (h.listed sel).of_eq (Table.addMethod_sources _ _ _) (Table.addMethod_sourceSels _ _ _)
  | undefMethod klass sel =>
    refine iff_of_true ((consistent_setTable h sel _).mpr ?_) trivial
    exact (h.listed sel).of_eq rfl rfl

lemma consistent_start (P : Program) : Consistent P (start P) := by
  rw [consistent_iff_listed]
  intro sel c
  rfl

/-- The indexes agree in all states of a run exactly when every step is safe. -/
theorem consistent_iff_safe (P : Program) (ops : List Op) :
    (∀ l, l <+: ops → Consistent P (run (step P) (start P) l)) ↔
      Along (step P) (Safe P) (start P) ops :=
  invariant_iff_along (J := fun _ => True) (fun _ _ _ _ => trivial)
    (fun s op _ => consistent_step s op) trivial (consistent_start P) ops

def moduleAndClass : Program where
  tree := .discrete
  isModule k := k == 0
  native _ _ := none
  canForward _ _ := false
  objcMsgSend := 0
  bsFunction _ := none
  stack := 2
  stack_pos := Nat.succ_pos 1

def foo : SEL := "foo".toList

def bothPrepared : List Op :=
  [.prepare 1 foo (body 1) false,.prepare 0 foo (body 0) false,.includeModule 1 0,.lookup 1 foo]

/-- The class gets the module's method before its copy of the source is compiled. -/
def passedOn : List Op :=
  [.prepare 0 foo (body 0) false,.includeModule 1 0,.lookup 0 foo,.prepare 1 foo (body 1) false]

/-- A selector stays listed without a source, and a source without being listed. -/
theorem listings_disagree :
    ¬GetMethodsAsserts moduleAndClass (run (step moduleAndClass) (start moduleAndClass) bothPrepared) 1 ∧
    ¬Consistent moduleAndClass (run (step moduleAndClass) (start moduleAndClass) passedOn) := by
  constructor
  · intro h
    refine h 1 (ClassTree.self_mem_chain _ 1) foo ?_ ?_
    · exact one_pos
    · decide
  · intro h
    have hn := h.listed foo 1
    revert hn
    decide
end MacRuby.SourceListings
