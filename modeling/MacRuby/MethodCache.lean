import MacRuby.Dispatch
import MacRuby.Runs

/-!
# The dispatch cache

Each selector has one cache, for all classes. Adding a method empties the cache
of its selector. Undefining a method and copying the methods of an included
module change the runtime's tables only, so a cache that was filled before can
serve a method that a lookup would no longer find. A cache can also depend on
the methods of another selector, when it was filled on a detour, and one for a
C function serves every class.
-/
namespace MacRuby.MethodCache
open Runs MethodTables Dispatch Function Core

inductive Op
  | addMethod (klass : ℕ) (sel : SEL) (n : Node)
  | undefMethod (klass : ℕ) (name : SEL) (mustExist : Bool)
  | includeModule (klass mod : ℕ)
  | call (c : Call)

/-- `RoxorCore::add_method`. -/
def addMethod (s : Core) (klass : ℕ) (sel : SEL) (n : Node) : Core :=
  s.setTable sel ((s.table sel).addMethod s.includedInClasses klass (.code n.rubyImp) n)

def step (P : Program) (s : Core) : Op → Core
  | .addMethod klass sel n => addMethod s klass sel n
  | .undefMethod klass name mustExist => (s.rbVmUndefMethod P klass name mustExist).2
  | .includeModule klass mod => s.rbIncludeModule P klass mod
  | .call c => (rbVmDispatch P s c).2

def Transparent (P : Program) (s : Core) (c : Call) : Prop :=
  (rbVmDispatch P s c).1=(rbVmDispatch P (fill s c.sel .empty) c).1

variable (P : Program) (s : Core)

def detourSels (sel : SEL) (argc : ℕ) : List SEL :=
  (headSel sel argc).toList++(helperSel sel).toList

/-- A cache filled on a detour depends on what the class sees of `sel` at `c`. -/
def Detoured (sel : SEL) (c : ℕ) : Prop :=
  ∃ sel' klass imp self argc, (s.table sel').mcache=.ocall klass imp (.detour self argc) ∧
    sel ∈ detourSels sel' argc ∧ P.tree.Tried (s.table sel).own klass c

/-- The steps that leave every filled cache right. A definition and an undefinition are
not consulted by a cache filled on a detour. The class of an undefinition is not
tried by the lookup that filled the cache of the selector. The same holds for an
inclusion, except that the method of the cache itself may be replaced. A call is
served by a cache filled on a detour only for the same receiver and number of
arguments, and by one for a C function only if the class sees no method. -/
def Harmless : Op → Prop
  | .addMethod klass sel _ => ∀ c ∈ klass::s.includedInClasses klass, ¬Detoured P s sel c
  | .undefMethod klass name mustExist => ∀ sel, s.undefSel P klass name mustExist=some sel →
      ¬Detoured P s sel klass ∧
      (∀ k owner, (s.table sel).mcache=.rcall k owner →
        ¬P.tree.Tried (s.table sel).own k klass) ∧
      ∀ k imp filler, (s.table sel).mcache=.ocall k imp filler →
        ¬P.tree.Tried (s.table sel).own k klass
  | .includeModule klass mod => P.isModule mod=true → mod ∉ s.includedModules klass →
      ∀ sel imp n, (s.table sel).own mod=some ⟨imp,some n⟩ →
      ¬Detoured P s sel klass ∧
      (∀ k owner, (s.table sel).mcache=.rcall k owner →
        P.tree.Tried (s.table sel).own k klass → owner=klass ∧ imp ≠ .undefined) ∧
      ∀ k imp filler, (s.table sel).mcache=.ocall k imp filler →
        ¬P.tree.Tried (s.table sel).own k klass
  | .call c =>
    (∀ imp self argc, (s.table c.sel).mcache=.ocall c.klass imp (.detour self argc) →
      self=c.self ∧ argc=c.argc) ∧
    ∀ f, (s.table c.sel).mcache=.fcall f → P.canForward c.self c.sel=false ∧
      ∀ sel ∈ c.sel::detourSels c.sel c.argc, s.visible P c.klass sel=none

variable {P s}

def Compiled (s : Core) : Prop := ∀ sel, (s.table sel).sources=∅

lemma setTable_table (s : Core) (sel : SEL) : s.setTable sel (s.table sel)=s := by
  unfold Core.setTable
  rw [update_eq_self]

lemma lookup_compiled (h : Compiled s) (klass : ℕ) (sel : SEL) : s.lookup P klass sel=s := by
  rw [Core.lookup,Table.lookup_of_empty (h sel),setTable_table]

lemma visible_fill (s : Core) (sel sel' : SEL) (entry : MCache) (klass : ℕ) :
    (fill s sel entry).visible P klass sel'=s.visible P klass sel' := by
  unfold Core.visible fill
  by_cases hs : sel'=sel
  · subst hs
    rw [table_setTable_self]
    rfl
  · rw [table_setTable_of_ne s hs]

lemma compiled_fill (h : Compiled s) (sel : SEL) (entry : MCache) : Compiled (fill s sel entry) := by
  intro sel'
  unfold fill
  by_cases hs : sel'=sel
  · subst hs
    rw [table_setTable_self]
    exact h sel'
  · rw [table_setTable_of_ne s hs]
    exact h sel'

lemma visible_congr {s' : Core} {klass : ℕ} {sel : SEL}
    (h : ∀ c, P.tree.Tried (s.table sel).own klass c → (s'.table sel).own c=(s.table sel).own c) :
    s'.visible P klass sel=s.visible P klass sel := P.tree.nearest_congr_of_tried h

variable {s' : Core} {c : Call}

lemma callMethodMissing_congr (h : Compiled s) (h' : Compiled s')
    (hv : ∀ sel, s.visible P c.klass sel=s'.visible P c.klass sel) (sel : SEL) (argc : ℕ) :
    (callMethodMissing P s c sel argc).1=(callMethodMissing P s' c sel argc).1 := by
  unfold callMethodMissing
  cases otherSel sel argc with
  | none => rfl
  | some sel' =>
    dsimp only
    rw [lookup_compiled h,lookup_compiled h',hv]
    split <;> rfl

lemma recache2_congr (h : Compiled s) (h' : Compiled s')
    (hv : ∀ sel, s.visible P c.klass sel=s'.visible P c.klass sel) (sel : SEL) (argc : ℕ)
    (found : ℕ × Method) (filler : Filler) (doRcache : Bool) :
    (recache2 P s c sel argc found filler doRcache).1 =
      (recache2 P s' c sel argc found filler doRcache).1 := by
  unfold recache2
  split
  · exact callMethodMissing_congr h h' hv sel argc
  · rfl
  · rfl

lemma tryFunction_congr (h : Compiled s) (h' : Compiled s')
    (hv : ∀ sel, s.visible P c.klass sel=s'.visible P c.klass sel) :
    (tryFunction P s c).1=(tryFunction P s' c).1 := by
  unfold tryFunction
  split
  · rfl
  · exact callMethodMissing_congr h h' hv c.sel c.argc

lemma tryHelper_congr (h : Compiled s) (h' : Compiled s')
    (hv : ∀ sel, s.visible P c.klass sel=s'.visible P c.klass sel) :
    (tryHelper P s c).1=(tryHelper P s' c).1 := by
  unfold tryHelper
  cases helperSel c.sel with
  | none => exact tryFunction_congr h h' hv
  | some sel =>
    dsimp only
    rw [lookup_compiled h,lookup_compiled h',hv]
    split
    · exact recache2_congr h h' hv _ _ _ _ _
    · exact tryFunction_congr h h' hv

lemma tryHash_congr (h : Compiled s) (h' : Compiled s')
    (hv : ∀ sel, s.visible P c.klass sel=s'.visible P c.klass sel) :
    (tryHash P s c).1=(tryHash P s' c).1 := by
  unfold tryHash
  cases headSel c.sel c.argc with
  | none => exact tryHelper_congr h h' hv
  | some sel =>
    dsimp only
    rw [lookup_compiled h,lookup_compiled h',hv]
    split
    · split
      · exact recache2_congr h h' hv _ _ _ _ _
      · exact tryHelper_congr h h' hv
    · exact tryHelper_congr h h' hv

lemma recache_congr (h : Compiled s) (h' : Compiled s')
    (hv : ∀ sel, s.visible P c.klass sel=s'.visible P c.klass sel) :
    (recache P s c).1=(recache P s' c).1 := by
  unfold recache
  dsimp only
  rw [lookup_compiled h,lookup_compiled h',hv]
  split
  · exact recache2_congr h h' hv _ _ _ _ _
  · split
    · rfl
    · exact tryHash_congr h h' hv

lemma dispatch_emptied (h : Compiled s) (c : Call) :
    (rbVmDispatch P (fill s c.sel .empty) c).1=(recache P s c).1 := by
  have he : ((fill s c.sel .empty).table c.sel).mcache=.empty := by
    unfold fill
    rw [table_setTable_self]
  rw [rbVmDispatch,he]
  exact recache_congr (compiled_fill h _ _) h fun sel => visible_fill s c.sel sel .empty c.klass

variable (P s)

/-- The detour of a call that ends with an Objective-C call of `imp`. -/
inductive Detour (sel : SEL) (klass self argc : ℕ) : ℕ → Prop
  | forward : P.canForward self sel=true → Detour sel klass self argc P.objcMsgSend
  | hash {sel' : SEL} {owner imp : ℕ} : P.canForward self sel=false →
      headSel sel argc=some sel' → argc ≤ keywords sel+1 →
      s.visible P klass sel'=some (owner,⟨.code imp,none⟩) → Detour sel klass self argc imp
  | helper {sel' : SEL} {owner imp : ℕ} : P.canForward self sel=false →
      (∀ h, headSel sel argc=some h → argc ≤ keywords sel+1 → s.visible P klass h=none) →
      helperSel sel=some sel' → s.visible P klass sel'=some (owner,⟨.code imp,none⟩) →
      Detour sel klass self argc imp

def Valid (sel : SEL) : MCache → Prop
  | .empty => True
  | .rcall klass owner => ∃ imp n, s.visible P klass sel=some (owner,⟨.code imp,some n⟩)
  | .ocall klass imp .found => ∃ owner, s.visible P klass sel=some (owner,⟨.code imp,none⟩)
  | .ocall klass imp (.detour self argc) =>
    s.visible P klass sel=none ∧ Detour P s sel klass self argc imp
  | .fcall f => P.bsFunction (functionName sel)=some f

structure Coherent : Prop where
  compiled : Compiled s
  valid : ∀ sel, Valid P s sel (s.table sel).mcache

variable {P s}

lemma tryHelper_of_detour (h : Compiled s) {sel : SEL} {owner imp : ℕ}
    (hs : helperSel c.sel=some sel) (hv : s.visible P c.klass sel=some (owner,⟨.code imp,none⟩)) :
    (tryHelper P s c).1=.objc imp := by
  unfold tryHelper
  rw [hs]
  dsimp only
  rw [lookup_compiled h,hv]
  rfl

lemma Detour.exit (h : Compiled s) (hn : s.visible P c.klass c.sel=none) {imp : ℕ}
    (hd : Detour P s c.sel c.klass c.self c.argc imp) : (recache P s c).1=.objc imp := by
  unfold recache
  dsimp only
  rw [lookup_compiled h,hn]
  cases hd with
  | forward hf => rw [if_pos hf]
  | hash hf hhe ha hvi =>
    rw [if_neg (by simp [hf]),tryHash,hhe]
    dsimp only
    rw [lookup_compiled h,hvi]
    dsimp only
    rw [if_pos ha]
    rfl
  | helper hf hha hh hvi =>
    rw [if_neg (by simp [hf]),tryHash]
    cases hhe : headSel c.sel c.argc with
    | none => exact tryHelper_of_detour h hh hvi
    | some sel =>
      dsimp only
      rw [lookup_compiled h]
      cases hv : s.visible P c.klass sel with
      | none => exact tryHelper_of_detour h hh hvi
      | some found =>
        have ha : ¬c.argc ≤ keywords c.sel+1 := by
          intro ha
          rw [hha sel hhe ha] at hv
          simp at hv
        dsimp only
        rw [if_neg ha]
        exact tryHelper_of_detour h hh hvi

lemma function_exit (h : Compiled s) {f : ℕ} (hf : P.bsFunction (functionName c.sel)=some f)
    (hfo : P.canForward c.self c.sel=false)
    (hn : ∀ sel ∈ c.sel::detourSels c.sel c.argc, s.visible P c.klass sel=none) :
    (recache P s c).1=.function f := by
  have hfu : (tryFunction P s c).1=.function f := by
    unfold tryFunction
    rw [hf]
  have hh : (tryHelper P s c).1=.function f := by
    unfold tryHelper
    cases hs : helperSel c.sel with
    | none => exact hfu
    | some sel =>
      dsimp only
      rw [lookup_compiled h,hn sel (by simp [detourSels,hs])]
      exact hfu
  unfold recache
  dsimp only
  rw [lookup_compiled h,hn c.sel List.mem_cons_self]
  rw [if_neg (by simp [hfo]),tryHash]
  cases hs : headSel c.sel c.argc with
  | none => exact hh
  | some sel =>
    dsimp only
    rw [lookup_compiled h,hn sel (by simp [detourSels,hs])]
    exact hh

lemma coherent_transparent (h : Coherent P s) (hh : Harmless P s (.call c)) :
    Transparent P s c := by
  unfold Transparent
  rw [dispatch_emptied h.compiled]
  have hv := h.valid c.sel
  unfold rbVmDispatch
  cases hc : (s.table c.sel).mcache with
  | empty => rfl
  | rcall klass owner =>
    by_cases hk : klass=c.klass
    · rw [hc] at hv
      obtain ⟨imp,n,hvi⟩ := hv
      have ho := (P.tree.nearest_eq_some.mp hvi).2.1
      rw [hk] at hvi
      dsimp only
      rw [if_pos hk,ho]
      unfold recache
      dsimp only
      rw [lookup_compiled h.compiled,hvi]
      rfl
    · dsimp only
      rw [if_neg hk]
  | ocall klass imp filler =>
    by_cases hk : klass=c.klass
    · rw [hc] at hv
      dsimp only
      rw [if_pos hk]
      cases filler with
      | found =>
        obtain ⟨owner,hvi⟩ := hv
        rw [hk] at hvi
        unfold recache
        dsimp only
        rw [lookup_compiled h.compiled,hvi]
        rfl
      | detour self argc =>
        obtain ⟨rfl,rfl⟩ := hh.1 imp self argc (hk ▸ hc)
        subst hk
        exact (hv.2.exit h.compiled hv.1).symm
    · dsimp only
      rw [if_neg hk]
  | fcall f =>
    rw [hc] at hv
    have hn := hh.2 f hc
    exact (function_exit h.compiled hv hn.1 hn.2).symm

variable {sel : SEL} {argc : ℕ} {entry : MCache}

lemma Detour.congr {klass self imp : ℕ} (h : Detour P s sel klass self argc imp)
    (hv : ∀ sel' ∈ detourSels sel argc, s'.visible P klass sel'=s.visible P klass sel') :
    Detour P s' sel klass self argc imp := by
  have hhe : ∀ {h}, headSel sel argc=some h → s'.visible P klass h=s.visible P klass h :=
    fun hh => hv _ (by simp [detourSels,hh])
  cases h with
  | forward hf => exact .forward hf
  | hash hf hs ha hfo =>
    exact .hash hf hs ha ((hhe hs).trans hfo)
  | helper hf hha hs hfo =>
    refine .helper hf ?_ hs ((hv _ (by simp [detourSels,hs])).trans hfo)
    intro h hh ha
    rw [hhe hh]
    exact hha h hh ha

lemma Valid.congr (h : Valid P s sel entry) (hr : ∀ klass owner, entry=.rcall klass owner →
      s'.visible P klass sel=s.visible P klass sel)
    (ho : ∀ klass imp filler, entry=.ocall klass imp filler →
      s'.visible P klass sel=s.visible P klass sel)
    (hd : ∀ klass imp self argc, entry=.ocall klass imp (.detour self argc) →
      ∀ sel' ∈ detourSels sel argc, s'.visible P klass sel'=s.visible P klass sel') :
    Valid P s' sel entry := by
  cases entry with
  | empty => trivial
  | rcall klass owner =>
    obtain ⟨imp,n,hv⟩ := h
    exact ⟨imp,n,(hr klass owner rfl).trans hv⟩
  | ocall klass imp filler =>
    cases filler with
    | found =>
      obtain ⟨owner,hv⟩ := h
      exact ⟨owner,(ho klass imp .found rfl).trans hv⟩
    | detour self argc =>
      exact ⟨(ho klass imp _ rfl).trans h.1,h.2.congr (hd klass imp self argc rfl)⟩
  | fcall f => exact h

lemma Coherent.fill (h : Coherent P s)
    (he : Valid P s sel entry) : Coherent P (Dispatch.fill s sel entry) := by
  have hs : ∀ klass sel', (Dispatch.fill s sel entry).visible P klass sel' =
      s.visible P klass sel' := fun klass sel' => visible_fill s sel sel' entry klass
  refine ⟨compiled_fill h.compiled sel entry,?_⟩
  intro sel'
  have hv : Valid P s sel' ((Dispatch.fill s sel entry).table sel').mcache := by
    unfold Dispatch.fill
    by_cases hse : sel'=sel
    · subst hse
      rw [table_setTable_self]
      exact he
    · rw [table_setTable_of_ne s hse]
      exact h.valid sel'
  exact hv.congr (fun klass _ _ => hs klass sel') (fun klass _ _ _ => hs klass sel')
    fun klass _ _ _ _ sel'' _ => hs klass sel''

/-- The state after a slow dispatch: at most the cache of the selector is filled. -/
def Fills (P : Program) (s : Core) (c : Call) (r : Exit × Core) : Prop :=
  r.2=s ∨ ∃ entry, r.2=fill s c.sel entry ∧ Valid P s c.sel entry

lemma callMethodMissing_fills (h : Compiled s) (sel : SEL) (argc : ℕ) :
    Fills P s c (callMethodMissing P s c sel argc) := by
  unfold callMethodMissing
  cases otherSel sel argc with
  | none => exact .inl rfl
  | some sel' =>
    dsimp only
    rw [lookup_compiled h]
    split <;> exact .inl rfl

lemma recache2_fills (h : Compiled s) {found : ℕ × Method} {filler : Filler} {doRcache : Bool}
    (hr : doRcache=true → ∀ imp n, found.2=⟨.code imp,some n⟩ →
      Valid P s c.sel (.rcall c.klass found.1))
    (ho : ∀ imp, found.2=⟨.code imp,none⟩ → Valid P s c.sel (.ocall c.klass imp filler)) :
    Fills P s c (recache2 P s c sel argc found filler doRcache) := by
  unfold recache2
  split
  · exact callMethodMissing_fills h sel argc
  · next imp n hf =>
      refine .inr ⟨_,rfl,?_⟩
      cases doRcache with
      | false => trivial
      | true => exact hr rfl imp n hf
  · next imp hf => exact .inr ⟨_,rfl,ho imp hf⟩

lemma tryFunction_fills (h : Compiled s) : Fills P s c (tryFunction P s c) := by
  unfold tryFunction
  split
  · next f hf => exact .inr ⟨_,rfl,hf⟩
  · exact callMethodMissing_fills h c.sel c.argc

lemma tryHelper_fills (h : Compiled s) (hn : s.visible P c.klass c.sel=none)
    (hf : P.canForward c.self c.sel=false)
    (hh : ∀ sel, headSel c.sel c.argc=some sel → c.argc ≤ keywords c.sel+1 →
      s.visible P c.klass sel=none) : Fills P s c (tryHelper P s c) := by
  unfold tryHelper
  cases hs : helperSel c.sel with
  | none => exact tryFunction_fills h
  | some sel =>
    dsimp only
    rw [lookup_compiled h]
    split
    · next owner imp hv =>
        apply recache2_fills h
        · intro _ imp' n hi
          simp at hi
        · intro imp' hi
          obtain ⟨rfl⟩ := hi
          exact ⟨hn,.helper hf hh hs hv⟩
    · exact tryFunction_fills h

lemma tryHash_fills (h : Compiled s) (hn : s.visible P c.klass c.sel=none)
    (hf : P.canForward c.self c.sel=false) : Fills P s c (tryHash P s c) := by
  unfold tryHash
  cases hs : headSel c.sel c.argc with
  | none =>
    apply tryHelper_fills h hn hf
    intro sel hs'
    rw [hs] at hs'
    simp at hs'
  | some sel =>
    dsimp only
    rw [lookup_compiled h]
    split
    · next found hv =>
        obtain ⟨owner,m⟩ := found
        split
        · next ha =>
            apply recache2_fills h
            · intro hfa
              simp at hfa
            · intro imp hi
              subst hi
              exact ⟨hn,.hash hf hs ha hv⟩
        · next ha =>
            exact tryHelper_fills h hn hf fun _ _ ha' => (ha ha').elim
    · next hv =>
        apply tryHelper_fills h hn hf
        intro sel' hs' _
        rw [hs,Option.some.injEq] at hs'
        rw [← hs',hv]

lemma recache_fills (h : Compiled s) : Fills P s c (recache P s c) := by
  unfold recache
  dsimp only
  rw [lookup_compiled h]
  split
  · next found hv =>
      obtain ⟨owner,m⟩ := found
      apply recache2_fills h
      · intro _ imp n hm
        exact ⟨imp,n,hm ▸ hv⟩
      · intro imp hm
        exact ⟨owner,hm ▸ hv⟩
  · next hn =>
      split
      · next hf => exact .inr ⟨_,rfl,hn,.forward hf⟩
      · next hf => exact tryHash_fills h hn (by simpa using hf)

lemma call_coherent (h : Coherent P s) (c : Call) : Coherent P (rbVmDispatch P s c).2 := by
  have hs : Coherent P (recache P s c).2 := by
    rcases recache_fills h.compiled with hsa | ⟨entry,hf,he⟩
    · rw [hsa]
      exact h
    · rw [hf]
      exact h.fill he
  unfold rbVmDispatch
  split
  · exact hs
  · split
    · split
      · exact h
      · exact hs
    · exact hs
  · split
    · exact h
    · exact hs
  · exact h

variable {klass : ℕ}

lemma addMethod_coherent (h : Coherent P s) {n : Node}
    (hh : Harmless P s (.addMethod klass sel n)) : Coherent P (addMethod s klass sel n) := by
  have ho : ∀ {sel'}, sel' ≠ sel → (addMethod s klass sel n).table sel'=s.table sel' :=
    fun hs => table_setTable_of_ne s hs _
  have hse : (addMethod s klass sel n).table sel =
      (s.table sel).addMethod s.includedInClasses klass (.code n.rubyImp) n :=
    table_setTable_self s sel _
  constructor
  · intro sel'
    by_cases hs : sel'=sel
    · rw [hs,hse,Table.addMethod_sources]
      exact h.compiled sel
    · rw [ho hs]
      exact h.compiled sel'
  · intro sel'
    by_cases hs : sel'=sel
    · rw [hs,hse,Table.addMethod_mcache]
      trivial
    · have hv : ∀ k, (addMethod s klass sel n).visible P k sel'=s.visible P k sel' := by
        intro k
        unfold Core.visible
        rw [ho hs]
      have hva := h.valid sel'
      rw [ho hs]
      refine hva.congr (fun k _ _ => hv k) (fun k _ _ _ => hv k) ?_
      intro k imp self argc hca sel'' hs''
      apply visible_congr
      intro c hc
      by_cases hch : sel''=sel
      · subst hch
        rw [hse,Table.own_addMethod,if_neg]
        intro hm
        exact hh c hm ⟨sel',k,imp,self,argc,hca,hs'',hc⟩
      · rw [ho hch]

lemma Coherent.change (h : Coherent P s) (klass : ℕ) (sels : SEL → Prop)
    (hco : Compiled s') (hca : ∀ sel, (s'.table sel).mcache=(s.table sel).mcache)
    (how : ∀ sel c, c ≠ klass ∨ ¬sels sel → (s'.table sel).own c=(s.table sel).own c)
    (hd : ∀ sel, sels sel → ¬Detoured P s sel klass)
    (hru : ∀ sel, sels sel → ∀ k owner, (s.table sel).mcache=.rcall k owner →
      P.tree.Tried (s.table sel).own k klass → Valid P s' sel (.rcall k owner))
    (ho : ∀ sel, sels sel → ∀ k imp filler, (s.table sel).mcache=.ocall k imp filler →
      ¬P.tree.Tried (s.table sel).own k klass) : Coherent P s' := by
  have hsa : ∀ {sel k}, (sels sel → ¬P.tree.Tried (s.table sel).own k klass) →
      s'.visible P k sel=s.visible P k sel := by
    intro sel k hn
    apply visible_congr
    intro c hc
    apply how sel c
    by_cases hck : c=klass
    · exact .inr fun hs => hn hs (hck ▸ hc)
    · exact .inl hck
  refine ⟨hco,?_⟩
  intro sel
  rw [hca]
  have hv := h.valid sel
  by_cases hr : ∃ k owner, (s.table sel).mcache=.rcall k owner ∧ sels sel ∧
      P.tree.Tried (s.table sel).own k klass
  · obtain ⟨k,owner,he,hs,ht⟩ := hr
    rw [he]
    exact hru sel hs k owner he ht
  · refine hv.congr ?_ ?_ ?_
    · intro k owner he
      exact hsa fun hs ht => hr ⟨k,owner,he,hs,ht⟩
    · intro k imp filler he
      exact hsa fun hs => ho sel hs k imp filler he
    · intro k imp self argc he sel' hs'
      exact hsa fun hs ht =>
        hd sel' hs ⟨sel,k,imp,self,argc,he,hs',ht⟩

lemma rbVmLookupMethod2_compiled (h : Compiled s) (klass : ℕ) (name : SEL) :
    (s.rbVmLookupMethod2 P klass name).2=s := by
  unfold Core.rbVmLookupMethod2
  dsimp only
  rw [lookup_compiled h,lookup_compiled h]
  split
  · rfl
  · split <;> rfl

lemma undefMethod_coherent (h : Coherent P s) {name : SEL} {mustExist : Bool}
    (hh : Harmless P s (.undefMethod klass name mustExist)) :
    Coherent P (s.rbVmUndefMethod P klass name mustExist).2 := by
  rw [rbVmUndefMethod_eq,rbVmLookupMethod2_compiled h.compiled]
  cases hse : s.undefSel P klass name mustExist with
  | none => exact h
  | some sel =>
    obtain ⟨hd,hr,hob⟩ := hh sel hse
    have ho : ∀ {sel'}, sel' ≠ sel → (s.undefMethod klass sel).table sel'=s.table sel' :=
      fun hn => table_setTable_of_ne s hn _
    have hs : (s.undefMethod klass sel).table sel =
        (s.table sel).classReplaceMethod klass .undefined := table_setTable_self s sel _
    apply h.change klass (·=sel)
    · intro sel'
      by_cases hn : sel'=sel
      · rw [hn,hs]
        exact h.compiled sel
      · rw [ho hn]
        exact h.compiled sel'
    · intro sel'
      by_cases hn : sel'=sel
      · rw [hn,hs]
        rfl
      · rw [ho hn]
    · intro sel' c hc
      by_cases hn : sel'=sel
      · have hck := hc.resolve_right (not_not.mpr hn)
        rw [hn,hs]
        exact update_of_ne hck _ _
      · rw [ho hn]
    · rintro sel' rfl
      exact hd
    · rintro sel' rfl k owner he ht
      exact (hr k owner he ht).elim
    · rintro sel' rfl
      exact hob

lemma visible_of_tried {k : ℕ} {m : Method} (ht : P.tree.Tried (s.table sel).own k klass)
    (ho : ∀ c, c ≠ klass → (s'.table sel).own c=(s.table sel).own c)
    (hs : (s'.table sel).own klass=some m) : s'.visible P k sel=some (klass,m) := by
  unfold Core.visible Table.visible
  rw [ClassTree.nearest_eq_some]
  refine ⟨ht.1,hs,?_⟩
  intro d hd hk hn
  rw [ho d hn]
  exact ht.2 d hd hk hn

/-- Copying the methods of a module changes the own methods of the class only, and only
if the module has a Ruby method. -/
lemma copyMethods_frame {t : Table} (h : t.sources=∅) (tree : ClassTree)
    (users : ℕ → List ℕ) (mod klass : ℕ) : (t.copyMethods tree users mod klass).sources=∅ ∧
      (t.copyMethods tree users mod klass).mcache=t.mcache ∧
      ∀ c, c ≠ klass ∨ (¬∃ imp n, t.own mod=some ⟨imp,some n⟩) →
        (t.copyMethods tree users mod klass).own c=t.own c := by
  by_cases hr : ∃ imp n, t.own mod=some ⟨imp,some n⟩
  · obtain ⟨imp,n,ho⟩ := hr
    rw [Table.copyMethods_of_ruby h ho]
    refine ⟨h,rfl,?_⟩
    intro c hc
    exact Table.own_put_of_ne (hc.resolve_right (not_not.mpr ⟨imp,n,ho⟩)) _
  · have hn : t.sources.find mod=none := by
      rw [h]
      exact SortedMap.find_empty mod
    rw [Table.copyMethods_of_not_ruby hn fun imp n ho => hr ⟨imp,n,ho⟩]
    exact ⟨h,rfl,fun _ _ => rfl⟩

lemma includeModule_coherent (h : Coherent P s) {mod : ℕ}
    (hh : Harmless P s (.includeModule klass mod)) :
    Coherent P (s.rbIncludeModule P klass mod) := by
  unfold Core.rbIncludeModule
  split
  · exact h
  · next hd =>
      rw [not_or,not_not] at hd
      have hh' := hh hd.1 hd.2
      have hf := fun sel => copyMethods_frame (h.compiled sel) P.tree
        (update s.includedInClasses mod (s.includedInClasses mod++[klass])) mod klass
      apply h.change klass fun sel => ∃ imp n, (s.table sel).own mod=some ⟨imp,some n⟩
      · exact fun sel => (hf sel).1
      · exact fun sel => (hf sel).2.1
      · exact fun sel => (hf sel).2.2
      · rintro sel ⟨imp,n,ho⟩
        exact (hh' sel imp n ho).1
      · rintro sel ⟨imp,n,ho⟩ k owner he ht
        obtain ⟨rfl,hi⟩ := (hh' sel imp n ho).2.1 k owner he ht
        cases imp with
        | undefined => exact (hi rfl).elim
        | code i =>
          refine ⟨i,n,visible_of_tried ht ?_ ?_⟩
          · exact fun c hc => (hf sel).2.2 c (.inl hc)
          · dsimp only
            rw [Table.copyMethods_of_ruby (h.compiled sel) ho,Table.own_put_self]
      · rintro sel ⟨imp,n,ho⟩
        exact (hh' sel imp n ho).2.2

lemma coherent_start (P : Program) : Coherent P (start P) :=
  ⟨fun _ => rfl,fun _ => trivial⟩

lemma step_coherent (s : Core) (op : Op) (h : Coherent P s) (hh : Harmless P s op) :
    Coherent P (step P s op) := by
  cases op with
  | addMethod klass sel n => exact addMethod_coherent h hh
  | undefMethod klass name mustExist => exact undefMethod_coherent h hh
  | includeModule klass mod => exact includeModule_coherent h hh
  | call c => exact call_coherent h c

/-- In a run of harmless steps, every call ends as it does with its cache emptied. -/
theorem dispatch_transparent (P : Program) {ops : List Op} {c : Call}
    (h : Along (step P) (Harmless P) (start P) (ops++[.call c])) :
    Transparent P (run (step P) (start P) ops) c := by
  rw [along_append] at h
  have hc := run_invariant step_coherent (coherent_start P) h.1
  exact coherent_transparent hc h.2.1

/-- A method is called, undefined and called again: the cache still has it. -/
theorem undefined_method_is_called : ¬Transparent twoClasses
      (run (step twoClasses) (start twoClasses)
        [.addMethod 0 ['f'] (body 1),.call ⟨0,0,['f'],0⟩,.undefMethod 0 ['f'] true])
      ⟨0,0,['f'],0⟩ := by
  unfold Transparent
  decide

/-- The second of two calls is served by the cache. -/
theorem second_call_uses_cache : Transparent twoClasses (run (step twoClasses) (start twoClasses)
        [.addMethod 0 ['f'] (body 1),.call ⟨0,1,['f'],0⟩]) ⟨0,1,['f'],0⟩ := by
  apply dispatch_transparent
  refine ⟨?_,⟨?_,?_⟩,⟨?_,?_⟩,trivial⟩
  · rintro c _ ⟨sel,klass,imp,self,argc,hc,_⟩
    simp [start] at hc
  · intro imp self argc hc
    cases hc
  · intro f hc
    cases hc
  · intro imp self argc hc
    cases hc
  · intro f hc
    cases hc
end MacRuby.MethodCache
