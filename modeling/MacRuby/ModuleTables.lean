import MacRuby.MethodSources

/-!
# Method tables of a class and its modules

The record of one selector, for a class and the modules of a program. A module has
the method or the source of its last definition. Compiling the source of an
included module writes the class too, so while the class does not respond to the
selector the sources of the included modules have to be the one of the class. Here
is what lookups, definitions and inclusions keep of this.
-/
namespace MacRuby.ModuleTables
open MethodTables MethodSources Function List Table SortedMap

/-- A class, in a program in which no class inherits from a module. -/
structure Scene where
  P : Program
  klass : ℕ
  klass_not_module : P.isModule klass=false
  superclass_not_module : ∀ {c m}, P.tree.superclass c=some m → P.isModule m=false

variable {tree : ClassTree} {users : ℕ → List ℕ} {t : Table} {k c : ℕ} {e : ℕ × Node}

/-- Compiling the entry writes the method of `c`. -/
def Writes (tree : ClassTree) (users : ℕ → List ℕ) (k c : ℕ) (e : ℕ × Node) : Prop :=
  k ∈ tree.chain e.1 ∧ c ∈ e.1::users e.1

lemma own_resolveEntry_of_writes (h : Writes tree users k c e) :
    (Table.resolveEntry tree users k t e).own c=some (compiled e.2) := by
  unfold Table.resolveEntry
  rw [if_pos h.1]
  exact (own_addMethod _ _ _ _).trans (if_pos h.2)

lemma own_resolveEntry_of_not_writes (h : ¬Writes tree users k c e) :
    (Table.resolveEntry tree users k t e).own c=t.own c := by
  unfold Table.resolveEntry
  split_ifs with hb
  · refine (own_addMethod _ _ _ _).trans (if_neg fun hc => ?_)
    exact h ⟨hb,hc⟩
  · rfl

/-- What a class implements after `resolve_methods` comes from a source that writes it, or
nothing writes it. -/
lemma own_resolve_loop (tree : ClassTree) (users : ℕ → List ℕ) (k c : ℕ)
    (es : List (ℕ × Node)) (u : Table) : (∃ e ∈ es, Writes tree users k c e ∧
        (es.foldl (Table.resolveEntry tree users k) u).own c=some (compiled e.2)) ∨
      (∀ e ∈ es, ¬Writes tree users k c e) ∧
        (es.foldl (Table.resolveEntry tree users k) u).own c=u.own c := by
  induction es generalizing u with
  | nil => exact .inr ⟨by simp,rfl⟩
  | cons e es ih =>
    cases ih (Table.resolveEntry tree users k u e) with
    | inl h =>
      obtain ⟨x,hx,hw,ho⟩ := h
      exact .inl ⟨x,mem_cons_of_mem e hx,hw,ho⟩
    | inr h =>
      by_cases hw : Writes tree users k c e
      · refine .inl ⟨e,mem_cons_self,hw,?_⟩
        exact h.2.trans (own_resolveEntry_of_writes hw)
      · refine .inr ⟨?_,h.2.trans (own_resolveEntry_of_not_writes hw)⟩
        rintro x hx
        cases mem_cons.mp hx with
        | inl hxe => exact hxe ▸ hw
        | inr hx => exact h.1 x hx

lemma own_resolveMethods (tree : ClassTree) (users : ℕ → List ℕ) (t : Table) (k c : ℕ) :
    (∃ d n, t.sources.find d=some n ∧ Writes tree users k c (d,n) ∧
        (t.resolveMethods tree users k).own c=some (compiled n)) ∨
      (∀ d n, t.sources.find d=some n → ¬Writes tree users k c (d,n)) ∧
        (t.resolveMethods tree users k).own c=t.own c := by
  cases own_resolve_loop tree users k c t.sources.entries t with
  | inl h =>
    obtain ⟨e,he,hw,ho⟩ := h
    exact .inl ⟨e.1,e.2,find_eq_some.mpr he,hw,ho⟩
  | inr h => exact .inr ⟨fun d n hd => h.1 (d,n) (find_eq_some.mp hd),h.2⟩

lemma resolve_loop_kept (es : List (ℕ × Node)) (u : Table) (hc : k ∉ tree.chain c) :
    (es.foldl (Table.resolveEntry tree users k) u).sources.find c=u.sources.find c ∧
      (es.foldl (Table.resolveEntry tree users k) u).sourceSels c=u.sourceSels c := by
  induction es generalizing u with
  | nil => exact ⟨rfl,rfl⟩
  | cons e es ih =>
    rw [foldl_cons]
    have hr := ih (Table.resolveEntry tree users k u e)
    rw [hr.1,hr.2]
    unfold Table.resolveEntry
    split_ifs with hb
    · have hn : c ≠ e.1 := by
        rintro rfl
        exact hc hb
      constructor
      · exact (find_erase _ _ _).trans (if_neg hn)
      · unfold Table.resolveMethod
        rw [addMethod_sourceSels]
        exact update_of_ne hn _ _
    · exact ⟨rfl,rfl⟩

lemma resolve_loop_erased (es : List (ℕ × Node)) (u : Table)
    (h : u.sources.find c=none ∨ c ∈ es.map Prod.fst) (hc : k ∈ tree.chain c) :
    (es.foldl (Table.resolveEntry tree users k) u).sources.find c=none := by
  induction es generalizing u with
  | nil => exact h.resolve_right (by simp)
  | cons e es ih =>
    refine ih _ ?_
    by_cases hce : c=e.1
    · left
      unfold Table.resolveEntry
      rw [← hce,if_pos hc]
      exact (find_erase _ _ _).trans (if_pos rfl)
    · refine h.imp (fun hn => ?_) fun hm => ?_
      · unfold Table.resolveEntry
        split_ifs
        · exact (find_erase _ _ _).trans ((if_neg hce).trans hn)
        · exact hn
      · exact (mem_cons.mp hm).resolve_left hce

lemma sources_resolveMethods (tree : ClassTree) (users : ℕ → List ℕ) (t : Table) (k c : ℕ) :
    (t.resolveMethods tree users k).sources.find c =
      if k ∈ tree.chain c then none else t.sources.find c := by
  split_ifs with hc
  · refine resolve_loop_erased _ _ ?_ hc
    cases hf : t.sources.find c with
    | none => exact .inl rfl
    | some n => exact .inr (mem_map_of_mem (find_eq_some.mp hf))
  · exact (resolve_loop_kept _ _ hc).1

lemma sourceSels_resolveMethods (hc : k ∉ tree.chain c) :
    (t.resolveMethods tree users k).sourceSels c=t.sourceSels c := (resolve_loop_kept _ _ hc).2

variable (S : Scene)

/-- What the table of a selector has to do with the definitions in the modules. The source
of a module is hidden at most by the class. -/
structure Modules (defs : ℕ → Option Node) (t : Table) : Prop where
  others : ∀ {c}, c ≠ S.klass → S.P.isModule c=false → t.sources.find c=none
  undefined : ∀ {m}, S.P.isModule m=true → defs m=none →
    t.sources.find m=none ∧ ∀ imp n, t.own m ≠ some ⟨imp,some n⟩
  defined : ∀ {m n}, S.P.isModule m=true → defs m=some n → t.own m=some (compiled n) ∨
    t.own m=none ∧ t.sources.find m=some n ∧ 0 < t.sourceSels m
  unhidden : ∀ {m n}, S.P.isModule m=true → t.sources.find m=some n →
    t.visible S.P.tree m=none ∨ S.klass ∈ S.P.tree.chain m ∧ t.visible S.P.tree S.klass ≠ none

/-- The class reaches its winner, and while it does not respond to the selector the
included modules have no other source than the class. -/
structure Reaches (included : List ℕ) (winner : Option Method) (t : Table) : Prop where
  found : ∀ {m}, winner=some m → t.own S.klass=some m ∨
    t.visible S.P.tree S.klass=none ∧ ∃ n, t.sources.find S.klass=some n ∧ m=compiled n
  sources : t.visible S.P.tree S.klass=none → ∀ {m n}, m ∈ included →
    t.sources.find m=some n → t.sources.find S.klass=some n

/-- The included modules have no other source than one that goes to the class next. -/
def Ready (included : List ℕ) (n : Node) (t : Table) : Prop :=
  t.visible S.P.tree S.klass=none → t.sources.find S.klass=none →
    ∀ {m n'}, m ∈ included → t.sources.find m=some n' → n'=n

structure Users (included : List ℕ) (users : ℕ → List ℕ) : Prop where
  modules : ∀ {m}, m ∈ included → S.P.isModule m=true
  eq : ∀ c, users c=if c ∈ included then [S.klass] else []

/-- A compiled method is copied to a class with no source at or below it, and a source
to a class that has none and does not respond to the selector. -/
def Copyable (t : Table) (mod : ℕ) : Prop :=
  if (t.own mod).isSome then Clear S.P.tree t S.klass
  else t.sources.find S.klass=none ∧ t.visible S.P.tree S.klass=none

variable {S} {defs : ℕ → Option Node} {t' : Table} {included : List ℕ}
variable {winner : Option Method} {m : ℕ} {n : Node}

lemma klass_ne_module (h : S.P.isModule m=true) : m ≠ S.klass := by
  rintro rfl
  rw [S.klass_not_module] at h
  cases h

lemma eq_of_module_mem_chain (h : S.P.isModule m=true) (hm : m ∈ S.P.tree.chain c) : c=m := by
  induction c using S.P.tree.chain_induction with
  | root c hs =>
    rw [S.P.tree.chain_root hs,mem_singleton] at hm
    exact hm.symm
  | step c s hs ih =>
    rw [S.P.tree.chain_step hs] at hm
    cases mem_cons.mp hm with
    | inl hmc => exact hmc.symm
    | inr hme =>
      have hsu := S.superclass_not_module hs
      rw [ih hme,h] at hsu
      cases hsu

lemma Users.not_mem_klass (h : Users S included users) : S.klass ∉ included := by
  intro hm
  exact klass_ne_module (h.modules hm) rfl

lemma Users.klass_eq_nil (h : Users S included users) : users S.klass=[] := by
  rw [h.eq,if_neg h.not_mem_klass]

lemma Users.eq_nil (h : Users S included users) (hm : m ∉ included) : users m=[] := by
  rw [h.eq,if_neg hm]

lemma Users.eq_klass (h : Users S included users) (hm : m ∈ included) : users m=[S.klass] := by
  rw [h.eq,if_pos hm]

lemma Users.cons (h : Users S included users) (hm : S.P.isModule m=true) (hn : m ∉ included) :
    Users S (m::included) (update users m (users m++[S.klass])) := by
  constructor
  · intro k hk
    cases mem_cons.mp hk with
    | inl hkm => exact hkm ▸ hm
    | inr hme => exact h.modules hme
  · intro c
    by_cases hc : c=m
    · rw [hc,update_self,h.eq_nil hn,if_pos mem_cons_self]
      rfl
    · rw [update_of_ne hc,h.eq]
      refine if_congr ?_ rfl rfl
      rw [mem_cons]
      exact (or_iff_right hc).symm

/-- Compiling writes a class from its own source, or the class `klass` from that of an included
module. -/
lemma Users.writes (h : Users S included users) {k d : ℕ}
    (hw : Writes S.P.tree users k c (d,n)) : c=d ∨ c=S.klass ∧ d ∈ included := by
  cases mem_cons.mp hw.2 with
  | inl hc => exact .inl hc
  | inr hm =>
    rw [h.eq] at hm
    split_ifs at hm with hd
    · exact .inr ⟨mem_singleton.mp hm,hd⟩
    · cases hm

lemma visible_of_own {m : Method} (h : t.own c=some m) :
    t.visible S.P.tree c=some (c,m) := S.P.tree.nearest_own _ h

lemma visible_ne_none_of_mem_chain {d : ℕ} (hd : d ∈ S.P.tree.chain c)
    (h : t.own d ≠ none) : t.visible S.P.tree c ≠ none := by
  intro hn
  exact h (S.P.tree.nearest_eq_none.mp hn d hd)

lemma Modules.of_klass (h : Modules S defs t)
    (ho : ∀ c ≠ S.klass, t'.own c=t.own c) (hk : t'.own S.klass ≠ none)
    (hs : ∀ c ≠ S.klass, t'.sources.find c=t.sources.find c)
    (hl : ∀ c ≠ S.klass, t'.sourceSels c=t.sourceSels c) : Modules S defs t' := by
  refine ⟨?_,?_,?_,?_⟩
  · intro c hc hcm
    rw [hs c hc]
    exact h.others hc hcm
  · intro m hm hde
    rw [ho m (klass_ne_module hm),hs m (klass_ne_module hm)]
    exact h.undefined hm hde
  · intro m n hm hde
    rw [ho m (klass_ne_module hm),hs m (klass_ne_module hm),hl m (klass_ne_module hm)]
    exact h.defined hm hde
  · intro m n hm hso
    have hv : t'.visible S.P.tree S.klass ≠ none :=
      visible_ne_none_of_mem_chain (S.P.tree.self_mem_chain _) hk
    by_cases hb : S.klass ∈ S.P.tree.chain m
    · exact .inr ⟨hb,hv⟩
    · rw [hs m (klass_ne_module hm)] at hso
      refine .inl ?_
      have hold := (h.unhidden hm hso).resolve_right fun hr => hb hr.1
      rw [← hold]
      refine S.P.tree.nearest_congr fun d hd => ho d ?_
      rintro rfl
      exact hb hd

/-- A module that does not respond to the selector has the source of its definition, if any. -/
lemma Modules.source_eq (h : Modules S defs t) (hm : S.P.isModule m=true)
    (ho : t.own m=none) (hs : t.sources.find m=some n) : defs m=some n := by
  cases hd : defs m with
  | none =>
    rw [(h.undefined hm hd).1] at hs
    cases hs
  | some n' =>
    cases h.defined hm hd with
    | inl hc =>
      rw [ho] at hc
      cases hc
    | inr hk => exact hk.2.1.symm.trans hs

lemma Modules.own_eq_none (h : Modules S defs t) (hv : t.visible S.P.tree S.klass=none)
    (hm : S.P.isModule m=true) (hs : t.sources.find m=some n) : t.own m=none := by
  have hl := (h.unhidden hm hs).resolve_right fun hr => hr.2 hv
  exact S.P.tree.nearest_eq_none.mp hl m (S.P.tree.self_mem_chain m)

lemma Modules.resolve_klass (h : Modules S defs t) (hu : Users S included users)
    (hv : t.visible S.P.tree S.klass=none) :
    Modules S defs (t.resolveMethods S.P.tree users S.klass) := by
  have ho : ∀ c ≠ S.klass, (∃ n, t.sources.find c=some n ∧ S.klass ∈ S.P.tree.chain c ∧
        (t.resolveMethods S.P.tree users S.klass).own c=some (compiled n)) ∨
      (S.klass ∈ S.P.tree.chain c → t.sources.find c=none) ∧
        (t.resolveMethods S.P.tree users S.klass).own c=t.own c := by
    intro c hc
    cases own_resolveMethods S.P.tree users t S.klass c with
    | inl hw =>
      obtain ⟨d,n,hd,hwr,ho⟩ := hw
      cases (hu.writes hwr).resolve_right fun hr => hc hr.1
      exact .inl ⟨n,hd,hwr.1,ho⟩
    | inr hk =>
      refine .inr ⟨fun hb => ?_,hk.2⟩
      cases hs : t.sources.find c with
      | none => rfl
      | some n => exact (hk.1 c n hs ⟨hb,mem_cons_self⟩).elim
  refine ⟨?_,?_,?_,?_⟩
  · intro c hc hcm
    rw [sources_resolveMethods,h.others hc hcm,ite_self]
  · intro m hm hde
    have hold := h.undefined hm hde
    rw [sources_resolveMethods,hold.1,ite_self]
    refine ⟨rfl,?_⟩
    cases ho m (klass_ne_module hm) with
    | inl hw =>
      obtain ⟨n,hs,_⟩ := hw
      rw [hold.1] at hs
      cases hs
    | inr hk =>
      rw [hk.2]
      exact hold.2
  · intro m n hm hde
    cases ho m (klass_ne_module hm) with
    | inl hw =>
      obtain ⟨n',hs,_,hco⟩ := hw
      have he := h.source_eq hm (h.own_eq_none hv hm hs) hs
      rw [hde] at he
      cases he
      exact .inl hco
    | inr hk =>
      rw [hk.2]
      refine (h.defined hm hde).imp_right fun hold => ?_
      have hb : S.klass ∉ S.P.tree.chain m := by
        intro hb
        rw [hk.1 hb] at hold
        cases hold.2.1
      rw [sources_resolveMethods,if_neg hb,sourceSels_resolveMethods hb]
      exact hold
  · intro m n hm hs
    rw [sources_resolveMethods] at hs
    split_ifs at hs with hb
    have hl := (h.unhidden hm hs).resolve_right fun hr => hb hr.1
    left
    rw [← hl]
    refine S.P.tree.nearest_congr fun d hd => ?_
    have hd' : S.klass ∉ S.P.tree.chain d := fun hdk => hb (S.P.tree.chain_trans hdk hd)
    have hdk : d ≠ S.klass := by
      rintro rfl
      exact hd' (S.P.tree.self_mem_chain _)
    exact ((ho d hdk).resolve_left fun ⟨_,_,hdk,_⟩ => hd' hdk).2

lemma own_resolve_module (hu : Users S included users) (hm : S.P.isModule m=true)
    (hs : t.sources.find m=some n) (c : ℕ) : (t.resolveMethods S.P.tree users m).own c =
      if c=m ∨ c=S.klass ∧ m ∈ included then some (compiled n) else t.own c := by
  cases own_resolveMethods S.P.tree users t m c with
  | inl hwr =>
    obtain ⟨d,n',hd,hw,ho⟩ := hwr
    cases eq_of_module_mem_chain hm hw.1
    rw [hs] at hd
    cases hd
    rw [if_pos (hu.writes hw),ho]
  | inr hk =>
    rw [hk.2,if_neg]
    intro hc
    refine hk.1 m n hs ⟨S.P.tree.self_mem_chain m,?_⟩
    cases hc with
    | inl hcm => exact mem_cons.mpr (.inl hcm)
    | inr hc =>
      refine mem_cons_of_mem _ ?_
      rw [hu.eq_klass hc.2]
      exact mem_singleton.mpr hc.1

lemma sources_resolve_module (hm : S.P.isModule m=true) (c : ℕ) :
    (t.resolveMethods S.P.tree users m).sources.find c =
      if c=m then none else t.sources.find c := by
  rw [sources_resolveMethods]
  refine if_congr ⟨eq_of_module_mem_chain hm,?_⟩ rfl rfl
  rintro rfl
  exact S.P.tree.self_mem_chain c

lemma Modules.of_module (h : Modules S defs t) (hm : S.P.isModule m=true) (ho : ∀ c, t'.own c =
      if c=m ∨ c=S.klass ∧ m ∈ included then some (compiled n) else t.own c)
    (hs : ∀ c ≠ m, t'.sources.find c=t.sources.find c)
    (hl : ∀ c ≠ m, t'.sourceSels c=t.sourceSels c) (hse : ∀ n', t'.sources.find m=some n' →
      S.klass ∈ S.P.tree.chain m ∧ t.visible S.P.tree S.klass ≠ none) :
    Modules S (update defs m (some n)) t' := by
  have hke : t.visible S.P.tree S.klass ≠ none → t'.visible S.P.tree S.klass ≠ none := by
    intro hv hn
    refine hv (S.P.tree.nearest_eq_none.mpr fun d hd => ?_)
    have hd' := S.P.tree.nearest_eq_none.mp hn d hd
    rw [ho] at hd'
    split_ifs at hd'
    exact hd'
  have hot : ∀ {k}, S.P.isModule k=true → k ≠ m → t'.own k=t.own k := by
    intro k hk hkm
    rw [ho,if_neg]
    rintro (hkm' | hkk)
    · exact hkm hkm'
    · exact klass_ne_module hk hkk.1
  refine ⟨?_,?_,?_,?_⟩
  · intro c hc hcm
    rw [hs c]
    · exact h.others hc hcm
    · rintro rfl
      rw [hm] at hcm
      cases hcm
  · intro k hk hde
    by_cases hkm : k=m
    · rw [hkm,update_self] at hde
      cases hde
    · rw [update_of_ne hkm] at hde
      rw [hs k hkm,hot hk hkm]
      exact h.undefined hk hde
  · intro k n' hk hde
    by_cases hkm : k=m
    · rw [hkm,update_self] at hde
      cases hde
      rw [ho,if_pos (.inl hkm)]
      exact .inl rfl
    · rw [update_of_ne hkm] at hde
      rw [hs k hkm,hl k hkm,hot hk hkm]
      exact h.defined hk hde
  · intro k n' hk hso
    by_cases hkm : k=m
    · rw [hkm] at hso ⊢
      exact .inr ((hse n' hso).imp_right hke)
    · rw [hs k hkm] at hso
      cases h.unhidden hk hso with
      | inr hr => exact .inr (hr.imp_right hke)
      | inl hle =>
        by_cases hb : S.klass ∈ S.P.tree.chain k ∧ m ∈ included
        · refine .inr ⟨hb.1,visible_ne_none_of_mem_chain (S.P.tree.self_mem_chain _) ?_⟩
          rw [ho,if_pos (.inr ⟨rfl,hb.2⟩)]
          exact nofun
        · left
          rw [← hle]
          refine S.P.tree.nearest_congr fun d hd => ?_
          rw [ho,if_neg]
          rintro (rfl | hdk)
          · exact hkm (eq_of_module_mem_chain hm hd)
          · exact hb ⟨hdk.1 ▸ hd,hdk.2⟩

lemma Modules.resolve_module (h : Modules S defs t) (hu : Users S included users)
    (hm : S.P.isModule m=true) (hv : t.visible S.P.tree m=none) (hs : t.sources.find m=some n) :
    Modules S defs (t.resolveMethods S.P.tree users m) := by
  have ho := S.P.tree.nearest_eq_none.mp hv m (S.P.tree.self_mem_chain m)
  have hd := h.source_eq hm ho hs
  have hsa : update defs m (some n)=defs := by
    rw [← hd,update_eq_self]
  rw [← hsa]
  refine h.of_module hm (own_resolve_module hu hm hs) ?_ ?_ ?_
  · intro c hc
    rw [sources_resolve_module hm,if_neg hc]
  · intro c hc
    refine sourceSels_resolveMethods fun hme => hc ?_
    exact eq_of_module_mem_chain hm hme
  · intro n' hn'
    rw [sources_resolve_module hm,if_pos rfl] at hn'
    cases hn'

lemma Reaches.of_module (h : Reaches S included winner t) (hm : S.P.isModule m=true)
    (hno : m ∉ included) (ho : ∀ c ≠ m, t'.own c=t.own c)
    (hs : ∀ c ≠ m, t'.sources.find c=t.sources.find c) : Reaches S included winner t' := by
  have hv : t'.visible S.P.tree S.klass=t.visible S.P.tree S.klass := by
    refine S.P.tree.nearest_congr fun d hd => ho d ?_
    rintro rfl
    exact klass_ne_module hm (eq_of_module_mem_chain hm hd).symm
  have hk := (klass_ne_module hm).symm
  constructor
  · intro r hr
    rw [hv,ho _ hk,hs _ hk]
    exact h.found hr
  · intro hn k n' hkme hso
    have hkm : k ≠ m := by
      rintro rfl
      exact hno hkme
    rw [hs k hkm] at hso
    rw [hs _ hk]
    exact h.sources (hv.symm.trans hn) hkme hso

lemma lookup_cases (h : Modules S defs t) (users : ℕ → List ℕ) (k : ℕ) :
    t.lookup S.P.tree users k=t ∧ (t.visible S.P.tree k=none → t.sources.find k=none) ∨
      (∃ n, t.visible S.P.tree S.klass=none ∧ t.sources.find S.klass=some n ∧
        S.klass ∈ S.P.tree.chain k ∧
        t.lookup S.P.tree users k=t.resolveMethods S.P.tree users S.klass) ∨
      ∃ n, S.P.isModule k=true ∧ t.visible S.P.tree k=none ∧ t.sources.find k=some n ∧
        t.lookup S.P.tree users k=t.resolveMethods S.P.tree users k := by
  unfold Table.lookup
  cases hv : t.visible S.P.tree k with
  | some found => exact .inl ⟨rfl,nofun⟩
  | none =>
    cases hs : t.sourceClass S.P.tree k with
    | none =>
      have hno := S.P.tree.nearest_eq_none.mp (Option.map_eq_none_iff.mp hs)
      exact .inl ⟨rfl,fun _ => hno k (S.P.tree.self_mem_chain k)⟩
    | some d =>
      obtain ⟨⟨d,n⟩,hn,rfl⟩ := Option.map_eq_some_iff.mp hs
      obtain ⟨hd,hf,_⟩ := S.P.tree.nearest_eq_some.mp hn
      right
      by_cases hdk : d=S.klass
      · subst hdk
        refine .inl ⟨n,?_,hf,hd,rfl⟩
        refine S.P.tree.nearest_eq_none.mpr fun e he => ?_
        exact S.P.tree.nearest_eq_none.mp hv e (S.P.tree.chain_trans he hd)
      · cases hdm : S.P.isModule d with
        | false =>
          rw [h.others hdk hdm] at hf
          cases hf
        | true =>
          cases eq_of_module_mem_chain hdm hd
          exact .inr ⟨n,hdm,rfl,hf,rfl⟩

lemma Modules.lookup (h : Modules S defs t) (hu : Users S included users) (k : ℕ) :
    Modules S defs (t.lookup S.P.tree users k) := by
  obtain ⟨hsa,_⟩ | ⟨n,hv,_,_,hr⟩ | ⟨n,hm,hv,hs,hr⟩ := lookup_cases h users k
  · rw [hsa]
    exact h
  · rw [hr]
    exact h.resolve_klass hu hv
  · rw [hr]
    exact h.resolve_module hu hm hv hs

lemma own_resolve_klass (users : ℕ → List ℕ) (hs : t.sources.find S.klass=some n) :
    (t.resolveMethods S.P.tree users S.klass).own S.klass ≠ none := by
  cases own_resolveMethods S.P.tree users t S.klass S.klass with
  | inl hw =>
    obtain ⟨_,_,_,_,ho⟩ := hw
    rw [ho]
    exact nofun
  | inr hk =>
    exact (hk.1 _ n hs ⟨S.P.tree.self_mem_chain _,mem_cons_self⟩).elim

/-- What does not respond to the selector after a lookup has no source, and the lookup did
nothing. -/
lemma lookup_of_not_visible (h : Modules S defs t) (hu : Users S included users)
    (hv : (t.lookup S.P.tree users k).visible S.P.tree k=none) :
    t.lookup S.P.tree users k=t ∧ t.sources.find k=none := by
  obtain ⟨hsa,hn⟩ | ⟨n,_,hs,hb,hr⟩ | ⟨n,hm,_,hs,hr⟩ :=
    lookup_cases h users k
  · rw [hsa] at hv
    exact ⟨hsa,hn hv⟩
  · rw [hr] at hv
    exact (visible_ne_none_of_mem_chain hb (own_resolve_klass users hs) hv).elim
  · rw [hr] at hv
    have ho := S.P.tree.nearest_eq_none.mp hv k (S.P.tree.self_mem_chain k)
    rw [own_resolve_module hu hm hs,if_pos (.inl rfl)] at ho
    cases ho

lemma Reaches.resolve_klass (h : Reaches S included winner t) (hu : Users S included users)
    (hv : t.visible S.P.tree S.klass=none) (hs : t.sources.find S.klass=some n) :
    Reaches S included winner (t.resolveMethods S.P.tree users S.klass) := by
  have ho : (t.resolveMethods S.P.tree users S.klass).own S.klass=some (compiled n) := by
    cases own_resolveMethods S.P.tree users t S.klass S.klass with
    | inl hw =>
      obtain ⟨d,n',hd,hwr,ho⟩ := hw
      have hsa : t.sources.find S.klass=some n' := by
        cases hu.writes hwr with
        | inl he => exact he ▸ hd
        | inr hm => exact h.sources hv hm.2 hd
      rw [hs] at hsa
      cases hsa
      exact ho
    | inr hk =>
      exact (hk.1 _ n hs ⟨S.P.tree.self_mem_chain _,mem_cons_self⟩).elim
  constructor
  · intro r hr
    left
    cases h.found hr with
    | inl hold =>
      rw [S.P.tree.nearest_eq_none.mp hv _ (S.P.tree.self_mem_chain _)] at hold
      cases hold
    | inr hold =>
      obtain ⟨_,n',hn',rfl⟩ := hold
      rw [hs] at hn'
      cases hn'
      exact ho
  · intro hno
    rw [visible_of_own ho] at hno
    cases hno

lemma Reaches.lookup (h : Reaches S included winner t) (hmo : Modules S defs t)
    (hu : Users S included users) (hn : k ∉ included) :
    Reaches S included winner (t.lookup S.P.tree users k) := by
  obtain ⟨hsa,_⟩ | ⟨n,hv,hs,_,hr⟩ | ⟨n,hm,hv,hs,hr⟩ :=
    lookup_cases hmo users k
  · rw [hsa]
    exact h
  · rw [hr]
    exact h.resolve_klass hu hv hs
  · rw [hr]
    refine h.of_module hm hn ?_ ?_
    · intro c hc
      rw [own_resolve_module hu hm hs,if_neg]
      rintro (hck | hck)
      · exact hc hck
      · exact hn hck.2
    · intro c hc
      rw [sources_resolve_module hm,if_neg hc]

variable {r : Method}

lemma Reaches.ready (h : Reaches S included winner t) (n : Node) : Ready S included n t := by
  intro hv hn m n' hm hs
  rw [h.sources hv hm hs] at hn
  cases hn

lemma reaches_of_own (h : t.own S.klass=some r) : Reaches S included (some r) t := by
  constructor
  · rintro _ ⟨⟩
    exact .inl h
  · intro hn
    rw [visible_of_own h] at hn
    cases hn

lemma ready_of_own (h : t.own S.klass=some r) : Ready S included n t := by
  intro hn
  rw [visible_of_own h] at hn
  cases hn

lemma Modules.addMethod_klass (h : Modules S defs t) (hu : Users S included users) (i : ℕ)
    (n : Node) : Modules S defs (Table.addMethod users
      {t with sourceSels := update t.sourceSels S.klass i} S.klass (.code n.rubyImp) n) := by
  refine h.of_klass ?_ ?_ ?_ ?_
  · intro c hc
    rw [own_addMethod,hu.klass_eq_nil,if_neg (by simpa using hc)]
  · rw [own_addMethod,if_pos mem_cons_self]
    exact nofun
  · intro c _
    rw [addMethod_sources]
  · intro c hc
    rw [addMethod_sourceSels]
    exact update_of_ne hc _ _

lemma own_addMethod_module (hu : Users S included users) (t : Table) (n : Node) (c : ℕ) :
    (Table.addMethod users t m (.code n.rubyImp) n).own c =
      if c=m ∨ c=S.klass ∧ m ∈ included then some (compiled n) else t.own c := by
  rw [own_addMethod]
  refine if_congr ?_ rfl rfl
  rw [hu.eq]
  by_cases hm : m ∈ included <;> simp [hm]

lemma Modules.addMethod_module (h : Modules S defs t) (hu : Users S included users)
    (hm : S.P.isModule m=true) (hr : t.visible S.P.tree m=none → t.sources.find m=none)
    (i : ℕ) (n : Node) : Modules S (update defs m (some n)) (Table.addMethod users
      {t with sourceSels := update t.sourceSels m i} m (.code n.rubyImp) n) := by
  refine h.of_module hm (own_addMethod_module hu _ n) ?_ ?_ ?_
  · intro c _
    rw [addMethod_sources]
  · intro c hc
    rw [addMethod_sourceSels]
    exact update_of_ne hc _ _
  · intro n' hn'
    rw [addMethod_sources] at hn'
    refine (h.unhidden hm hn').resolve_left fun hl => ?_
    rw [hr hl] at hn'
    cases hn'

lemma Reaches.addMethod_module (h : Reaches S included winner t)
    (hu : Users S included users) (hm : S.P.isModule m=true) (hn : m ∉ included) (i : ℕ)
    (n : Node) : Reaches S included winner (Table.addMethod users
      {t with sourceSels := update t.sourceSels m i} m (.code n.rubyImp) n) := by
  refine h.of_module hm hn ?_ ?_
  · intro c hc
    rw [own_addMethod_module hu,if_neg]
    rintro (hcm | hck)
    · exact hc hcm
    · exact hn hck.2
  · intro c _
    rw [addMethod_sources]

lemma Modules.keepSource_klass (h : Modules S defs t) {t' : Table} (ho : t'.own=t.own)
    (hs : ∀ c ≠ S.klass, t'.sources.find c=t.sources.find c)
    (hl : ∀ c ≠ S.klass, t'.sourceSels c=t.sourceSels c) : Modules S defs t' := by
  have hv : ∀ k, t'.visible S.P.tree k=t.visible S.P.tree k := by
    intro k
    unfold Table.visible
    rw [ho]
  refine ⟨?_,?_,?_,?_⟩
  · intro c hc hcm
    rw [hs c hc]
    exact h.others hc hcm
  · intro k hk hd
    rw [ho,hs k (klass_ne_module hk)]
    exact h.undefined hk hd
  · intro k n hk hd
    rw [ho,hs k (klass_ne_module hk),hl k (klass_ne_module hk)]
    exact h.defined hk hd
  · intro k n hk hso
    rw [hs k (klass_ne_module hk)] at hso
    rw [hv,hv]
    exact h.unhidden hk hso

lemma sources_keepSource (t : Table) (k c : ℕ) (n : Node) :
    (t.keepSource k n).sources.find c=if c=k then some n else t.sources.find c :=
  find_assign _ _ _ _

lemma sourceSels_keepSource_of_ne {k c : ℕ} (n : Node) (hc : c ≠ k) :
    (t.keepSource k n).sourceSels c=t.sourceSels c := by
  unfold Table.keepSource
  split_ifs
  · rfl
  · exact update_of_ne hc _ _

lemma Modules.keepSource_module (h : Modules S defs t) (hm : S.P.isModule m=true)
    (hv : t.visible S.P.tree m=none) (hs : t.sources.find m=none) (n : Node) :
    Modules S (update defs m (some n)) (t.keepSource m n) := by
  refine ⟨?_,?_,?_,?_⟩
  · intro c hc hcm
    rw [sources_keepSource,if_neg]
    · exact h.others hc hcm
    · rintro rfl
      rw [hm] at hcm
      cases hcm
  · intro k hk hd
    by_cases hkm : k=m
    · rw [hkm,update_self] at hd
      cases hd
    · rw [update_of_ne hkm] at hd
      rw [sources_keepSource,if_neg hkm]
      exact h.undefined hk hd
  · intro k n' hk hd
    by_cases hkm : k=m
    · rw [hkm,update_self] at hd
      cases hd
      rw [hkm,sources_keepSource,if_pos rfl]
      refine .inr ⟨S.P.tree.nearest_eq_none.mp hv m (S.P.tree.self_mem_chain m),rfl,?_⟩
      simp only [Table.keepSource,hs,Option.isSome_none,Bool.false_eq_true,if_false, update_self]
      exact Nat.succ_pos _
    · rw [update_of_ne hkm] at hd
      rw [sources_keepSource,if_neg hkm,sourceSels_keepSource_of_ne n hkm]
      exact h.defined hk hd
  · intro k n' hk hk'
    by_cases hkm : k=m
    · exact .inl (hkm ▸ hv)
    · rw [sources_keepSource,if_neg hkm] at hk'
      exact h.unhidden hk hk'

lemma prepare_klass (h : Modules S defs t) (hu : Users S included users)
    (hr : Ready S included n t) : Modules S defs (t.prepare S.P.tree users S.klass n) ∧
      Reaches S included (some (compiled n)) (t.prepare S.P.tree users S.klass n) := by
  have hl := h.lookup hu S.klass
  unfold Table.prepare
  dsimp only
  cases hv : (t.lookup S.P.tree users S.klass).visible S.P.tree S.klass with
  | some found =>
    refine ⟨hl.addMethod_klass hu _ n,reaches_of_own ?_⟩
    exact (own_addMethod _ _ _ _).trans (if_pos mem_cons_self)
  | none =>
    obtain ⟨hsa,hs⟩ := lookup_of_not_visible h hu hv
    rw [hsa] at hv ⊢
    refine ⟨h.keepSource_klass rfl ?_ ?_,?_,?_⟩
    · intro c hc
      rw [sources_keepSource,if_neg hc]
    · intro c hc
      exact sourceSels_keepSource_of_ne n hc
    · rintro _ ⟨⟩
      refine .inr ⟨hv,n,?_,rfl⟩
      rw [sources_keepSource,if_pos rfl]
    · intro _ m n' hm hm'
      rw [sources_keepSource,if_neg (klass_ne_module (hu.modules hm))] at hm'
      rw [sources_keepSource,if_pos rfl,hr hv hs hm hm']

lemma prepare_module (h : Modules S defs t) (hu : Users S included users)
    (hm : S.P.isModule m=true) (n : Node) :
    Modules S (update defs m (some n)) (t.prepare S.P.tree users m n) ∧
      (m ∉ included → ∀ winner, Reaches S included winner t →
        Reaches S included winner (t.prepare S.P.tree users m n)) ∧
      (m ∈ included → Ready S included n t →
        Ready S included n (t.prepare S.P.tree users m n)) := by
  have hl := h.lookup hu m
  unfold Table.prepare
  dsimp only
  cases hv : (t.lookup S.P.tree users m).visible S.P.tree m with
  | some found =>
    refine ⟨hl.addMethod_module hu hm (by simp [hv]) _ n,?_,?_⟩
    · intro hn winner hr
      exact (hr.lookup h hu hn).addMethod_module hu hm hn _ n
    · intro hme _
      refine ready_of_own (r := compiled n) ?_
      exact (own_addMethod_module hu _ n _).trans (if_pos (.inr ⟨rfl,hme⟩))
  | none =>
    obtain ⟨hsa,hs⟩ := lookup_of_not_visible h hu hv
    rw [hsa] at hv ⊢
    refine ⟨h.keepSource_module hm hv hs n,?_,?_⟩
    · intro hn winner hr
      refine hr.of_module hm hn (fun _ _ => rfl) fun c hc => ?_
      rw [sources_keepSource,if_neg hc]
    · intro _ hre hno hkl k n' hk hk'
      rw [sources_keepSource,if_neg (klass_ne_module hm).symm] at hkl
      rw [sources_keepSource] at hk'
      split_ifs at hk'
      · cases hk'
        rfl
      · exact hre hno hkl hk hk'

lemma define_klass (h : Modules S defs t) (hu : Users S included users) (n : Node) :
    Modules S defs (t.define S.P.tree users S.klass n) ∧
      Reaches S included (some (compiled n)) (t.define S.P.tree users S.klass n) := by
  have ha := (h.lookup hu S.klass).addMethod_klass hu
    ((t.lookup S.P.tree users S.klass).sourceSels S.klass) n
  rw [update_eq_self] at ha
  refine ⟨ha,reaches_of_own ?_⟩
  exact (own_addMethod _ _ _ _).trans (if_pos mem_cons_self)

lemma define_module (h : Modules S defs t) (hu : Users S included users)
    (hm : S.P.isModule m=true) (n : Node) :
    Modules S (update defs m (some n)) (t.define S.P.tree users m n) ∧
      (m ∉ included → ∀ winner, Reaches S included winner t →
        Reaches S included winner (t.define S.P.tree users m n)) ∧
      (m ∈ included → Reaches S included (some (compiled n)) (t.define S.P.tree users m n)) := by
  have hl := h.lookup hu m
  have ha := hl.addMethod_module hu hm (fun hv => by
      obtain ⟨hs,hso⟩ := lookup_of_not_visible h hu hv
      rwa [hs])
    ((t.lookup S.P.tree users m).sourceSels m) n
  rw [update_eq_self] at ha
  refine ⟨ha,?_,?_⟩
  · intro hn winner hr
    have hr' := (hr.lookup h hu hn).addMethod_module hu hm hn
      ((t.lookup S.P.tree users m).sourceSels m) n
    rw [update_eq_self] at hr'
    exact hr'
  · intro hme
    refine reaches_of_own ?_
    exact (own_addMethod_module hu _ n _).trans (if_pos (.inr ⟨rfl,hme⟩))

lemma resolveMethods_of_clear {tree : ClassTree} {k : ℕ} (users : ℕ → List ℕ)
    (h : Clear tree t k) : t.resolveMethods tree users k=t := by
  have hs : ∀ es : List (ℕ × Node), (∀ e ∈ es, k ∉ tree.chain e.1) →
      es.foldl (Table.resolveEntry tree users k) t=t := by
    intro es hes
    induction es with
    | nil => rfl
    | cons e es ih =>
      have hen : Table.resolveEntry tree users k t e=t := if_neg (hes e mem_cons_self)
      rw [foldl_cons,hen]
      exact ih fun x hx => hes x (mem_cons_of_mem e hx)
  refine hs _ fun e he hb => ?_
  have hf : t.sources.find e.1=some e.2 := find_eq_some.mpr he
  rw [h e.1 hb] at hf
  cases hf

lemma copyMethods_of_undefined (h : Modules S defs t) (hm : S.P.isModule m=true)
    (hd : defs m=none) (users : ℕ → List ℕ) : t.copyMethods S.P.tree users m S.klass=t :=
  copyMethods_of_not_ruby (h.undefined hm hd).1 (h.undefined hm hd).2 _

lemma copyMethods_of_compiled (h : Modules S defs t) (hm : S.P.isModule m=true)
    (ho : t.own m=some (compiled n)) (hc : Clear S.P.tree t S.klass) (users : ℕ → List ℕ) :
    t.copyMethods S.P.tree users m S.klass=t.put S.klass (compiled n) := by
  have hs : t.sources.find m=none := by
    cases hs : t.sources.find m with
    | none => rfl
    | some n' =>
      cases h.unhidden hm hs with
      | inl hl =>
        rw [visible_of_own ho] at hl
        cases hl
      | inr hr =>
        rw [hc m hr.1] at hs
        cases hs
  have hco : t.copyCompiled S.P.tree users m S.klass=t.put S.klass (compiled n) := by
    unfold Table.copyCompiled
    rw [ho]
    exact resolveMethods_of_clear users hc
  rw [Table.copyMethods,hco,copySource_of_none]
  exact hs

lemma copyMethods_of_source (ho : t.own m=none) (hs : t.sources.find m=some n)
    (hl : 0 < t.sourceSels m) (users : ℕ → List ℕ) : ∃ i, t.copyMethods S.P.tree users m S.klass =
      {t with
        sources := t.sources.insert S.klass n
        sourceSels := update t.sourceSels S.klass i} := by
  have hc : t.copyCompiled S.P.tree users m S.klass=t := by
    unfold Table.copyCompiled
    rw [ho]
  obtain ⟨count,hco⟩ : ∃ count, t.sourceSels m=count+1 := ⟨t.sourceSels m-1,by omega⟩
  refine ⟨t.sourceSels S.klass+(count+1),?_⟩
  rw [Table.copyMethods,hc,Table.copySource,hco,hs]

lemma copyMethods_defined (h : Modules S defs t) (hr : Reaches S included winner t)
    (hin : ∀ {k}, k ∈ included → S.P.isModule k=true) (hm : S.P.isModule m=true)
    (hd : defs m=some n) (hco : Copyable S t m) (users : ℕ → List ℕ) :
    Modules S defs (t.copyMethods S.P.tree users m S.klass) ∧
      Reaches S (m::included) (some (compiled n)) (t.copyMethods S.P.tree users m S.klass) := by
  unfold Copyable at hco
  cases h.defined hm hd with
  | inl ho =>
    rw [ho] at hco
    rw [copyMethods_of_compiled h hm ho hco users]
    refine ⟨h.of_klass (fun c hc => own_put_of_ne hc _) ?_ (fun _ _ => rfl) fun _ _ => rfl,
      reaches_of_own (own_put_self _ _)⟩
    rw [own_put_self]
    exact nofun
  | inr hke =>
    obtain ⟨ho,hs,hl⟩ := hke
    rw [ho] at hco
    obtain ⟨i,hi⟩ := copyMethods_of_source ho hs hl users
    have hf : ∀ c, (t.sources.insert S.klass n).find c =
        if c=S.klass then some n else t.sources.find c := by
      intro c
      rw [find_insert]
      simp only [hco.1,and_true]
    rw [hi]
    refine ⟨h.keepSource_klass rfl ?_ ?_,?_,?_⟩
    · intro c hc
      exact (hf c).trans (if_neg hc)
    · intro c hc
      exact update_of_ne hc _ _
    · rintro _ ⟨⟩
      exact .inr ⟨hco.2,n,(hf _).trans (if_pos rfl),rfl⟩
    · intro _ k n' hk hk'
      have hkm : S.P.isModule k=true := by
        cases mem_cons.mp hk with
        | inl hkm => exact hkm ▸ hm
        | inr hme => exact hin hme
      have hold : t.sources.find k=some n' :=
        ((hf k).trans (if_neg (klass_ne_module hkm))).symm.trans hk'
      refine ((hf _).trans (if_pos rfl)).trans ?_
      cases mem_cons.mp hk with
      | inl hkm => rw [← hold,hkm,hs]
      | inr hme =>
        have hkl := hr.sources hco.2 hme hold
        rw [hco.1] at hkl
        cases hkl

end MacRuby.ModuleTables
