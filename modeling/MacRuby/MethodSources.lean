import MacRuby.MethodTables

/-!
# Sources that stand for methods

The source of a method that is not compiled yet stands for a method that its
class implements. That is sound as long as no method is implemented by the class
of a kept source or by one of its superclasses, since a lookup would then stop
at that method. Here the record of one selector is compared with the record of
a core that compiles every method when it is prepared, for each operation on
such records.
-/
namespace MacRuby.MethodSources
open MethodTables Function List Table SortedMap

def compiled (n : Node) : Method := ⟨.code n.rubyImp,some n⟩

def implements (t : Table) (c : ℕ) : Option Method :=
  match t.sources.find c with
  | some n => some (compiled n)
  | none => t.own c

structure Unhidden (tree : ClassTree) (t : Table) : Prop where
  own_eq_none : ∀ {c n}, t.sources.find c=some n → ∀ d ∈ tree.chain c, t.own d=none
  listed : ∀ {c n}, t.sources.find c=some n → 0 < t.sourceSels c

/-- The sources that are compiled from `klass` on change no class that includes one of
the modules compiled. -/
def Settled (tree : ClassTree) (users : ℕ → List ℕ) (t : Table) (klass : ℕ) : Prop :=
  ∀ c n, t.sources.find c=some n → klass ∈ tree.chain c →
    ∀ d ∈ users c, t.own d=some (compiled n)

def Clear (tree : ClassTree) (t : Table) (klass : ℕ) : Prop :=
  ∀ c, klass ∈ tree.chain c → t.sources.find c=none

variable {tree : ClassTree} {users : ℕ → List ℕ} {t : Table} {klass : ℕ} {c : ℕ} {u t' : Table}

lemma implements_of_source {n : Node} (h : t.sources.find c=some n) :
    implements t c=some (compiled n) := by
  rw [implements,h]

lemma implements_of_no_source (h : t.sources.find c=none) : implements t c=t.own c := by
  rw [implements,h]

/-- The effect of compiling: sources at and below `klass` become methods. -/
structure Resolved (tree : ClassTree) (klass : ℕ) (t t' : Table) : Prop where
  own : ∀ c, t'.own c=if klass ∈ tree.chain c then implements t c else t.own c
  sources : ∀ c, t'.sources.find c=if klass ∈ tree.chain c then none else t.sources.find c
  sourceSels : ∀ c, klass ∉ tree.chain c → t'.sourceSels c=t.sourceSels c

lemma resolveEntry_of_settled {e : ℕ × Node}
    (hb : klass ∈ tree.chain e.1) (h : ∀ d ∈ users e.1, u.own d=some (compiled e.2)) :
    Table.resolveEntry tree users klass u e = ⟨(u.put e.1 (compiled e.2)).own,u.sources.erase e.1,
        update u.sourceSels e.1 (u.sourceSels e.1-1),.empty⟩ := by
  unfold Table.resolveEntry Table.resolveMethod
  rw [if_pos hb,addMethod_of_users (by exact h)]
  rfl

lemma resolve_loop (users : ℕ → List ℕ) {es : List (ℕ × Node)} (hn : (es.map Prod.fst).Nodup)
    (ho : ∀ e ∈ es, klass ∈ tree.chain e.1 → u.own e.1=none)
    (hs : ∀ e ∈ es, klass ∈ tree.chain e.1 → ∀ d ∈ users e.1, u.own d=some (compiled e.2)) :
    (∀ e ∈ es, klass ∈ tree.chain e.1 →
        (es.foldl (Table.resolveEntry tree users klass) u).own e.1=some (compiled e.2) ∧
        (es.foldl (Table.resolveEntry tree users klass) u).sources.find e.1=none) ∧
      ∀ c, c ∉ es.map Prod.fst ∨ klass ∉ tree.chain c →
        (es.foldl (Table.resolveEntry tree users klass) u).own c=u.own c ∧
        (es.foldl (Table.resolveEntry tree users klass) u).sources.find c=u.sources.find c ∧
        (es.foldl (Table.resolveEntry tree users klass) u).sourceSels c=u.sourceSels c := by
  induction es generalizing u with
  | nil => simp
  | cons e es ih =>
    rw [map_cons,nodup_cons] at hn
    rw [foldl_cons]
    by_cases hb : klass ∈ tree.chain e.1
    · rw [resolveEntry_of_settled hb (hs e mem_cons_self hb)]
      have hne : ∀ x ∈ es, x.1 ≠ e.1 := by
        intro x hx hxe
        exact hn.1 (hxe ▸ mem_map_of_mem hx)
      have hr := ih (u := ⟨(u.put e.1 (compiled e.2)).own,u.sources.erase e.1,
        update u.sourceSels e.1 (u.sourceSels e.1-1),.empty⟩) hn.2
        (fun x hx hxk => (own_put_of_ne (hne x hx) _).trans (ho x (mem_cons_of_mem e hx) hxk))
        (by
          intro x hx hxk d hd
          have hdx := hs x (mem_cons_of_mem e hx) hxk d hd
          -- the class of the entry has no method yet, so it is not `d`
          have hde : d ≠ e.1 := by
            rintro rfl
            rw [ho e mem_cons_self hb] at hdx
            simp at hdx
          exact (own_put_of_ne hde _).trans hdx)
      have hse := hr.2 e.1 (.inl hn.1)
      constructor
      · intro x hx hxk
        rcases mem_cons.mp hx with rfl | hx
        · rw [hse.1,hse.2.1,find_erase,if_pos rfl]
          exact ⟨own_put_self x.1 _,rfl⟩
        · exact hr.1 x hx hxk
      · intro c hc
        have hce : c ≠ e.1 := by
          rintro rfl
          rcases hc with hc | hc
          · exact hc mem_cons_self
          · exact hc hb
        have hk := hr.2 c (hc.imp_left fun hc hm => hc (mem_cons_of_mem _ hm))
        rw [hk.1,hk.2.1,hk.2.2,find_erase,if_neg hce]
        exact ⟨own_put_of_ne hce _,rfl,update_of_ne hce _ _⟩
    · have hsk : Table.resolveEntry tree users klass u e=u := if_neg hb
      rw [hsk]
      have hr := ih hn.2 (fun x hx => ho x (mem_cons_of_mem e hx))
        fun x hx => hs x (mem_cons_of_mem e hx)
      constructor
      · intro x hx hxk
        rcases mem_cons.mp hx with rfl | hx
        · exact (hb hxk).elim
        · exact hr.1 x hx hxk
      · intro c hc
        exact hr.2 c (hc.imp_left fun hc hm => hc (mem_cons_of_mem _ hm))

lemma resolveMethods_resolved
    (ho : ∀ c n, t.sources.find c=some n → klass ∈ tree.chain c → t.own c=none)
    (hs : Settled tree users t klass) :
    Resolved tree klass t (Table.resolveMethods tree users t klass) := by
  have hl := resolve_loop users t.sources.nodup_keys
    (fun e he => ho e.1 e.2 (find_eq_some.mpr he))
    fun e he => hs e.1 e.2 (find_eq_some.mpr he)
  have ha : ∀ {c}, t.sources.find c=none → c ∉ t.sources.entries.map Prod.fst := by
    intro c hc hm
    obtain ⟨e,he,rfl⟩ := mem_map.mp hm
    rw [find_eq_some.mpr he] at hc
    simp at hc
  refine ⟨?_,?_,fun c hc => (hl.2 c (.inr hc)).2.2⟩
  · intro c
    split_ifs with hc
    · cases hf : t.sources.find c with
      | none =>
        rw [implements_of_no_source hf]
        exact (hl.2 c (.inl (ha hf))).1
      | some n =>
        rw [implements_of_source hf]
        exact (hl.1 (c,n) (find_eq_some.mp hf) hc).1
    · exact (hl.2 c (.inr hc)).1
  · intro c
    split_ifs with hc
    · cases hf : t.sources.find c with
      | none =>
        rw [← hf]
        exact (hl.2 c (.inl (ha hf))).2.1
      | some n => exact (hl.1 (c,n) (find_eq_some.mp hf) hc).2
    · exact (hl.2 c (.inr hc)).2.1

lemma Resolved.implements_eq (h : Resolved tree klass t t') (c : ℕ) :
    implements t' c=implements t c := by
  by_cases hc : klass ∈ tree.chain c
  · have hs : t'.sources.find c=none := by rw [h.sources,if_pos hc]
    rw [implements_of_no_source hs,h.own,if_pos hc]
  · have hs := h.sources c
    have ho := h.own c
    rw [if_neg hc] at hs ho
    rw [implements,implements,hs,ho]

lemma Resolved.unhidden (h : Resolved tree klass t t')
    (hl : ∀ {c n}, t.sources.find c=some n → klass ∉ tree.chain c →
      (∀ d ∈ tree.chain c, t.own d=none) ∧ 0 < t.sourceSels c) : Unhidden tree t' := by
  have hold : ∀ {c n}, t'.sources.find c=some n →
      t.sources.find c=some n ∧ klass ∉ tree.chain c := by
    intro c n hc
    rw [h.sources] at hc
    split_ifs at hc with hk
    exact ⟨hc,hk⟩
  constructor
  · intro c n hc d hd
    obtain ⟨hs,hk⟩ := hold hc
    have hdk : klass ∉ tree.chain d := fun hdk => hk (tree.chain_trans hdk hd)
    rw [h.own,if_neg hdk]
    exact (hl hs hk).1 d hd
  · intro c n hc
    obtain ⟨hs,hk⟩ := hold hc
    rw [h.sourceSels c hk]
    exact (hl hs hk).2

def LookupSettled (tree : ClassTree) (users : ℕ → List ℕ) (t : Table) (klass : ℕ) : Prop :=
  t.visible tree klass=none → ∀ c, t.sourceClass tree klass=some c → Settled tree users t c

/-- The table `t` stands for the table `e` of a core that compiles at once, except for
the classes in `W`, to which a definition still has to be passed on. -/
structure Stands (tree : ClassTree) (W : ℕ → Prop) (t e : Table) : Prop where
  unhidden : Unhidden tree t
  same : ∀ c, ¬W c → e.own c=implements t c
  eager : e.sources=∅

variable {tree : ClassTree} {users : ℕ → List ℕ} {t e : Table} {W W' : ℕ → Prop} {klass : ℕ}
variable {m : Method} {k c : ℕ}

lemma Stands.mono (h : Stands tree W t e) (hW : ∀ c, W c → W' c) : Stands tree W' t e :=
  ⟨h.unhidden,fun c hc => h.same c fun hw => hc (hW c hw),h.eager⟩

lemma Unhidden.source_eq_none (h : Unhidden tree t) {d : ℕ}
    (ho : t.own c=some m) (hd : c ∈ tree.chain d) : t.sources.find d=none := by
  cases hs : t.sources.find d with
  | none => rfl
  | some n =>
    rw [h.own_eq_none hs c hd] at ho
    simp at ho

lemma Unhidden.resolved (h : Unhidden tree t) (hs : Settled tree users t k) :
    Resolved tree k t (Table.resolveMethods tree users t k) := by
  apply resolveMethods_resolved _ hs
  intro c n hc _
  exact h.own_eq_none hc c (tree.self_mem_chain c)

lemma Stands.resolve (h : Stands tree W t e) (hs : Settled tree users t klass) :
    Stands tree W (Table.resolveMethods tree users t klass) e := by
  have hr := h.unhidden.resolved hs
  refine ⟨?_,?_,h.eager⟩
  · apply hr.unhidden
    intro c n hc _
    exact ⟨h.unhidden.own_eq_none hc,h.unhidden.listed hc⟩
  · intro c hc
    rw [hr.implements_eq]
    exact h.same c hc

lemma Stands.lookup (h : Stands tree W t e) (hs : LookupSettled tree users t klass) :
    Stands tree W (t.lookup tree users klass) e := by
  unfold Table.lookup
  cases hv : t.visible tree klass with
  | some m => exact h
  | none =>
    cases hso : t.sourceClass tree klass with
    | none => exact h
    | some c => exact h.resolve (hs hv c hso)

lemma visible_lookup (h : Unhidden tree t) (hse : LookupSettled tree users t klass) :
    (t.lookup tree users klass).visible tree klass=tree.nearest (implements t) klass := by
  unfold Table.lookup
  cases hv : t.visible tree klass with
  | some found =>
    obtain ⟨c,m⟩ := found
    rw [hv,eq_comm]
    unfold Table.visible at hv
    rw [ClassTree.nearest_eq_some] at hv ⊢
    obtain ⟨hc,ho,hb⟩ := hv
    have hno : ∀ d, c ∈ tree.chain d → t.sources.find d=none :=
      fun d hd => h.source_eq_none ho hd
    refine ⟨hc,?_,?_⟩
    · rw [implements_of_no_source (hno c (tree.self_mem_chain c)),ho]
    · intro d hd hcd hn
      rw [implements_of_no_source (hno d hcd),hb d hd hcd hn]
  | none =>
    have hnon := tree.nearest_eq_none.mp hv
    cases hs : t.sourceClass tree klass with
    | none =>
      rw [hv,eq_comm,ClassTree.nearest_eq_none]
      intro c hc
      have hno := tree.nearest_eq_none.mp (Option.map_eq_none_iff.mp hs) c hc
      rw [implements_of_no_source hno,hnon c hc]
    | some p =>
      obtain ⟨⟨q,n⟩,hnea,rfl⟩ := Option.map_eq_some_iff.mp hs
      obtain ⟨hq,hfi,hb⟩ := tree.nearest_eq_some.mp hnea
      have hr := h.resolved (hse hv q hs)
      have hi : implements t q=some (compiled n) := implements_of_source hfi
      have hf : tree.nearest (implements t) klass=some (q,compiled n) := by
        rw [ClassTree.nearest_eq_some]
        refine ⟨hq,hi,?_⟩
        intro d hd hqd hn
        rw [implements_of_no_source (hb d hd hqd hn),hnon d hd]
      obtain ⟨_,_,ha⟩ := tree.nearest_eq_some.mp hf
      rw [hf]
      unfold Table.visible
      rw [ClassTree.nearest_eq_some]
      refine ⟨hq,?_,?_⟩
      · rw [hr.own,if_pos (tree.self_mem_chain q),hi]
      · intro d hd hqd hn
        rw [hr.own,if_pos hqd,ha d hd hqd hn]

lemma Stands.visible_eq (h : Stands tree (fun _ => False) t e)
    (hs : LookupSettled tree users t klass) : (t.lookup tree users klass).visible tree klass =
      (e.lookup tree users klass).visible tree klass := by
  rw [visible_lookup h.unhidden hs,lookup_of_empty h.eager]
  exact tree.nearest_congr fun c _ => (h.same c id).symm

lemma Unhidden.clear (h : Unhidden tree t) (hv : t.visible tree klass ≠ none) :
    Clear tree t klass := by
  intro c hc
  obtain ⟨⟨d,m⟩,hf⟩ := Option.ne_none_iff_exists'.mp hv
  obtain ⟨hd,ho,_⟩ := tree.nearest_eq_some.mp hf
  exact h.source_eq_none ho (tree.chain_trans hd hc)

lemma Stands.addMethod (h : Stands tree W t e)
    (hcl : ∀ c ∈ klass::users klass, Clear tree t c) (hW : ∀ c, W c → W' c ∨ c=klass)
    (imp : Imp) (n : Node) :
    Stands tree W' (Table.addMethod users t klass imp n) (Table.addMethod users e klass imp n) := by
  refine ⟨⟨?_,?_⟩,?_,?_⟩
  · intro c m hc d hd
    rw [addMethod_sources] at hc
    rw [own_addMethod,if_neg]
    · exact h.unhidden.own_eq_none hc d hd
    · intro hm
      rw [hcl d hm c hd] at hc
      simp at hc
  · intro c m hc
    rw [addMethod_sources] at hc
    rw [addMethod_sourceSels]
    exact h.unhidden.listed hc
  · intro c hc
    rw [own_addMethod]
    by_cases hm : c ∈ klass::users klass
    · have hs := hcl c hm c (tree.self_mem_chain c)
      rw [if_pos hm,implements_of_no_source (by rwa [addMethod_sources]),
        own_addMethod,if_pos hm]
    · have hold : ¬W c := by
        intro hWc
        rcases hW c hWc with hWc | rfl
        · exact hc hWc
        · exact hm mem_cons_self
      rw [if_neg hm,h.same c hold,implements,implements,addMethod_sources,
        own_addMethod,if_neg hm]
  · rw [addMethod_sources,h.eager]

lemma Stands.unlist (h : Stands tree W t e) (hk : t.sources.find k=none) (i j : ℕ) :
    Stands tree W {t with sourceSels := update t.sourceSels k i}
      {e with sourceSels := update e.sourceSels k j} := by
  refine ⟨⟨h.unhidden.own_eq_none,?_⟩,h.same,h.eager⟩
  intro c n hc
  have hn : c ≠ k := by
    rintro rfl
    simp [hk] at hc
  have hl := h.unhidden.listed hc
  simpa [update_of_ne hn] using hl

lemma Stands.keepSource (h : Stands tree W t e) (hv : t.visible tree klass=none)
    (hs : t.sources.find klass=none) (hW : ∀ c, W c → W' c ∨ c=klass)
    (hu : ∀ c ∈ users klass, W' c) (n : Node) :
    Stands tree W' (t.keepSource klass n) (Table.resolveMethod users e klass n) := by
  have hf : ∀ c, (t.keepSource klass n).sources.find c =
      if c=klass then some n else t.sources.find c := fun c => find_assign _ _ _ _
  have hn := tree.nearest_eq_none.mp hv
  refine ⟨⟨?_,?_⟩,?_,?_⟩
  · intro c m hc d hd
    rw [hf] at hc
    split_ifs at hc with hck
    · exact hn d (hck ▸ hd)
    · exact h.unhidden.own_eq_none hc d hd
  · intro c m hc
    rw [hf] at hc
    simp only [Table.keepSource,hs,Option.isSome_none,Bool.false_eq_true,if_false]
    split_ifs at hc with hck
    · rw [hck,update_self]
      exact Nat.succ_pos _
    · rw [update_of_ne hck]
      exact h.unhidden.listed hc
  · intro c hc
    unfold Table.resolveMethod
    rw [own_addMethod]
    by_cases hck : c=klass
    · subst hck
      rw [if_pos mem_cons_self,implements_of_source (by rw [hf,if_pos rfl])]
      rfl
    · have hold : ¬W c := fun hWc => (hW c hWc).elim hc hck
      have hm : c ∉ klass::users klass := by
        intro hm
        exact hc (hu c ((mem_cons.mp hm).resolve_left hck))
      rw [if_neg hm,implements,hf,if_neg hck]
      exact h.same c hold
  · unfold Table.resolveMethod
    rw [addMethod_sources]
    exact h.eager

lemma implements_lookup (h : Unhidden tree t) (hs : LookupSettled tree users t klass)
    (c : ℕ) : implements (t.lookup tree users klass) c=implements t c := by
  unfold Table.lookup
  cases hv : t.visible tree klass with
  | some m => rfl
  | none =>
    cases hso : t.sourceClass tree klass with
    | none => rfl
    | some p =>
      apply Resolved.implements_eq
      exact h.resolved (hs hv p hso)

lemma own_lookup (h : Unhidden tree t) (hs : LookupSettled tree users t klass)
    (ho : t.own c=some m) : (t.lookup tree users klass).own c=some m := by
  have hn := h.source_eq_none ho (tree.self_mem_chain c)
  unfold Table.lookup
  cases hv : t.visible tree klass with
  | some m => exact ho
  | none =>
    cases hso : t.sourceClass tree klass with
    | none => exact ho
    | some p =>
      have hr := h.resolved (hs hv p hso)
      rw [hr.own,implements_of_no_source hn,ite_self,ho]

/-- `prepare_method` for a core that compiles at once. -/
def prepareNow (tree : ClassTree) (users : ℕ → List ℕ) (t : Table) (klass : ℕ) (n : Node) : Table :=
  Table.resolveMethod users (t.lookup tree users klass) klass n

/-- A class that includes a module has no sources at or below it when a method of the
module is compiled at once. -/
def PrepareSettled (tree : ClassTree) (users : ℕ → List ℕ) (t : Table) (klass : ℕ) : Prop :=
  LookupSettled tree users t klass ∧
    ((t.lookup tree users klass).visible tree klass ≠ none →
      ∀ c ∈ users klass, Clear tree (t.lookup tree users klass) c)

lemma Stands.prepare (h : Stands tree W t e) (hs : PrepareSettled tree users t klass)
    (hW : ∀ c, W c → W' c ∨ c=klass) (hus : ∀ c ∈ users klass, W' c) (n : Node) :
    Stands tree W' (t.prepare tree users klass n) (prepareNow tree users e klass n) := by
  have hl := h.lookup hs.1
  rw [prepareNow,lookup_of_empty h.eager]
  unfold Table.prepare
  dsimp only
  cases hv : (t.lookup tree users klass).visible tree klass with
  | some m =>
    have hne : (t.lookup tree users klass).visible tree klass ≠ none := by simp [hv]
    have hse := hl.unhidden.clear hne
    have hu := hl.unlist (hse klass (tree.self_mem_chain klass))
    refine (hu _ _).addMethod ?_ hW _ n
    intro c hc
    rcases mem_cons.mp hc with rfl | hc
    · exact hse
    · exact hs.2 hne c hc
  | none =>
    apply hl.keepSource hv _ hW hus
    -- a source would have been compiled by the lookup
    have hn := tree.nearest_eq_none.mp
      ((visible_lookup h.unhidden hs.1).symm.trans hv) klass (tree.self_mem_chain klass)
    rw [← implements_lookup h.unhidden hs.1] at hn
    cases hso : (t.lookup tree users klass).sources.find klass with
    | none => rfl
    | some m =>
      rw [implements_of_source hso] at hn
      simp at hn

/-- A direct definition finds no sources at or below the class, and at or below the
classes that include it, that the lookup has not compiled. -/
def DefineSettled (tree : ClassTree) (users : ℕ → List ℕ) (t : Table) (klass : ℕ) : Prop :=
  LookupSettled tree users t klass ∧
    ∀ c ∈ klass::users klass, Clear tree (t.lookup tree users klass) c

lemma Stands.define (h : Stands tree W t e) (hs : DefineSettled tree users t klass)
    (n : Node) : Stands tree W (t.define tree users klass n) (e.define tree users klass n) := by
  unfold Table.define
  rw [lookup_of_empty h.eager]
  exact (h.lookup hs.1).addMethod hs.2 (fun _ hc => .inl hc) _ n

/-- A compiled method of a module goes to a class without a source of that selector;
a source of a module goes to a class that does not respond to the selector. -/
def CopySettled (tree : ClassTree) (users : ℕ → List ℕ) (t : Table) (fromClass toClass : ℕ) :
    Prop :=
  (∀ imp n, t.own fromClass=some ⟨imp,some n⟩ →
      t.sources.find toClass=none ∧ Settled tree users (t.put toClass ⟨imp,some n⟩) toClass) ∧
    ∀ n, t.sources.find fromClass=some n →
      t.sources.find toClass=none ∧ t.visible tree toClass=none

variable {fromClass toClass : ℕ} {m : Method}

lemma Stands.copySource (h : Stands tree (fun _ => False) t e) {n : Node}
    (hfr : t.sources.find fromClass=some n) (ht : t.sources.find toClass=none)
    (hv : t.visible tree toClass=none) :
    Stands tree (fun _ => False) (t.copySource fromClass toClass) (e.put toClass (compiled n)) := by
  obtain ⟨count,hco⟩ : ∃ count, t.sourceSels fromClass=count+1 :=
    ⟨t.sourceSels fromClass-1,by have := h.unhidden.listed hfr; omega⟩
  have hcop : t.copySource fromClass toClass={t with
      sources := t.sources.insert toClass n
      sourceSels := update t.sourceSels toClass (t.sourceSels toClass+(count+1))} := by
    rw [Table.copySource,hco,hfr]
  have hf : ∀ c, (t.sources.insert toClass n).find c =
      if c=toClass then some n else t.sources.find c := by
    intro c
    rw [find_insert]
    simp only [ht,and_true]
  have hn := tree.nearest_eq_none.mp hv
  rw [hcop]
  refine ⟨⟨?_,?_⟩,?_,h.eager⟩
  · intro c m hc d hd
    rw [hf] at hc
    split_ifs at hc with hct
    · exact hn d (hct ▸ hd)
    · exact h.unhidden.own_eq_none hc d hd
  · intro c m hc
    rw [hf] at hc
    split_ifs at hc with hct
    · rw [hct]
      simp only [update_self]
      omega
    · simpa [update_of_ne hct] using h.unhidden.listed hc
  · intro c _
    rw [implements,hf]
    by_cases hct : c=toClass
    · rw [hct,if_pos rfl]
      exact own_put_self _ _
    · rw [if_neg hct,own_put_of_ne hct]
      exact h.same c id

lemma put_resolved (h : Unhidden tree t) (ht : t.sources.find toClass=none)
    (hs : Settled tree users (t.put toClass m) toClass) : Resolved tree toClass (t.put toClass m)
      (Table.resolveMethods tree users (t.put toClass m) toClass) := by
  apply resolveMethods_resolved _ hs
  intro c n hc _
  have hn : c ≠ toClass := by
    rintro rfl
    simp [ht] at hc
  rw [own_put_of_ne hn]
  exact h.own_eq_none hc c (tree.self_mem_chain c)

lemma Stands.copyCompiled (h : Stands tree (fun _ => False) t e)
    (ht : t.sources.find toClass=none) (hs : Settled tree users (t.put toClass m) toClass) :
    Stands tree (fun _ => False) (Table.resolveMethods tree users (t.put toClass m) toClass)
      (e.put toClass m) := by
  have hr := put_resolved h.unhidden ht hs
  refine ⟨?_,?_,h.eager⟩
  · apply hr.unhidden
    intro c m hc hk
    refine ⟨?_,h.unhidden.listed hc⟩
    intro d hd
    have hdt : d ≠ toClass := by
      rintro rfl
      exact hk hd
    rw [own_put_of_ne hdt]
    exact h.unhidden.own_eq_none hc d hd
  · intro c _
    rw [hr.implements_eq]
    by_cases hct : c=toClass
    · rw [hct,implements_of_no_source (by exact ht),own_put_self,own_put_self]
    · rw [implements,own_put_of_ne hct,own_put_of_ne hct]
      exact h.same c id

lemma Stands.copyMethods (h : Stands tree (fun _ => False) t e)
    (hse : CopySettled tree users t fromClass toClass) :
    Stands tree (fun _ => False) (t.copyMethods tree users fromClass toClass)
      (e.copyMethods tree users fromClass toClass) := by
  have hs := h.same fromClass id
  cases hf : t.sources.find fromClass with
  | some n =>
    have ho := h.unhidden.own_eq_none hf fromClass (tree.self_mem_chain fromClass)
    rw [implements_of_source hf] at hs
    obtain ⟨ht,hv⟩ := hse.2 n hf
    rw [copyMethods_of_ruby h.eager hs]
    have hc : t.copyCompiled tree users fromClass toClass=t := by
      rw [Table.copyCompiled,ho]
    rw [Table.copyMethods,hc]
    exact h.copySource hf ht hv
  | none =>
    rw [implements_of_no_source hf] at hs
    by_cases hr : ∃ imp n, t.own fromClass=some ⟨imp,some n⟩
    · obtain ⟨imp,n,ho⟩ := hr
      obtain ⟨ht,hre⟩ := hse.1 imp n ho
      rw [copyMethods_of_ruby h.eager (hs.trans ho),Table.copyMethods, Table.copyCompiled,ho]
      rw [copySource_of_none]
      · exact h.copyCompiled ht hre
      · rw [(put_resolved h.unhidden ht hre).sources,put_sources,hf]
        exact ite_self none
    · have ho : ∀ imp n, t.own fromClass ≠ some ⟨imp,some n⟩ :=
        fun imp n ho => hr ⟨imp,n,ho⟩
      rw [copyMethods_of_not_ruby hf ho,
        copyMethods_of_not_ruby (by simp [h.eager]) (by rwa [hs])]
      exact h

end MacRuby.MethodSources
