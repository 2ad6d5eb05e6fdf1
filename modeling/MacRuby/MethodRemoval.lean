import MacRuby.MethodTables

/-!
# Removing a method

`remove_method` looks the name up from the class, first without and then with a
colon, and sets the implementation of the entry that it finds to `NULL`. The entry
can be one of a superclass, and it stays in its table, where a lookup still finds
it and takes the method for undefined.
-/
namespace MacRuby.MethodRemoval
open List
open MethodTables (SEL genuine buf100)
open Function

/-- An implementation; `undefined` is `undefined_imp`. -/
inductive Imp
  | null
  | undefined
  | code (imp : ℕ)
deriving DecidableEq, Repr

/-- The entries that the classes have themselves, for each selector. -/
abbrev Tables := SEL → ℕ → Option Imp

/-- What is asked about a class before its methods are changed. -/
structure Guards where
  rbCObject : ℕ
  safeLevel : ℕ
  tainted : ℕ → Bool
  frozen : ℕ → Bool

variable (tree : ClassTree)

def classGetInstanceMethod (own : Tables) (klass : ℕ) (sel : SEL) : Option (ℕ × Imp) :=
  tree.nearest (own sel) klass

/-- `method_setImplementation` of the entry of a class. -/
def methodSetImplementation (own : Tables) (sel : SEL) (owner : ℕ) (imp : Imp) : Tables :=
  update own sel (update (own sel) owner (some imp))

/-- The selector and the class of the entry that `remove_method` finds. -/
def findMethod (own : Tables) (klass : ℕ) (mid : SEL) : Option (SEL × ℕ) :=
  match classGetInstanceMethod tree own klass mid with
  | some m => some (mid,m.1)
  | none =>
    if genuine mid then none
    else (classGetInstanceMethod tree own klass (buf100 (mid++[':']))).map
      fun m => (buf100 (mid++[':']),m.1)

/-- The checks at the start of `remove_method`. -/
def Guards.permits (G : Guards) (klass : ℕ) : Bool :=
  !(decide (klass=G.rbCObject) && decide (4 ≤ G.safeLevel)) &&
    !(decide (4 ≤ G.safeLevel) && !G.tainted klass) && !G.frozen klass

/-- `remove_method`; without a result when it raises. -/
def removeMethod (G : Guards) (own : Tables) (klass : ℕ) (mid : SEL) : Option Tables :=
  if G.permits klass then
    (findMethod tree own klass mid).map fun m => methodSetImplementation own m.1 m.2 .null
  else none

/-- The definition that a call runs, with its class: an entry without code is an undefined
method. -/
def lookup (own : Tables) (klass : ℕ) (sel : SEL) : Option (ℕ × ℕ) :=
  match classGetInstanceMethod tree own klass sel with
  | some (owner,.code imp) => some (owner,imp)
  | _ => none

variable (own : Tables) (klass : ℕ) (mid : SEL)

def sels (mid : SEL) : List SEL := if genuine mid then [mid] else [mid,buf100 (mid++[':'])]

def Defines (sel : SEL) : Prop := ∃ imp, own sel klass=some (.code imp)

instance (sel : SEL) : Decidable (Defines own klass sel) :=
  match h : own sel klass with
  | some (.code imp) => isTrue ⟨imp,h⟩
  | some .null => isFalse fun ⟨_,h'⟩ => by rw [h] at h'; cases h'
  | some .undefined => isFalse fun ⟨_,h'⟩ => by rw [h] at h'; cases h'
  | none => isFalse fun ⟨_,h'⟩ => by rw [h] at h'; cases h'

/-- The tables without the definitions that the class has of the name. -/
def without : Tables := fun sel c =>
  if c=klass ∧ sel ∈ sels mid ∧ Defines own klass sel then none else own sel c

structure RemovedOnly (result : Option Tables) : Prop where
  succeeds : result.isSome ↔ ∃ sel ∈ sels mid, Defines own klass sel
  lookups : ∀ {own'}, result=some own' → ∀ c, klass ∈ tree.chain c → ∀ sel ∈ sels mid,
    lookup tree own' c sel=lookup tree (without own klass mid) c sel
  others : ∀ {own'}, result=some own' → ∀ c ≠ klass, ∀ sel, own' sel c=own sel c

def UndefinedAbove (sel : SEL) : Prop :=
  ∀ s, tree.superclass klass=some s → lookup tree own s sel=none

/-- The class has a definition under exactly one selector of the name, under the other one it
finds no entry if that is tried first, and no class above has a definition. -/
def Removable : Prop :=
  ∃ sel ∈ sels mid, Defines own klass sel ∧ UndefinedAbove tree own klass sel ∧
    (∀ sel' ∈ sels mid, sel' ≠ sel → ¬Defines own klass sel') ∧
    (sel=mid ∨ classGetInstanceMethod tree own klass mid=none)

def Absent : Prop := ∀ sel ∈ sels mid, classGetInstanceMethod tree own klass sel=none

variable {tree own klass mid} {own' : Tables} {c : ℕ} {sel : SEL}

/-- Tables that differ at one class only have the same lookups below it if they have the same
lookup there. -/
lemma lookup_eq_of_klass (h : ∀ d ≠ klass, own sel d=own' sel d)
    (hk : lookup tree own klass sel=lookup tree own' klass sel) (hc : klass ∈ tree.chain c) :
    lookup tree own c sel=lookup tree own' c sel := by
  induction c using tree.chain_induction with
  | root c hs =>
    rw [tree.chain_root hs,mem_singleton] at hc
    exact hc ▸ hk
  | step c s hs ih =>
    by_cases hck : c=klass
    · exact hck ▸ hk
    · rw [tree.chain_step hs] at hc
      have hsu := ih ((mem_cons.mp hc).resolve_left (Ne.symm hck))
      have he := h c hck
      unfold lookup classGetInstanceMethod at hsu ⊢
      cases ho : own sel c with
      | some imp =>
        rw [ho] at he
        rw [tree.nearest_own _ ho,tree.nearest_own _ he.symm]
      | none =>
        rw [ho] at he
        rw [tree.nearest_step _ ho hs,tree.nearest_step _ he.symm hs]
        exact hsu

lemma lookup_own {imp : ℕ} (h : own sel klass=some (.code imp)) :
    lookup tree own klass sel=some (klass,imp) := by
  unfold lookup classGetInstanceMethod
  rw [tree.nearest_own _ h]

lemma lookup_null (h : own sel klass=some .null) : lookup tree own klass sel=none := by
  unfold lookup classGetInstanceMethod
  rw [tree.nearest_own _ h]

lemma lookup_of_none_iff (h : own sel klass=none) :
    lookup tree own klass sel=none ↔ UndefinedAbove tree own klass sel := by
  unfold UndefinedAbove
  cases hs : tree.superclass klass with
  | none =>
    refine ⟨fun _ => nofun,fun _ => ?_⟩
    unfold lookup classGetInstanceMethod
    rw [tree.nearest_root _ hs,h]
    rfl
  | some s =>
    have hst : lookup tree own klass sel=lookup tree own s sel := by
      unfold lookup classGetInstanceMethod
      rw [tree.nearest_step _ h hs]
    rw [hst]
    refine ⟨?_,fun ha => ha s rfl⟩
    rintro hn _ ⟨⟩
    exact hn

lemma lookup_of_other (h : ∀ d ≠ klass, own sel d=own' sel d) {s : ℕ}
    (hs : tree.superclass klass=some s) : lookup tree own s sel=lookup tree own' s sel := by
  have hsa : classGetInstanceMethod tree own s sel=classGetInstanceMethod tree own' s sel := by
    refine tree.nearest_congr fun d hd => h d ?_
    rintro rfl
    have hl := tree.le_of_mem_chain hd
    have hlt := tree.superclass_lt hs
    omega
  unfold lookup
  rw [hsa]

lemma undefinedAbove_congr (h : ∀ d ≠ klass, own sel d=own' sel d) :
    UndefinedAbove tree own klass sel ↔ UndefinedAbove tree own' klass sel := by
  refine forall₂_congr fun s hs => ?_
  rw [lookup_of_other h hs]

lemma lookup_without_iff (hs : sel ∈ sels mid) (hde : Defines own klass sel) :
    lookup tree (without own klass mid) klass sel=none ↔ UndefinedAbove tree own klass sel := by
  have hn : without own klass mid sel klass=none := if_pos ⟨rfl,hs,hde⟩
  rw [lookup_of_none_iff hn]
  refine undefinedAbove_congr fun d hd => if_neg ?_
  exact fun h => hd h.1

lemma lookup_without_ne (hs : sel ∈ sels mid) (hd : Defines own klass sel) :
    lookup tree (without own klass mid) klass sel ≠ lookup tree own klass sel := by
  obtain ⟨imp,hi⟩ := hd
  rw [lookup_own hi]
  intro h
  have hn : without own klass mid sel klass=none := if_pos ⟨rfl,hs,imp,hi⟩
  unfold lookup classGetInstanceMethod at h
  cases hf : tree.nearest (without own klass mid sel) klass with
  | none =>
    rw [hf] at h
    cases h
  | some m =>
    obtain ⟨owner,i⟩ := m
    rw [hf] at h
    cases i with
    | null | undefined => cases h
    | code i =>
      cases h
      have he := (tree.nearest_eq_some.mp hf).2.1
      rw [hn] at he
      cases he

lemma without_of_not_defines (hd : ¬Defines own klass sel) (d : ℕ) :
    without own klass mid sel d=own sel d :=
  if_neg fun h => hd h.2.2

variable {owner : ℕ} {sel' : SEL}

lemma mem_sels (h : sel ∈ sels mid) : sel=mid ∨ ¬genuine mid ∧ sel=buf100 (mid++[':']) := by
  unfold sels at h
  split_ifs at h with hg
  · exact .inl (mem_singleton.mp h)
  · cases mem_cons.mp h with
    | inl hm => exact .inl hm
    | inr hc => exact .inr ⟨hg,mem_singleton.mp hc⟩

lemma mid_mem_sels (mid : SEL) : mid ∈ sels mid := by
  unfold sels
  split_ifs <;> exact mem_cons_self

lemma colon_mem_sels (h : ¬genuine mid) : buf100 (mid++[':']) ∈ sels mid := by
  unfold sels
  rw [if_neg h]
  exact mem_cons_of_mem _ mem_cons_self

lemma findMethod_eq_none : findMethod tree own klass mid=none ↔ Absent tree own klass mid := by
  unfold findMethod
  constructor
  · intro h sel hs
    cases hm : classGetInstanceMethod tree own klass mid with
    | some m =>
      rw [hm] at h
      cases h
    | none =>
      rw [hm] at h
      cases mem_sels hs with
      | inl he => exact he ▸ hm
      | inr he =>
        rw [if_neg he.1,Option.map_eq_none_iff] at h
        exact he.2 ▸ h
  · intro h
    rw [h mid (mid_mem_sels mid)]
    split_ifs with hg
    · rfl
    · rw [h _ (colon_mem_sels hg)]
      rfl

lemma findMethod_eq_some (h : findMethod tree own klass mid=some (sel,owner)) :
    sel ∈ sels mid ∧ (∃ imp, classGetInstanceMethod tree own klass sel=some (owner,imp)) ∧
      (sel=mid ∨ classGetInstanceMethod tree own klass mid=none) := by
  unfold findMethod at h
  cases hmi : classGetInstanceMethod tree own klass mid with
  | some m =>
    rw [hmi] at h
    cases h
    exact ⟨mid_mem_sels _,⟨m.2,hmi⟩,.inl rfl⟩
  | none =>
    rw [hmi] at h
    split_ifs at h with hg
    obtain ⟨m,hm,he⟩ := Option.map_eq_some_iff.mp h
    cases he
    exact ⟨colon_mem_sels hg,⟨m.2,hm⟩,.inr rfl⟩

lemma found_first_unique (h : sel ∈ sels mid) (h' : sel' ∈ sels mid)
    (hfo : classGetInstanceMethod tree own klass sel ≠ none)
    (hfo' : classGetInstanceMethod tree own klass sel' ≠ none)
    (hf : sel=mid ∨ classGetInstanceMethod tree own klass mid=none)
    (hf' : sel'=mid ∨ classGetInstanceMethod tree own klass mid=none) : sel=sel' := by
  cases hm : classGetInstanceMethod tree own klass mid with
  | some m =>
    rw [hm] at hf hf'
    exact (hf.resolve_right nofun).trans (hf'.resolve_right nofun).symm
  | none =>
    have hc : ∀ {s}, s ∈ sels mid → classGetInstanceMethod tree own klass s ≠ none →
        s=buf100 (mid++[':']) := by
      intro s hs hn
      refine ((mem_sels hs).resolve_left ?_).2
      rintro rfl
      exact hn hm
    exact (hc h hfo).trans (hc h' hfo').symm

lemma found_of_defines (tree : ClassTree) (h : Defines own klass sel) :
    ∃ imp, classGetInstanceMethod tree own klass sel=some (klass,.code imp) := by
  obtain ⟨imp,hi⟩ := h
  exact ⟨imp,tree.nearest_own _ hi⟩

lemma set_of_ne (h : sel' ≠ sel) (owner : ℕ) (imp : Imp) :
    methodSetImplementation own sel owner imp sel'=own sel' := update_of_ne h _ _

lemma set_self (sel : SEL) (owner : ℕ) (imp : Imp) :
    methodSetImplementation own sel owner imp sel owner=some imp := by
  unfold methodSetImplementation
  rw [update_self,update_self]

lemma set_of_owner_ne (sel sel' : SEL) {c : ℕ} (h : c ≠ owner) (imp : Imp) :
    methodSetImplementation own sel owner imp sel' c=own sel' c := by
  unfold methodSetImplementation
  by_cases hs : sel'=sel
  · rw [hs,update_self,update_of_ne h]
  · rw [update_of_ne hs]

lemma not_removed {own' : Tables} (hse : sel ∈ sels mid) (hs : own' sel=own sel)
    (hl : lookup tree own' klass sel=lookup tree (without own klass mid) klass sel) :
    ¬Defines own klass sel := by
  intro hd
  refine lookup_without_ne hse hd (?_ : _=lookup tree own klass sel)
  rw [← hl]
  unfold lookup classGetInstanceMethod
  rw [hs]

lemma removable_of_removedOnly (hfi : findMethod tree own klass mid=some (sel,owner))
    (h : RemovedOnly tree own klass mid (some (methodSetImplementation own sel owner .null))) :
    Removable tree own klass mid := by
  obtain ⟨hsel,⟨imp,hfo⟩,hf⟩ := findMethod_eq_some hfi
  obtain ⟨sel',hl,hd⟩ := h.succeeds.mp rfl
  have hse := tree.self_mem_chain klass
  have ho : ∀ s ∈ sels mid, s ≠ sel → ¬Defines own klass s := by
    intro s hs hn
    exact not_removed hs (set_of_ne hn owner .null) (h.lookups rfl klass hse s hs)
  have how : owner=klass := by
    by_contra hn
    have hnu : own sel owner=some .null :=
      (h.others rfl owner hn sel).symm.trans (set_self sel owner .null)
    have hsa : methodSetImplementation own sel owner .null=own := by
      unfold methodSetImplementation
      rw [← hnu,update_eq_self,update_eq_self]
    refine not_removed hl ?_ (h.lookups rfl klass hse sel' hl) hd
    rw [hsa]
  subst how
  have he : sel'=sel := by
    by_contra hn
    exact ho sel' hl hn hd
  subst he
  refine ⟨sel',hl,hd,?_,ho,hf⟩
  rw [← lookup_without_iff hl hd,← h.lookups rfl owner hse sel' hl]
  exact lookup_null (set_self sel' owner .null)

lemma removedOnly_of_removable (hfin : findMethod tree own klass mid=some (sel,owner))
    (h : Removable tree own klass mid) :
    RemovedOnly tree own klass mid (some (methodSetImplementation own sel owner .null)) := by
  obtain ⟨hse,⟨imp,hf⟩,hfi⟩ := findMethod_eq_some hfin
  obtain ⟨sel',hl,hde,ha,ho,hfi'⟩ := h
  obtain ⟨imp',hf'⟩ := found_of_defines tree hde
  have he : sel'=sel :=
    found_first_unique hl hse (by rw [hf']; nofun) (by rw [hf]; nofun) hfi' hfi
  subst he
  rw [hf] at hf'
  cases hf'
  refine ⟨⟨fun _ => ⟨sel',hl,hde⟩,fun _ => rfl⟩,?_,?_⟩
  · rintro _ ⟨⟩ c hc s hs
    by_cases hn : s=sel'
    · subst hn
      refine lookup_eq_of_klass ?_ ?_ hc
      · intro d hd
        rw [set_of_owner_ne s s hd]
        exact (if_neg fun hw => hd hw.1).symm
      · rw [lookup_null (set_self s klass .null)]
        exact ((lookup_without_iff hs hde).mpr ha).symm
    · have hsa : methodSetImplementation own sel' klass .null s=without own klass mid s := by
        rw [set_of_ne hn]
        funext d
        exact (without_of_not_defines (ho s hs hn) d).symm
      unfold lookup classGetInstanceMethod
      rw [hsa]
  · rintro _ ⟨⟩ c hc s
    exact set_of_owner_ne sel' s hc .null

/-- A permitted `remove_method` fails for a class without a definition, removes a definition so that
the nearest ancestor's is found and leaves the other classes alone exactly when the name has no entry
from the class on upwards, or the class has a definition under the selector that is found first and
under no other one, and no class above has a definition. -/
theorem removedOnly_iff (tree : ClassTree) (G : Guards) (own : Tables) (klass : ℕ) (mid : SEL) :
    RemovedOnly tree own klass mid (removeMethod tree G own klass mid) ↔
      if G.permits klass then Absent tree own klass mid ∨ Removable tree own klass mid
      else ∀ sel ∈ sels mid, ¬Defines own klass sel := by
  unfold removeMethod
  split_ifs with hp
  · cases hf : findMethod tree own klass mid with
    | none =>
      have ha := findMethod_eq_none.mp hf
      refine ⟨fun _ => .inl ha,fun _ => ⟨⟨nofun,?_⟩,nofun,nofun⟩⟩
      rintro ⟨sel,hs,hd⟩
      obtain ⟨_,hfo⟩ := found_of_defines tree hd
      rw [ha sel hs] at hfo
      cases hfo
    | some m =>
      refine ⟨fun h => .inr (removable_of_removedOnly hf h),fun h => ?_⟩
      refine removedOnly_of_removable hf (h.resolve_left fun ha => ?_)
      rw [findMethod_eq_none.mpr ha] at hf
      cases hf
  · constructor
    · intro h sel hs hd
      cases h.succeeds.mpr ⟨sel,hs,hd⟩
    · intro h
      refine ⟨⟨nofun,?_⟩,nofun,nofun⟩
      rintro ⟨sel,hs,hd⟩
      exact (h sel hs hd).elim

/-- A class 0 and its subclass 1 that both define `hello`. -/
def parentAndChild : Tables := fun sel k =>
  if sel = "hello".toList then if k=0 then some (.code 1) else if k=1 then some (.code 2) else none
  else none

def unguarded : Guards := ⟨0,0,fun _ => false,fun _ => false⟩

/-- After `hello` is removed from the child, it is not found in the parent. -/
theorem parent_method_not_found : (removeMethod .pair unguarded parentAndChild 1 "hello".toList).map
        (fun own => (lookup .pair own 1 "hello".toList,lookup .pair own 0 "hello".toList)) =
      some (none,some (0,1)) ∧
      lookup .pair (without parentAndChild 1 "hello".toList) 1 "hello".toList = some (0,1) ∧
      ¬RemovedOnly .pair parentAndChild 1 "hello".toList
        (removeMethod .pair unguarded parentAndChild 1 "hello".toList) := by
  have hr : (removeMethod .pair unguarded parentAndChild 1 "hello".toList).map
      (fun own => (lookup .pair own 1 "hello".toList,lookup .pair own 0 "hello".toList)) =
      some (none,some (0,1)) := by decide
  have hw : lookup .pair (without parentAndChild 1 "hello".toList) 1 "hello".toList =
      some (0,1) := by decide
  refine ⟨hr,hw,fun h => ?_⟩
  obtain ⟨own,ho,hl⟩ := Option.map_eq_some_iff.mp hr
  have hlo := h.lookups ho 1 (by decide) "hello".toList (by decide)
  rw [Prod.mk.injEq,hlo] at hl
  cases hl.1
end MacRuby.MethodRemoval
