import MacRuby.ClassTree
import MacRuby.Runs
import MacRuby.SortedMap

/-!
# Slots of instance variables

Each class has a table from names to slot numbers. `findIvarSlot` searches the
tables of a class and its superclasses; when the name is in none of them, the new
number is the number of entries of all these tables, and the entry goes into the
table of the class.

That number is fresh along the chain as long as the tables are in layers: the
numbers of a class are exactly the ones that follow the numbers of its
superclasses. A slot created above a class that has slots already destroys them.
-/
namespace MacRuby.IvarSlots
open Runs Function

abbrev ID := ℕ

/-- `ivar_slots`; a class without a table has an empty one. -/
abbrev Tables := ℕ → SortedMap ID ℕ

/-- What `class_can_have_ivar_slots` reads of a class. -/
structure ClassFlags where
  isRubyClass : Bool
  isObjectSubclass : Bool
  isClassOrModule : Bool
deriving DecidableEq, Repr

/-- The classes of a program, with their superclasses and flags. -/
structure Classes where
  tree : ClassTree
  flags : ℕ → ClassFlags

def classCanHaveIvarSlots (C : Classes) (klass : ℕ) : Bool :=
  (C.flags klass).isRubyClass && (C.flags klass).isObjectSubclass &&
    !(C.flags klass).isClassOrModule

/-- The loop of `find_ivar_slot`: the slot found, if any, and the running count
of the entries of the tables that were passed. -/
def scanSlots (tables : Tables) (name : ID) : ℕ → List ℕ → Option ℕ × ℕ
  | slot,[] => (none,slot)
  | slot,k::ks => match (tables k).find name with
      | some i => (some i,slot)
      | none => scanSlots tables name (slot+(tables k).size) ks

/-- `RoxorCore::find_ivar_slot`; no slot stands for `-1`. -/
def findIvarSlot (T : ClassTree) (tables : Tables) (klass : ℕ) (name : ID) (create : Bool) :
    Option ℕ × Tables :=
  match scanSlots tables name 0 (T.chain klass) with
  | (some i,_) => (some i,tables)
  | (none,slot) =>
    if create then
      (some slot,update tables klass ((tables klass).insert name slot))
    else (none,tables)

/-- `rb_vm_prepare_class_ivar_slot` with a slot cache that holds `-1`: the new
content of the cache and the new tables. -/
def prepareClassIvarSlot (C : Classes) (tables : Tables) (klass : ℕ) (name : ID) :
    Option ℕ × Tables :=
  if classCanHaveIvarSlots C klass then findIvarSlot C.tree tables klass name true
  else (none,tables)

/-- `rb_vm_find_class_ivar_slot`. -/
def findClassIvarSlot (C : Classes) (tables : Tables) (klass : ℕ) (name : ID) : Option ℕ :=
  if classCanHaveIvarSlots C klass then (findIvarSlot C.tree tables klass name false).1
  else none

variable (T : ClassTree) (tables : Tables)
variable {klass : ℕ}
variable {name : ID} {k i s c : ℕ}

/-- The slot that `name` has when looked up from a class. -/
def slotFrom (klass : ℕ) (name : ID) : Option ℕ :=
  (T.nearest (fun c => (tables c).find name) klass).map Prod.snd

def total (klass : ℕ) : ℕ := ((T.chain klass).map fun c => (tables c).size).sum

lemma total_root (h : T.superclass k=none) : total T tables k=(tables k).size := by
  simp [total,T.chain_root h]

lemma total_step (h : T.superclass k=some s) :
    total T tables k=(tables k).size+total T tables s := by
  simp [total,T.chain_step h]

lemma total_mono (h : c ∈ T.chain k) : total T tables c ≤ total T tables k := by
  obtain ⟨below,hb,_⟩ := T.chain_split h
  simp [total,hb]

lemma total_add_size_le (h : c ∈ T.chain k) (hn : c ≠ k) :
    total T tables c+(tables k).size ≤ total T tables k := by
  cases hs : T.superclass k with
  | none =>
    rw [T.chain_root hs,List.mem_singleton] at h
    exact (hn h).elim
  | some s =>
    rw [T.chain_step hs] at h
    have hl := total_mono T tables ((List.mem_cons.mp h).resolve_left hn)
    rw [total_step T tables hs]
    omega

lemma slotFrom_eq_none :
    slotFrom T tables klass name=none ↔ ∀ c ∈ T.chain klass, (tables c).find name=none := by
  rw [slotFrom,Option.map_eq_none_iff,T.nearest_eq_none]

lemma slotFrom_own (h : (tables k).find name=some i) : slotFrom T tables k name=some i := by
  rw [slotFrom,T.nearest_own (fun c => (tables c).find name) h]
  rfl

lemma slotFrom_step (h : (tables k).find name=none)
    (hs : T.superclass k=some s) : slotFrom T tables k name=slotFrom T tables s name := by
  rw [slotFrom,slotFrom,T.nearest_step (fun c => (tables c).find name) h hs]

lemma slotFrom_mem (h : slotFrom T tables klass name=some i) :
    ∃ c ∈ T.chain klass, (tables c).find name=some i := by
  obtain ⟨⟨c,j⟩,hc,rfl⟩ := Option.map_eq_some_iff.mp h
  obtain ⟨hm,hf,_⟩ := T.nearest_eq_some.mp hc
  exact ⟨c,hm,hf⟩

lemma scanSlots_chain (name : ID) (n k : ℕ) :
    (scanSlots tables name n (T.chain k)).1=slotFrom T tables k name ∧
      (slotFrom T tables k name=none →
        (scanSlots tables name n (T.chain k)).2=n+total T tables k) := by
  induction k using T.chain_induction generalizing n with
  | root k hs =>
    rw [T.chain_root hs,slotFrom,T.nearest_root _ hs,total_root T tables hs]
    cases h : (tables k).find name <;> simp [scanSlots,h]
  | step k s hs ih =>
    rw [T.chain_step hs,total_step T tables hs]
    cases h : (tables k).find name with
    | some i => simp [scanSlots,h,slotFrom_own T tables h]
    | none =>
      obtain ⟨ih₁,ih₂⟩ := ih (n+(tables k).size)
      simp only [scanSlots,h,slotFrom_step T tables h hs]
      exact ⟨ih₁,fun hn => by rw [ih₂ hn]; omega⟩

lemma findIvarSlot_lookup (klass : ℕ) (name : ID) :
    findIvarSlot T tables klass name false=(slotFrom T tables klass name,tables) := by
  obtain ⟨h₁,-⟩ := scanSlots_chain T tables name 0 klass
  unfold findIvarSlot
  rcases hs : scanSlots tables name 0 (T.chain klass) with ⟨_ | i,slot⟩ <;>
    rw [hs] at h₁ <;> simp [← h₁]

lemma findIvarSlot_of_some (h : slotFrom T tables klass name=some i) (create : Bool) :
    findIvarSlot T tables klass name create=(some i,tables) := by
  obtain ⟨h₁,-⟩ := scanSlots_chain T tables name 0 klass
  unfold findIvarSlot
  rcases hs : scanSlots tables name 0 (T.chain klass) with ⟨_ | j,slot⟩ <;>
    rw [h] at h₁ <;> simp_all

lemma findIvarSlot_of_none  (h : slotFrom T tables klass name=none) :
    findIvarSlot T tables klass name true=(some (total T tables klass),
      update tables klass ((tables klass).insert name (total T tables klass))) := by
  obtain ⟨h₁,h₂⟩ := scanSlots_chain T tables name 0 klass
  have h₃ := h₂ h
  unfold findIvarSlot
  rcases hs : scanSlots tables name 0 (T.chain klass) with ⟨_ | j,slot⟩
  · rw [hs] at h₃
    simp only [zero_add] at h₃
    simp [h₃]
  · rw [hs,h] at h₁
    simp at h₁

/-- The tables of the classes above `C` (and of `C`) are in layers: the numbers
of a class follow those of its superclasses, no number and no name occurs
twice. -/
structure Layered (T : ClassTree) (tables : Tables) (C : ℕ) : Prop where
  range : ∀ k ∈ T.chain C, ∀ x i, (tables k).find x=some i →
    total T tables k ≤ i+(tables k).size ∧ i < total T tables k
  injective : ∀ k ∈ T.chain C, ∀ x y i, (tables k).find x=some i →
    (tables k).find y=some i → x=y
  once : ∀ k ∈ T.chain C, ∀ c ∈ T.chain k, c ≠ k → ∀ x i, (tables k).find x=some i →
    (tables c).find x=none

variable {T : ClassTree} {tables : Tables} {C : ℕ} {k i : ℕ} {x : ID}

lemma layered_empty : Layered T (fun _ => ∅) C where
  range := by simp
  injective := by simp
  once := by simp

lemma Layered.slotFrom_eq (h : Layered T tables C) {c : ℕ} (hk : k ∈ T.chain C)
    (hc : c ∈ T.chain k) (hx : (tables c).find x=some i) : slotFrom T tables k x=some i := by
  have hn : T.nearest (fun c => (tables c).find x) k=some (c,i) := by
    refine T.nearest_eq_some.mpr ⟨hc,hx,?_⟩
    intro d hd hcd hne
    cases hf : (tables d).find x with
    | none => rfl
    | some j =>
      have := h.once d (T.chain_trans hd hk) c hcd (Ne.symm hne) x j hf
      rw [this] at hx
      exact (Option.some_ne_none _ hx.symm).elim
  rw [slotFrom,hn]
  rfl

lemma Layered.slot_lt_total (h : Layered T tables C) (hk : k ∈ T.chain C)
    (hx : slotFrom T tables k x=some i) : i < total T tables k := by
  obtain ⟨c,hc,hf⟩ := slotFrom_mem T tables hx
  exact (h.range c (T.chain_trans hc hk) x i hf).2.trans_le (total_mono T tables hc)

lemma Layered.slotFrom_injective (h : Layered T tables C) (hk : k ∈ T.chain C)
    {y : ID} (hx : slotFrom T tables k x=some i) (hy : slotFrom T tables k y=some i) : x=y := by
  obtain ⟨c,hc,hcx⟩ := slotFrom_mem T tables hx
  obtain ⟨d,hd,hdy⟩ := slotFrom_mem T tables hy
  have rc := h.range c (T.chain_trans hc hk) x i hcx
  have rd := h.range d (T.chain_trans hd hk) y i hdy
  by_cases hcd : c=d
  · subst hcd
    exact h.injective c (T.chain_trans hc hk) x y i hcx hdy
  · -- the layers of two different classes of one chain are disjoint
    rcases T.chain_total hc hd with hcd' | hdc'
    · have := total_add_size_le T tables hcd' hcd
      omega
    · have := total_add_size_le T tables hdc' (Ne.symm hcd)
      omega

def addSlot (tables : Tables) (klass : ℕ) (name : ID) (slot : ℕ) : Tables :=
  update tables klass ((tables klass).insert name slot)

variable {T : ClassTree} {tables : Tables} {k : ℕ} {x : ID} {c : ℕ}

lemma find_addSlot (h : (tables k).find x=none) (i c : ℕ) (y : ID) :
    (addSlot tables k x i c).find y=if c=k ∧ y=x then some i else (tables c).find y := by
  by_cases hc : c=k
  · subst hc
    simp [addSlot,SortedMap.find_insert,h]
  · simp [addSlot,hc]

lemma size_addSlot_self (h : (tables k).find x=none) (i : ℕ) :
    (addSlot tables k x i k).size=(tables k).size+1 := by
  simp [addSlot,SortedMap.size_insert_of_absent i h]

lemma addSlot_of_ne (i : ℕ) (h : c ≠ k) : addSlot tables k x i c=tables c := by
  simp [addSlot,h]

lemma total_addSlot_of_not_mem (i : ℕ) (h : k ∉ T.chain c) :
    total T (addSlot tables k x i) c=total T tables c := by
  unfold total
  have hm : ∀ d ∈ T.chain c, (addSlot tables k x i d).size=(tables d).size := by
    intro d hd
    have hdk : d ≠ k := fun hdk => h (hdk ▸ hd)
    rw [addSlot_of_ne i hdk]
  rw [List.map_congr_left hm]

lemma total_addSlot_self (h : (tables k).find x=none) (i : ℕ) :
    total T (addSlot tables k x i) k=total T tables k+1 := by
  cases hs : T.superclass k with
  | none =>
    rw [total_root T _ hs,total_root T _ hs]
    exact size_addSlot_self h i
  | some s =>
    have hk : k ∉ T.chain s := by
      intro hm
      have hl := T.le_of_mem_chain hm
      have hlt := T.superclass_lt hs
      omega
    rw [total_step T _ hs,total_step T _ hs,size_addSlot_self h,total_addSlot_of_not_mem i hk]
    omega

/-- A slot created in a class keeps the layers of the chain of `C`, provided the
classes of that chain below the class have no slots yet. -/
lemma Layered.addSlot {C : ℕ} (h : Layered T tables C) (hx : slotFrom T tables k x=none)
    (hb : ∀ d ∈ T.chain C, k ∈ T.chain d → d ≠ k → tables d=∅) :
    Layered T (addSlot tables k x (total T tables k)) C := by
  have ha := (slotFrom_eq_none T tables).mp hx
  have hxk : (tables k).find x=none := ha k (T.self_mem_chain k)
  -- an entry of a class other than `k` is in a class that is not below `k`
  have hf : ∀ d ∈ T.chain C, d ≠ k → ∀ y i, (tables d).find y=some i → k ∉ T.chain d := by
    intro d hd hdk y i hy hk
    rw [hb d hd hk hdk] at hy
    exact (Option.some_ne_none i hy.symm).elim
  constructor
  · intro d hd y i hy
    rw [find_addSlot hxk] at hy
    by_cases hdk : d=k
    · subst hdk
      rw [total_addSlot_self hxk,size_addSlot_self hxk]
      split_ifs at hy with hyx
      · have hi : total T tables d=i := Option.some.inj hy
        omega
      · have hr := h.range d hd y i hy
        omega
    · rw [if_neg fun hh => hdk hh.1] at hy
      rw [addSlot_of_ne _ hdk,total_addSlot_of_not_mem _ (hf d hd hdk y i hy)]
      exact h.range d hd y i hy
  · intro d hd y z i hy hz
    rw [find_addSlot hxk] at hy hz
    split_ifs at hy hz with hy' hz' hz'
    · exact hy'.2.trans hz'.2.symm
    · have hi : total T tables k=i := Option.some.inj hy
      have hr := h.range d hd z i hz
      rw [hy'.1] at hr
      omega
    · have hi : total T tables k=i := Option.some.inj hz
      have hr := h.range d hd y i hy
      rw [hz'.1] at hr
      omega
    · exact h.injective d hd y z i hy hz
  · intro d hd c hc hcd y i hy
    rw [find_addSlot hxk] at hy ⊢
    split_ifs at hy with hy'
    · rw [hy'.1] at hc hcd
      rw [if_neg fun hh => hcd hh.1,hy'.2]
      exact ha c hc
    · have hn : ¬(c=k ∧ y=x) := by
        rintro ⟨rfl,rfl⟩
        exact hf d hd (Ne.symm hcd) y i hy hc
      rw [if_neg hn]
      exact h.once d hd c hc hcd y i hy

/-- One call of `rb_vm_prepare_class_ivar_slot`. -/
structure Prepare where
  klass : ℕ
  name : ID
deriving DecidableEq, Repr

def prepare (C : Classes) (tables : Tables) (a : Prepare) : Tables :=
  (prepareClassIvarSlot C tables a.klass a.name).2

def Creates (C : Classes) (tables : Tables) (a : Prepare) : Prop :=
  classCanHaveIvarSlots C a.klass=true ∧ slotFrom C.tree tables a.klass a.name=none

instance (C : Classes) (tables : Tables) (a : Prepare) : Decidable (Creates C tables a) :=
  inferInstanceAs (Decidable (_ ∧ _))

variable {C : Classes} {tables : Tables} {a : Prepare}

lemma prepareClassIvarSlot_of_creates (h : Creates C tables a) :
    prepareClassIvarSlot C tables a.klass a.name=(some (total C.tree tables a.klass),
      addSlot tables a.klass a.name (total C.tree tables a.klass)) := by
  rw [prepareClassIvarSlot,if_pos h.1,findIvarSlot_of_none C.tree tables h.2]
  rfl

lemma prepareClassIvarSlot_of_not_creates (h : ¬Creates C tables a) :
    prepareClassIvarSlot C tables a.klass a.name =
      (findClassIvarSlot C tables a.klass a.name,tables) := by
  unfold prepareClassIvarSlot findClassIvarSlot
  split_ifs with hc
  · cases hs : slotFrom C.tree tables a.klass a.name with
    | none => exact (h ⟨hc,hs⟩).elim
    | some i => simp only [findIvarSlot_of_some C.tree tables hs]
  · rfl

lemma prepare_of_creates (h : Creates C tables a) :
    prepare C tables a=addSlot tables a.klass a.name (total C.tree tables a.klass) := by
  rw [prepare,prepareClassIvarSlot_of_creates h]

lemma prepare_of_not_creates (h : ¬Creates C tables a) : prepare C tables a=tables := by
  rw [prepare,prepareClassIvarSlot_of_not_creates h]

lemma find_prepare_of_some (a : Prepare) {c : ℕ} {x : ID} {i : ℕ}
    (h : (tables c).find x=some i) : (prepare C tables a c).find x=some i := by
  by_cases hc : Creates C tables a
  · have hn := (slotFrom_eq_none C.tree tables).mp hc.2 a.klass (C.tree.self_mem_chain _)
    rw [prepare_of_creates hc,find_addSlot hn,if_neg]
    · exact h
    · rintro ⟨rfl,rfl⟩
      rw [hn] at h
      exact Option.some_ne_none i h.symm
  · rw [prepare_of_not_creates hc]
    exact h

/-- A new slot is made only in a class whose proper subclasses have no slots. -/
def NoSlotsBelow (C : Classes) (tables : Tables) (a : Prepare) : Prop :=
  Creates C tables a → ∀ d, C.tree.ProperlyBelow a.klass d → tables d=∅

/-- Looked up from one class, different names have different slots. -/
def SlotsDistinct (T : ClassTree) (tables : Tables) : Prop :=
  ∀ k x y i, (findIvarSlot T tables k x false).1=some i →
    (findIvarSlot T tables k y false).1=some i → x=y

/-- A name that has a slot when looked up from a class has the same slot later,
from that class and from its subclasses. -/
def SlotsKept (T : ClassTree) (tables tables' : Tables) : Prop :=
  ∀ k x i, (findIvarSlot T tables k x false).1=some i →
    ∀ d, k ∈ T.chain d → (findIvarSlot T tables' d x false).1=some i

lemma layered_prepare {C : Classes} {tables : Tables} {a : Prepare}
    (h : ∀ k, Layered C.tree tables k) (ha : NoSlotsBelow C tables a) (k : ℕ) :
    Layered C.tree (prepare C tables a) k := by
  by_cases hc : Creates C tables a
  · rw [prepare_of_creates hc]
    exact (h k).addSlot hc.2 fun d _ hd hn => ha hc d ⟨hd,hn⟩
  · rw [prepare_of_not_creates hc]
    exact h k

lemma layered_run {C : Classes} {tables : Tables} {as : List Prepare}
    (h : ∀ k, Layered C.tree tables k) (has : Along (prepare C) (NoSlotsBelow C) tables as) (k : ℕ) :
    Layered C.tree (run (prepare C) tables as) k :=
  run_invariant (I := fun t => ∀ k, Layered C.tree t k)
    (fun _ _ hs ha => layered_prepare hs ha) h has k

lemma find_run_of_some {C : Classes} {tables : Tables} (as : List Prepare) {c : ℕ} {x : ID} {i : ℕ}
    (h : (tables c).find x=some i) : ((run (prepare C) tables as) c).find x=some i := by
  induction as generalizing tables with
  | nil => exact h
  | cons a as ih => exact ih (find_prepare_of_some a h)

lemma Layered.slotsDistinct {T : ClassTree} {tables : Tables} (h : ∀ k, Layered T tables k) :
    SlotsDistinct T tables := by
  intro k x y i hx hy
  rw [findIvarSlot_lookup] at hx hy
  exact (h k).slotFrom_injective (T.self_mem_chain k) hx hy

/-- Slots never collide and never move, in every history in which no class gets
a slot after one of its subclasses did. -/
theorem slots_distinct_and_kept (C : Classes) (as bs : List Prepare)
    (h : Along (prepare C) (NoSlotsBelow C) (fun _ => ∅) (as++bs)) :
    SlotsDistinct C.tree (run (prepare C) (fun _ => ∅) as) ∧
      SlotsKept C.tree (run (prepare C) (fun _ => ∅) as)
        (run (prepare C) (fun _ => ∅) (as++bs)) := by
  have hf := (along_append _ _ _ as bs).mp h
  have he : ∀ k, Layered C.tree (fun _ => ∅) k := fun _ => layered_empty
  constructor
  · exact Layered.slotsDistinct (layered_run he hf.1)
  · intro k x i hx d hd
    rw [findIvarSlot_lookup] at hx ⊢
    obtain ⟨c,hc,hfi⟩ := slotFrom_mem C.tree _ hx
    have hl := find_run_of_some (C := C) bs hfi
    rw [← run_append] at hl
    exact (layered_run he h d).slotFrom_eq (C.tree.self_mem_chain d) (C.tree.chain_trans hc hd) hl

/-- Two classes that can have slots, class `1` below class `0`. -/
def oneSubclass : Classes where
  tree := .pair
  flags := fun _ => ⟨true,true,false⟩

theorem superclass_slots_kept_in_subclass :
    Along (prepare oneSubclass) (NoSlotsBelow oneSubclass) (fun _ => ∅) ([⟨0,7⟩]++[⟨1,8⟩]) ∧
      SlotsKept oneSubclass.tree (run (prepare oneSubclass) (fun _ => ∅) [⟨0,7⟩])
        (run (prepare oneSubclass) (fun _ => ∅) ([⟨0,7⟩]++[⟨1,8⟩])) := by
  have hg : Along (prepare oneSubclass) (NoSlotsBelow oneSubclass) (fun _ => ∅)
      ([⟨0,7⟩]++[⟨1,8⟩]) := by
    refine ⟨fun _ _ _ => rfl,?_,trivial⟩
    intro _ d hd
    have hl : 1 < d := lt_of_le_of_ne (oneSubclass.tree.le_of_mem_chain hd.1) (Ne.symm hd.2)
    have hd0 : d ≠ 0 := by omega
    rw [prepare_of_creates (by decide)]
    exact addSlot_of_ne _ hd0
  exact ⟨hg,(slots_distinct_and_kept oneSubclass [⟨0,7⟩] [⟨1,8⟩] hg).2⟩

/-- A name prepared in a subclass and then another one in its superclass: both
get slot `0`. -/
theorem superclass_slot_collides : ¬SlotsDistinct oneSubclass.tree
      (run (prepare oneSubclass) (fun _ => ∅) [⟨1,7⟩,⟨0,8⟩]) := by
  intro h
  exact absurd (h 1 7 8 0 (by decide) (by decide)) (by decide)

end MacRuby.IvarSlots
