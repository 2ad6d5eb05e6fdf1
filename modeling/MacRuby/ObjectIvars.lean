import MacRuby.IvarSlots

/-!
# Instance variables of one object

The value of a name is kept in a numbered slot of the object or in its table. Code
compiled in a class carries the slot that was prepared for the name; the general
functions look the slot up first and fall back to the table. Both together behave
as one finite map when each slot number that a class of the object gets is one of
an unused name, has room in the object, and respects the layers of the slot tables.

An object is allocated with every slot undefined, so the histories below begin with
the allocation. Slots and tables hold `none` for `Qundef`.
-/
namespace MacRuby.ObjectIvars
open Runs IvarSlots Function List Option SortedMap

variable {V : Type*}

/-- The fields of `struct RObject` and the object flags that are read here;
`num_slots` is the length of `slots`, and no table is an empty one. -/
structure RObject (V : Type*) where
  slots : List (Option V)
  tbl : SortedMap ID V
  tainted : Bool
  frozen : Bool

def robjectAllocateInstance (tainted frozen : Bool) : RObject V :=
  ⟨List.replicate 10 none,∅,tainted,frozen⟩

/-- `rb_vm_get_ivar_from_slot`: a slot that the object does not have reads as `nil`. -/
def getIvarFromSlot (nil : V) (obj : RObject V) (slot : ℕ) : Option V :=
  if slot ≥ obj.slots.length then some nil else obj.slots.getD slot none

/-- `rb_vm_regrow_robject_slots`. The cell after the old slots is copied too,
though it is not part of them, and the last new cell is not initialised: both
hold whatever the memory holds. -/
def regrowRobjectSlots (memory : ℕ → Option V) (slots : List (Option V)) (newNumSlot : ℕ) :
    List (Option V) :=
  (List.range (newNumSlot+1)).map fun i =>
    if i < slots.length then slots.getD i none
    else if i=slots.length ∨ i=newNumSlot then memory i
    else none

/-- `rb_vm_set_ivar_from_slot`. -/
def setIvarFromSlot (memory : ℕ → Option V) (obj : RObject V) (val : V) (slot : ℕ) : RObject V :=
  let slots :=
    if slot ≥ obj.slots.length then regrowRobjectSlots memory obj.slots slot else obj.slots
  {obj with slots := slots.set slot (some val)}

/-- The cells of the old slots that `rb_vm_set_ivar_from_slot` reads, and the cells of
the slots it leaves that it writes: the copy runs up to `num_slots`, the filling from
there to the new slot, which is stored last. -/
def touched (numSlots slot : ℕ) : List ℕ × List ℕ :=
  if slot ≥ numSlots then
    (List.range (numSlots+1),
      List.range (numSlots+1)++List.range' (numSlots+1) (slot-(numSlots+1))++[slot])
  else ([],[slot])

/-- The store keeps the other slots, leaves new ones undefined, and stays inside. -/
structure KeepsOthers (memory : ℕ → Option V) (obj : RObject V) (val : V) (slot : ℕ) : Prop where
  stored : (setIvarFromSlot memory obj val slot).slots[slot]?=some (some val)
  kept : ∀ i < obj.slots.length, i≠slot →
    (setIvarFromSlot memory obj val slot).slots[i]?=obj.slots[i]?
  fresh : ∀ i < (setIvarFromSlot memory obj val slot).slots.length, obj.slots.length ≤ i → i≠slot →
    (setIvarFromSlot memory obj val slot).slots[i]?=some none
  reads : ∀ i ∈ (touched obj.slots.length slot).1, i < obj.slots.length
  writes : ∀ i ∈ (touched obj.slots.length slot).2,
    i < (setIvarFromSlot memory obj val slot).slots.length

inductive IvarError
  | security
  | frozen
deriving DecidableEq, Repr

def IvarError.message : IvarError → String
  | .security => "Insecure: can't modify instance variable"
  | .frozen => "can't modify frozen object"

variable (C : Classes) (klass : ℕ) (nil : V) (memory : ℕ → Option V)

/-- The part of `ivar_get` after the slots: the table, or `nil`. -/
def tblGet (obj : RObject V) (name : ID) : V := (obj.tbl.find name).getD nil

/-- `rb_ivar_get` of an object of class `klass`. -/
def rbIvarGet (tables : Tables) (obj : RObject V) (name : ID) : V :=
  match findClassIvarSlot C tables klass name with
  | some slot => match getIvarFromSlot nil obj slot with
      | some val => val
      | none => tblGet nil obj name
  | none => tblGet nil obj name

def rbIvarSet (safeLevel : ℕ) (tables : Tables) (obj : RObject V) (name : ID) (val : V) :
    Except IvarError (RObject V) :=
  if !obj.tainted && decide (safeLevel ≥ 4) then .error .security
  else if obj.frozen then .error .frozen
  else match findClassIvarSlot C tables klass name with
    | some slot => .ok (setIvarFromSlot memory obj val slot)
    | none => .ok {obj with tbl := obj.tbl.assign name val}

def rbIvarDefined (tables : Tables) (obj : RObject V) (name : ID) : Bool :=
  match findClassIvarSlot C tables klass name with
  | some slot => (getIvarFromSlot nil obj slot).isSome || (obj.tbl.find name).isSome
  | none => (obj.tbl.find name).isSome

/-- The entries of the slot tables of a class and its superclasses, in the order
in which `each_ivar_slot` meets them. -/
def slotEntries (T : ClassTree) (tables : Tables) (klass : ℕ) : List (ID × ℕ) :=
  (T.chain klass).flatMap fun k => (tables k).entries

/-- `RoxorCore::each_ivar_slot`, as the list of the calls it makes. -/
def eachIvarSlot (tables : Tables) (obj : RObject V) : List (ID × V) :=
  (slotEntries C.tree tables klass).filterMap fun e =>
    (getIvarFromSlot nil obj e.2).map (e.1,·)

/-- `rb_ivar_foreach`, as the list of the calls it makes. -/
def rbIvarForeach (tables : Tables) (obj : RObject V) : List (ID × V) :=
  eachIvarSlot C klass nil tables obj++obj.tbl.entries

/-- `rb_vm_ivar_get`, with the content of the slot cache. -/
def rbVmIvarGet (tables : Tables) (obj : RObject V) (name : ID) (slotCache : Option ℕ) : V :=
  match slotCache with
  | none => rbIvarGet C klass nil tables obj name
  | some slot => (getIvarFromSlot nil obj slot).getD nil

/-- `rb_vm_ivar_set`; with a slot there is no check of the object. -/
def rbVmIvarSet (safeLevel : ℕ) (tables : Tables) (obj : RObject V) (name : ID) (val : V)
    (slotCache : Option ℕ) : Except IvarError (RObject V) :=
  match slotCache with
  | none => rbIvarSet C klass memory safeLevel tables obj name val
  | some slot => .ok (setIvarFromSlot memory obj val slot)

/-- The slot tables, the slot caches of compiled code (one for each class and
name) and the object. -/
structure World (V : Type*) where
  tables : Tables
  caches : ℕ → ID → Option ℕ
  obj : RObject V

/-- What can happen to the variables of an object of class `klass`. Compiled code
that accesses a variable of the object belongs to one of its classes. -/
inductive Op (T : ClassTree) (klass : ℕ) (V : Type*)
  | prepare (k : ℕ) (name : ID)
  | slotSet (k : ℕ) (hk : k ∈ T.chain klass) (name : ID) (val : V)
  | set (name : ID) (val : V)

variable (C : Classes) (klass : ℕ) (nil : V) (memory : ℕ → Option V) (safeLevel : ℕ)

/-- The state and the map of what was written so far, under which names. -/
abbrev Tracked (V : Type*) := World V × (ID → Option V)

/-- The result of a write; a write that raises leaves both as they were. -/
def write (s : Tracked V) (name : ID) (val : V) : Except IvarError (RObject V) → Tracked V
  | .ok obj => ({s.1 with obj := obj},update s.2 name (some val))
  | .error _ => s

def step (s : Tracked V) : Op C.tree klass V → Tracked V
  | .prepare k name =>
    let r := prepareClassIvarSlot C s.1.tables k name
    ({s.1 with
      tables := r.2
      caches := update s.1.caches k (update (s.1.caches k) name r.1)},s.2)
  | .slotSet k _ name val =>
    write s name val (rbVmIvarSet C klass memory safeLevel s.1.tables s.1.obj name val
      (s.1.caches k name))
  | .set name val => write s name val (rbIvarSet C klass memory safeLevel s.1.tables s.1.obj name val)

def start (tainted frozen : Bool) : Tracked V :=
  (⟨fun _ => ∅,fun _ _ => none,robjectAllocateInstance tainted frozen⟩,fun _ => none)

/-- Every reader sees the finite map `m`. -/
structure ActsAs (w : World V) (m : ID → Option V) : Prop where
  get : ∀ x, rbIvarGet C klass nil w.tables w.obj x=(m x).getD nil
  slotGet : ∀ k ∈ C.tree.chain klass, ∀ x,
    rbVmIvarGet C klass nil w.tables w.obj x (w.caches k x)=(m x).getD nil
  defined : ∀ x, rbIvarDefined C klass nil w.tables w.obj x=(m x).isSome
  foreachOnce : ((rbIvarForeach C klass nil w.tables w.obj).map Prod.fst).Nodup
  foreachVisits : ∀ x v, (x,v) ∈ rbIvarForeach C klass nil w.tables w.obj ↔ m x=some v

/-- A slot made for a class of the object is for a name that the table of the
object does not hold, has a number that the object has room for, and is made
before the subclasses of that class among the object's classes get slots. -/
def FreshSlot (s : Tracked V) : Op C.tree klass V → Prop
  | .prepare k name =>
    Creates C s.1.tables ⟨k,name⟩ → k ∈ C.tree.chain klass →
      s.1.obj.tbl.find name=none ∧ total C.tree s.1.tables k < s.1.obj.slots.length ∧
        ∀ d ∈ C.tree.chain klass, k ∈ C.tree.chain d → d ≠ k → s.1.tables d=∅
  | _ => True

instance (s : Tracked V) (op : Op C.tree klass V) : Decidable (FreshSlot C klass s op) := by
  cases op <;> unfold FreshSlot <;> infer_instance

variable {klass} {T : ClassTree} {tables : Tables} {k : ℕ} {x : ID}

lemma slotFrom_addSlot_of_not_mem (hk : k ∉ T.chain klass) (i : ℕ) (y : ID) :
    slotFrom T (addSlot tables k x i) klass y=slotFrom T tables klass y := by
  have hs : ∀ c ∈ T.chain klass, (addSlot tables k x i c).find y=(tables c).find y := by
    intro c hc
    have hck : c ≠ k := fun hck => hk (hck ▸ hc)
    rw [addSlot_of_ne i hck]
  rw [slotFrom,slotFrom,T.nearest_congr hs]

lemma slotFrom_addSlot (h : Layered T (addSlot tables k x (total T tables k)) klass)
    (hk : k ∈ T.chain klass) (hx : (tables k).find x=none) {y : ID} :
    slotFrom T (addSlot tables k x (total T tables k)) klass y =
      if y=x then some (total T tables k) else slotFrom T tables klass y := by
  have hse := T.self_mem_chain klass
  split_ifs with hy
  · subst hy
    apply h.slotFrom_eq hse hk
    rw [find_addSlot hx,if_pos ⟨rfl,rfl⟩]
  · have hs : ∀ c ∈ T.chain klass,
        (addSlot tables k x (total T tables k) c).find y=(tables c).find y := by
      intro c _
      rw [find_addSlot hx,if_neg fun hh => hy hh.2]
    rw [slotFrom,slotFrom,T.nearest_congr hs]

lemma mem_slotEntries (h : Layered T tables klass) {i : ℕ} :
    (x,i) ∈ slotEntries T tables klass ↔ slotFrom T tables klass x=some i := by
  unfold slotEntries
  rw [mem_flatMap]
  constructor
  · intro hm
    obtain ⟨c,hc,hx⟩ := hm
    exact h.slotFrom_eq (T.self_mem_chain klass) hc (find_eq_some.mpr hx)
  · intro hs
    obtain ⟨c,hc,hf⟩ := slotFrom_mem T tables hs
    exact ⟨c,hc,find_eq_some.mp hf⟩

lemma nodup_slotEntries (h : Layered T tables klass) :
    ((slotEntries T tables klass).map Prod.fst).Nodup := by
  unfold slotEntries
  rw [map_flatMap,nodup_flatMap]
  refine ⟨fun c _ => (tables c).nodup_keys,?_⟩
  have hdi : ∀ c ∈ T.chain klass, ∀ d ∈ T.chain klass, c ≠ d → ∀ y i j,
      (tables c).find y=some i → (tables d).find y=some j → False := by
    intro c hc d hd hn y i j hi hj
    rcases T.chain_total hc hd with hcd | hdc
    · rw [h.once d hd c hcd hn y j hj] at hi
      exact some_ne_none i hi.symm
    · rw [h.once c hc d hdc (Ne.symm hn) y i hi] at hj
      exact some_ne_none j hj.symm
  apply (T.chain_nodup klass).pairwise_of_forall_ne
  intro c hc d hd hn y hy hyd
  obtain ⟨⟨_,i⟩,hi,rfl⟩ := mem_map.mp hy
  obtain ⟨⟨_,j⟩,hj,hyj⟩ := mem_map.mp hyd
  subst hyj
  exact hdi c hc d hd hn _ i j (find_eq_some.mpr hi) (find_eq_some.mpr hj)

variable (klass) {i : ℕ} {obj : RObject V}

/-- The map `m` is what the slots and the table of the object hold together:
the slots for the names that have one, the table for the others. -/
structure Holds (w : World V) (m : ID → Option V) : Prop where
  layered : Layered C.tree w.tables klass
  fits : ∀ x i, slotFrom C.tree w.tables klass x=some i → i < w.obj.slots.length
  tblOnly : ∀ x i, slotFrom C.tree w.tables klass x=some i → w.obj.tbl.find x=none
  cached : ∀ k ∈ C.tree.chain klass, ∀ x i, w.caches k x=some i →
    slotFrom C.tree w.tables klass x=some i
  unused : ∀ i, (∀ x, slotFrom C.tree w.tables klass x ≠ some i) → w.obj.slots.getD i none=none
  bySlot : ∀ x i, slotFrom C.tree w.tables klass x=some i → m x=w.obj.slots.getD i none
  byTable : ∀ x, slotFrom C.tree w.tables klass x=none → m x=w.obj.tbl.find x

lemma holds_start (tainted frozen : Bool) :
    Holds C klass (start tainted frozen : Tracked V).1 (start tainted frozen : Tracked V).2 := by
  have hn : ∀ x, slotFrom C.tree (fun _ => ∅) klass x=none :=
    fun x => (slotFrom_eq_none C.tree _).mpr fun _ _ => rfl
  constructor
  · exact layered_empty
  · intro x i hx
    exact absurd hx (by simp [start,hn x])
  · intro x i hx
    exact absurd hx (by simp [start,hn x])
  · intro k _ x i hx
    exact absurd hx (by simp [start])
  · intro i _
    simp only [start,robjectAllocateInstance,getD_eq_getElem?_getD,getElem?_replicate]
    split_ifs <;> rfl
  · intro x i hx
    exact absurd hx (by simp [start,hn x])
  · intro x _
    rfl

variable {C klass}

lemma getIvarFromSlot_of_lt (h : i < obj.slots.length) (nil : V) :
    getIvarFromSlot nil obj i=obj.slots.getD i none := by
  rw [getIvarFromSlot,if_neg (by omega)]

lemma setIvarFromSlot_of_lt (h : i < obj.slots.length) (memory : ℕ → Option V) (v : V) :
    setIvarFromSlot memory obj v i={obj with slots := obj.slots.set i (some v)} := by
  rw [setIvarFromSlot,if_neg (by omega)]

lemma getD_set {l : List (Option V)} (h : i < l.length) (a : Option V) (j : ℕ) :
    (l.set i a).getD j none=if j=i then a else l.getD j none := by
  simp only [getD_eq_getElem?_getD,getElem?_set]
  split_ifs with h₁ h₂ h₃ <;> first | rfl | omega

variable {w : World V} {m : ID → Option V} {x : ID} {k : ℕ}

lemma Holds.writeSlot (h : Holds C klass w m) {i : ℕ}
    (hx : slotFrom C.tree w.tables klass x=some i) (v : V) (memory : ℕ → Option V) :
    Holds C klass {w with obj := setIvarFromSlot memory w.obj v i} (update m x (some v)) := by
  have hi := h.fits x i hx
  rw [setIvarFromSlot_of_lt hi]
  constructor
  · exact h.layered
  · intro y j hy
    rw [length_set]
    exact h.fits y j hy
  · exact h.tblOnly
  · exact h.cached
  · intro j hj
    have hji : j ≠ i := fun hji => hj x (hji ▸ hx)
    rw [getD_set hi,if_neg hji]
    exact h.unused j hj
  · intro y j hy
    rw [getD_set hi]
    by_cases hyx : y=x
    · subst hyx
      have hji : j=i := some.inj (hy.symm.trans hx)
      rw [if_pos hji,update_self]
    · have hji : j ≠ i := by
        intro hji
        subst hji
        exact hyx (h.layered.slotFrom_injective (C.tree.self_mem_chain klass) hy hx)
      rw [if_neg hji,update_of_ne hyx]
      exact h.bySlot y j hy
  · intro y hy
    have hyx : y ≠ x := by
      rintro rfl
      exact some_ne_none i (hx.symm.trans hy)
    rw [update_of_ne hyx]
    exact h.byTable y hy

lemma Holds.writeTable (h : Holds C klass w m)
    (hx : slotFrom C.tree w.tables klass x=none) (v : V) :
    Holds C klass {w with obj := {w.obj with tbl := w.obj.tbl.assign x v}}
      (update m x (some v)) := by
  have ho : ∀ y i, slotFrom C.tree w.tables klass y=some i → y ≠ x := by
    rintro y i hy rfl
    exact some_ne_none i (hy.symm.trans hx)
  constructor
  · exact h.layered
  · exact h.fits
  · intro y i hy
    rw [find_assign,if_neg (ho y i hy)]
    exact h.tblOnly y i hy
  · exact h.cached
  · exact h.unused
  · intro y i hy
    rw [update_of_ne (ho y i hy)]
    exact h.bySlot y i hy
  · intro y hy
    rw [find_assign]
    split_ifs with hyx
    · rw [hyx,update_self]
    · rw [update_of_ne hyx]
      exact h.byTable y hy

lemma Holds.newSlot (h : Holds C klass w m) (hk : k ∈ C.tree.chain klass)
    (hcr : slotFrom C.tree w.tables k x=none) (ht : w.obj.tbl.find x=none)
    (hr : total C.tree w.tables k < w.obj.slots.length)
    (hb : ∀ d ∈ C.tree.chain klass, k ∈ C.tree.chain d → d ≠ k → w.tables d=∅) :
    Holds C klass {w with tables := addSlot w.tables k x (total C.tree w.tables k)} m := by
  have hl := h.layered.addSlot hcr hb
  have ha := (slotFrom_eq_none C.tree w.tables).mp hcr
  have hs := fun y => slotFrom_addSlot hl hk (ha k (C.tree.self_mem_chain k)) (y := y)
  -- a class of the object is above `k` or has no slots
  have hsi : ∀ c ∈ C.tree.chain klass, c ∈ C.tree.chain k ∨ w.tables c=∅ := by
    intro c hc
    rcases C.tree.chain_total hc hk with hck | hkc
    · exact .inl hck
    · by_cases hn : c=k
      · exact .inl (hn ▸ C.tree.self_mem_chain c)
      · exact .inr (hb c hc hkc hn)
  have hx : slotFrom C.tree w.tables klass x=none := by
    apply (slotFrom_eq_none C.tree w.tables).mpr
    intro c hc
    rcases hsi c hc with hck | he
    · exact ha c hck
    · rw [he]
      rfl
  have hnew : ∀ y, slotFrom C.tree w.tables klass y ≠ some (total C.tree w.tables k) := by
    intro y hy
    obtain ⟨c,hc,hf⟩ := slotFrom_mem C.tree _ hy
    have hck : c ∈ C.tree.chain k := by
      apply (hsi c hc).resolve_right
      intro he
      rw [he] at hf
      exact absurd hf (by simp)
    have hlt := h.layered.slot_lt_total hk (h.layered.slotFrom_eq hk hck hf)
    omega
  constructor
  · exact hl
  · intro y i hy
    rw [hs] at hy
    split_ifs at hy with hyx
    · have hi := some.inj hy
      dsimp only
      omega
    · exact h.fits y i hy
  · intro y i hy
    rw [hs] at hy
    split_ifs at hy with hyx
    · rw [hyx]
      exact ht
    · exact h.tblOnly y i hy
  · intro j hj y i hy
    have hold := h.cached j hj y i hy
    have hyx : y ≠ x := by
      rintro rfl
      exact some_ne_none i (hold.symm.trans hx)
    rw [hs,if_neg hyx]
    exact hold
  · intro i hi
    apply h.unused
    intro y hy
    have hyx : y ≠ x := by
      rintro rfl
      exact some_ne_none i (hy.symm.trans hx)
    exact hi y (by rw [hs,if_neg hyx]; exact hy)
  · intro y i hy
    rw [hs] at hy
    split_ifs at hy with hyx
    · have hi := some.inj hy
      subst hi
      rw [h.unused _ hnew,hyx,h.byTable x hx]
      exact ht
    · exact h.bySlot y i hy
  · intro y hy
    rw [hs] at hy
    split_ifs at hy with hyx
    exact h.byTable y hy

lemma Holds.otherSlot (h : Holds C klass w m) (hk : k ∉ C.tree.chain klass)
    (hc : slotFrom C.tree w.tables k x=none) :
    Holds C klass {w with tables := addSlot w.tables k x (total C.tree w.tables k)} m := by
  have hs : ∀ y, slotFrom C.tree (addSlot w.tables k x (total C.tree w.tables k)) klass y =
      slotFrom C.tree w.tables klass y := slotFrom_addSlot_of_not_mem hk _
  constructor
  · apply h.layered.addSlot hc
    intro d hd hkd
    exact (hk (C.tree.chain_trans hkd hd)).elim
  all_goals simp only [hs]
  · exact h.fits
  · exact h.tblOnly
  · exact h.cached
  · exact h.unused
  · exact h.bySlot
  · exact h.byTable

lemma Holds.fillCache (h : Holds C klass w m) {r : Option ℕ}
    (hr : k ∈ C.tree.chain klass → ∀ i, r=some i → slotFrom C.tree w.tables klass x=some i) :
    Holds C klass {w with caches := update w.caches k (update (w.caches k) x r)} m := by
  refine ⟨h.layered,h.fits,h.tblOnly,?_,h.unused,h.bySlot,h.byTable⟩
  intro j hj y i hy
  dsimp only at hy
  by_cases hjk : j=k
  · subst hjk
    rw [update_self] at hy
    by_cases hyx : y=x
    · subst hyx
      rw [update_self] at hy
      exact hr hj i hy
    · rw [update_of_ne hyx] at hy
      exact h.cached j hj y i hy
  · rw [update_of_ne hjk] at hy
    exact h.cached j hj y i hy

lemma findClassIvarSlot_eq (hcan : classCanHaveIvarSlots C klass=true) (tables : Tables)
    (x : ID) : findClassIvarSlot C tables klass x=slotFrom C.tree tables klass x := by
  rw [findClassIvarSlot,if_pos hcan,findIvarSlot_lookup]

variable (hcan : classCanHaveIvarSlots C klass=true)
variable {memory : ℕ → Option V} {safeLevel : ℕ} {s : Tracked V}

lemma Holds.prepare (h : Holds C klass s.1 s.2) {k : ℕ} {x : ID}
    (hg : FreshSlot C klass s (.prepare k x)) :
    Holds C klass (step C klass memory safeLevel s (.prepare k x)).1 s.2 := by
  simp only [step]
  by_cases hcr : Creates C s.1.tables ⟨k,x⟩
  · have hp := prepareClassIvarSlot_of_creates hcr
    rw [hp]
    have hm : Holds C klass
        {s.1 with tables := addSlot s.1.tables k x (total C.tree s.1.tables k)} s.2 := by
      by_cases hk : k ∈ C.tree.chain klass
      · obtain ⟨ht,hr,hb⟩ := hg hcr hk
        exact h.newSlot hk hcr.2 ht hr hb
      · exact h.otherSlot hk hcr.2
    apply hm.fillCache
    intro hk i hi
    have hx := (slotFrom_eq_none C.tree s.1.tables).mp hcr.2 k (C.tree.self_mem_chain k)
    rw [slotFrom_addSlot hm.layered hk hx,if_pos rfl]
    exact hi
  · have hp := prepareClassIvarSlot_of_not_creates hcr
    rw [hp]
    apply h.fillCache
    intro hk i hi
    rw [findClassIvarSlot] at hi
    split_ifs at hi
    rw [findIvarSlot_lookup] at hi
    obtain ⟨c,hc,hf⟩ := slotFrom_mem C.tree s.1.tables hi
    exact h.layered.slotFrom_eq (C.tree.self_mem_chain klass) (C.tree.chain_trans hc hk) hf

include hcan in
lemma Holds.rbIvarSet (h : Holds C klass s.1 s.2) (x : ID) (v : V) : Holds C klass
      (write s x v (rbIvarSet C klass memory safeLevel s.1.tables s.1.obj x v)).1
      (write s x v (rbIvarSet C klass memory safeLevel s.1.tables s.1.obj x v)).2 := by
  unfold ObjectIvars.rbIvarSet
  rw [findClassIvarSlot_eq hcan]
  split_ifs
  · exact h
  · exact h
  · cases hx : slotFrom C.tree s.1.tables klass x with
    | none => exact h.writeTable hx v
    | some i => exact h.writeSlot hx v memory

include hcan in
lemma holds_step (h : Holds C klass s.1 s.2) (op : Op C.tree klass V)
    (hg : FreshSlot C klass s op) :
    Holds C klass (step C klass memory safeLevel s op).1 (step C klass memory safeLevel s op).2 := by
  cases op with
  | prepare k x => exact h.prepare hg
  | slotSet k hk x v =>
    simp only [step]
    cases hc : s.1.caches k x with
    | none => exact h.rbIvarSet hcan x v
    | some i => exact h.writeSlot (h.cached k hk x i hc) v memory
  | set x v => exact h.rbIvarSet hcan x v

variable {w : World V} {m : ID → Option V} (nil : V)

include hcan in
lemma Holds.rbIvarGet_eq (h : Holds C klass w m) (x : ID) :
    rbIvarGet C klass nil w.tables w.obj x=(m x).getD nil := by
  unfold rbIvarGet tblGet
  rw [findClassIvarSlot_eq hcan]
  cases hx : slotFrom C.tree w.tables klass x with
  | none => simp only [h.byTable x hx]
  | some i =>
    simp only [getIvarFromSlot_of_lt (h.fits x i hx),h.bySlot x i hx]
    cases w.obj.slots.getD i none with
    | none => simp [h.tblOnly x i hx]
    | some v => rfl

/-- The list of visited slots has each name once, since it is a part of the list
of all the names with a slot. -/
lemma names_eachIvarSlot (tables : Tables) (obj : RObject V) :
    ((eachIvarSlot C klass nil tables obj).map Prod.fst).Sublist
      ((slotEntries C.tree tables klass).map Prod.fst) := by
  unfold eachIvarSlot
  induction slotEntries C.tree tables klass with
  | nil => exact Sublist.refl _
  | cons e es ih =>
    cases he : getIvarFromSlot nil obj e.2 with
    | none =>
      simp only [filterMap_cons,he]
      exact ih.cons e.1
    | some v =>
      simp only [filterMap_cons,he]
      exact ih.cons_cons e.1

lemma Holds.mem_eachIvarSlot (h : Holds C klass w m) {x : ID} {v : V} :
    (x,v) ∈ eachIvarSlot C klass nil w.tables w.obj ↔
      slotFrom C.tree w.tables klass x ≠ none ∧ m x=some v := by
  unfold eachIvarSlot
  rw [mem_filterMap]
  constructor
  · rintro ⟨⟨y,i⟩,hm,hv⟩
    have hy := (mem_slotEntries h.layered).mp hm
    rw [getIvarFromSlot_of_lt (h.fits y i hy),← h.bySlot y i hy] at hv
    obtain ⟨u,hu,he⟩ := map_eq_some_iff.mp hv
    obtain ⟨rfl,rfl⟩ := Prod.mk.inj he
    exact ⟨by simp [hy],hu⟩
  · rintro ⟨hs,hv⟩
    obtain ⟨i,hi⟩ := ne_none_iff_exists'.mp hs
    refine ⟨(x,i),(mem_slotEntries h.layered).mpr hi,?_⟩
    rw [getIvarFromSlot_of_lt (h.fits x i hi),← h.bySlot x i hi,hv]
    rfl

include hcan in
lemma Holds.actsAs (h : Holds C klass w m) : ActsAs C klass nil w m := by
  constructor
  · exact h.rbIvarGet_eq hcan nil
  · intro k hk x
    unfold rbVmIvarGet
    cases hc : w.caches k x with
    | none => exact h.rbIvarGet_eq hcan nil x
    | some i =>
      have hx := h.cached k hk x i hc
      simp only [getIvarFromSlot_of_lt (h.fits x i hx),h.bySlot x i hx]
  · intro x
    unfold rbIvarDefined
    rw [findClassIvarSlot_eq hcan]
    cases hx : slotFrom C.tree w.tables klass x with
    | none => simp only [h.byTable x hx]
    | some i =>
      simp only [getIvarFromSlot_of_lt (h.fits x i hx),h.bySlot x i hx,h.tblOnly x i hx,
        isSome_none,Bool.or_false]
  · unfold rbIvarForeach
    rw [map_append,nodup_append]
    refine ⟨(names_eachIvarSlot nil w.tables w.obj).nodup (nodup_slotEntries h.layered),
      w.obj.tbl.nodup_keys,?_⟩
    rintro x hx _ hx' rfl
    obtain ⟨⟨_,u⟩,hu,rfl⟩ := mem_map.mp hx
    obtain ⟨⟨_,v⟩,hv,he⟩ := mem_map.mp hx'
    subst he
    have hs := ((h.mem_eachIvarSlot nil).mp hu).1
    obtain ⟨i,hi⟩ := ne_none_iff_exists'.mp hs
    have hf := find_eq_some.mpr hv
    rw [h.tblOnly _ i hi] at hf
    exact some_ne_none v hf.symm
  · intro x v
    unfold rbIvarForeach
    rw [mem_append,h.mem_eachIvarSlot nil,← find_eq_some]
    cases hx : slotFrom C.tree w.tables klass x with
    | none => simp [h.byTable x hx]
    | some i => simp [h.tblOnly x i hx]

/-- The object behaves as the map of the values last written, whichever way they
were written, in every history whose new slots are fresh. -/
theorem object_acts_as_written (C : Classes) (klass : ℕ) (nil : V) (memory : ℕ → Option V)
    (safeLevel : ℕ) (tainted frozen : Bool) (ops : List (Op C.tree klass V))
    (hcan : classCanHaveIvarSlots C klass = true)
    (h : Along (step C klass memory safeLevel) (FreshSlot C klass) (start tainted frozen) ops) :
    ActsAs C klass nil (run (step C klass memory safeLevel) (start tainted frozen) ops).1
      (run (step C klass memory safeLevel) (start tainted frozen) ops).2 := by
  have hh := run_invariant (I := fun s => Holds C klass s.1 s.2)
    (fun _ op hs ho => holds_step hcan hs op ho) (holds_start C klass tainted frozen) h
  exact hh.actsAs hcan nil

theorem slot_of_subclass_acts_as_written : classCanHaveIvarSlots oneSubclass 1 = true ∧
      Along (step oneSubclass 1 (fun _ => none) 0) (FreshSlot oneSubclass 1)
        (start false false) [.set 8 3,.prepare 1 7,.slotSet 1 (by decide) 7 5] ∧
      ActsAs oneSubclass 1 0 (run (step oneSubclass 1 (fun _ => none) 0) (start false false)
          [.set 8 3,.prepare 1 7,.slotSet 1 (by decide) 7 5]).1
        (run (step oneSubclass 1 (fun _ => none) 0) (start false false)
          [.set 8 3,.prepare 1 7,.slotSet 1 (by decide) 7 5]).2 :=
  ⟨by decide,by decide, object_acts_as_written oneSubclass 1 0 (fun _ => none) 0 false false
      [.set 8 3,.prepare 1 7,.slotSet 1 (by decide) 7 5] (by decide) (by decide)⟩

/-- A value written before its name gets a slot stays in the table, where code
that has the slot does not look: it reads `nil`. -/
theorem written_before_slot_is_lost : ¬ActsAs oneSubclass 1 0
      (run (step oneSubclass 1 (fun _ => none) 0) (start false false) [.set 7 5,.prepare 1 7]).1
      (run (step oneSubclass 1 (fun _ => none) 0) (start false false)
        [.set 7 5,.prepare 1 7]).2 := by
  intro h
  exact absurd (h.slotGet 1 (by decide) 7) (by decide)

lemma length_setIvarFromSlot (memory : ℕ → Option V) (obj : RObject V) (val : V) (slot : ℕ) :
    (setIvarFromSlot memory obj val slot).slots.length=max obj.slots.length (slot+1) := by
  unfold setIvarFromSlot regrowRobjectSlots
  dsimp only
  split_ifs <;> simp only [length_set,length_map,length_range] <;> omega

lemma getElem?_setIvarFromSlot (memory : ℕ → Option V) (obj : RObject V) (val : V) {slot i : ℕ}
    (h : slot ≥ obj.slots.length) (hi : i < slot) :
    (setIvarFromSlot memory obj val slot).slots[i]?=
      some (if i < obj.slots.length then obj.slots.getD i none
        else if i=obj.slots.length then memory i else none) := by
  rw [setIvarFromSlot,if_pos h,getElem?_set_ne (by omega),regrowRobjectSlots,getElem?_map,
    getElem?_range (by omega),map_some]
  simp only [hi.ne,or_false]

/-- A store that has to grow the slots always reads the cell after them. What was there
is kept, but the first new slot is undefined only if that cell was. -/
theorem setIvarFromSlot_keepsOthers_iff (memory : ℕ → Option V) (obj : RObject V) (val : V)
    (slot : ℕ) :
    (KeepsOthers memory obj val slot ↔ slot < obj.slots.length) ∧
    (∀ i < obj.slots.length, i ≠ slot →
      (setIvarFromSlot memory obj val slot).slots[i]? = obj.slots[i]?) ∧
    ((∀ i < (setIvarFromSlot memory obj val slot).slots.length, obj.slots.length ≤ i → i ≠ slot →
      (setIvarFromSlot memory obj val slot).slots[i]? = some none) ↔
        slot ≤ obj.slots.length ∨ memory obj.slots.length = none) := by
  have hlen := length_setIvarFromSlot memory obj val slot
  have hkept : ∀ i < obj.slots.length, i≠slot →
      (setIvarFromSlot memory obj val slot).slots[i]?=obj.slots[i]? := by
    intro i hi hne
    by_cases h : slot < obj.slots.length
    · rw [setIvarFromSlot_of_lt h,getElem?_set_ne hne.symm]
    · rw [getElem?_setIvarFromSlot memory obj val (not_lt.mp h) (by omega),if_pos hi,
        getD_eq_getElem _ _ hi,getElem?_eq_getElem hi]
  refine ⟨⟨?_,?_⟩,hkept,?_,?_⟩
  · intro h
    by_contra hs
    have hr := h.reads obj.slots.length (by
      rw [touched,if_pos (by omega)]
      exact mem_range.mpr (by omega))
    omega
  · intro h
    have ht : touched obj.slots.length slot=([],[slot]) := if_neg (by omega)
    refine ⟨?_,hkept,by omega,?_,?_⟩
    · rw [setIvarFromSlot_of_lt h,getElem?_set_self h]
    · simp [ht]
    · simp [ht,hlen]
  · intro h
    by_cases hs : slot ≤ obj.slots.length
    · exact .inl hs
    · have hf := h obj.slots.length (by omega) le_rfl (by omega)
      rw [getElem?_setIvarFromSlot memory obj val (by omega) (by omega),if_neg (by omega),
        if_pos rfl,some_inj] at hf
      exact .inr hf
  · intro h i hi hle hne
    rw [getElem?_setIvarFromSlot memory obj val (by omega) (by omega),if_neg (by omega)]
    split_ifs with he
    · rw [he,h.resolve_left (by omega)]
    · rfl

/-- One slot is there, and the third is stored: the second holds what was behind the
first. -/
theorem grown_slot_is_not_undefined : ¬KeepsOthers (fun _ => some 7)
    (⟨[none],∅,false,false⟩ : RObject ℕ) 5 2 := by
  intro h
  exact absurd (h.fresh 1 (by decide) (by decide) (by decide)) (by decide)

end MacRuby.ObjectIvars
