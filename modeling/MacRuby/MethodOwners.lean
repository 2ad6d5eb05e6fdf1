import MacRuby.MethodRemoval

/-!
# The owner of a method object

`rb_vm_get_method` takes the owner for the last class it comes to on the way up as long as
the superclass has the method too. That is the highest class with an entry, where the
method comes from the nearest one.
-/
namespace MacRuby.MethodOwners
open List MethodRemoval
open MethodTables (SEL buf100)

/-- `rb_vm_method_t` without the receiver, the arity and the cache. -/
structure MethodObject where
  oclass : ℕ
  rclass : ℕ
  sel : SEL
deriving DecidableEq

variable (tree : ClassTree) (own : Tables)

/-- `rb_vm_lookup_method`; entries without code count as well. -/
def rbVmLookupMethod (klass : ℕ) (sel : SEL) : Bool :=
  (classGetInstanceMethod tree own klass sel).isSome

/-- The selector that `rb_vm_lookup_method2` finds. -/
def rbVmLookupMethod2 (klass : ℕ) (mid : SEL) : Option SEL :=
  if rbVmLookupMethod tree own klass mid then some mid
  else if rbVmLookupMethod tree own klass (buf100 (mid++[':'])) then some (buf100 (mid++[':']))
  else none

/-- The loop over the classes above `oklass`. -/
def climb (sel : SEL) (oklass : ℕ) : List ℕ → ℕ
  | [] => oklass
  | k::ks => if rbVmLookupMethod tree own k sel then climb sel k ks else oklass

def owner (sel : SEL) (klass : ℕ) : ℕ := climb tree own sel klass (tree.chain klass).tail

def rbVmGetMethod (klass : ℕ) (mid : SEL) : Option MethodObject :=
  (rbVmLookupMethod2 tree own klass mid).map fun sel => ⟨owner tree own sel klass,klass,sel⟩

variable {tree} {own} {klass : ℕ} {sel mid : SEL} {m : MethodObject}

/-- The loop ends at a class with an entry, and no class above has one. -/
lemma owner_spec (h : rbVmLookupMethod tree own klass sel) :
    owner tree own sel klass ∈ tree.chain klass ∧ (own sel (owner tree own sel klass)).isSome ∧
    ∀ d ∈ tree.chain klass, (own sel d).isSome → owner tree own sel klass ∈ tree.chain d := by
  unfold owner
  induction klass using tree.chain_induction with
  | root k hs =>
    rw [rbVmLookupMethod,classGetInstanceMethod,tree.nearest_root _ hs,Option.isSome_map] at h
    rw [tree.chain_root hs]
    refine ⟨mem_cons_self,h,fun d hd _ => ?_⟩
    rw [mem_singleton.mp hd]
    exact mem_cons_self
  | step k s hs ih =>
    have hc : (tree.chain k).tail=s::(tree.chain s).tail := by
      rw [tree.chain_step hs,tail_cons,tree.chain_eq s,tail_cons]
    have hm : ∀ d, d ∈ tree.chain k ↔ d=k ∨ d ∈ tree.chain s := by
      intro d
      rw [tree.chain_step hs,mem_cons]
    rw [hc,climb]
    split_ifs with hl
    · obtain ⟨ho,he,ht⟩ := ih hl
      refine ⟨(hm _).mpr (.inr ho),he,fun d hd hd' => ?_⟩
      obtain rfl | hd := (hm d).mp hd
      · exact (hm _).mpr (.inr ho)
      · exact ht d hd hd'
    · have hn := Option.not_isSome_iff_eq_none.mp hl
      refine ⟨tree.self_mem_chain k,?_,fun d hd hd' => ?_⟩
      · by_contra he
        have hst := tree.nearest_step _ (Option.not_isSome_iff_eq_none.mp he) hs
        rw [rbVmLookupMethod,classGetInstanceMethod,hst] at h
        exact hl h
      · obtain rfl | hd := (hm d).mp hd
        · exact tree.self_mem_chain d
        · rw [tree.nearest_eq_none.mp hn d hd] at hd'
          cases hd'

lemma lookup_of_get (h : rbVmGetMethod tree own klass mid=some m) :
    rbVmLookupMethod tree own klass m.sel ∧ m.oclass=owner tree own m.sel klass := by
  obtain ⟨sel,hs,rfl⟩ := Option.map_eq_some_iff.mp h
  refine ⟨?_,rfl⟩
  unfold rbVmLookupMethod2 at hs
  split_ifs at hs with h₁ h₂ <;> cases hs <;> assumption

/-- The owner is the class that the method comes from exactly if no two classes from the
receiver's class upwards have an entry. -/
theorem owner_iff_sole (h : rbVmGetMethod tree own klass mid = some m) :
    (∃ imp, classGetInstanceMethod tree own klass m.sel = some (m.oclass,imp)) ↔
    ∀ c ∈ tree.chain klass, ∀ d ∈ tree.chain klass,
      (own m.sel c).isSome → (own m.sel d).isSome → c = d := by
  obtain ⟨hl,ho⟩ := lookup_of_get h
  obtain ⟨hc,he,ht⟩ := owner_spec hl
  rw [← ho] at hc he ht
  constructor
  · rintro ⟨imp,hi⟩
    have hu : ∀ c ∈ tree.chain klass, (own m.sel c).isSome → c=m.oclass := by
      intro c hc hs
      by_contra hn
      rw [(tree.nearest_eq_some.mp hi).2.2 c hc (ht c hc hs) hn] at hs
      cases hs
    exact fun c hc d hd hs hs' => (hu c hc hs).trans (hu d hd hs').symm
  · intro hu
    obtain ⟨⟨n,imp⟩,hn⟩ := Option.isSome_iff_exists.mp hl
    obtain ⟨hnc,hni,-⟩ := tree.nearest_eq_some.mp hn
    refine ⟨imp,?_⟩
    rw [hn,hu n hnc m.oclass hc (Option.isSome_of_eq_some hni) he]

theorem inherited_owner : rbVmGetMethod .pair (fun _ c => if c = 0 then some (.code 7) else none) 1
      ['f'] = some ⟨0,1,['f']⟩ ∧ ∃ imp, classGetInstanceMethod .pair
      (fun _ c => if c = 0 then some (.code 7) else none) 1 ['f'] = some (0,imp) := by
  have h : rbVmGetMethod .pair (fun _ c => if c=0 then some (.code 7) else none) 1 ['f'] =
    some ⟨0,1,['f']⟩ := by decide
  refine ⟨h,(owner_iff_sole h).mpr fun c _ d _ hc hd => ?_⟩
  by_cases hz : c=0 <;> by_cases hz' : d=0 <;> simp_all

/-- A method that a class overrides is said to belong to the superclass. -/
theorem overridden_owner_wrong : rbVmGetMethod .pair (fun _ c => some (.code c)) 1 ['f'] =
      some ⟨0,1,['f']⟩ ∧
    classGetInstanceMethod .pair (fun _ c => some (.code c)) 1 ['f'] = some (1,.code 1) := by
  decide

end MacRuby.MethodOwners
