import Mathlib.Algebra.Order.Ring.Int
import Mathlib.Data.List.GetD
import Mathlib.Data.List.Perm.Subperm

/-!
# Flattening arrays

`flatten` walks through the arrays with an explicit stack of arrays and positions, and a
table of the arrays that are being expanded. The arrays are a heap in which they may
contain each other in any way; all other objects are leaves.
-/
namespace MacRuby.ArrayFlatten
open List

inductive Elt (α : Type) where
  | leaf (v : α)
  | array (id : ℕ)

/-- The arrays with their elements; an element that is an array is one of them. -/
structure Heap (α : Type) where
  arrays : List (List (Elt α))
  closed : ∀ ary ∈ arrays, ∀ id, .array id ∈ ary → id < arrays.length

def Heap.get {α : Type} (h : Heap α) (id : ℕ) : List (Elt α) := h.arrays.getD id []

lemma Heap.lt_of_mem {α : Type} (h : Heap α) {ary id : ℕ} (hm : .array id ∈ h.get ary) :
    id < h.arrays.length := by
  by_cases ha : ary < h.arrays.length
  · rw [get,getD_eq_getElem _ _ ha] at hm
    exact h.closed _ (getElem_mem ha) id hm
  · rw [get,getD_eq_default _ _ (Nat.le_of_not_lt ha)] at hm
    cases hm

variable {α : Type} (h : Heap α) (level : ℤ)

structure State (α : Type) where
  ary : ℕ
  i : ℕ
  stack : List (ℕ × ℕ)
  memo : List ℕ
  result : List (Elt α)

inductive Outcome (α : Type) where
  | array (elements : List (Elt α))
  | argumentError

def Whole (depth : ℕ) : Prop := 0 ≤ level ∧ level ≤ depth

instance (depth : ℕ) : Decidable (Whole level depth) := inferInstanceAs (Decidable (_ ∧ _))

def step (s : State α) : State α ⊕ Outcome α :=
  match (h.get s.ary)[s.i]? with
  | some (.leaf v) => .inl {s with i := s.i+1,result := s.result ++ [.leaf v]}
  | some (.array id) =>
    if Whole level s.stack.length then .inl {s with i := s.i+1,result := s.result ++ [.array id]}
    else if id ∈ s.memo then .inr .argumentError
    else .inl {s with ary := id,i := 0,stack := (s.ary,s.i+1)::s.stack,memo := id::s.memo}
  | none =>
    match s.stack with
    | [] => .inr (.array s.result)
    | (ary,i)::stack => .inl {s with ary := ary,i := i,stack := stack,memo := s.memo.erase s.ary}

def run : ℕ → State α → Option (Outcome α)
  | 0,_ => none
  | fuel+1,s =>
    match step h level s with
    | .inl s => run fuel s
    | .inr o => some o

def flatten (ary fuel : ℕ) : Option (Outcome α) := run h level fuel ⟨ary,0,[],[ary],[]⟩

/-- `flatten(0)` returns the array itself. -/
def rbAryFlatten (ary fuel : ℕ) : Option (Outcome α) :=
  if level=0 then some (.array (h.get ary)) else flatten h level ary fuel

/-- The leaves of some elements, depth first, with the arrays below the level whole. -/
inductive Leaves : ℕ → List (Elt α) → List (Elt α) → Prop
  | nil {d} : Leaves d [] []
  | leaf {d v es r} : Leaves d es r → Leaves d (.leaf v::es) (.leaf v::r)
  | whole {d id es r} : Whole level d → Leaves d es r → Leaves d (.array id::es) (.array id::r)
  | array {d id es r r'} : ¬Whole level d → Leaves (d+1) (h.get id) r → Leaves d es r' →
      Leaves d (.array id::es) (r ++ r')

/-- Below some elements of the last array of a path, an array of the path is reached again. -/
inductive Again : List ℕ → List (Elt α) → Prop
  | here {ary path id es} : .array id ∈ es → ¬Whole level path.length → id ∈ ary::path →
      Again (ary::path) es
  | deeper {ary path id es} : .array id ∈ es → ¬Whole level path.length →
      Again (id::ary::path) (h.get id) → Again (ary::path) es

variable {h level}

lemma Again.tail {path : List ℕ} {e : Elt α} {es : List (Elt α)} (h' : Again h level path es) :
    Again h level path (e::es) := by
  cases h' with
  | here hm hl hp => exact .here (mem_cons_of_mem e hm) hl hp
  | deeper hm hl ha => exact .deeper (mem_cons_of_mem e hm) hl ha

variable (h) (level) {es : List (Elt α)} {e : Elt α}

def Ends (s : State α) (o : Outcome α) : Prop := ∃ n, run h level n s=some o

def Leads (s s' : State α) : Prop := ∀ o, Ends h level s' o → Ends h level s o

/-- The state in which the array at the head of the path is expanded. -/
def at' (ary i : ℕ) (stack : List (ℕ × ℕ)) (result : List (Elt α)) : State α :=
  ⟨ary,i,stack,ary::stack.map Prod.fst,result⟩

variable {h level} {s s' : State α} {ary i : ℕ} {stack : List (ℕ × ℕ)} {result : List (Elt α)}

lemma step_array {id : ℕ} (hg : (h.get s.ary)[s.i]? = some (.array id)) : step h level s =
    if Whole level s.stack.length then .inl {s with i := s.i+1,result := s.result ++ [.array id]}
    else if id ∈ s.memo then .inr .argumentError
    else .inl {s with ary := id,i := 0,stack := (s.ary,s.i+1)::s.stack,memo := id::s.memo} := by
  simp only [step,hg]

lemma leads_of_step (hs : step h level s=.inl s') : Leads h level s s' := by
  rintro o ⟨n,hn⟩
  exact ⟨n+1,by rw [run,hs]; exact hn⟩

lemma ends_of_step {o : Outcome α} (hs : step h level s=.inr o) : Ends h level s o :=
  ⟨1,by rw [run,hs]⟩

variable (h level) in
/-- The rest of an array is expanded, unless an array of the path is reached again. -/
def Settled (ary i : ℕ) (stack : List (ℕ × ℕ)) (es : List (Elt α)) : Prop :=
  (Again h level (ary::stack.map Prod.fst) es ∧
    ∀ result, Ends h level (at' ary i stack result) .argumentError) ∨
  ¬Again h level (ary::stack.map Prod.fst) es ∧ ∃ r, Leaves h level stack.length es r ∧
    ∀ result, Leads h level (at' ary i stack result) (at' ary (i+es.length) stack (result ++ r))

lemma not_again_cons {path : List ℕ} (he : ∀ id, e=.array id → ¬Whole level path.length →
      id ∉ ary::path ∧ ¬Again h level (id::ary::path) (h.get id))
    (hes : ¬Again h level (ary::path) es) : ¬Again h level (ary::path) (e::es) := by
  intro ha
  cases ha with
  | here hm hl hp =>
    rcases mem_cons.mp hm with heq | hm
    · exact (he _ heq.symm hl).1 hp
    · exact hes (.here hm hl hp)
  | deeper hm hl hd =>
    rcases mem_cons.mp hm with heq | hm
    · exact (he _ heq.symm hl).2 hd
    · exact hes (.deeper hm hl hd)

lemma Settled.cons {r : List (Elt α)} (hes : Settled h level ary (i+1) stack es)
    (he : ∀ id, e=.array id → ¬Whole level stack.length →
      id ∉ ary::stack.map Prod.fst ∧ ¬Again h level (id::ary::stack.map Prod.fst) (h.get id))
    (hl : ∀ result, Leads h level (at' ary i stack result) (at' ary (i+1) stack (result ++ r)))
    (hle : ∀ r', Leaves h level stack.length es r' →
      Leaves h level stack.length (e::es) (r ++ r')) : Settled h level ary i stack (e::es) := by
  rcases hes with ⟨ha,hen⟩ | ⟨ha,r',hr',hre⟩
  · exact Or.inl ⟨ha.tail,fun result => hl result _ (hen _)⟩
  · refine Or.inr ⟨not_again_cons ?_ ha,r ++ r',hle r' hr',fun result o ho => ?_⟩
    · rwa [length_map]
    · apply hl result
      apply hre
      rwa [append_assoc,Nat.add_assoc,Nat.add_comm 1]

lemma settled_of_deeper (hd : ∀ id ∉ ary::stack.map Prod.fst, id < h.arrays.length → ∀ i,
      Settled h level id 0 ((ary,i)::stack) (h.get id))
    (hes : (h.get ary).drop i=es) : Settled h level ary i stack es := by
  induction es generalizing i with
  | nil =>
    refine Or.inr ⟨?_,[],.nil,fun result o ho => ?_⟩
    · rintro (⟨hm,-,-⟩ | ⟨hm,-,-⟩)
      · cases hm
      · cases hm
    · rwa [append_nil] at ho
  | cons e es ih =>
    have hre := ih (i := i+1) (by rw [← drop_drop,hes]; rfl)
    have hg : (h.get ary)[i]? = some e := by
      rw [← List.head?_drop,hes]
      rfl
    cases e with
    | leaf v =>
      apply hre.cons (r := [.leaf v]) (fun id hi => by cases hi) _ fun r => .leaf
      intro result
      apply leads_of_step
      simp only [step,at',hg]
    | array id =>
      by_cases hl : Whole level stack.length
      · apply hre.cons (r := [.array id]) (fun _ _ hn => absurd hl hn) _ fun r => .whole hl
        exact fun result => leads_of_step ((step_array hg).trans (if_pos hl))
      · by_cases hp : id ∈ ary::stack.map Prod.fst
        · refine Or.inl ⟨.here mem_cons_self (by rwa [length_map]) hp,fun result => ?_⟩
          exact ends_of_step ((step_array hg).trans ((if_neg hl).trans (if_pos hp)))
        · have he (result : List (Elt α)) : Leads h level (at' ary i stack result)
              (at' id 0 ((ary,i+1)::stack) result) :=
            leads_of_step ((step_array hg).trans ((if_neg hl).trans (if_neg hp)))
          rcases hd id hp (h.lt_of_mem (mem_of_getElem? hg)) (i+1) with ⟨ha,hen⟩ | ⟨ha,r,hr,hle⟩
          · exact Or.inl ⟨.deeper mem_cons_self (by rwa [length_map]) ha,
              fun result => he result _ (hen result)⟩
          · apply hre.cons (r := r) _ _ fun r' => .array hl hr
            · rintro id' heq -
              cases heq
              exact ⟨hp,ha⟩
            · intro result o ho
              apply he
              apply hle
              refine leads_of_step ?_ o ho
              simp [step,at']

lemma settled (k : ℕ) (hk : h.arrays.length ≤ k+(stack.length+1))
    (hp : (ary::stack.map Prod.fst).Nodup)
    (hlt : ∀ a ∈ ary::stack.map Prod.fst, a < h.arrays.length) :
    Settled h level ary 0 stack (h.get ary) := by
  have hc {id : ℕ} (hid : id < h.arrays.length) :
      ∀ a ∈ id::ary::stack.map Prod.fst, a < h.arrays.length := by
    rw [forall_mem_cons]
    exact ⟨hid,hlt⟩
  induction k generalizing ary stack with
  | zero =>
    apply settled_of_deeper _ rfl
    intro id hid hi
    -- there are no more arrays than the path has already
    have hs : (id::ary::stack.map Prod.fst).Subperm (List.range h.arrays.length) :=
      subperm_of_subset (nodup_cons.mpr ⟨hid,hp⟩) fun a ha =>
        mem_range.mpr (hc hi a ha)
    have hl := hs.length_le
    simp at hl
    omega
  | succ k ih =>
    apply settled_of_deeper _ rfl
    intro id hid hi i
    apply ih
    · rw [length_cons]
      omega
    · exact nodup_cons.mpr ⟨hid,hp⟩
    · exact hc hi
    · intro id' hid'
      rw [forall_mem_cons]
      exact ⟨hid',hc hi⟩

lemma leaves_whole {d : ℕ} (hl : Whole level d) (es : List (Elt α)) : Leaves h level d es es := by
  induction es with
  | nil => exact .nil
  | cons e es ih =>
    cases e with
    | leaf v => exact .leaf ih
    | array id => exact .whole hl ih

/-- flatten terminates: with ArgumentError if an array is reached again within the level,
and with the leaves otherwise. -/
theorem flatten_correct (h : Heap α) (level : ℤ) (ary : ℕ) (hary : ary < h.arrays.length) :
    (Again h level [ary] (h.get ary) → ∃ n, rbAryFlatten h level ary n = some .argumentError) ∧
    (¬Again h level [ary] (h.get ary) → ∃ n r, Leaves h level 0 (h.get ary) r ∧
      rbAryFlatten h level ary n = some (.array r)) := by
  unfold rbAryFlatten
  by_cases hz : level=0
  · have hw : Whole level 0 := ⟨by omega,by omega⟩
    simp only [if_pos hz]
    refine ⟨fun ha => ?_,fun _ => ⟨0,_,leaves_whole hw _,rfl⟩⟩
    cases ha with
    | here _ hl _ | deeper _ hl _ => exact absurd hw hl
  · simp only [if_neg hz]
    have hs : Settled h level ary 0 [] (h.get ary) :=
      settled h.arrays.length (Nat.le_add_right _ _) (by simp) (by simpa using hary)
    rcases hs with ⟨ha,he⟩ | ⟨ha,r,hr,hle⟩
    · exact ⟨fun _ => he [],fun hno => absurd ha hno⟩
    · refine ⟨fun h => absurd h ha,fun _ => ?_⟩
      have hen : step h level (at' ary (0+(h.get ary).length) [] ([] ++ r))=.inr (.array r) := by
        simp [step,at']
      obtain ⟨n,hn⟩ := hle [] _ (ends_of_step hen)
      exact ⟨n,r,hr,hn⟩

def shared : Heap ℕ where
  arrays := [[.array 1,.leaf 5,.array 1],[.leaf 7]]
  closed := by simp

theorem flatten_shared : (Again shared (-1) [0] (shared.get 0) →
    ∃ n, rbAryFlatten shared (-1) 0 n = some .argumentError) ∧
    (¬Again shared (-1) [0] (shared.get 0) → ∃ n r, Leaves shared (-1) 0 (shared.get 0) r ∧
      rbAryFlatten shared (-1) 0 n = some (.array r)) :=
  flatten_correct shared (-1) 0 (by decide)

end MacRuby.ArrayFlatten
