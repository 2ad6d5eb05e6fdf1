import MacRuby.Backtracking

/-!
# Permutations

`permute0` fills the table `p` position by position and marks the indexes in `p` in the
table `used`. Both tables are shared by all the calls of the recursion; each call takes
its marks back and leaves the positions before its own as they were.
-/
namespace MacRuby.Permutations
open Backtracking Function List

variable {α : Type} (nil : α) (values : List α)

structure Tables where
  p : ℕ → ℕ
  used : ℕ → ℕ

def Tables.place (t : Tables) (index i : ℕ) : Tables := {t with p := update t.p index i}

def Tables.mark (t : Tables) (i b : ℕ) : Tables := {t with used := update t.used i b}

/-- The tables and the arrays that have been yielded, before and after a call for the
position `r-1-d`. -/
def permute0 (n r : ℕ) : ℕ → Tables × List (List α) → Tables × List (List α)
  | 0,s => (List.range n).foldl (fun s i =>
      if s.1.used i=0 then
        let t := s.1.place (r-1) i
        (t,s.2 ++ [(List.range r).map fun j => values.getD (t.p j) nil])
      else s) s
  | d+1,s => (List.range n).foldl (fun s i =>
      if s.1.used i=0 then
        let s := permute0 n r d ((s.1.place (r-1-(d+1)) i).mark i 1,s.2)
        (s.1.mark i 0,s.2)
      else s) s

/-- With a block that does not break. The table `p` is not initialized. -/
def rbAryPermutation (junk : ℕ → ℕ) (num : Option ℤ) : Option Tables × List (List α) :=
  let n := values.length
  let r := num.getD n
  if r < 0 ∨ (n : ℤ) < r then (none,[])
  else if r=0 then (none,[[]])
  else if r=1 then (none,values.map fun v => [v])
  else
    let s := permute0 nil values n r.toNat (r.toNat-1) (⟨junk,fun _ => 0⟩,[])
    (some s.1,s.2)

/-- The sequences of `r` different indexes below `n` that are not used. -/
def Injective (n r : ℕ) (used : ℕ → ℕ) (p : List ℕ) : Prop :=
  p.length=r ∧ p.Nodup ∧ ∀ i ∈ p, i < n ∧ used i=0

variable (n : ℕ)

def completions : ℕ → (ℕ → ℕ) → List (List ℕ)
  | 0,_ => [[]]
  | k+1,used => branch ((List.range n).filter fun i => used i=0) fun i =>
      completions k (update used i 1)

lemma enumerates_completions (k : ℕ) (used : ℕ → ℕ) :
    Enumerates (completions n k used) (Injective n k used) := by
  induction k generalizing used with
  | zero =>
    apply enumerates_nil.congr
    intro p
    rw [Injective,length_eq_zero_iff]
    constructor
    · rintro rfl
      simp
    · exact fun h => h.1
  | succ k ih =>
    have h := enumerates_branch ((pairwise_lt_range (n := n)).filter fun i => used i=0)
      fun i _ => ih (update used i 1)
    apply h.congr
    intro p
    constructor
    · rintro ⟨i,q,rfl,hi,hl,hn,hq⟩
      rw [mem_filter,mem_range,decide_eq_true_eq] at hi
      have hne : ∀ j ∈ q, j ≠ i := by
        rintro j hj rfl
        have := (hq j hj).2
        simp at this
      refine ⟨congrArg (·+1) hl,nodup_cons.mpr ⟨fun hm => hne i hm rfl,hn⟩,?_⟩
      rw [forall_mem_cons]
      refine ⟨hi,fun j hj => ⟨(hq j hj).1,?_⟩⟩
      rw [← (hq j hj).2,update_of_ne (hne j hj)]
    · rintro ⟨hl,hn,hp⟩
      cases p with
      | nil => cases hl
      | cons i q =>
        rw [forall_mem_cons] at hp
        rw [nodup_cons] at hn
        refine ⟨i,q,rfl,by simpa using hp.1,Nat.succ_inj.mp hl,hn.2,fun j hj => ?_⟩
        rw [update_of_ne (ne_of_mem_of_not_mem hj hn.1)]
        exact hp.2 j hj

variable {nil} {values} {r : ℕ} {n} {index : ℕ}

/-- The marks, and the positions before the index, are as they were. -/
def Kept (index : ℕ) (t t' : Tables) : Prop :=
  t'.used=t.used ∧ ∀ j < index, t'.p j=t.p j

lemma foldl_adds {t : Tables} {g : ℕ → List (List α)}
    {f : Tables × List (List α) → ℕ → Tables × List (List α)}
    (hf : ∀ s i, Kept index t s.1 → Kept index t (f s i).1 ∧ (f s i).2=s.2 ++ g i)
    (is : List ℕ) {s : Tables × List (List α)} (hs : Kept index t s.1) :
    Kept index t (is.foldl f s).1 ∧ (is.foldl f s).2=s.2 ++ is.flatMap g := by
  induction is generalizing s with
  | nil => simp [hs]
  | cons i is ih =>
    obtain ⟨hk,ha⟩ := hf s i hs
    obtain ⟨hk',ha'⟩ := ih hk
    exact ⟨hk',by rw [foldl_cons,ha',ha,flatMap_cons,append_assoc]⟩

lemma Kept.range_place {t t' : Tables} (h : Kept index t t') (i : ℕ) :
    (List.range (index+1)).map (t'.place index i).p=(List.range index).map t.p ++ [i] := by
  have hb : (range index).map (t'.place index i).p=(range index).map t.p := by
    apply map_congr_left
    intro j hj
    rw [mem_range] at hj
    exact (update_of_ne (ne_of_lt hj) _ _).trans (h.2 j hj)
  rw [range_succ,map_append,hb]
  simp [Tables.place]

def arrays (nil : α) (values : List α) (pre : List ℕ) (l : List (List ℕ)) : List (List α) :=
  l.map fun q => (pre ++ q).map (values.getD · nil)

lemma arrays_branch (pre is : List ℕ) (c : ℕ → Bool) (rest : ℕ → List (List ℕ)) :
    arrays nil values pre (branch (is.filter c) rest) =
      is.flatMap fun i => if c i then arrays nil values (pre ++ [i]) (rest i) else [] := by
  induction is with
  | nil => rfl
  | cons i is ih =>
    have hr : ((rest i).map (i::·)).map (fun q => (pre ++ q).map (values.getD · nil)) =
        arrays nil values (pre ++ [i]) (rest i) := by
      simp [arrays]
    rw [flatMap_cons,← ih,filter_cons]
    split_ifs with h
    · rw [arrays,branch,flatMap_cons,map_append,hr]
      rfl
    · rfl

variable (nil values n) in
lemma permute0_spec (d : ℕ) (hd : d < r) (s : Tables × List (List α)) :
    Kept (r-1-d) s.1 (permute0 nil values n r d s).1 ∧ (permute0 nil values n r d s).2 =
      s.2 ++ arrays nil values ((List.range (r-1-d)).map s.1.p) (completions n (d+1) s.1.used) := by
  induction d generalizing s with
  | zero =>
    rw [completions,arrays_branch]
    apply foldl_adds _ _ ⟨rfl,fun _ _ => rfl⟩
    intro s' i hs
    have hu := congrFun hs.1 i
    by_cases hi : s.1.used i=0
    · have hr : r-1+1=r := by omega
      have hp := hs.range_place i
      rw [Nat.sub_zero,hr] at hp
      simp only [hu,hi]
      refine ⟨⟨hs.1,fun j hj => (update_of_ne (by omega) _ _).trans (hs.2 j hj)⟩,?_⟩
      simp only [arrays,completions,Nat.sub_zero,← hp]
      simp
    · simpa [hu,hi] using hs
  | succ d ih =>
    rw [completions,arrays_branch]
    apply foldl_adds _ _ ⟨rfl,fun _ _ => rfl⟩
    intro s' i hs
    have hu := congrFun hs.1 i
    by_cases hi : s.1.used i=0
    · have hr : r-1-(d+1)+1=r-1-d := by omega
      have hp := hs.range_place i
      rw [hr] at hp
      obtain ⟨hk,hy⟩ := ih (by omega) ((s'.1.place (r-1-(d+1)) i).mark i 1,s'.2)
      simp only [hu,hi]
      refine ⟨⟨?_,fun j hj => ?_⟩,?_⟩
      · calc update _ i 0=update (update s'.1.used i 1) i 0 := by
              rw [hk.1]
              rfl
          _=s'.1.used := by
              rw [update_idem,← hi,← hu,update_eq_self]
          _=s.1.used := hs.1
      · exact (hk.2 j (by omega)).trans ((update_of_ne (by omega) _ _).trans (hs.2 j hj))
      · rw [hy,← hs.1,← hp]
        rfl
    · simp [hu,hi,hs]

/-- The block gets one array for each sequence of `r` different indexes, in
lexicographic order, and the marks are all taken back. -/
theorem permutation_yields_all (nil : α) (values : List α) (junk : ℕ → ℕ) (num : Option ℤ) (r : ℕ)
    (hnum : num.getD values.length = r) (h2 : 2 ≤ r) (hr : r ≤ values.length) :
    ∃ l t, Enumerates l (fun p => p.length = r ∧ p.Nodup ∧ ∀ i ∈ p, i < values.length) ∧
      rbAryPermutation nil values junk num = (some t,l.map fun p => p.map (values.getD · nil)) ∧
      ∀ i, t.used i = 0 := by
  obtain ⟨hk,hy⟩ := permute0_spec nil values values.length (r-1)
    (Nat.sub_lt (by omega) Nat.one_pos) (⟨junk,fun _ => 0⟩,[])
  refine ⟨completions values.length r fun _ => 0,_,?_,?_,congrFun hk.1⟩
  · apply (enumerates_completions values.length r fun _ => 0).congr
    simp [Injective]
  · simp only [rbAryPermutation,hnum]
    rw [if_neg (by omega),if_neg (by omega),if_neg (by omega)]
    simp only [Int.toNat_natCast,hy]
    simp [arrays,show r-1+1=r by omega]

theorem permutation_of_three : ∃ l t,
    Enumerates l (fun p => p.length = 2 ∧ p.Nodup ∧ ∀ i ∈ p, i < [5,6,7].length) ∧
      rbAryPermutation 0 [5,6,7] (fun _ => 0) (some 2) =
        (some t,l.map fun p => p.map ([5,6,7].getD · 0)) ∧ ∀ i, t.used i = 0 :=
  permutation_yields_all 0 [5,6,7] (fun _ => 0) (some 2) 2 rfl (by decide) (by decide)

end MacRuby.Permutations
