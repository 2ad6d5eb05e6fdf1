import Mathlib.Data.List.Range

/-!
# Counted loops over memory cells

A memory is a function from indices to values. Loops that count up or down and
may fail are run round by round; when the state before every round is known in
closed form, the loop takes the first of these states to the last. A slice of a
memory is the list of the values in consecutive cells.
-/
namespace MacRuby.Cells
open List

variable {S : Type*}

/-- `n` rounds, with indices going up from `i`. -/
def forUp (f : ℕ → S → Option S) : ℕ → ℕ → S → Option S
  | _,0,s => some s
  | i,n+1,s => (f i s).bind (forUp f (i+1) n)

/-- `n` rounds, with indices going down from `i`. -/
def forDown (f : ℕ → S → Option S) : ℕ → ℕ → S → Option S
  | _,0,s => some s
  | i,n+1,s => (f i s).bind (forDown f (i-1) n)

variable {f : ℕ → S → Option S} (g : ℕ → S)

lemma forUp_eq {i n : ℕ} (h : ∀ k, i ≤ k → k < i+n → f k (g k)=some (g (k+1))) :
    forUp f i n (g i)=some (g (i+n)) := by
  induction n generalizing i with
  | zero => rfl
  | succ n ih =>
    have hr := ih (i := i+1) fun k hk hk' => h k (by omega) (by omega)
    have he : i+1+n=i+(n+1) := by omega
    rw [forUp,h i le_rfl (by omega),Option.bind_some,hr,he]

lemma forDown_eq {i n : ℕ} (h : ∀ k, k ≤ i → i < k+n → f k (g k)=some (g (k-1))) :
    forDown f i n (g i)=some (g (i-n)) := by
  induction n generalizing i with
  | zero => rfl
  | succ n ih =>
    have he : i-1-n=i-(n+1) := by omega
    rw [forDown,h i le_rfl (by omega),Option.bind_some]
    cases i with
    | zero =>
      have hr := ih fun k hk hk' => h k hk (by omega)
      simpa only [Nat.zero_sub] using hr
    | succ i =>
      have hr := ih (i := i) fun k hk hk' => h k (by omega) (by omega)
      rw [Nat.add_sub_cancel,hr,← he,Nat.add_sub_cancel]

lemma forUp_invariant {P : ℕ → S → Prop} {i n : ℕ} {s : S} (hs : P i s)
    (hr : ∀ k s, i ≤ k → k < i+n → P k s → ∃ s', f k s=some s' ∧ P (k+1) s') :
    ∃ s', forUp f i n s=some s' ∧ P (i+n) s' := by
  induction n generalizing i s with
  | zero => exact ⟨s,rfl,hs⟩
  | succ n ih =>
    obtain ⟨s₁,hf,hs₁⟩ := hr i s le_rfl (by omega) hs
    obtain ⟨s',hl,hs'⟩ := ih hs₁ fun k s hk hk' => hr k s (by omega) (by omega)
    have he : i+1+n=i+n+1 := by omega
    rw [he] at hs'
    exact ⟨s',by rw [forUp,hf,Option.bind_some,hl],hs'⟩

variable {α : Type*} {m m' : ℕ → α} {b b' n : ℕ}

/-- The values of `n` cells from `b` on. -/
def slice (m : ℕ → α) (b n : ℕ) : List α := (List.range n).map (fun i => m (b+i))

@[simp] lemma length_slice (m : ℕ → α) (b n : ℕ) : (slice m b n).length=n := by
  simp only [slice,length_map,length_range]

@[simp] lemma slice_zero (m : ℕ → α) (b : ℕ) : slice m b 0=[] := rfl

lemma getElem?_slice (m : ℕ → α) (b n i : ℕ) :
    (slice m b n)[i]? = if i < n then some (m (b+i)) else none := by
  unfold slice
  split_ifs with h
  · simp [h]
  · simp only [getElem?_map,Option.map_eq_none_iff,getElem?_eq_none_iff, length_range]
    omega

lemma slice_eq {l : List α} (hl : l.length=n) (h : ∀ i < n, l[i]? = some (m (b+i))) :
    slice m b n=l := by
  apply ext_getElem?
  intro i
  rw [getElem?_slice]
  split_ifs with hi
  · exact (h i hi).symm
  · exact (getElem?_eq_none (by omega)).symm

lemma slice_congr (h : ∀ i < n, m (b+i)=m' (b'+i)) : slice m b n=slice m' b' n := by
  apply slice_eq (length_slice m' b' n)
  intro i hi
  rw [getElem?_slice,if_pos hi,h i hi]

lemma slice_add (m : ℕ → α) (b n k : ℕ) : slice m b (n+k)=slice m b n++slice m (b+n) k := by
  apply slice_eq (by simp)
  intro i hi
  rw [getElem?_append,length_slice]
  split_ifs with hn
  · rw [getElem?_slice,if_pos hn]
  · have hin : b+n+(i-n)=b+i := by omega
    rw [getElem?_slice,if_pos (by omega),hin]

lemma slice_one (m : ℕ → α) (b : ℕ) : slice m b 1=[m b] := rfl

lemma slice_take (m : ℕ → α) (b n k : ℕ) : (slice m b n).take k=slice m b (min k n) := by
  symm
  apply slice_eq (by simp)
  intro i hi
  rw [getElem?_take,if_pos (by omega),getElem?_slice,if_pos (by omega)]

lemma slice_drop (m : ℕ → α) (b n k : ℕ) : (slice m b n).drop k=slice m (b+k) (n-k) := by
  symm
  apply slice_eq (by simp)
  intro i hi
  have hin : b+(k+i)=b+k+i := by omega
  rw [getElem?_drop,getElem?_slice,if_pos (by omega),hin]

lemma slice_eq_replicate {x : α} (h : ∀ i < n, m (b+i)=x) : slice m b n=List.replicate n x := by
  apply slice_eq length_replicate
  intro i hi
  rw [getElem?_replicate,if_pos hi,h i hi]

end MacRuby.Cells
