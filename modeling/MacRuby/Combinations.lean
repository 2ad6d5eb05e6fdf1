import Mathlib.Data.Nat.Choose.Bounds
import MacRuby.ArrayIterators

/-!
# The number of combinations

`combi_len` multiplies and divides step by step, and takes a product that is less than one
of its factors for one that does not fit a long.
-/
namespace MacRuby.Combinations
open ArrayIterators Nat

/-- The product of a binomial coefficient and the next factor fits a long. -/
def Fits (n i : ℕ) : Prop := n.choose i*(n-i) < 2^63

/-- The first product that does not fit wraps to less than the factor before it. -/
def Detected (n k : ℕ) : Prop := ∀ i < k, (∀ j < i, Fits n j) → ¬Fits n i →
  ((n.choose i*(n-i) : ℕ) : ℤ).bmod (2^64) < n.choose i

/-- The rounds of the loop, after `if (k*2 > n) k = n-k`. -/
def rounds (n k : ℤ) : ℤ := if n < (k*2).bmod (2^64) then (n-k).bmod (2^64) else k

def binomial (n k : ℤ) : ℤ := if k < 0 then 0 else n.toNat.choose k.toNat

lemma combiLenLoop_exact {n k : ℕ} (hk : k ≤ n) (h : Detected n k) (r a : ℕ) (ha : a+r=k)
    (hfi : ∀ j < a, Fits n j) : combiLenLoop r (a+1) (n-a) (n.choose a)=none ∨
      combiLenLoop r (a+1) (n-a) (n.choose a)=some (n.choose k) := by
  induction r generalizing a with
  | zero =>
    subst ha
    exact .inr rfl
  | succ r ih =>
    have hc : n.choose a*(n-a)=((n.choose a*(n-a) : ℕ) : ℤ) := by
      push_cast [show a ≤ n by omega]
      rfl
    rw [combiLenLoop,hc]
    by_cases hf : Fits n a
    · have hb : ((n.choose a*(n-a) : ℕ) : ℤ).bmod (2^64)=(n.choose a*(n-a) : ℕ) := by
        unfold Fits at hf
        apply Int.bmod_eq_of_le <;> omega
      have hd : ((n.choose a*(n-a) : ℕ) : ℤ)/(a+1)=n.choose (a+1) := by
        rw [← choose_succ_right_eq]
        push_cast
        exact Int.mul_ediv_cancel _ (by omega)
      have hs : (n : ℤ)-a-1=n-(a+1) := by omega
      simp only [hb,hd,hs]
      split_ifs with hl
      · exact .inl rfl
      · apply ih (a+1) (by omega)
        intro j hj
        rcases Nat.lt_succ_iff_lt_or_eq.mp hj with hj | rfl
        · exact hfi j hj
        · exact hf
    · exact .inl (if_pos (h a (by omega) hfi hf))

lemma combiLenLoop_zero (r : ℕ) (i n : ℤ) : combiLenLoop r i n 0=some 0 := by
  induction r generalizing i n with
  | zero => rfl
  | succ r ih => simp [combiLenLoop,ih]

/-- A loop that comes to the factor 0 has 0 as its product from there on. -/
lemma combiLenLoop_beyond {r n : ℕ} (hr : n < r) (i val : ℤ) :
    combiLenLoop r i n val=none ∨ combiLenLoop r i n val=some 0 := by
  induction n generalizing r i val with
  | zero =>
    obtain ⟨r,rfl⟩ := Nat.exists_eq_add_of_lt hr
    simp [combiLenLoop,combiLenLoop_zero]
    omega
  | succ n ih =>
    obtain ⟨r,rfl⟩ := Nat.exists_eq_add_of_lt hr
    simp only [combiLenLoop]
    split_ifs with hl
    · exact .inl rfl
    · have hs : ((n+1 : ℕ) : ℤ)-1=n := by omega
      rw [hs]
      exact ih (by omega) _ _

lemma bmod_spec (x : ℤ) : (-2^63 ≤ x.bmod (2^64) ∧ x.bmod (2^64) < 2^63) ∧
    ∃ q, x.bmod (2^64)=x+2^64*q := by
  have hl := Int.le_bmod (x := x) (m := 2^64) (by decide)
  have hlt := Int.bmod_lt (x := x) (m := 2^64) (by decide)
  obtain ⟨q,hq⟩ := Int.dvd_bmod_sub_self (x := x) (m := 2^64)
  exact ⟨⟨by omega,by omega⟩,q,by omega⟩

/-- What the rounds are when the arguments are longs. -/
lemma rounds_spec {n k : ℤ} (hn : 0 ≤ n ∧ n < 2^63) (hk : -2^63 ≤ k ∧ k < 2^63) :
    rounds n k=k ∨ rounds n k=n-k ∧ k ≠ 0 ∨ rounds n k < 0 ∧ k < 0 := by
  obtain ⟨hd,q,hq⟩ := bmod_spec (k*2)
  obtain ⟨he,r,hr⟩ := bmod_spec (n-k)
  unfold rounds
  split_ifs with h
  · omega
  · exact .inl rfl

lemma binomial_outside {n k : ℤ} (hn : 0 ≤ n) (h : k < 0 ∨ n < k) : binomial n k=0 := by
  unfold binomial
  split_ifs with hk
  · rfl
  · rw [choose_eq_zero_of_lt (by omega)]
    rfl

end MacRuby.Combinations
