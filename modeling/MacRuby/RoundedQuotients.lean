import Mathlib.Data.Int.Log
import Mathlib.Data.Rat.Floor
import Mathlib.Tactic.LinearCombination
import Mathlib.Tactic.Positivity

/-!
# Rounded numbers

Positive numbers rounded to a given number of significant bits, to the nearest one and on a
tie to the even one.
-/
namespace MacRuby.RoundedQuotients
open Nat

variable {x : ℚ}

def roundEven (q : ℚ) : ℤ :=
  if q-⌊q⌋ < 1/2 then ⌊q⌋
  else if 1/2 < q-⌊q⌋ then ⌊q⌋+1
  else if ⌊q⌋%2=0 then ⌊q⌋ else ⌊q⌋+1

/-- The nearest number of `p` significant bits; exponents are not limited. -/
def nearest (p : ℕ) (x : ℚ) : ℚ :=
  roundEven (x/2^(Int.log 2 x+1-p))*2^(Int.log 2 x+1-p)

lemma abs_roundEven_sub_le (q : ℚ) : |roundEven q-q| ≤ 1/2 := by
  have hl := Int.floor_le q
  have hh := Int.lt_floor_add_one q
  unfold roundEven
  rw [abs_le]
  split_ifs <;> push_cast <;> constructor <;> linarith

lemma roundEven_intCast (n : ℤ) : roundEven n=n := by
  rw [roundEven,Int.floor_intCast,if_pos (by norm_num)]

lemma abs_nearest_sub_le (p : ℕ) (hx : 0 < x) : |nearest p x-x| ≤ x/2^p := by
  have hu : (0 : ℚ) < 2^(Int.log 2 x+1-p) := zpow_pos (by norm_num) _
  have hr := abs_roundEven_sub_le (x/2^(Int.log 2 x+1-p))
  have hl : (2 : ℚ)^Int.log 2 x ≤ x := Int.zpow_log_le_self (by decide) hx
  have hs : (2 : ℚ)^(Int.log 2 x+1-p)=2*2^Int.log 2 x/2^p := by
    rw [zpow_sub₀ (by norm_num),zpow_add₀ (by norm_num),zpow_natCast]
    ring
  have hf : nearest p x-x =
      (roundEven (x/2^(Int.log 2 x+1-p))-x/2^(Int.log 2 x+1-p))*2^(Int.log 2 x+1-p) := by
    rw [nearest,sub_mul,div_mul_cancel₀ _ hu.ne']
  rw [hf,abs_mul,abs_of_pos hu]
  calc _ ≤ 1/2*(2 : ℚ)^(Int.log 2 x+1-p) := mul_le_mul_of_nonneg_right hr hu.le
    _=2^Int.log 2 x/2^p := by rw [hs]; ring
    _ ≤ x/2^p := by gcongr

lemma le_nearest (p : ℕ) (hx : 0 < x) : x*(1-1/2^p) ≤ nearest p x := by
  have hl := (abs_le.mp (abs_nearest_sub_le p hx)).1
  have hx' : x*(1-1/2^p)=x-x/2^p := by ring
  linarith

lemma nearest_le (p : ℕ) (hx : 0 < x) : nearest p x ≤ x*(1+1/2^p) := by
  have hh := (abs_le.mp (abs_nearest_sub_le p hx)).2
  have hx' : x*(1+1/2^p)=x+x/2^p := by ring
  linarith

lemma nearest_pos {p : ℕ} (hp : 0 < p) (hx : 0 < x) : 0 < nearest p x := by
  have ho : (1 : ℚ)/2^p < 1 := (div_lt_one (by positivity)).mpr (one_lt_pow₀ (by norm_num) hp.ne')
  exact (mul_pos hx (by linarith)).trans_le (le_nearest p hx)

lemma nearest_natCast {p n : ℕ} (h : n < 2^p) : nearest p n=n := by
  obtain rfl | hp := Nat.eq_zero_or_pos n
  · rw [nearest,cast_zero,zero_div,← Int.cast_zero,roundEven_intCast,Int.cast_zero,zero_mul]
  have hl : log 2 n+1 ≤ p := log_lt_of_lt_pow hp.ne' h
  obtain ⟨k,hk⟩ := Nat.exists_eq_add_of_le hl
  have he : Int.log 2 (n : ℚ)+1-p = -(k : ℤ) := by
    rw [Int.log_natCast,hk]
    push_cast
    ring
  have hs : (n : ℚ)/2^(-(k : ℤ))=(n*2^k : ℤ) := by
    rw [zpow_neg,div_inv_eq_mul]
    push_cast
    rfl
  rw [nearest,he,hs,roundEven_intCast,← hs,div_mul_cancel₀ _ (zpow_ne_zero _ (by norm_num))]

end MacRuby.RoundedQuotients
