import Mathlib.Data.List.GetD
import MacRuby.RoundedQuotients

/-!
# The estimate of the number of digits

Before a Bignum is printed, the length of its text is estimated from its bits,
in double precision and with a table of logarithms that has 15 digits:
`(long)ceil(bits/log_2[base - 2])`. Rounding, of the entries as of the quotient,
can make the estimate one too small.
-/
namespace MacRuby.DigitEstimate
open RoundedQuotients

def double (x : ℚ) : ℚ := nearest 53 x

/-- `log_2`, as written in the source. -/
def log2Table : List ℚ :=
  [1.0,              1.58496250072116, 2.0,
   2.32192809488736, 2.58496250072116, 2.8073549220576,
   3.0,              3.16992500144231, 3.32192809488736,
   3.4594316186373,  3.58496250072116, 3.70043971814109,
   3.8073549220576,  3.90689059560852, 4.0,
   4.08746284125034, 4.16992500144231, 4.24792751344359,
   4.32192809488736, 4.39231742277876, 4.4594316186373,
   4.52356195605701, 4.58496250072116, 4.64385618977472,
   4.70043971814109, 4.75488750216347, 4.8073549220576,
   4.85798099512757, 4.90689059560852, 4.95419631038688,
   5.0,              5.04439411935845, 5.08746284125034,
   5.12928301694497, 5.16992500144231]

def log2 (base : ℕ) : ℚ := log2Table.getD (base-2) 1

/-- `(long)ceil(bits/log_2[base - 2])`. -/
def digitEstimate (bits base : ℕ) : ℕ := ⌈double (double bits/double (log2 base))⌉.toNat

variable {bits : ℕ}

lemma one_le_log2 (base : ℕ) : 1 ≤ log2 base := by
  have ha : ∀ c ∈ log2Table,(1 : ℚ) ≤ c := by decide +kernel
  by_cases hl : base-2 < log2Table.length
  · rw [log2,List.getD_eq_getElem _ _ hl]
    exact ha _ (List.getElem_mem hl)
  · rw [log2,List.getD_eq_default _ _ (by omega)]

lemma digitEstimate_le (hp : 0 < bits) (base : ℕ) : digitEstimate bits base ≤ 2*bits := by
  have hb : (0 : ℚ) < bits := by exact_mod_cast hp
  have hlo := one_le_log2 base
  have hl : 0 < log2 base := by linarith
  have hd : 1-1/2^53 ≤ double (log2 base) :=
    (le_mul_of_one_le_left (by norm_num) hlo).trans (le_nearest 53 hl)
  have hqu : double bits/double (log2 base) ≤ bits*(1+1/2^53)/(1-1/2^53) :=
    div_le_div₀ (by positivity) (nearest_le 53 hb) (by norm_num) hd
  have hq : 0 < double bits/double (log2 base) :=
    div_pos (nearest_pos (by decide) hb) (nearest_pos (by decide) hl)
  have hr : double (double bits/double (log2 base)) ≤ bits*(1+1/2^53)/(1-1/2^53)*(1+1/2^53) :=
    (nearest_le 53 hq).trans (mul_le_mul_of_nonneg_right hqu (by norm_num))
  have hc : ⌈double (double bits/double (log2 base))⌉ ≤ 2*(bits : ℤ) := by
    rw [Int.ceil_le]
    refine hr.trans ?_
    push_cast
    have hf : (bits : ℚ)*(1+1/2^53)/(1-1/2^53)*(1+1/2^53) =
        bits*((1+1/2^53)/(1-1/2^53)*(1+1/2^53)) := by ring
    rw [hf,mul_comm 2]
    exact mul_le_mul_of_nonneg_left (by norm_num) hb.le
  unfold digitEstimate
  omega

lemma digitEstimate_two (h : bits < 2^53) : digitEstimate bits 2=bits := by
  have ho : double (log2 2)=1 := by
    have hl : log2 2=((1 : ℕ)) := by decide +kernel
    rw [double,hl,nearest_natCast (by decide),Nat.cast_one]
  have hb : double bits=bits := nearest_natCast h
  rw [digitEstimate,ho,hb,div_one,hb,Int.ceil_natCast,Int.toNat_natCast]

end MacRuby.DigitEstimate
