import Mathlib.Data.Rat.Lemmas

/-!
# Sums and products of fractions in lowest terms

A sum of two fractions in lowest terms is reduced by a divisor of the greatest common
divisor of the denominators, and a product is reduced before the multiplication, each
numerator against the other denominator. The results are in lowest terms.
-/
namespace MacRuby.LowestTerms
open Nat

lemma num_den_of_coprime {q : ℚ} {n : ℤ} {d : ℕ} (hd : 0 < d) (hc : n.natAbs.Coprime d)
    (hq : q=n/d) : q.num=n ∧ q.den=d := by
  have hd' : (0 : ℤ) < d := by exact_mod_cast hd
  have hn := Rat.num_div_eq_of_coprime hd' (by simpa using hc)
  have hde := Rat.den_div_eq_of_coprime hd' (by simpa using hc)
  rw [hq]
  exact ⟨hn,by exact_mod_cast hde⟩

variable (p q : ℚ)

def sumNum : ℤ :=
  p.num*(q.den/p.den.gcd q.den : ℕ)+q.num*(p.den/p.den.gcd q.den : ℕ)

def sumGcd : ℕ := (sumNum p q).natAbs.gcd (p.den.gcd q.den)

lemma sumGcd_dvd_den : sumGcd p q ∣ q.den :=
  (gcd_dvd_right _ _).trans (Nat.gcd_dvd_right _ _)

lemma sumGcd_dvd_num : (sumGcd p q : ℤ) ∣ sumNum p q :=
  Int.natCast_dvd.mpr (Nat.gcd_dvd_left _ _)

lemma add_num_den : (p+q).num=sumNum p q/sumGcd p q ∧
      (p+q).den=q.den/sumGcd p q*(p.den/p.den.gcd q.den) := by
  change (Rat.add p q).num=_ ∧ (Rat.add p q).den=_
  unfold Rat.add
  by_cases hg : p.den.gcd q.den=1
  · simp only [dif_pos hg]
    simp only [sumGcd,sumNum,hg,gcd_one_right,Nat.div_one,Int.natCast_one,Int.ediv_one]
    exact ⟨trivial,mul_comm _ _⟩
  · simp only [dif_neg hg,Rat.maybeNormalize_eq]
    rw [Int.divExact_eq_ediv,mul_comm (p.den/_),Nat.div_mul_right_comm (sumGcd_dvd_den p q)]
    exact ⟨rfl,rfl⟩

def crossGcd : ℕ := p.num.natAbs.gcd q.den

lemma crossGcd_pos : 0 < crossGcd p q := gcd_pos_of_pos_right _ q.den_pos

lemma crossGcd_dvd_num : (crossGcd p q : ℤ) ∣ p.num := Int.natCast_dvd.mpr (Nat.gcd_dvd_left _ _)

lemma crossGcd_dvd_den : crossGcd p q ∣ q.den := Nat.gcd_dvd_right _ _

lemma mul_num_den : (p*q).num=p.num/crossGcd p q*(q.num/crossGcd q p) ∧
      (p*q).den=p.den/crossGcd q p*(q.den/crossGcd p q) := by
  change (Rat.mul p q).num=_ ∧ (Rat.mul p q).den=_
  unfold Rat.mul
  exact ⟨rfl,rfl⟩

end MacRuby.LowestTerms
