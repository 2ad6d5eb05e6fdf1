import MacRuby.FixnumPowers

/-!
# Rounding integers to tens

`Integer#round` with a negative number of digits. If the integer and the power of ten
are Fixnums, the magnitude is rounded on machine words; otherwise the remainder of a
floor division decides between the multiples below and above. The power of ten comes
from `int_pow`, and is a Float when it is too long.
-/
namespace MacRuby.IntegerRounding
open Integers IntegerDivision IntegerMethods IntegerPowers FixnumPowers Int

/-- The loop of `int_pow` when it is entered with the exponent 0, which happens for an exponent
of 1: the base is squared until it is handed over. -/
def squareOut : ℕ → ℤ → ℤ → Option Power
  | 0,_,_ => none
  | fuel+1,x,z =>
    if ¬FitSqrtLong x then some (bigPow false x z 0) else squareOut fuel (long (x*x)) z

/-- `int_pow(10, ndigits)`. -/
def tenPow (ndigits : ℕ) : Option Power :=
  if ndigits=1 then squareOut 5 10 10 else some (intPow 10 ndigits)

/-- The part of `int_round` for two Fixnums. -/
def roundFix (x y : ℤ) : ℤ :=
  let neg := x < 0
  let x := if neg then long (-x) else x
  let x := long ((long (x+y.tdiv 2)).tdiv y*y)
  if neg then long (-x) else x

/-- The part of `int_round` that calls methods. -/
def roundBig (num f : Integer) : Except Error Integer := do
  let h ← idiv f (.fixnum (long2fix 2))
  let r ← modulo num f
  let n := minus num r
  .ok (if intCmp r h < 0 then n else plus n f)

inductive Rounded
  | integer (z : Integer)
  | float
  | rangeError
  | argumentError
  /-- An error of a method that is called, or no end. -/
  | other

/-- `int_round` with the power of ten. -/
def roundTo (num f : Integer) : Rounded :=
  match num,f with
  | .fixnum x,.fixnum y => .integer (rbInt2inum (roundFix (fix2long x) (fix2long y)))
  | num,f => match roundBig num f with
      | .ok z => .integer z
      | .error _ => .other

/-- `int_round` with an argument. -/
def intRound (num : Integer) (n : ℤ) : Rounded :=
  if n < -2^31 ∨ 2^31 ≤ n then .rangeError
  else if n > 0 then .float
  else if n=0 then .integer num
  else if n = -2^31 then .argumentError
  else match tenPow (-n).toNat with
    | some (.integer f) => roundTo num f
    | some .float => .float
    | some .rational => .other
    | none => .other

lemma squarings_ten : Squarings 10 4 := by
  refine ⟨fun i hi => ?_,by decide⟩
  interval_cases i <;> decide

lemma leaves_ten_iff (k : ℕ) : Leaves 10 4 k ↔ k ≤ 2097170 := by
  have hl : biglenLimit=131072 := by decide
  have hp : 10^(2^4+k%2^4) < 2^61 ↔ k%2^4 ≤ 2 := by
    constructor
    · intro h
      by_contra hlarge
      have hle : 10^19 ≤ 10^(2^4+k%2^4) := Nat.pow_le_pow_right (by decide) (by omega)
      omega
    · intro h
      have hle : 10^(2^4+k%2^4) ≤ 10^18 := Nat.pow_le_pow_right (by decide) (by omega)
      omega
  rw [Leaves]
  omega

lemma tenPow_one : tenPow 1=some (.integer (canonical (10^1))) := by
  have hs : squareOut 5 10 10=some (bigPow false (10^16) 10 0) := by
    simp only [squareOut,show FitSqrtLong 10 by decide,show long (10*10)=100 by decide,
      show FitSqrtLong 100 by decide,show long (100*100)=10000 by decide,
      show FitSqrtLong 10000 by decide,show long (10000*10000)=10^8 by decide,
      show FitSqrtLong (10^8) by decide,show long (10^8*10^8)=10^16 by decide,
      show ¬FitSqrtLong (10^16) by decide,not_true_eq_false,not_false_eq_true,if_false,if_true]
  have ho : rbBigPow (rbInt2big (10^16)) (rbInt2inum (0 : ℕ))=.integer (canonical 1) := by
    rw [Nat.cast_zero,rbInt2inum_eq (by decide) (by decide),canonical_of_fixable (by decide),
      rbBigPow]
    rw [fix2long_long2fix (by decide),if_pos rfl,canonical_of_fixable (by decide)]
  rw [tenPow,hs,bigPow,ho,timesFactor]
  rw [rbBigMul_eq]
  rfl

lemma tenPow_eq {k : ℕ} (hk : 0 < k) (hk' : k < 2^61) :
    tenPow k=some (if k ≤ 2097170 then .integer (canonical (10^k)) else .float) := by
  by_cases ho : k=1
  · subst ho
    exact tenPow_one
  · have hp := intPow_eq (a := 10) (by decide) (by decide) squarings_ten (by omega) hk'
    have hl : Leaves (10 : ℤ).natAbs 4 k ↔ k ≤ 2097170 := leaves_ten_iff k
    rw [tenPow,if_neg ho,hp]
    simp only [hl]

/-- A multiple of `m` nearest to `a`, and of two of them the one away from zero. -/
structure IsNearest (a m r : ℤ) : Prop where
  dvd : m ∣ r
  near : 2*|a-r| ≤ m
  tie : 2*|a-r| = m → |a| < |r|

variable {a m : ℤ}

lemma isNearest_neg {r : ℤ} (h : IsNearest a m r) : IsNearest (-a) m (-r) := by
  have ha : |-a - -r| = |a-r| := by
    rw [neg_sub_neg,abs_sub_comm]
  exact ⟨dvd_neg.mpr h.dvd,ha ▸ h.near,fun ht => by
    rw [abs_neg,abs_neg]
    exact h.tie (ha ▸ ht)⟩

lemma isNearest_of_nonneg (ha : 0 ≤ a) (hm : 0 < m) (he : 2 ∣ m) :
    IsNearest a m ((a+m/2)/m*m) := by
  obtain ⟨c,rfl⟩ := he
  have hh : 2*c/2=c := by omega
  have hd := emod_add_mul_ediv (a+c) (2*c)
  have hl := emod_nonneg (a+c) (show 2*c ≠ 0 by omega)
  have hhi := emod_lt_of_pos (a+c) hm
  rw [hh]
  generalize (a+c)/(2*c)=q at hd
  generalize (a+c)%(2*c)=s at hd hl hhi
  have hr : q*(2*c)=a+c-s := by linarith
  refine ⟨dvd_mul_left _ _,?_,?_⟩
  · rw [hr]
    have hab : |a-(a+c-s)| ≤ c := abs_le.mpr ⟨by omega,by omega⟩
    omega
  · intro ht
    rw [hr] at ht ⊢
    have hs : s=0 := by
      rcases abs_cases (a-(a+c-s)) with h | h <;> omega
    rw [abs_of_nonneg ha,abs_of_nonneg (by omega)]
    omega

lemma isNearest_floor_iff (hm : 0 < m) (he : 2 ∣ m) :
    IsNearest a m (if a%m < m/2 then a-a%m else a-a%m+m) ↔ ¬(a < 0 ∧ 2*(a%m)=m) := by
  obtain ⟨c,rfl⟩ := he
  have hdiv := emod_add_mul_ediv a (2*c)
  have hl := emod_nonneg a (show 2*c ≠ 0 by omega)
  have hhi := emod_lt_of_pos a hm
  generalize a/(2*c)=q at hdiv
  generalize a%(2*c)=s at hdiv hl hhi
  have hmu : 2*c*q=a-s := by omega
  have hd : 2*c ∣ a-s := ⟨q,hmu.symm⟩
  split_ifs with hs
  · refine iff_of_true ⟨hd,?_,?_⟩ (by omega)
    all_goals
      rw [sub_sub_cancel,abs_of_nonneg hl]
      omega
  · have hdi : |a-(a-s+2*c)| = 2*c-s := by
      rw [show a-(a-s+2*c) = -(2*c-s) by ring,abs_neg,abs_of_nonneg (by omega)]
    have hd' : 2*c ∣ a-s+2*c := dvd_add hd (dvd_refl _)
    constructor
    · rintro h ⟨hne,ht⟩
      have hlt := h.tie (by rw [hdi]; omega)
      -- below zero the multiple above a tie is the one towards zero
      have hle : a-s+2*c ≤ 0 := by
        have hq : q+1 ≤ 0 := by
          by_contra hq
          have hn : 0 ≤ 2*c*q := mul_nonneg hm.le (by omega)
          omega
        have hmu' : a-s+2*c=2*c*(q+1) := by rw [← hmu]; ring
        rw [hmu']
        exact mul_nonpos_of_nonneg_of_nonpos hm.le hq
      rw [abs_of_neg hne,abs_of_nonpos hle] at hlt
      omega
    · intro h
      refine ⟨hd',by rw [hdi]; omega,fun ht => ?_⟩
      have hn : 0 ≤ a := by
        by_contra hne
        exact h ⟨by omega,by omega⟩
      rw [abs_of_nonneg hn,abs_of_nonneg (by omega)]
      omega

variable {k : ℕ}

lemma two_dvd_ten_pow (hk : 0 < k) : (2 : ℤ) ∣ 10^k :=
  (show (2 : ℤ) ∣ 10 by decide).trans (dvd_pow_self 10 (by omega))

lemma roundFix_spec {x y : ℤ} (hx : Fixable x) (hy : Fixable y) (hp : 0 < y) (he : 2 ∣ y) :
    IsNearest x y (roundFix x y) ∧ -2^63 ≤ roundFix x y ∧ roundFix x y < 2^63 := by
  unfold Fixable at hx hy
  have hm : ∀ n, 0 ≤ n → n ≤ 2^61 →
      long ((long (n+y.tdiv 2)).tdiv y*y)=(n+y/2)/y*y ∧ 0 ≤ (n+y/2)/y*y ∧ (n+y/2)/y*y < 2^62 := by
    intro n hn hn'
    have hh : y.tdiv 2=y/2 := tdiv_eq_ediv_of_nonneg hp.le
    have hl : long (n+y/2)=n+y/2 := long_eq (by omega) (by omega)
    have hq : (n+y/2).tdiv y=(n+y/2)/y := tdiv_eq_ediv_of_nonneg (by omega)
    have hle : (n+y/2)/y*y ≤ n+y/2 := Int.ediv_mul_le _ hp.ne'
    have hno : 0 ≤ (n+y/2)/y*y := mul_nonneg (ediv_nonneg (by omega) hp.le) hp.le
    rw [hh,hl,hq]
    exact ⟨long_eq (by omega) (by omega),hno,by omega⟩
  unfold roundFix
  by_cases hneg : x < 0
  · obtain ⟨hr,hlo,hhi⟩ := hm (-x) (by omega) (by omega)
    have hne := isNearest_neg (isNearest_of_nonneg (a := -x) (by omega) hp he)
    rw [neg_neg] at hne
    simp only [if_pos hneg]
    rw [long_eq (n := -x) (by omega) (by omega),hr,long_eq (by omega) (by omega)]
    exact ⟨hne,by omega,by omega⟩
  · obtain ⟨hr,hlo,hhi⟩ := hm x (by omega) (by omega)
    simp only [if_neg hneg]
    rw [hr]
    exact ⟨isNearest_of_nonneg (by omega) hp he,by omega,by omega⟩

lemma roundBig_spec (a : ℤ) {m : ℤ} (hp : 0 < m) (he : 2 ∣ m) :
    roundBig (canonical a) (canonical m) =
      .ok (canonical (if a%m < m/2 then a-a%m else a-a%m+m)) := by
  have ht : Integer.fixnum (long2fix 2)=canonical 2 := (canonical_of_fixable (by decide)).symm
  have hc : intCmp (canonical (a%m)) (canonical (m/2)) < 0 ↔ a%m < m/2 := by
    rw [intCmp_canonical]
    constructor
    · intro h
      by_contra hle
      have hs := Int.sign_nonneg_iff.mpr (show 0 ≤ a%m-m/2 by omega)
      omega
    · intro h
      rw [sign_eq_neg_one_of_neg (by omega)]
      decide
  rw [roundBig,ht,idiv_of_dvd (by decide) he,modulo_canonical a hp]
  change Except.ok (if intCmp (canonical (a%m)) (canonical (m/2)) < 0 then
    minus (canonical a) (canonical (a%m))
    else plus (minus (canonical a) (canonical (a%m))) (canonical m))=_
  rw [minus_canonical,plus_canonical]
  by_cases h : a%m < m/2
  · rw [if_pos h,if_pos (hc.mpr h)]
  · rw [if_neg h,if_neg (mt hc.mp h)]

lemma roundTo_fixnum {a m : ℤ} (ha : Fixable a) (hm : Fixable m) (hp : 0 < m)
    (he : 2 ∣ m) : roundTo (canonical a) (canonical m)=.integer (canonical (roundFix a m)) := by
  obtain ⟨-,hl,hh⟩ := roundFix_spec ha hm hp he
  rw [canonical_of_fixable ha,canonical_of_fixable hm,roundTo,fix2long_long2fix ha,
    fix2long_long2fix hm,rbInt2inum_eq hl hh]

lemma roundTo_bignum {a m : ℤ} (h : ¬(Fixable a ∧ Fixable m)) (hp : 0 < m) (he : 2 ∣ m) :
    roundTo (canonical a) (canonical m) =
      .integer (canonical (if a%m < m/2 then a-a%m else a-a%m+m)) := by
  have hb := roundBig_spec a hp he
  by_cases ha : Fixable a
  · rw [canonical_of_not_fixable fun hm => h ⟨ha,hm⟩] at hb ⊢
    rw [roundTo,hb]
    exact fun _ _ _ hm => by cases hm
  · rw [canonical_of_not_fixable ha] at hb ⊢
    rw [roundTo,hb]
    exact fun _ _ ha => by cases ha

lemma intRound_eq (a : ℤ) (hk : 0 < k) (hk' : k ≤ 2097170) :
    intRound (canonical a) (-k)=roundTo (canonical a) (canonical (10^k)) := by
  rw [intRound,if_neg (by omega),if_neg (by omega),if_neg (by omega),if_neg (by omega),neg_neg,
    toNat_natCast,tenPow_eq hk (by omega),if_pos hk']

lemma intRound_large (a : ℤ) (hk : 2097170 < k) (r : Integer) :
    intRound (canonical a) (-k) ≠ .integer r := by
  unfold intRound
  by_cases hr : (k : ℤ) ≤ 2^31
  · by_cases hm : (k : ℤ)=2^31
    · rw [if_neg (by omega),if_neg (by omega),if_neg (by omega),if_pos (by omega)]
      exact fun h => by cases h
    · rw [if_neg (by omega),if_neg (by omega),if_neg (by omega),if_neg (by omega),tenPow_eq (by omega) (by omega),if_neg (by omega)]
      exact fun h => by cases h
  · rw [if_pos (by omega)]
    exact fun h => by cases h

/-- Rounding to `10^k` gives the nearest multiple, with halves away from zero, exactly if the
power of ten is computed as an integer and the integer is no tie below zero that is handled by
methods. -/
theorem round_nearest_iff (a : ℤ) (k : ℕ) :
    (∃ r, intRound (canonical a) (-(k+1 : ℕ)) = .integer (canonical r) ∧ IsNearest a (10^(k+1)) r) ↔
      k+1 ≤ 2097170 ∧
        ((Fixable a ∧ Fixable (10^(k+1))) ∨ ¬(a < 0 ∧ 2*(a%10^(k+1)) = 10^(k+1))) := by
  by_cases hl : k+1 ≤ 2097170
  · rw [and_iff_right hl]
    have hp : (0 : ℤ) < 10^(k+1) := by positivity
    have he := two_dvd_ten_pow (Nat.succ_pos k)
    have hro := intRound_eq a (Nat.succ_pos k) hl
    have hva : ∀ v, intRound (canonical a) (-(k+1))=.integer (canonical v) →
        ((∃ r, intRound (canonical a) (-(k+1 : ℕ))=.integer (canonical r) ∧
          IsNearest a (10^(k+1)) r) ↔ IsNearest a (10^(k+1)) v) := by
      intro v hv
      refine ⟨?_,fun h => ⟨v,hv,h⟩⟩
      rintro ⟨r,hr,hn⟩
      have heq := congrArg Integer.toInt (Rounded.integer.inj (hv.symm.trans hr))
      rw [canonical_toInt,canonical_toInt] at heq
      rwa [heq]
    by_cases hf : Fixable a ∧ Fixable (10^(k+1))
    · rw [hva _ (hro.trans (roundTo_fixnum hf.1 hf.2 hp he))]
      exact iff_of_true (roundFix_spec hf.1 hf.2 hp he).1 (.inl hf)
    · rw [hva _ (hro.trans (roundTo_bignum hf hp he)), isNearest_floor_iff hp he,or_iff_right hf]
  · refine iff_of_false ?_ fun h => hl h.1
    rintro ⟨r,hr,-⟩
    exact intRound_large a (by omega) _ hr

/-- The tie below zero `-(10^20+5)` goes to `-10^20`. -/
theorem round_tie_towards_zero :
    intRound (canonical (-(10^20+5))) (-1) = .integer (canonical (-10^20)) ∧
      ¬IsNearest (-(10^20+5)) 10 (-10^20) := by
  constructor
  · have hr := roundTo_bignum (a := -(10^20+5)) (m := 10^1) (by decide) (by decide) (by decide)
    exact (intRound_eq (-(10^20+5)) (by decide) (by decide)).trans hr
  · intro h
    exact absurd (h.tie (by decide)) (by decide)

end MacRuby.IntegerRounding
