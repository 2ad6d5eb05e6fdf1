import MacRuby.IntegerMethods
import MacRuby.IntegerPowers

/-!
# Powers of integers

`**` of an integer receiver with a positive exponent. `int_pow` squares the base and
halves the exponent for as long as the base has 31 bits, and leaves what remains to
`rb_big_pow`, which gives a Float when the result would have more than a million
bytes. The power is exact when it does not come to that.
-/
namespace MacRuby.FixnumPowers
open Integers IntegerMethods IntegerPowers Nat

/-- The product with the factor that `int_pow` has split off. -/
def timesFactor (neg : Bool) (z : ℤ) : Power → Power
  | .integer v =>
    if z ≠ 1 then .integer (rbBigMul (rbInt2big (if neg then -z else z)) v) else .integer v
  | v => v

/-- The label `bignum` of `int_pow`. -/
def bigPow (neg : Bool) (x z : ℤ) (y : ℕ) : Power :=
  timesFactor neg z (rbBigPow (rbInt2big x) (rbInt2inum y))

/-- The loop of `int_pow`; an even exponent is halved and an odd one is counted down. -/
def intPowLoop (neg : Bool) (x z : ℤ) (y : ℕ) : Power :=
  if y=0 then .integer (rbInt2inum (if neg then long (-z) else z))
  else if y%2=0 then
    if ¬FitSqrtLong x then bigPow neg x z y else intPowLoop neg (long (x*x)) z (y/2)
  else
    let xz := long (x*z)
    if ¬xz < 2^61 ∨ xz.tdiv x ≠ z then bigPow neg x z y else intPowLoop neg x xz (y-1)
termination_by y

def intPow (x : ℤ) (y : ℕ) : Power :=
  let base := if x < 0 then long (-x) else x
  if y%2=1 then intPowLoop (decide (x < 0)) base base (y-1)
  else intPowLoop false base 1 y

def intEvenP (x : Integer) : Bool :=
  match modulo x (.fixnum (long2fix 2)) with
  | .ok (.fixnum r) => r == long2fix 0
  | _ => false

/-- `fix_pow` of an integer exponent. -/
def fixPow (x : BitVec 62) (y : Integer) : Power :=
  let a := fix2long x
  match y with
  | .fixnum y =>
    let b := fix2long y
    if b < 0 then .rational
    else if b=0 then .integer (.fixnum (long2fix 1))
    else if b=1 then .integer (.fixnum x)
    else if a=0 then .integer (.fixnum (long2fix 0))
    else if a=1 then .integer (.fixnum (long2fix 1))
    else if a = -1 then
      .integer (.fixnum (long2fix (if b.tmod 2=0 then 1 else -1)))
    else intPow a b.toNat
  | .bignum y =>
    if intCmp (.bignum y) (.fixnum (long2fix 0)) < 0 then .rational
    else if a=0 then .integer (.fixnum (long2fix 0))
    else if a=1 then .integer (.fixnum (long2fix 1))
    else if a = -1 then
      .integer (.fixnum (long2fix (if intEvenP (.bignum y) then 1 else -1)))
    else rbBigPow (rbInt2big a) (.bignum y)

/-- `**` of an integer receiver. -/
def pow : Integer → Integer → Power
  | .fixnum x,y => fixPow x y
  | .bignum x,y => rbBigPow x y

lemma rbBigPow_singleton {x : Bignum} {d y : ℕ} (hx : x.digits=[d]) (hy : 0 < y)
    (hfi : y < 2^61) : rbBigPow x (rbInt2inum y) =
      if y ≤ biglenLimit then .integer (canonical (x.toInt^y)) else .float := by
  have hf : Fixable y := by
    unfold Fixable
    omega
  have hlo : rbInt2inum y=.fixnum (long2fix y) := if_pos hf
  have hlen : x.digits.length=1 := by rw [hx,List.length_singleton]
  rw [hlo]
  split_ifs with hle
  · have hl : x.digits.length ≤ biglenLimit/(y : ℤ).toNat := by
      rw [hlen]
      exact (one_le_div_iff hy).mpr hle
    rw [rbBigPow_eq hf (by omega) hl,Int.toNat_natCast]
  · have hl : biglenLimit/y=0 := div_eq_of_lt (by omega)
    rw [rbBigPow]
    simp only [fix2long_long2fix hf,Int.toNat_natCast]
    rw [if_neg (by omega),if_neg (by omega),if_pos (.inr (by omega))]

lemma bigPow_eq {neg : Bool} {x z : ℤ} {y : ℕ} (hx : 0 ≤ x) (hx' : x < 2^63) (hz : 0 ≤ z)
    (hz' : z < 2^63) (hn : z=1 → neg=false) (hy : 0 < y) (hf : y < 2^61) : bigPow neg x z y =
      if y ≤ biglenLimit then .integer (canonical ((if neg then -z else z)*x^y)) else .float := by
  obtain ⟨hxv,hxd⟩ := rbInt2big_spec (by omega) hx'
  have hr := rbBigPow_singleton hxd hy hf
  rw [hxv] at hr
  by_cases hl : y ≤ biglenLimit
  · rw [if_pos hl] at hr
    rw [if_pos hl]
    rw [bigPow,hr,timesFactor]
    by_cases ho : z=1
    · rw [if_neg (not_not.mpr ho),hn ho,ho,if_neg Bool.false_ne_true,one_mul]
    · obtain ⟨hzv,hzd⟩ := rbInt2big_spec (n := if neg then -z else z)
        (by split_ifs <;> omega) (by split_ifs <;> omega)
      rw [if_pos ho,rbBigMul_eq,hzv]
  · rw [if_neg hl] at hr
    rw [if_neg hl,bigPow,hr]
    rfl

section Loop
variable {k i y : ℕ} {neg : Bool}

/-- The number of squarings after which the base does not fit 31 bits. -/
def Squarings (a s : ℕ) : Prop := (∀ i < s, a^(2^i) < 2^31) ∧ 2^31 ≤ a^(2^s)

/-- The exponent that is left after the squarings is within the limit of `rb_big_pow`, or
one above it and counted down before. -/
def Leaves (a s b : ℕ) : Prop :=
  b/2^s ≤ biglenLimit ∨ b/2^s=biglenLimit+1 ∧ (s=0 ∨ a^(2^s+b%2^s) < 2^61)

instance (a s b : ℕ) : Decidable (Leaves a s b) := inferInstanceAs (Decidable (_ ∨ _))

variable {a s : ℕ}

lemma base_lt (ha' : a ≤ 2^61) (hs : Squarings a s) (hi : i ≤ s) : a^(2^i) < 2^62 := by
  cases i with
  | zero => rw [pow_zero,pow_one]; omega
  | succ i =>
    have hh := hs.1 i (by omega)
    rw [pow_succ,pow_mul,pow_two]
    calc a^2^i*a^2^i < 2^31*2^31 := mul_lt_mul'' hh hh
      _=2^62 := by norm_num

lemma product_lt (ha : 2 ≤ a) (hs : Squarings a s) (hi : i < s) (hk : k < 2^i) :
    a^(2^i)*a^k < 2^61 := by
  have hb := hs.1 i hi
  have hst : a^k*2 ≤ a^2^i := calc
    a^k*2 ≤ a^k*a := mul_le_mul_left _ ha
    _=a^(k+1) := (pow_succ a k).symm
    _ ≤ a^2^i := Nat.pow_le_pow_right (by omega) hk
  have hsq : a^2^i*(a^k*2) < 2^31*2^31 := calc
    a^2^i*(a^k*2) ≤ a^2^i*a^2^i := mul_le_mul_left _ hst
    _ < 2^31*2^31 := mul_lt_mul'' hb hb
  have has : a^2^i*(a^k*2)=a^2^i*a^k*2 := (mul_assoc _ _ _).symm
  omega

lemma test_iff {x z : ℕ} (hx : 0 < x) (hx' : x < 2^63) :
    (¬long ((x : ℤ)*z) < 2^61 ∨ (long ((x : ℤ)*z)).tdiv x ≠ z) ↔ ¬x*z < 2^61 := by
  rw [← not_and_or,not_iff_not]
  refine ⟨fun h => ?_,fun h => ?_⟩
  · obtain ⟨hlt,hd⟩ := h
    have he := eq_mul_of_tdiv (by omega) rfl hd
    rw [he] at hlt
    exact_mod_cast hlt
  · have hl : long ((x : ℤ)*z)=(x : ℤ)*z := long_eq (by omega) (by omega)
    rw [hl]
    refine ⟨by omega,?_⟩
    exact Int.mul_tdiv_cancel_left _ (by omega)

/-- What holds in each round of the loop: the base was squared `i` times, and the factor
that was split off is a power below the next square. Only the first factor is not tested. -/
structure Round (a s i k y : ℕ) : Prop where
  squared : i ≤ s
  odd : y%2=1 → 0 < i ∧ k < 2^i
  split : k < 2^(i+1)
  factor : a^k < 2^61 ∨ s=0 ∧ k=1 ∧ 0 < y
  exponent : y < 2^61

lemma leaves_of_lt {b : ℕ} (h : b < 2^(s+1)) : Leaves a s b := by
  refine .inl ?_
  have hlt : b/2^s < 2 := by
    rw [div_lt_iff_lt_mul (by positivity)]
    omega
  have hl : 2 ≤ biglenLimit := by decide
  omega

lemma leaves_even_iff (hk : k < 2^(s+1)) (hf : a^k < 2^61 ∨ s=0 ∧ k=1)
    (hy : y%2=0) : Leaves a s (k+y*2^s) ↔ y ≤ biglenLimit := by
  have hp : 0 < 2^s := by positivity
  have hli : biglenLimit=131072 := by decide
  by_cases hl : k < 2^s
  · have hd : (k+y*2^s)/2^s=y := by
      rw [add_mul_div_right _ _ hp,div_eq_of_lt hl,zero_add]
    unfold Leaves
    omega
  · have hd : (k+y*2^s)/2^s=y+1 := by
      rw [add_mul_div_right _ _ hp,Nat.div_eq_of_lt_le (k := 1) (by omega) (by omega), add_comm]
    have hm : 2^s+(k+y*2^s)%2^s=k := by
      rw [add_mul_mod_self_right,mod_eq_sub_mod (by omega),mod_eq_of_lt (by omega)]
      omega
    unfold Leaves
    rw [hm]
    omega

lemma leaves_odd_iff (y : ℕ) (hz : s ≠ 0) (hk : k < 2^s) (ho : ¬a^(2^s)*a^k < 2^61) :
    Leaves a s (k+y*2^s) ↔ y ≤ biglenLimit := by
  have hp : 0 < 2^s := by positivity
  have hd : (k+y*2^s)/2^s=y := by
    rw [add_mul_div_right _ _ hp,div_eq_of_lt hk,zero_add]
  have hm : (k+y*2^s)%2^s=k := by
    rw [add_mul_mod_self_right,mod_eq_of_lt hk]
  unfold Leaves
  rw [hd,hm,pow_add]
  simp only [ho,hz,and_false,or_false]

lemma Round.halve (h : Round a s i k y) (hn : i+1 ≤ s) (he : y%2=0) :
    Round a s (i+1) k (y/2) ∧ k+y/2*2^(i+1)=k+y*2^i := by
  have hs := h.split
  refine ⟨⟨hn,fun _ => ⟨by omega,hs⟩,?_,?_,?_⟩,?_⟩
  · omega
  · rcases h.factor with hl | ⟨hz,-,-⟩
    · exact .inl hl
    · omega
  · have := h.exponent
    omega
  · have hy : y=y/2*2 := by omega
    conv_rhs => rw [hy]
    ring

lemma Round.countDown (h : Round a s i k y) (ho : y%2=1) (hf : a^(2^i)*a^k < 2^61) :
    Round a s i (k+2^i) (y-1) ∧ k+2^i+(y-1)*2^i=k+y*2^i := by
  have hk := (h.odd ho).2
  refine ⟨⟨h.squared,fun ho' => by omega,?_,.inl ?_,?_⟩,?_⟩
  · omega
  · rw [pow_add,mul_comm]
    exact hf
  · have := h.exponent
    omega
  · have hy : y=y-1+1 := by omega
    conv_rhs => rw [hy]
    ring

lemma Round.factor_le (h : Round a s i k y) (ha' : a ≤ 2^61) : a^k ≤ 2^61 := by
  rcases h.factor with hl | ⟨-,ho,-⟩
  · exact hl.le
  · rw [ho,pow_one]
    exact ha'

def loopValue (neg : Bool) (a b : ℕ) : ℤ := (if neg then -1 else 1)*((a^b : ℕ) : ℤ)

lemma bigPow_handedOver (ha : 2 ≤ a) (ha' : a ≤ 2^61) (hs : Squarings a s)
    (hn : neg=true → k ≠ 0) (h : Round a s s k y) (hy : 0 < y)
    (hi : Leaves a s (k+y*2^s) ↔ y ≤ biglenLimit) :
    bigPow neg ((a^(2^s) : ℕ) : ℤ) ((a^k : ℕ) : ℤ) y =
      if Leaves a s (k+y*2^s) then .integer (canonical (loopValue neg a (k+y*2^s)))
      else .float := by
  have hx := base_lt ha' hs le_rfl
  have hzl := h.factor_le ha'
  have hz : ((a^k : ℕ) : ℤ)=1 → neg=false := by
    intro ho
    by_contra hne
    have hk := hn (by simpa using hne)
    have := one_lt_pow hk (by omega : 1 < a)
    omega
  have hv : (if neg=true then -((a^k : ℕ) : ℤ) else ((a^k : ℕ)))*
      ((a^2^s : ℕ))^y=loopValue neg a (k+y*2^s) := by
    rw [loopValue]
    push_cast
    split_ifs <;> ring
  rw [bigPow_eq (by omega) (by omega) (by omega) (by omega) hz hy h.exponent,hv]
  simp only [hi]

lemma intPowLoop_eq (ha : 2 ≤ a) (ha' : a ≤ 2^61) (hs : Squarings a s)
    (hn : neg=true → k ≠ 0) (h : Round a s i k y) :
    intPowLoop neg ((a^(2^i) : ℕ) : ℤ) ((a^k : ℕ) : ℤ) y =
      if Leaves a s (k+y*2^i) then .integer (canonical (loopValue neg a (k+y*2^i)))
      else .float := by
  -- the rounds follow the exponent, which is halved or counted down
  induction y using Nat.strong_induction_on generalizing i k with
  | _ y ih =>
    have hxl := base_lt ha' hs h.squared
    have hx : 0 < a^2^i := by positivity
    have hzl := h.factor_le ha'
    have hsp := h.split
    rw [intPowLoop]
    by_cases hz : y=0
    · have hle : 2^(i+1) ≤ 2^(s+1) :=
        Nat.pow_le_pow_right (by norm_num) (by linarith [h.squared])
      rw [if_pos hz,hz,zero_mul,add_zero,if_pos (leaves_of_lt (by omega)),loopValue]
      cases neg
      · rw [if_neg Bool.false_ne_true,if_neg Bool.false_ne_true,one_mul,
          rbInt2inum_eq (by omega) (by omega)]
      · rw [if_pos rfl,if_pos rfl,neg_one_mul,long_eq (by omega) (by omega),
          rbInt2inum_eq (by omega) (by omega)]
    rw [if_neg hz]
    by_cases hev : y%2=0
    · rw [if_pos hev]
      by_cases hf : FitSqrtLong ((a^2^i : ℕ))
      · have hnex : i+1 ≤ s := by
          by_contra hlast
          have hi : i=s := by linarith [h.squared]
          have hto := hs.2
          rw [← hi] at hto
          unfold FitSqrtLong at hf
          omega
        have hsq : long (((a^2^i : ℕ))*((a^2^i : ℕ))) = ((a^2^(i+1) : ℕ)) := by
          have hl := base_lt ha' hs hnex
          have he : a^2^(i+1)=a^2^i*a^2^i := by rw [pow_succ,pow_mul,pow_two]
          rw [← cast_mul,← he]
          exact long_eq (by omega) (by omega)
        obtain ⟨hr,he⟩ := h.halve hnex hev
        rw [if_neg (not_not.mpr hf),hsq,ih (y/2) (by omega) hn hr,he]
      · have hi : i=s := by
          by_contra hne
          have hl := hs.1 i (lt_of_le_of_ne h.squared hne)
          apply hf
          unfold FitSqrtLong
          omega
        subst hi
        have hfa : a^k < 2^61 ∨ i=0 ∧ k=1 := h.factor.imp id fun hfi =>
          ⟨hfi.1,hfi.2.1⟩
        rw [if_pos hf]
        exact bigPow_handedOver ha ha' hs hn h (by omega) (leaves_even_iff hsp hfa hev)
    · rw [if_neg hev]
      obtain ⟨hip,hk⟩ := h.odd (by omega)
      have ht := test_iff (z := a^k) hx (by omega)
      by_cases hf : a^2^i*a^k < 2^61
      · have hp : long (((a^2^i : ℕ))*((a^k : ℕ)))=((a^(k+2^i) : ℕ)) := by
          have he : a^(k+2^i)=a^2^i*a^k := by rw [pow_add,mul_comm]
          rw [← cast_mul,← he]
          exact long_eq (by omega) (by omega)
        obtain ⟨hr,he⟩ := h.countDown (by omega) hf
        rw [if_neg fun hfai => ht.mp hfai hf,hp, ih (y-1) (by omega) fun _ => by omega hr,he]
      · have hi : i=s := by
          by_contra hne
          exact hf (product_lt ha hs (lt_of_le_of_ne h.squared hne) hk)
        subst hi
        rw [if_pos (ht.mpr hf)]
        exact bigPow_handedOver ha ha' hs hn h (by omega) (leaves_odd_iff y (by omega) hk hf)

lemma exists_squarings (ha : 2 ≤ a) : ∃ s ≤ 5, Squarings a s := by
  have ht : ∃ s, 2^31 ≤ a^2^s := ⟨5,calc
    2^31 ≤ 2^2^5 := by norm_num
    _ ≤ a^2^5 := Nat.pow_le_pow_left ha _⟩
  refine ⟨Nat.find ht,find_le ?_,fun i hi => ?_,Nat.find_spec ht⟩
  · exact calc
      2^31 ≤ 2^2^5 := by norm_num
      _ ≤ a^2^5 := Nat.pow_le_pow_left ha _
  · exact Nat.lt_of_not_le (Nat.find_min ht hi)

lemma squarings_unique {t : ℕ} (hs : Squarings a s) (ht : Squarings a t) : s=t := by
  rcases lt_trichotomy s t with hl | he | hl
  · exact absurd (ht.1 s hl) (not_lt.mpr hs.2)
  · exact he
  · exact absurd (hs.1 t hl) (not_lt.mpr ht.2)

end Loop

variable {a : ℤ} {b s : ℕ}

lemma intPow_eq {y : ℕ} (ha : 2 ≤ a.natAbs) (hf : Fixable a)
    (hs : Squarings a.natAbs s) (hy : 2 ≤ y) (hy' : y < 2^61) : intPow a y =
      if Leaves a.natAbs s y then .integer (canonical (a^y)) else .float := by
  unfold Fixable at hf
  have hb : (if a < 0 then long (-a) else a)=((a.natAbs^2^0 : ℕ)) := by
    rw [pow_zero,pow_one]
    split_ifs
    · rw [long_eq (by omega) (by omega)]
      omega
    · omega
  rw [intPow,hb]
  by_cases ho : y%2=1
  · have hr : Round a.natAbs s 0 1 (y-1) := by
      refine ⟨by omega,fun h => by omega,by norm_num,?_,by omega⟩
      by_cases hl : a.natAbs < 2^61
      · exact .inl (by rw [pow_one]; exact hl)
      · refine .inr ⟨?_,rfl,by omega⟩
        by_contra hne
        have := hs.1 0 (by omega)
        rw [pow_zero,pow_one] at this
        omega
    have hru := intPowLoop_eq ha (by omega) hs (by omega : decide (a < 0)=true → 1 ≠ 0) hr
    have he : 1+(y-1)*2^0=y := by omega
    rw [he] at hru
    rw [if_pos ho]
    refine .trans ?_ (hru.trans ?_)
    · simp only [pow_zero]
    · have hv : loopValue (decide (a < 0)) a.natAbs y=a^y := by
        rw [loopValue]
        push_cast
        by_cases hn : a < 0
        · rw [if_pos (by simpa using hn),abs_of_neg hn,
            Odd.neg_pow (odd_iff.mpr ho),neg_one_mul,neg_neg]
        · rw [if_neg (by simpa using hn),abs_of_nonneg (by omega),one_mul]
      rw [hv]
  · have hr : Round a.natAbs s 0 0 y :=
      ⟨by omega,fun h => absurd h ho,by norm_num,.inl (by norm_num),hy'⟩
    have hru := intPowLoop_eq ha (by omega) hs (by simp : false=true → 0 ≠ 0) hr
    have he : 0+y*2^0=y := by omega
    rw [he] at hru
    rw [if_neg ho]
    refine .trans ?_ (hru.trans ?_)
    · simp only [pow_zero,cast_one]
    · have hv : loopValue false a.natAbs y=a^y := by
        rw [loopValue]
        push_cast
        rw [one_mul,Even.pow_abs (even_iff.mpr (by omega))]
      rw [hv]

/-- The powers that `**` computes as integers. -/
def PowFits (a : ℤ) (b : ℕ) : Prop :=
  a.natAbs ≤ 1 ∨
  (Fixable a ∧ ∃ s, Squarings a.natAbs s ∧ Leaves a.natAbs s b) ∨
  (¬Fixable a ∧ (Nat.digits bigrad a.natAbs).length ≤ biglenLimit/b)

lemma natAbs_le_one_of_powFits (hb : 2^61 ≤ b) (h : PowFits a b) : a.natAbs ≤ 1 := by
  have hli : biglenLimit=131072 := by decide
  by_contra hla
  rcases h with hle | ⟨-,s,hs,hl⟩ | ⟨hn,hlen⟩
  · exact hla hle
  · obtain ⟨t,ht,ht'⟩ := exists_squarings (a := a.natAbs) (by omega)
    rw [← squarings_unique hs ht'] at ht
    have hp : 2^s ≤ 2^5 := Nat.pow_le_pow_right (by norm_num) ht
    have hd : 2^56 ≤ b/2^s := by
      rw [le_div_iff_mul_le (by positivity)]
      omega
    unfold Leaves at hl
    omega
  · rw [div_eq_of_lt (by omega)] at hlen
    have := digits_ne_nil_iff_ne_zero (b := bigrad).mpr (show a.natAbs ≠ 0 by omega)
    exact this (List.length_eq_zero_iff.mp (by omega))

lemma intEvenP_canonical (n : ℤ) : intEvenP (canonical n)=true ↔ n%2=0 := by
  have ht : Integer.fixnum (long2fix 2)=canonical 2 :=
    (canonical_of_fixable (by decide)).symm
  have hf : Fixable (n%2) := by
    unfold Fixable
    omega
  rw [intEvenP,ht,modulo_canonical n (by decide),canonical_of_fixable hf]
  simp only [beq_iff_eq]
  exact long2fix_inj hf (by decide)

lemma pow_of_le_one (hb : 0 < b) (ha : a.natAbs ≤ 1) :
    pow (canonical a) (canonical b)=.integer (canonical (a^b)) := by
  have hf : Fixable a := by
    unfold Fixable
    omega
  have hz : ∀ n, Fixable n → Integer.fixnum (long2fix n)=canonical n :=
    fun n hn => (canonical_of_fixable hn).symm
  have hs : ∀ even, ∀ [Decidable even], (even ↔ b%2=0) → a = -1 →
      Power.integer (.fixnum (long2fix (if even then 1 else -1))) = .integer (canonical (a^b)) := by
    intro even _ hev hm
    rw [hm]
    by_cases h : b%2=0
    · rw [if_pos (hev.mpr h),Even.neg_one_pow (even_iff.mpr h),hz 1 (by decide)]
    · rw [if_neg (mt hev.mp h),Odd.neg_one_pow (odd_iff.mpr (by omega)),
        hz (-1) (by decide)]
  have hc : a=0 ∨ a=1 ∨ a = -1 := by omega
  rw [canonical_of_fixable hf,pow]
  by_cases hbf : Fixable b
  · rw [canonical_of_fixable hbf,fixPow]
    rw [fix2long_long2fix hf,fix2long_long2fix hbf,if_neg (by omega),if_neg (by omega)]
    by_cases ho : (b : ℤ)=1
    · have ho' : b=1 := by omega
      rw [if_pos ho,ho',pow_one,hz a hf]
    · rw [if_neg ho]
      rcases hc with h | h | h
      · rw [if_pos h,h,zero_pow (by omega),hz 0 (by decide)]
      · rw [if_neg (by omega),if_pos h,h,one_pow,hz 1 (by decide)]
      · rw [if_neg (by omega),if_neg (by omega),if_pos h]
        have ht : (b : ℤ).tmod 2=0 ↔ b%2=0 := by
          rw [Int.tmod_eq_emod_of_nonneg (by omega)]
          omega
        exact hs _ ht h
  · have hbi := canonical_of_not_fixable hbf
    have hcm := intCmp_canonical b 0
    have hev := intEvenP_canonical b
    rw [hbi,← hz 0 (by decide),Int.sign_eq_one_of_pos (by omega)] at hcm
    rw [hbi] at hev
    rw [hbi,fixPow]
    rw [fix2long_long2fix hf,if_neg (by omega)]
    rcases hc with h | h | h
    · rw [if_pos h,h,zero_pow (by omega),hz 0 (by decide)]
    · rw [if_neg (by omega),if_pos h,h,one_pow,hz 1 (by decide)]
    · rw [if_neg (by omega),if_neg (by omega),if_pos h]
      exact hs _ (hev.trans (by omega)) h

lemma pow_fixnum (hb : 0 < b) (ha : 2 ≤ a.natAbs) (hf : Fixable a)
    (hs : Squarings a.natAbs s) (hbf : Fixable b) : pow (canonical a) (canonical b) =
      if Leaves a.natAbs s b then .integer (canonical (a^b)) else .float := by
  rw [canonical_of_fixable hf,canonical_of_fixable hbf,pow,fixPow]
  rw [fix2long_long2fix hf,fix2long_long2fix hbf,if_neg (by omega),if_neg (by omega)]
  by_cases ho : (b : ℤ)=1
  · have ho' : b=1 := by omega
    have hl : b < 2^(s+1) := by
      rw [ho']
      exact Nat.one_lt_two_pow (by omega)
    rw [if_pos ho,if_pos (leaves_of_lt hl),ho',pow_one,canonical_of_fixable hf]
  · unfold Fixable at hbf
    rw [if_neg ho,if_neg (by omega),if_neg (by omega),if_neg (by omega),Int.toNat_natCast,
      intPow_eq ha hf hs (by omega) (by omega)]

lemma pow_bignum (hb : 0 < b) (hf : ¬Fixable a) (hbf : Fixable b) :
    pow (canonical a) (canonical b) =
      if (Nat.digits bigrad a.natAbs).length ≤ biglenLimit/b then .integer (canonical (a^b))
      else .float := by
  have hd : (Bignum.ofInt a).digits=digits bigrad a.natAbs := rfl
  rw [canonical_of_not_fixable hf,canonical_of_fixable hbf,pow]
  split_ifs with hl
  · rw [rbBigPow_eq hbf (by omega) (by rw [Int.toNat_natCast]; exact hl),ofInt_toInt,
      Int.toNat_natCast]
  · rw [rbBigPow]
    rw [fix2long_long2fix hbf,if_neg (by omega),if_neg (by omega),hd,Int.toNat_natCast,
      if_pos (.inr (by omega))]

lemma pow_canonical (a : ℤ) (hb : 0 < b) :
    (PowFits a b → pow (canonical a) (canonical b)=.integer (canonical (a^b))) ∧
      (¬PowFits a b → pow (canonical a) (canonical b)=.float) := by
  by_cases hsm : a.natAbs ≤ 1
  · exact ⟨fun _ => pow_of_le_one hb hsm,fun h => absurd (.inl hsm) h⟩
  by_cases hbf : Fixable b
  · by_cases hf : Fixable a
    · obtain ⟨s,-,hs⟩ := exists_squarings (a := a.natAbs) (by omega)
      rw [pow_fixnum hb (by omega) hf hs hbf]
      refine ⟨fun h => ?_,fun h => ?_⟩
      · rcases h with hle | ⟨-,t,ht,hl⟩ | ⟨hn,-⟩
        · exact absurd hle hsm
        · rw [squarings_unique hs ht,if_pos hl]
        · exact absurd hf hn
      · rw [if_neg fun hl => h (.inr (.inl ⟨hf,s,hs,hl⟩))]
    · rw [pow_bignum hb hf hbf]
      refine ⟨fun h => ?_,fun h => ?_⟩
      · rcases h with hle | ⟨hy,-⟩ | ⟨-,hle⟩
        · exact absurd hle hsm
        · exact absurd hy hf
        · rw [if_pos hle]
      · rw [if_neg fun hle => h (.inr (.inr ⟨hf,hle⟩))]
  · have hla : 2^61 ≤ b := by
      unfold Fixable at hbf
      omega
    have hn : ¬PowFits a b := fun h => hsm (natAbs_le_one_of_powFits hla h)
    refine ⟨fun h => absurd h hn,fun _ => ?_⟩
    have hc := intCmp_canonical b 0
    rw [canonical_of_not_fixable hbf,Int.sign_eq_one_of_pos (by omega),
      canonical_of_fixable (by decide)] at hc
    have hbi : ∀ x, rbBigPow x (.bignum (Bignum.ofInt b))=.float := by
      intro x
      rw [rbBigPow]
      rw [ofInt_toInt,if_neg (by omega)]
    rw [canonical_of_not_fixable hbf]
    by_cases hf : Fixable a
    · rw [canonical_of_fixable hf,pow,fixPow]
      rw [fix2long_long2fix hf,if_neg (by omega),if_neg (by omega),if_neg (by omega),
        if_neg (by omega),hbi]
    · rw [canonical_of_not_fixable hf,pow,hbi]

lemma pow_exponent_zero (a : ℤ) : pow (canonical a) (canonical 0)=.integer (canonical 1) := by
  have hz : fix2long (long2fix 0)=0 := fix2long_long2fix (by decide)
  rw [canonical_of_fixable (n := 0) (by decide),canonical_of_fixable (n := 1) (by decide)]
  by_cases hf : Fixable a
  · rw [canonical_of_fixable hf,pow,fixPow]
    rw [hz,if_neg (by decide),if_pos rfl]
  · rw [canonical_of_not_fixable hf,pow,rbBigPow]
    rw [hz,if_pos rfl]

/-- A power with an exponent that is not negative is the canonical representation of the
power, or it is left to floating point because it does not fit. -/
theorem pow_exact_unless_float (a : ℤ) (b : ℕ) :
    (pow (canonical a) (canonical b) = .integer (canonical (a^b)) ∨
      pow (canonical a) (canonical b) = .float) ∧
      (pow (canonical a) (canonical b) = .float ↔ 0 < b ∧ ¬PowFits a b) := by
  rcases Nat.eq_zero_or_pos b with rfl | hb
  · have hp := pow_exponent_zero a
    rw [cast_zero,hp,pow_zero]
    exact ⟨.inl rfl,iff_of_false (fun h => by cases h) fun h => absurd h.1 (by decide)⟩
  · obtain ⟨hfi,hf⟩ := pow_canonical a hb
    by_cases h : PowFits a b
    · rw [hfi h]
      exact ⟨.inl rfl,iff_of_false (fun h => by cases h) fun hn => hn.2 h⟩
    · rw [hf h]
      exact ⟨.inr rfl,iff_of_true rfl ⟨hb,h⟩⟩

end MacRuby.FixnumPowers
