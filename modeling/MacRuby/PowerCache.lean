import MacRuby.IntegerDivision
import MacRuby.IntegerPowers

/-!
# The cache of powers of the radix

Long numbers are printed by halves, and a half is cut off by dividing by the
radix to a power of two. Those powers are kept from call to call, by radix and
exponent; an entry is computed at its first use, by squaring the one before it.
An entry carries the proof of what it holds.

The exponents are found with bit tricks on words of 64 bits. The width of the
lower half is computed as `1 << m` in the type `int`, although it is stored in
a `long`; from `1 << 31` on this has no defined value.
-/
namespace MacRuby.PowerCache
open Digits Integers IntegerDivision IntegerPowers Nat

variable {k x : ℕ}

/-- `ones`: the number of bits that are set. -/
def ones (x : ℕ) : ℕ :=
  let x := x-((x>>>1)&&&0x5555555555555555)
  let x := ((x>>>2)&&&0x3333333333333333)+(x&&&0x3333333333333333)
  let x := ((x>>>4)+x)&&&0x0f0f0f0f0f0f0f0f
  let x := x+(x>>>8)
  let x := x+(x>>>16)
  let x := x+(x>>>32)
  x&&&0x7f

def smear (x : ℕ) : ℕ :=
  let x := x|||x>>>1
  let x := x|||x>>>2
  let x := x|||x>>>4
  let x := x|||x>>>8
  let x := x|||x>>>16
  x|||x>>>32

def floorLog2 (x : ℕ) : ℕ := ones (smear x)-1

def pow2P (x : ℕ) : Prop := x&&&(x-1)=0

instance (x : ℕ) : Decidable (pow2P x) := inferInstanceAs (Decidable (_=_))

def ceilLog2 (x : ℕ) : ℕ := floorLog2 x+if pow2P x then 0 else 1

lemma ones_two_pow_sub_one : ∀ k < 65,ones (2^k-1)=k := by decide

/-- The highest bit is bit `k`, and it and the `w-1` bits below it are set. -/
def TopOnes (k w y : ℕ) : Prop := y < 2^(k+1) ∧ ∀ i ≤ k,k < i+w → y.testBit i

lemma TopOnes.step {w y : ℕ} (h : TopOnes k w y) : TopOnes k (2*w) (y|||y>>>w) := by
  refine ⟨or_lt_two_pow h.1 ((shiftRight_le y w).trans_lt h.1),?_⟩
  intro i hi hw
  rw [testBit_or,testBit_shiftRight,Bool.or_eq_true]
  by_cases hn : k < i+w
  · exact .inl (h.2 i hi hn)
  · exact .inr (h.2 (w+i) (by omega) (by omega))

lemma testBit_of_mem (hl : 2^k ≤ x) (hh : x < 2^(k+1)) : x.testBit k := by
  have hd : x/2^k=1 := Nat.div_eq_of_lt_le (by omega) (by rw [pow_succ] at hh; omega)
  rw [testBit_eq_decide_div_mod_eq,hd]
  rfl

lemma smear_eq (hl : 2^k ≤ x) (hh : x < 2^(k+1)) (hk : k < 64) : smear x=2^(k+1)-1 := by
  have ho : TopOnes k 1 x := by
    refine ⟨hh,fun i hi hw => ?_⟩
    obtain rfl : i=k := by omega
    exact testBit_of_mem hl hh
  have ha : TopOnes k 64 (smear x) := ho.step.step.step.step.step.step
  apply eq_of_testBit_eq
  intro i
  by_cases hi : i < k+1
  · rw [ha.2 i (by omega) (by omega)]
    simpa using hi
  · rw [testBit_lt_two_pow (ha.1.trans_le (Nat.pow_le_pow_right (by decide) (by omega)))]
    simpa using hi

lemma floorLog2_eq (hl : 2^k ≤ x) (hh : x < 2^(k+1)) (hk : k < 64) : floorLog2 x=k := by
  rw [floorLog2,smear_eq hl hh hk,ones_two_pow_sub_one (k+1) (by omega),Nat.add_sub_cancel]

lemma pow2P_iff (hl : 2^k ≤ x) (hh : x < 2^(k+1)) : pow2P x ↔ x=2^k := by
  constructor
  · intro hz
    by_contra hn
    have hx := testBit_of_mem hl hh
    have hp : (x-1).testBit k := testBit_of_mem (by omega) (by omega)
    have hb : (x&&&x-1).testBit k=true := by rw [testBit_and,hx,hp]; rfl
    rw [hz,zero_testBit] at hb
    exact Bool.false_ne_true hb
  · intro he
    rw [pow2P,he,and_two_pow_sub_one_eq_mod,mod_self]

lemma ceilLog2_spec (hpo : 0 < x) (hx : x < 2^64) : x ≤ 2^ceilLog2 x ∧ 2^ceilLog2 x < 2*x := by
  have hl := pow_log_le_self 2 hpo.ne'
  have hh := lt_pow_succ_log_self (b := 2) (by decide) x
  have hk : log 2 x < 64 := log_lt_of_lt_pow hpo.ne' hx
  generalize log 2 x=k at hl hh hk
  rw [ceilLog2,floorLog2_eq hl hh hk]
  split_ifs with hp
  · have he := (pow2P_iff hl hh).mp hp
    rw [add_zero]
    omega
  · have hn : x ≠ 2^k := mt (pow2P_iff hl hh).mpr hp
    omega

variable {y : Bignum}

/-- A radix that `to_s` accepts. -/
structure Radix where
  base : ℕ
  two_le : 2 ≤ base
  le_36 : base ≤ 36
  deriving DecidableEq

/-- A positive number without zeros at the top, of the value `base^e`. -/
structure IsPower (base e : ℕ) (y : Bignum) : Prop where
  sign : y.sign=true
  divisor : Divisor y
  value : y.toInt=(base : ℤ)^e

/-- An entry for the exponent `KARATSUBA_DIGITS*2^i`. -/
def Entry (b : Radix) (i : ℕ) : Type := {y : Bignum // IsPower b.base (128*2^i) y}

/-- `big2str_power_cache`; empty entries are `Qnil`. -/
def Cache : Type := (b : Radix) → (i : ℕ) → Option (Entry b i)

def Cache.store (c : Cache) (b : Radix) (i : ℕ) (y : Entry b i) : Cache :=
  fun b' i' => if h : b=b' ∧ i=i' then some ⟨y.1,h.1 ▸ h.2 ▸ y.2⟩ else c b' i'

def bignumOf : Power → Bignum
  | .integer (.bignum y) => y
  | _ => rbInt2big 0

lemma divisor_of_trunc (hne : y.toInt ≠ 0)
    (ht : 1 < y.digits.length → y.digits.getLast? ≠ some 0) : Divisor y := by
  have hv : Nat.ofDigits bigrad y.digits ≠ 0 := by
    rw [← toInt_natAbs]
    omega
  have hn : y.digits ≠ [] := by
    intro hn
    rw [hn] at hv
    exact hv rfl
  refine ⟨y.digits.dropLast,y.digits.getLast hn,(List.dropLast_concat_getLast hn).symm,?_⟩
  rw [pos_iff_ne_zero]
  intro hz
  have hl : y.digits.getLast? = some 0 := by rw [List.getLast?_eq_some_getLast hn,hz]
  by_cases hle : 1 < y.digits.length
  · exact ht hle hl
  · obtain ⟨d,hd⟩ := List.length_eq_one_iff.mp (show y.digits.length=1 by
      have := List.length_pos_iff.mpr hn
      omega)
    rw [hd] at hv
    rw [hd,List.getLast?_singleton,Option.some.injEq] at hl
    exact hv hl

lemma IsPower.bigsqr {base e : ℕ} (hba : 0 < base) (h : IsPower base e y) :
    IsPower base (2*e) (bigsqr y) := by
  have hv : (IntegerPowers.bigsqr y).toInt=(base : ℤ)^(2*e) := by
    rw [bigsqr_toInt,h.value,← pow_mul,mul_comm]
  refine ⟨rfl,divisor_of_trunc ?_ ?_,hv⟩
  · rw [hv]
    exact pow_ne_zero _ (by omega)
  · obtain ⟨ws,he,hb,-⟩ := sqrDigits_spec y.digits_lt
    change 1 < (sqrDigits y.digits).length → (sqrDigits y.digits).getLast? ≠ some 0
    rw [he]
    exact (trunc_spec hb).2.2.1

lemma isPower_first (b : Radix) :
    IsPower b.base (128*2^0) (bignumOf (rbBigPow (rbInt2big b.base) (.fixnum (long2fix 128)))) := by
  have hle := b.le_36
  have ht := b.two_le
  obtain ⟨hv,hdi⟩ := rbInt2big_spec (n := b.base) (by omega) (by omega)
  have hp := rbBigPow_eq (show Fixable 128 by decide) (by decide)
    (by rw [hdi,List.length_singleton]; decide)
  have hl : (2 : ℤ)^128 ≤ b.base^128 := pow_le_pow_left₀ (by decide) (by omega) 128
  have hn : ¬Fixable (b.base^128) := by
    unfold Fixable
    omega
  rw [hp,hv,show (128 : ℤ).toNat=128 from rfl,canonical_of_not_fixable hn]
  refine ⟨?_,?_,ofInt_toInt _⟩
  · change decide (0 ≤ b.base^128)=true
    rw [decide_eq_true_eq]
    omega
  · have hd := operand_divisor (n := b.base^128) (by omega)
    rwa [canonical_of_not_fixable hn] at hd

def firstPower (b : Radix) : Entry b 0 :=
  ⟨bignumOf (rbBigPow (rbInt2big b.base) (.fixnum (long2fix 128))),isPower_first b⟩

def nextPower {b : Radix} {i : ℕ} (y : Entry b i) : Entry b (i+1) :=
  ⟨bigsqr y.1,by
    have h := y.2.bigsqr (by have := b.two_le; omega)
    rwa [mul_left_comm,← pow_succ'] at h⟩

def powerCacheGetPower0 (c : Cache) (b : Radix) : (i : ℕ) → Entry b i × Cache
  | 0 =>
    match c b 0 with
    | some y => (y,c)
    | none => (firstPower b,c.store b 0 (firstPower b))
  | i+1 =>
    match c b (i+1) with
    | some y => (y,c)
    | none =>
      let r := powerCacheGetPower0 c b i
      (nextPower r.1,r.2.store b (i+1) (nextPower r.1))

variable {n1 : ℕ}

inductive Error
  /-- `ArgumentError`: "invalid radix %d". -/
  | invalidRadix (base : ℤ)
  /-- `RangeError`: "bignum too big to convert into `string'". -/
  | tooBig
  /-- `RangeError`: "integer %d too %s to convert to `int'". -/
  | intRange (num : ℤ)
  /-- `1 << m` is not an `int`, so its value is undefined. -/
  | shiftOverflow (m : ℕ)
  /-- `rb_bug`: "n1 > KARATSUBA_DIGITS". -/
  | bug
  | division (e : IntegerDivision.Error)
  /-- The halves were not shorter than the whole. -/
  | depth
  deriving DecidableEq

/-- The squarings beyond the table; there are at most as many as a `long` has bits. -/
def squareUp (n1 : ℕ) : ℕ → ℕ → Bignum → Bignum
  | 0,_,t => t
  | n+1,j,t => if n1 > j then squareUp n1 n (2*j) (bigsqr t) else t

/-- The index of the entry, within `MAX_BIG2STR_TABLE_ENTRIES`. -/
def tableIndex (m : ℕ) : ℕ := if m-7 ≥ 64 then 63 else m-7

/-- `power_cache_get_power`: the width of the lower half, and the radix to it. -/
def powerCacheGetPower (c : Cache) (b : Radix) (n1 : ℕ) :
    Except Error (ℕ × Bignum × Cache) :=
  if n1 ≤ 128 then .error .bug
  else
    let m := ceilLog2 n1
    if 31 ≤ m then .error (.shiftOverflow m)
    else
      let r := powerCacheGetPower0 c b (tableIndex m)
      .ok (2^m,squareUp n1 64 (128*2^tableIndex m) r.1.1,r.2)

lemma powerCacheGetPower_spec (c : Cache) (b : Radix) (hlo : 128 < n1) (hh : n1 ≤ 2^30) :
    ∃ m1 y c',powerCacheGetPower c b n1=.ok (m1,y,c') ∧ n1 ≤ m1 ∧ m1 < 2*n1 ∧
      IsPower b.base m1 y := by
  obtain ⟨hl,hlt⟩ := ceilLog2_spec (x := n1) (by omega) (by omega)
  have hm : ceilLog2 n1 < 31 := by
    by_contra hge
    have hpo : 2^31 ≤ 2^ceilLog2 n1 := Nat.pow_le_pow_right (by decide) (by omega)
    omega
  have hm' : 7 < ceilLog2 n1 := by
    by_contra hge
    have hpo : 2^ceilLog2 n1 ≤ 2^7 := Nat.pow_le_pow_right (by decide) (by omega)
    omega
  have hi : ceilLog2 n1=7+tableIndex (ceilLog2 n1) := by
    rw [tableIndex,if_neg (by omega)]
    omega
  have hw : 2^ceilLog2 n1=128*2^tableIndex (ceilLog2 n1) := by
    conv_lhs => rw [hi,pow_add]
    norm_num
  have hp : IsPower b.base (2^ceilLog2 n1)
      (powerCacheGetPower0 c b (tableIndex (ceilLog2 n1))).1.1 := by
    rw [hw]
    exact (powerCacheGetPower0 c b (tableIndex (ceilLog2 n1))).1.2
  refine ⟨2^ceilLog2 n1,_,(powerCacheGetPower0 c b (tableIndex (ceilLog2 n1))).2,?_,hl,hlt, hp⟩
  rw [powerCacheGetPower,if_neg (by omega)]
  dsimp only
  rw [if_neg (by omega),squareUp,if_neg (by omega)]

lemma powerCacheGetPower_of_large (c : Cache) (b : Radix) (hl : 2^30 < n1)
    (hh : n1 < 2^64) : ∃ m,powerCacheGetPower c b n1=.error (.shiftOverflow m) := by
  obtain ⟨hle,-⟩ := ceilLog2_spec (by omega) hh
  have hm : 31 ≤ ceilLog2 n1 := by
    by_contra hlt
    have hp : 2^ceilLog2 n1 ≤ 2^30 := Nat.pow_le_pow_right (by decide) (by omega)
    omega
  refine ⟨ceilLog2 n1,?_⟩
  rw [powerCacheGetPower,if_neg (by omega),if_pos hm]

end MacRuby.PowerCache
