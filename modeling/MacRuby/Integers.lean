import Mathlib.Algebra.Order.Ring.Abs
import MacRuby.Digits

/-!
# Fixnum and Bignum arithmetic

Integers of the 64-bit build. A Fixnum is a tagged word whose value has 62 bits;
every other integer is a Bignum, a sign and 64-bit digits without leading
zeros. `canonical` is the one representation of a mathematical integer, and the
results are compared with it as data, not only by value.

Machine words of type `long` are integers reduced by `long`; the tagging macro
keeps the low 62 bits of its argument and does not test it.
-/
namespace MacRuby.Integers
open Digits List Nat

/-- `BIGRAD`. -/
abbrev bigrad : ℕ := 2^64

lemma one_lt_bigrad : 1 < bigrad := by decide

/-- Sign (`true` for positive) and digits, lowest first. -/
@[ext] structure Bignum where
  sign : Bool
  digits : List ℕ
  digits_lt : Below bigrad digits

inductive Integer
  | fixnum (payload : BitVec 62)
  | bignum (b : Bignum)

/-- Two's complement result of an operation on `long`s. -/
def long (n : ℤ) : ℤ := n.bmod (2^64)

def long2fix (n : ℤ) : BitVec 62 := BitVec.ofInt 62 n

def fix2long (x : BitVec 62) : ℤ := x.toInt

def Fixable (n : ℤ) : Prop := -2^61 ≤ n ∧ n < 2^61

instance (n : ℤ) : Decidable (Fixable n) := inferInstanceAs (Decidable (_ ∧ _))

/-- Digits stored as `BDIGIT`s. -/
def ofDigits (sign : Bool) (ds : List ℕ) : Bignum :=
  ⟨sign,ds.map (·%bigrad),by
    intro d hd
    obtain ⟨e,-,rfl⟩ := mem_map.mp hd
    exact mod_lt _ (by decide)⟩

lemma ofDigits_digits {sign : Bool} {ds : List ℕ} (hds : Below bigrad ds) :
    (ofDigits sign ds).digits=ds := by
  conv_rhs => rw [← map_id ds]
  exact map_congr_left fun d hd => mod_eq_of_lt (hds d hd)

def rbUint2big (n : ℕ) : Bignum :=
  ⟨true,[n%bigrad],below_cons.mpr ⟨mod_lt _ (by decide),below_nil⟩⟩

def rbInt2big (n : ℤ) : Bignum :=
  if n < 0 then {rbUint2big (long (-n)%2^64).toNat with sign := false}
  else rbUint2big (n%2^64).toNat

def rbInt2inum (n : ℤ) : Integer :=
  if Fixable n then .fixnum (long2fix n) else .bignum (rbInt2big n)

def bigtrunc (x : Bignum) : Bignum := ⟨x.sign,trunc x.digits,(trunc_spec x.digits_lt).2.1⟩

/-- The digits shifted into one `long`, highest first. -/
def digitsLong (ds : List ℕ) : ℤ := ds.foldr (fun (d : ℕ) num => long (num*2^64+d)) 0

def bigfixize (x : Bignum) : Integer :=
  if x.digits.length*8 ≤ 8 then
    let num := digitsLong x.digits
    if num ≥ 0 then
      if x.sign then
        if num < 2^61 then .fixnum (long2fix num) else .bignum x
      else
        if -num ≥ -2^61 then .fixnum (long2fix (-num)) else .bignum x
    else .bignum x
  else .bignum x

def bignorm (x : Bignum) : Integer := bigfixize (bigtrunc x)

/-- `bigsub`: the difference of the absolute values. -/
def bigsub (x y : Bignum) : Bignum :=
  ⟨(subDigits bigrad x.digits y.digits).1,(subDigits bigrad x.digits y.digits).2,
    below_subDigits one_lt_bigrad x.digits_lt y.digits_lt⟩

/-- `bigadd`: the sum, or the difference when `sign` is false. -/
def bigadd (x y : Bignum) (sign : Bool) : Bignum :=
  let sign := sign == y.sign
  if x.sign ≠ sign then
    if sign then bigsub y x else bigsub x y
  else
    ⟨sign,addDigits bigrad x.digits y.digits,
      (addDigits_spec one_lt_bigrad x.digits_lt y.digits_lt).2⟩

def operand : Integer → Bignum
  | .fixnum y => rbInt2big (fix2long y)
  | .bignum y => y

def rbBigPlus (x : Bignum) (y : Integer) : Integer := bignorm (bigadd x (operand y) true)

def rbBigMinus (x : Bignum) (y : Integer) : Integer := bignorm (bigadd x (operand y) false)

/-- `rb_big_mul0`, with the digit loop of `bigmul1`. -/
def rbBigMul0 (x : Bignum) (y : Integer) : Bignum :=
  ⟨x.sign == (operand y).sign,mulDigits bigrad x.digits (operand y).digits,
    (mulDigits_spec one_lt_bigrad x.digits_lt (operand y).digits_lt).2⟩

def rbBigMul (x : Bignum) (y : Integer) : Integer := bignorm (rbBigMul0 x y)

def rbFixPlus (x : BitVec 62) (y : Integer) : Integer :=
  match y with
  | .fixnum y => rbInt2inum (long (fix2long x+fix2long y))
  | .bignum y => rbBigPlus y (.fixnum x)

def rbFixMinus (x : BitVec 62) (y : Integer) : Integer :=
  match y with
  | .fixnum y => rbInt2inum (long (fix2long x-fix2long y))
  | .bignum y => rbBigMinus (rbInt2big (fix2long x)) (.bignum y)

def FitSqrtLong (n : ℤ) : Prop := n < 2^31 ∧ n ≥ -2^31

instance (n : ℤ) : Decidable (FitSqrtLong n) := inferInstanceAs (Decidable (_ ∧ _))

/-- `rb_fix_mul`; the first return is not tested for 62 bits. -/
def rbFixMul (x : BitVec 62) (y : Integer) : Integer :=
  match y with
  | .fixnum y =>
    let a := fix2long x
    let b := fix2long y
    if FitSqrtLong a ∧ FitSqrtLong b then .fixnum (long2fix (long (a*b)))
    else
      let c := long (a*b)
      let r := long2fix c
      if a=0 then .fixnum x
      else if fix2long r ≠ c ∨ c.tdiv a ≠ b then rbBigMul (rbInt2big a) (.bignum (rbInt2big b))
      else .fixnum r
  | .bignum y => rbBigMul y (.fixnum x)

/-- `+`, `-` and `*` of an integer receiver. -/
def plus : Integer → Integer → Integer
  | .fixnum x,y => rbFixPlus x y
  | .bignum x,y => rbBigPlus x y

def minus : Integer → Integer → Integer
  | .fixnum x,y => rbFixMinus x y
  | .bignum x,y => rbBigMinus x y

def mul : Integer → Integer → Integer
  | .fixnum x,y => rbFixMul x y
  | .bignum x,y => rbBigMul x y

section Values
variable {b x : Bignum} {n : ℤ}

def Bignum.toInt (b : Bignum) : ℤ := signed bigrad b.sign b.digits

def Integer.toInt : Integer → ℤ
  | .fixnum x => fix2long x
  | .bignum b => b.toInt

def Bignum.ofInt (n : ℤ) : Bignum :=
  ⟨decide (0 ≤ n),Nat.digits bigrad n.natAbs,fun _ hd => digits_lt_base one_lt_bigrad hd⟩

/-- The representation of an integer: a Fixnum when it has 62 bits. -/
def canonical (n : ℤ) : Integer :=
  if Fixable n then .fixnum (long2fix n) else .bignum (Bignum.ofInt n)

lemma long_eq (h : -2^63 ≤ n) (h' : n < 2^63) : long n=n :=
  Int.bmod_eq_of_le_mul_two (by omega) (by omega)

lemma fix2long_fixable (x : BitVec 62) : Fixable (fix2long x) := by
  have hlt := BitVec.two_mul_toInt_lt (x := x)
  have hl := BitVec.le_two_mul_toInt (x := x)
  unfold Fixable fix2long
  omega

lemma fix2long_long2fix (h : Fixable n) : fix2long (long2fix n)=n := by
  unfold Fixable at h
  rw [fix2long,long2fix,BitVec.toInt_ofInt]
  exact Int.bmod_eq_of_le_mul_two (by omega) (by omega)

lemma signed_eq (s : Bool) (ds : List ℕ) : signed bigrad s ds =
      if s then ((Nat.ofDigits bigrad ds : ℕ) : ℤ) else -((Nat.ofDigits bigrad ds : ℕ) : ℤ) := rfl

lemma toInt_natAbs (b : Bignum) : b.toInt.natAbs=Nat.ofDigits bigrad b.digits := by
  rw [Bignum.toInt,signed_eq]
  split_ifs <;> simp

lemma toInt_nonneg (h : b.sign=true) : 0 ≤ b.toInt := by
  rw [Bignum.toInt,signed_eq,h,if_pos rfl]
  omega

lemma toInt_nonpos (h : b.sign=false) : b.toInt ≤ 0 := by
  rw [Bignum.toInt,signed_eq,h,if_neg Bool.false_ne_true]
  omega

lemma ofInt_toInt (n : ℤ) : (Bignum.ofInt n).toInt=n := by
  rw [Bignum.toInt,signed_eq]
  simp only [Bignum.ofInt,Nat.ofDigits_digits,decide_eq_true_eq]
  split_ifs with h <;> omega

lemma ofInt_full (n : ℤ) : Full bigrad (Bignum.ofInt n).digits := by
  intro hl
  have hn : n.natAbs ≠ 0 := by
    intro hz
    simp [Bignum.ofInt,hz] at hl
  have hp := base_pow_length_digits_le bigrad n.natAbs one_lt_bigrad hn
  obtain ⟨k,hk⟩ : ∃ k, (digits bigrad n.natAbs).length=k+1 :=
    ⟨(digits bigrad n.natAbs).length-1,by simp only [Bignum.ofInt] at hl; omega⟩
  simp only [Bignum.ofInt,Nat.ofDigits_digits,hk]
  rw [hk,pow_succ'] at hp
  exact le_of_mul_le_mul_left hp (by decide)

lemma eq_ofInt (hn : b.digits ≠ []) (ht : b.digits.getLast? ≠ some 0) :
    b=Bignum.ofInt b.toInt := by
  have hl : ∀ h, b.digits.getLast h ≠ 0 := by
    intro h hz
    exact ht (by rw [getLast?_eq_some_getLast h,hz])
  have hd := digits_ofDigits bigrad one_lt_bigrad b.digits b.digits_lt hl
  have hp : Nat.ofDigits bigrad b.digits ≠ 0 := by
    intro hz
    rw [hz] at hd
    exact hn hd.symm
  have hs : decide (0 ≤ b.toInt)=b.sign := by
    rw [Bignum.toInt,signed_eq]
    cases b.sign with
    | true => simp
    | false => simp only [Bool.false_eq_true,if_false,decide_eq_false_iff_not]; omega
  have hds : digits bigrad b.toInt.natAbs=b.digits := by rw [toInt_natAbs,hd]
  exact Bignum.ext hs.symm hds.symm

lemma digitsLong_singleton (d : ℕ) : digitsLong [d]=long d := by
  rw [digitsLong,foldr_cons,foldr_nil,zero_mul,zero_add]

lemma bigfixize_nil (hd : x.digits=[]) : bigfixize x=canonical x.toInt := by
  have hz : x.toInt=0 := by simp [Bignum.toInt,signed_eq,hd]
  have hf : Fixable 0 := by unfold Fixable; omega
  rw [hz,canonical,if_pos hf,bigfixize,hd]
  cases x.sign <;> simp [digitsLong]

lemma bigfixize_singleton {d : ℕ} (hds : x.digits=[d]) : bigfixize x=canonical x.toInt := by
  have hd : d < 2^64 := x.digits_lt d (by rw [hds]; simp)
  have hv : x.toInt=if x.sign then (d : ℤ) else -(d : ℤ) := by
    rw [Bignum.toInt,signed_eq,hds,ofDigits_singleton]
  have ho : d ≠ 0 → x=Bignum.ofInt x.toInt := by
    intro hd0
    exact eq_ofInt (by simp [hds]) (by simp [hds,hd0])
  rw [bigfixize,hds]
  rw [digitsLong_singleton,length_singleton,if_pos (by omega)]
  by_cases hb : d < 2^63
  · rw [long_eq (by omega) (by omega),if_pos (by omega)]
    cases hs : x.sign with
    | true =>
      rw [hs,if_pos rfl] at hv
      rw [if_pos rfl,canonical,hv]
      by_cases hf : (d : ℤ) < 2^61
      · rw [if_pos hf,if_pos ⟨by omega,hf⟩]
      · rw [if_neg hf,if_neg fun h => hf h.2,← hv,← ho (by omega)]
    | false =>
      rw [hs,if_neg Bool.false_ne_true] at hv
      rw [if_neg Bool.false_ne_true,canonical,hv]
      by_cases hf : -(d : ℤ) ≥ -2^61
      · rw [if_pos hf,if_pos ⟨hf,by omega⟩]
      · rw [if_neg hf,if_neg fun h => hf h.1,← hv,← ho (by omega)]
  · -- the word is negative as a `long`
    have hne : long d < 0 := by
      rw [long,Int.bmod_eq_emod,if_pos (by omega)]
      omega
    have hn : ¬Fixable x.toInt := by
      rw [hv]
      unfold Fixable
      split_ifs <;> omega
    rw [if_neg (by omega),canonical,if_neg hn,← ho (by omega)]

lemma bigfixize_of_long (hl : 1 < x.digits.length)
    (ht : x.digits.getLast? ≠ some 0) : bigfixize x=canonical x.toInt := by
  have hne : x.digits ≠ [] := by
    intro hn
    rw [hn,length_nil] at hl
    omega
  have he : x=Bignum.ofInt x.toInt := eq_ofInt hne ht
  have hf := ofInt_full x.toInt
  rw [← he] at hf
  have hg := hf hl
  have hp : bigrad^1 ≤ bigrad^(x.digits.length-1) :=
    Nat.pow_le_pow_right (Nat.two_pow_pos 64) (by omega)
  rw [pow_one] at hp
  have ha := toInt_natAbs x
  have hr : bigrad=2^64 := rfl
  have hno : ¬Fixable x.toInt := by
    unfold Fixable
    omega
  rw [bigfixize,if_neg (by omega),canonical,if_neg hno,← he]

lemma bignorm_eq (b : Bignum) : bignorm b=canonical b.toInt := by
  obtain ⟨hv,-,hto,-⟩ := trunc_spec b.digits_lt
  have ht : (bigtrunc b).toInt=b.toInt := by
    rw [Bignum.toInt,Bignum.toInt,signed_eq,signed_eq,bigtrunc,hv]
  rw [← ht]
  by_cases hl : 1 < (bigtrunc b).digits.length
  · exact bigfixize_of_long hl (hto hl)
  · rcases hd : (bigtrunc b).digits with _ | ⟨d,ds⟩
    · exact bigfixize_nil hd
    · have hn : ds=[] := by
        rw [hd,length_cons] at hl
        exact length_eq_zero_iff.mp (by omega)
      rw [hn] at hd
      exact bigfixize_singleton hd

end Values

variable {n b a : ℤ}

variable {x y : Bignum}

def Operand (b : Bignum) : Prop := Full bigrad b.digits

lemma bigsub_toInt (hx : y.digits.length < x.digits.length → Operand x)
    (hy : x.digits.length < y.digits.length → Operand y) : (bigsub x y).toInt =
      (Nat.ofDigits bigrad x.digits : ℕ)-(Nat.ofDigits bigrad y.digits : ℕ) :=
  subDigits_spec one_lt_bigrad x.digits_lt y.digits_lt hx hy

lemma bigadd_toInt_of_length (hx : y.digits.length < x.digits.length → Operand x)
    (hy : x.digits.length < y.digits.length → Operand y) (sign : Bool) :
    (bigadd x y sign).toInt=x.toInt+(if sign then y.toInt else -y.toInt) := by
  have ha := (addDigits_spec one_lt_bigrad x.digits_lt y.digits_lt).1
  -- the second operand with the sign that it has in the sum
  have ho : (if sign then y.toInt else -y.toInt)=signed bigrad (sign == y.sign) y.digits := by
    rw [Bignum.toInt,signed_eq,signed_eq]
    cases sign <;> cases y.sign <;> simp
  have hxv : x.toInt=signed bigrad x.sign x.digits := rfl
  rw [ho,hxv,signed_eq,signed_eq]
  unfold bigadd
  generalize (sign == y.sign)=s
  cases s <;> cases x.sign <;> simp only [ne_eq,not_false_eq_true,
    Bool.false_eq_true,Bool.true_eq_false,if_true,if_false]
  · change -((Nat.ofDigits bigrad (addDigits bigrad x.digits y.digits) : ℕ) : ℤ)=_
    omega
  · rw [bigsub_toInt hx hy]
    omega
  · rw [bigsub_toInt hy hx]
    omega
  · change ((Nat.ofDigits bigrad (addDigits bigrad x.digits y.digits) : ℕ) : ℤ)=_
    omega

lemma bigadd_toInt (hx : Operand x) (hy : Operand y) (sign : Bool) :
    (bigadd x y sign).toInt=x.toInt+(if sign then y.toInt else -y.toInt) :=
  bigadd_toInt_of_length (fun _ => hx) (fun _ => hy) sign

lemma bigadd_toInt_of_sign {sign : Bool} (h : x.sign=(sign == y.sign)) :
    (bigadd x y sign).toInt=x.toInt+(if sign then y.toInt else -y.toInt) := by
  have ha := (addDigits_spec one_lt_bigrad x.digits_lt y.digits_lt).1
  have hs : (bigadd x y sign).toInt=signed bigrad x.sign (addDigits bigrad x.digits y.digits) := by
    simp only [bigadd,h,ne_eq]
    rfl
  rw [hs,Bignum.toInt,Bignum.toInt,signed_eq,signed_eq,signed_eq,h]
  cases sign <;> cases y.sign <;> simp <;> omega

lemma rbBigMul0_toInt (x : Bignum) (y : Integer) :
    (rbBigMul0 x y).toInt=x.toInt*(operand y).toInt := by
  have hm := (mulDigits_spec one_lt_bigrad x.digits_lt (operand y).digits_lt).1
  rw [Bignum.toInt,Bignum.toInt,Bignum.toInt,signed_eq,signed_eq,signed_eq,rbBigMul0,hm]
  cases x.sign <;> cases (operand y).sign <;> simp

lemma rbUint2big_digits {n : ℕ} (h : n < 2^64) : (rbUint2big n).digits=[n] := by
  change [n%bigrad]=[n]
  rw [mod_eq_of_lt h]

/-- Every `long` is converted exactly; the least one is its own negation, and the
digit is read without sign. -/
lemma rbInt2big_spec (h : -2^63 ≤ n) (h' : n < 2^63) :
    (rbInt2big n).toInt=n ∧ (rbInt2big n).digits=[n.natAbs] := by
  unfold rbInt2big
  split_ifs with hn
  · have hw : (long (-n)%2^64).toNat=n.natAbs := by
      have hb : long (-n)%2^64 = -n%2^64 := Int.bmod_emod
      omega
    have hd := rbUint2big_digits (n := n.natAbs) (by omega)
    rw [hw]
    refine ⟨?_,hd⟩
    rw [Bignum.toInt,signed_eq,hd,ofDigits_singleton,if_neg Bool.false_ne_true]
    omega
  · have hw : (n%2^64).toNat=n.natAbs := by
      omega
    have hd := rbUint2big_digits (n := n.natAbs) (by omega)
    rw [hw]
    refine ⟨?_,hd⟩
    rw [Bignum.toInt,signed_eq,hd,ofDigits_singleton,rbUint2big,if_pos rfl]
    omega

lemma operand_of_singleton {b : Bignum} {d : ℕ} (h : b.digits=[d]) : Operand b := by
  intro hl
  rw [h,length_singleton] at hl
  omega

lemma rbInt2inum_eq (h : -2^63 ≤ n) (h' : n < 2^63) : rbInt2inum n=canonical n := by
  unfold rbInt2inum canonical
  split_ifs with hf
  · rfl
  · obtain ⟨ht,hd⟩ := rbInt2big_spec h h'
    have hn : n.natAbs ≠ 0 := by
      unfold Fixable at hf
      omega
    have he : rbInt2big n=Bignum.ofInt (rbInt2big n).toInt := by
      refine eq_ofInt ?_ ?_
      · simp [hd]
      · rw [hd]
        simpa using hn
    rw [ht] at he
    rw [he]

lemma operand_canonical (n : ℤ) :
    (operand (canonical n)).toInt=n ∧ Operand (operand (canonical n)) := by
  unfold canonical
  split_ifs with hf
  · have hl := fix2long_long2fix hf
    unfold Fixable at hf
    obtain ⟨ht,hd⟩ := rbInt2big_spec (n := n) (by omega) (by omega)
    rw [operand,hl]
    exact ⟨ht,operand_of_singleton hd⟩
  · exact ⟨ofInt_toInt n,ofInt_full n⟩

section Operations
variable {x : Bignum} (hx : Operand x) (b : ℤ)
include hx

lemma rbBigPlus_eq : rbBigPlus x (canonical b)=canonical (x.toInt+b) := by
  obtain ⟨hb,ho⟩ := operand_canonical b
  rw [rbBigPlus,bignorm_eq,bigadd_toInt hx ho,if_pos rfl,hb]

lemma rbBigMinus_eq : rbBigMinus x (canonical b)=canonical (x.toInt-b) := by
  obtain ⟨hb,ho⟩ := operand_canonical b
  rw [rbBigMinus,bignorm_eq,bigadd_toInt hx ho,if_neg Bool.false_ne_true,hb,sub_eq_add_neg]

omit hx in
lemma rbBigMul_eq : rbBigMul x (canonical b)=canonical (x.toInt*b) := by
  rw [rbBigMul,bignorm_eq,rbBigMul0_toInt,(operand_canonical b).1]

end Operations

lemma canonical_of_fixable (h : Fixable n) : canonical n=.fixnum (long2fix n) := if_pos h

lemma canonical_of_not_fixable (h : ¬Fixable n) : canonical n=.bignum (Bignum.ofInt n) := if_neg h

lemma canonical_toInt (n : ℤ) : (canonical n).toInt=n := by
  by_cases h : Fixable n
  · rw [canonical_of_fixable h]
    exact fix2long_long2fix h
  · rw [canonical_of_not_fixable h]
    exact ofInt_toInt n

lemma plus_canonical (a b : ℤ) : plus (canonical a) (canonical b)=canonical (a+b) := by
  by_cases ha : Fixable a
  · by_cases hb : Fixable b
    · rw [canonical_of_fixable ha,canonical_of_fixable hb]
      simp only [plus,rbFixPlus,fix2long_long2fix ha,fix2long_long2fix hb]
      unfold Fixable at ha hb
      rw [long_eq (by omega) (by omega)]
      exact rbInt2inum_eq (by omega) (by omega)
    · have hs := rbBigPlus_eq (ofInt_full b) a
      rw [canonical_of_fixable ha,ofInt_toInt] at hs
      rw [canonical_of_fixable ha,canonical_of_not_fixable hb]
      simp only [plus,rbFixPlus]
      rw [hs,add_comm]
  · rw [canonical_of_not_fixable ha]
    have hs := rbBigPlus_eq (ofInt_full a) b
    rwa [ofInt_toInt] at hs

lemma minus_canonical (a b : ℤ) : minus (canonical a) (canonical b)=canonical (a-b) := by
  by_cases ha : Fixable a
  · have hl := fix2long_long2fix ha
    by_cases hb : Fixable b
    · rw [canonical_of_fixable ha,canonical_of_fixable hb]
      simp only [minus,rbFixMinus,hl,fix2long_long2fix hb]
      unfold Fixable at ha hb
      rw [long_eq (by omega) (by omega)]
      exact rbInt2inum_eq (by omega) (by omega)
    · rw [canonical_of_fixable ha]
      unfold Fixable at ha
      obtain ⟨ht,hdi⟩ := rbInt2big_spec (n := a) (by omega) (by omega)
      have hd := rbBigMinus_eq (operand_of_singleton hdi) b
      rw [ht,canonical_of_not_fixable hb] at hd
      rw [canonical_of_not_fixable hb]
      simp only [minus,rbFixMinus,hl]
      exact hd
  · rw [canonical_of_not_fixable ha]
    have hd := rbBigMinus_eq (ofInt_full a) b
    rwa [ofInt_toInt] at hd

/-- The test after the wrapped product: a quotient that gives back the second
factor leaves no room for a multiple of `2^64`. -/
lemma eq_mul_of_tdiv {c : ℤ} (ha : a.natAbs < 2^63) (hc : long (a*b)=c)
    (hd : c.tdiv a=b) : c=a*b := by
  have hr := Int.mul_tdiv_add_tmod c a
  rw [hd] at hr
  have hm : c%2^64=a*b%2^64 := by
    rw [← hc]
    exact Int.bmod_emod
  have hl : -2^63 ≤ c.tmod a ∧ c.tmod a ≤ 2^63 := by
    have hab := Int.natAbs_tmod c a
    by_cases hz : a=0
    · subst hz
      rw [Int.tdiv_zero] at hd
      subst hd
      rw [← hc]
      decide
    · have hlt : c.natAbs % a.natAbs < a.natAbs := mod_lt _ (by omega)
      omega
  omega

lemma rbFixMul_fixnum (ha : Fixable a) (hb : Fixable b) :
    rbFixMul (long2fix a) (.fixnum (long2fix b))=canonical (a*b) ↔
      ¬(FitSqrtLong a ∧ FitSqrtLong b ∧ ¬Fixable (a*b)) := by
  simp only [rbFixMul,fix2long_long2fix ha,fix2long_long2fix hb]
  by_cases hfi : FitSqrtLong a ∧ FitSqrtLong b
  · obtain ⟨hfa,hfb⟩ := hfi
    have hl : long (a*b)=a*b := by
      have hs : |a*b| ≤ 2^31*2^31 := by
        rw [abs_mul]
        exact mul_le_mul (abs_le.mpr ⟨hfa.2,hfa.1.le⟩) (abs_le.mpr ⟨hfb.2,hfb.1.le⟩)
          (abs_nonneg b) (by norm_num)
      have hbo := abs_le.mp hs
      exact long_eq (by omega) (by omega)
    rw [if_pos ⟨hfa,hfb⟩,hl]
    by_cases hf : Fixable (a*b)
    · rw [canonical_of_fixable hf]
      simp [hf]
    · rw [canonical_of_not_fixable hf]
      simp [hfa,hfb,hf]
  · rw [if_neg hfi]
    have hr : ¬(FitSqrtLong a ∧ FitSqrtLong b ∧ ¬Fixable (a*b)) := fun h => hfi ⟨h.1,h.2.1⟩
    simp only [hr,not_false_eq_true,iff_true]
    split_ifs with hz ht
    · rw [hz,zero_mul,← hz,canonical_of_fixable ha]
    · unfold Fixable at ha hb
      obtain ⟨hto,-⟩ := rbInt2big_spec (n := a) (by omega) (by omega)
      obtain ⟨htoB,-⟩ := rbInt2big_spec (n := b) (by omega) (by omega)
      rw [rbBigMul,bignorm_eq,rbBigMul0_toInt,hto,operand,htoB]
    · rw [not_or,not_ne_iff,not_ne_iff] at ht
      have hs : a.natAbs < 2^63 := by
        unfold Fixable at ha
        omega
      have he := eq_mul_of_tdiv hs rfl ht.2
      have hf : Fixable (a*b) := by
        rw [← he,← ht.1]
        exact fix2long_fixable _
      rw [he,canonical_of_fixable hf]

lemma mul_canonical (a b : ℤ) : mul (canonical a) (canonical b)=canonical (a*b) ↔
      ¬(FitSqrtLong a ∧ FitSqrtLong b ∧ ¬Fixable (a*b)) := by
  have hs : ∀ n, FitSqrtLong n → Fixable n := by
    intro n hn
    unfold FitSqrtLong at hn
    unfold Fixable
    omega
  by_cases ha : Fixable a
  · by_cases hb : Fixable b
    · rw [canonical_of_fixable ha,canonical_of_fixable hb]
      exact rbFixMul_fixnum ha hb
    · have hp := rbBigMul_eq (x := Bignum.ofInt b) a
      rw [canonical_of_fixable ha,ofInt_toInt,mul_comm] at hp
      rw [canonical_of_fixable ha,canonical_of_not_fixable hb]
      simp only [mul,rbFixMul,hp,true_iff]
      exact fun h => hb (hs b h.2.1)
  · have hp := rbBigMul_eq (x := Bignum.ofInt a) b
    rw [ofInt_toInt] at hp
    rw [canonical_of_not_fixable ha]
    simp only [mul,hp,true_iff]
    exact fun h => ha (hs a h.1)

/-- Sums, differences and products are the representations of the exact results,
but for a product of two numbers of 32 bits that has more than 62 bits. -/
theorem arithmetic_exact_iff (a b : ℤ) : (plus (canonical a) (canonical b) = canonical (a+b) ∧
      minus (canonical a) (canonical b) = canonical (a-b) ∧
      mul (canonical a) (canonical b) = canonical (a*b)) ↔
      ¬(FitSqrtLong a ∧ FitSqrtLong b ∧ ¬Fixable (a*b)) := by
  rw [mul_canonical]
  exact ⟨fun h => h.2.2,fun h => ⟨plus_canonical a b,minus_canonical a b,h⟩⟩

/-- The square of `2^31-1` comes out as the Fixnum `-4294967295`. -/
theorem square_of_largest_int_wraps :
    mul (canonical 2147483647) (canonical 2147483647) = .fixnum (long2fix (-4294967295)) ∧
      mul (canonical 2147483647) (canonical 2147483647) ≠ canonical (2147483647*2147483647) := by
  constructor
  · exact congrArg Integer.fixnum (by decide)
  · exact Integer.noConfusion

end MacRuby.Integers
