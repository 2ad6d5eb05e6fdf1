import Mathlib.Data.Rat.Floor
import MacRuby.TwosComplement
import MacRuby.Integers

/-!
# Bit operations on integers

`&`, `|`, `^`, `~`, `<<`, `>>` and `[]` of Fixnums and Bignums. A Bignum is a sign
and an absolute value, so the Bignum routines turn the digits of negative
operands into two's complement, work digit by digit, with the sign of the
shorter operand continued, and turn the digits of a negative result back.

A shift count or a bit index is itself a Fixnum or a Bignum. A count that needs
more than one digit is refused where it would lengthen the number.
-/
namespace MacRuby.IntegerBits
open Digits DigitShifts TwosComplement Integers List

/-- `RangeError`: "bignum too big to convert into `long'". -/
inductive Error
  | range
  deriving DecidableEq

def int2fix (n : ℤ) : Integer := .fixnum (long2fix n)

/-- The digits in two's complement, after `get2comp` for a negative number. -/
def flipped (sign : Bool) (ds : List ℕ) : List ℕ := if sign then ds else get2comp bigrad ds

/-- The common body of `rb_big_and`, `rb_big_or` and `rb_big_xor`. -/
def bitOperation (op : ℕ → ℕ → ℕ) (rest : Bool → ℕ → ℕ) (zsign : Bool → Bool → Bool) (x : Bignum)
    (y : Integer) : Integer :=
  let y := operand y
  let xs := flipped x.sign x.digits
  let ys := flipped y.sign y.digits
  let zs :=
    if xs.length > ys.length then zipDigits op (rest y.sign) ys xs
    else zipDigits op (rest x.sign) xs ys
  let sign := zsign x.sign y.sign
  bignorm (ofDigits sign (flipped sign zs))

def rbBigAnd : Bignum → Integer → Integer :=
  bitOperation (·&&&·) (fun sign d => if sign then 0 else d) (·||·)

def rbBigOr : Bignum → Integer → Integer :=
  bitOperation (·|||·) (fun sign d => if sign then d else bigrad-1) (·&&·)

def rbBigXor : Bignum → Integer → Integer :=
  bitOperation (·^^^·) (fun sign d => if sign then d else bigrad-1-d) (fun s t => !(s ^^ t))

def rbBigNeg (x : Bignum) : Integer :=
  let zs := flipped x.sign x.digits
  let i := x.digits.length
  if i=0 then int2fix (-1)
  else
    let zs := complement bigrad (zs.take i)++zs.drop i
    bignorm (ofDigits (!x.sign) (if x.sign then get2comp bigrad zs else zs))

/-- `big2ulong`: digits beyond the first are refused or ignored. -/
def big2ulong (x : Bignum) (check : Bool) : Except Error ℕ :=
  if x.digits.length > 1 ∧ check then .error .range
  else .ok ((x.digits.take 1).foldr (fun d num => wide bigrad (wide bigrad (num*bigrad)+d)) 0%2^64)

/-- `check_shiftdown`; `none` for `Qnil`. -/
def checkShiftdown (y x : Bignum) : Option Integer :=
  if x.digits.length=0 then some (int2fix 0)
  else if y.digits.length > 1 then some (if x.sign then int2fix 0 else int2fix (-1))
  else none

def bigLshift (x : Bignum) (shift : ℕ) : Integer :=
  let r := shiftUp (·|||·) bigrad (shift%64) 0 x.digits
  bignorm (ofDigits x.sign (List.replicate (shift/64) 0++(r.1++[r.2%bigrad])))

def bigRshift (x : Bignum) (shift : ℕ) : Integer :=
  let s1 := shift/64
  let s2 := shift%64
  if s1 > x.digits.length then if x.sign then int2fix 0 else int2fix (-1)
  else
    let xs := flipped x.sign x.digits
    if xs.length-s1=0 then if x.sign then int2fix 0 else int2fix (-1)
    else
      -- all bits of the double word, shifted by one digit
      let num := if x.sign then 0 else wide bigrad ((bigrad*bigrad-1)*bigrad)
      let zs := (shiftDown bigrad s2 num (xs.drop s1).reverse).reverse
      bignorm (ofDigits x.sign (flipped x.sign zs))

/-- A `long` that is passed as `unsigned long`. -/
def ulong (n : ℤ) : ℕ := (n%2^64).toNat

def rbBigLshift (x : Bignum) : Integer → Except Error Integer
  | .fixnum y =>
    let shift := fix2long y
    if shift < 0 then .ok (bigRshift x (ulong (long (-shift)))) else .ok (bigLshift x (ulong shift))
  | .bignum y =>
    if y.sign then (big2ulong y true).map (bigLshift x)
    else
      match checkShiftdown y x with
      | some t => .ok t
      | none => (big2ulong y true).map (bigRshift x)

def rbBigRshift (x : Bignum) : Integer → Except Error Integer
  | .fixnum y =>
    let shift := fix2long y
    if shift < 0 then .ok (bigLshift x (ulong (long (-shift)))) else .ok (bigRshift x (ulong shift))
  | .bignum y =>
    if y.sign then
      match checkShiftdown y x with
      | some t => .ok t
      | none => (big2ulong y true).map (bigRshift x)
    else (big2ulong y true).map (bigLshift x)

/-- `rb_big_aref` from the label of the bit on. -/
def bigBit (x : Bignum) (shift : ℕ) : Integer :=
  let s1 := shift/64
  let s2 := shift%64
  if s1 ≥ x.digits.length then if x.sign then int2fix 0 else int2fix 1
  else
    let num := if x.sign then x.digits.getD s1 0 else negatedDigit bigrad 1 s1 x.digits
    if num.testBit s2 then int2fix 1 else int2fix 0

def rbBigAref (x : Bignum) : Integer → Except Error Integer
  | .bignum y =>
    if !y.sign then .ok (int2fix 0)
    else if (bigtrunc y).digits.length > 1 then .ok (if x.sign then int2fix 0 else int2fix 1)
    else (big2ulong (bigtrunc y) false).map (bigBit x)
  | .fixnum y =>
    let i := fix2long y
    if i < 0 then .ok (int2fix 0) else .ok (bigBit x (ulong i))

/-- The bits of a `long`. -/
def word (n : ℤ) : BitVec 64 := BitVec.ofInt 64 n

def fixRev (x : BitVec 62) : Integer := rbInt2inum (~~~word (fix2long x)).toInt

def fixAnd (x : BitVec 62) : Integer → Integer
  | .fixnum y => rbInt2inum (word (fix2long x) &&& word (fix2long y)).toInt
  | .bignum y => rbBigAnd y (.fixnum x)

def fixOr (x : BitVec 62) : Integer → Integer
  | .fixnum y => rbInt2inum (word (fix2long x) ||| word (fix2long y)).toInt
  | .bignum y => rbBigOr y (.fixnum x)

def fixXor (x : BitVec 62) : Integer → Integer
  | .fixnum y => rbInt2inum (word (fix2long x) ^^^ word (fix2long y)).toInt
  | .bignum y => rbBigXor y (.fixnum x)

/-- `ULONG2NUM`. -/
def rbUint2inum (n : ℕ) : Integer := if n < 2^61 then .fixnum (long2fix n) else .bignum (rbUint2big n)

def fixLshift (val : ℤ) (width : ℕ) : Except Error Integer :=
  if width > 63 ∨ ulong val/2^(63-width) > 0 then rbBigLshift (rbInt2big val) (rbUint2inum width)
  else .ok (rbInt2inum (long (val*2^width)))

/-- `fix_rshift`; the shift of a `long` is arithmetic. -/
def fixRshift (val : ℤ) (i : ℕ) : Integer :=
  if i ≥ 63 then if val < 0 then int2fix (-1) else int2fix 0
  else int2fix (val/2^i)

def rbFixLshift (x : BitVec 62) : Integer → Except Error Integer
  | .bignum y => rbBigLshift (rbInt2big (fix2long x)) (.bignum y)
  | .fixnum y =>
    let width := fix2long y
    if width < 0 then .ok (fixRshift (fix2long x) (ulong (long (-width))))
    else fixLshift (fix2long x) (ulong width)

def rbFixRshift (x : BitVec 62) : Integer → Except Error Integer
  | .bignum y => rbBigRshift (rbInt2big (fix2long x)) (.bignum y)
  | .fixnum y =>
    let i := fix2long y
    if i=0 then .ok (.fixnum x)
    else if i < 0 then fixLshift (fix2long x) (ulong (long (-i)))
    else .ok (fixRshift (fix2long x) (ulong i))

/-- `fix_aref` for an index that is a Fixnum. -/
def fixBit (val i : ℤ) : Integer :=
  if i < 0 then int2fix 0
  else if 63 < i then if val < 0 then int2fix 1 else int2fix 0
  else if (word val).getLsbD i.toNat then int2fix 1 else int2fix 0

def fixAref (x : BitVec 62) : Integer → Integer
  | .fixnum idx => fixBit (fix2long x) (fix2long idx)
  | .bignum idx =>
    match bignorm idx with
    | .fixnum idx => fixBit (fix2long x) (fix2long idx)
    | .bignum idx =>
      if !idx.sign ∨ fix2long x ≥ 0 then int2fix 0 else int2fix 1

/-- `&`. -/
def and : Integer → Integer → Integer
  | .fixnum x,y => fixAnd x y
  | .bignum x,y => rbBigAnd x y

/-- `|`. -/
def or : Integer → Integer → Integer
  | .fixnum x,y => fixOr x y
  | .bignum x,y => rbBigOr x y

/-- `^`. -/
def xor : Integer → Integer → Integer
  | .fixnum x,y => fixXor x y
  | .bignum x,y => rbBigXor x y

/-- `~`. -/
def neg : Integer → Integer
  | .fixnum x => fixRev x
  | .bignum x => rbBigNeg x

/-- `<<`. -/
def lshift : Integer → Integer → Except Error Integer
  | .fixnum x,y => rbFixLshift x y
  | .bignum x,y => rbBigLshift x y

/-- `>>`. -/
def rshift : Integer → Integer → Except Error Integer
  | .fixnum x,y => rbFixRshift x y
  | .bignum x,y => rbBigRshift x y

/-- `[]`. -/
def aref : Integer → Integer → Except Error Integer
  | .fixnum x,y => .ok (fixAref x y)
  | .bignum x,y => rbBigAref x y

/-- A Bignum as the routines get it: it has digits, and a negative one is not zero. -/
def Proper (x : Bignum) : Prop :=
  x.digits ≠ [] ∧ (x.sign=false → 0 < Nat.ofDigits bigrad x.digits)

lemma proper_operand (n : ℤ) : Proper (operand (canonical n)) := by
  by_cases hf : Fixable n
  · rw [canonical_of_fixable hf,operand,fix2long_long2fix hf]
    unfold Fixable at hf
    obtain ⟨hv,hd⟩ := rbInt2big_spec (n := n) (by omega) (by omega)
    refine ⟨by rw [hd]; exact cons_ne_nil _ _,fun hs => ?_⟩
    have hne : n < 0 := by
      by_contra hn
      rw [rbInt2big,if_neg hn] at hs
      exact Bool.noConfusion hs
    rw [hd,Nat.ofDigits_singleton]
    omega
  · rw [canonical_of_not_fixable hf]
    have hab : 0 < n.natAbs := by
      unfold Fixable at hf
      omega
    refine ⟨(Nat.digits_ne_nil_iff_ne_zero (b := bigrad)).mpr hab.ne',fun _ => ?_⟩
    change 0 < Nat.ofDigits bigrad (Nat.digits bigrad n.natAbs)
    rwa [Nat.ofDigits_digits]

lemma flipped_spec {x : Bignum} (hx : Proper x) :
    Below bigrad (flipped x.sign x.digits) ∧ twos bigrad x.sign (flipped x.sign x.digits)=x.toInt ∧
      (flipped x.sign x.digits).length=x.digits.length := by
  rw [Bignum.toInt]
  cases hs : x.sign with
  | true =>
    refine ⟨x.digits_lt,?_,rfl⟩
    rw [twos_eq]
    rfl
  | false =>
    have hp := hx.2 hs
    obtain ⟨hb,-,hl⟩ := get2comp_spec one_lt_bigrad hx.1 x.digits_lt
    exact ⟨hb,twos_get2comp one_lt_bigrad x.digits_lt hp,hl hp⟩

lemma bignorm_flipped (sign : Bool) {zs : List ℕ} (hn : zs ≠ []) (hz : Below bigrad zs) :
    bignorm (ofDigits sign (flipped sign zs))=canonical (twos bigrad sign zs) := by
  rw [bignorm_eq,Bignum.toInt]
  cases sign with
  | true =>
    rw [flipped,if_pos rfl,ofDigits_digits hz,twos_eq]
    rfl
  | false =>
    have hb := (get2comp_spec one_lt_bigrad hn hz).1
    rw [flipped,if_neg Bool.false_ne_true,ofDigits_digits hb,← ofDigits_get2comp one_lt_bigrad hn hz]
    rfl

lemma int2fix_eq {n : ℤ} (h : Fixable n) : int2fix n=canonical n := (canonical_of_fixable h).symm

section BitOperations
variable {f : Bool → Bool → Bool} {op : ℕ → ℕ → ℕ} {rest : Bool → ℕ → ℕ} {zsign : Bool → Bool → Bool}
variable {x : Bignum}

lemma length_zipDigits (op : ℕ → ℕ → ℕ) (rest : ℕ → ℕ) {xs ys : List ℕ}
    (hl : xs.length ≤ ys.length) : (zipDigits op rest xs ys).length=ys.length := by
  induction xs generalizing ys with
  | nil => exact length_map _
  | cons x xs ih =>
    cases ys with
    | nil => exact absurd hl (by simp)
    | cons y ys =>
      rw [length_cons,length_cons] at hl
      rw [zipDigits,length_cons,length_cons,ih (by omega)]

lemma zipDigits_exact (h : Bitwise 64 f op rest) {s t : Bool} {xs ys : List ℕ}
    (hl : xs.length ≤ ys.length) (hn : ys ≠ []) (hxs : Below bigrad xs) (hy : Below bigrad ys) :
    ∃ c, bignorm (ofDigits (!f (!s) (!t)) (flipped (!f (!s) (!t)) (zipDigits op (rest s) xs ys))) =
        canonical c ∧ ∀ k, bit c k=f (bit (twos bigrad s xs) k) (bit (twos bigrad t ys) k) := by
  have hz := fun k => bit_zipDigits h (s := s) (t := t) hl hxs hy k
  have hzn : zipDigits op (rest s) xs ys ≠ [] := by
    apply ne_nil_of_length_pos
    rw [length_zipDigits _ _ hl]
    exact length_pos_of_ne_nil hn
  exact ⟨_,bignorm_flipped _ hzn (hz 0).1,fun k => (hz k).2⟩

lemma bitOperation_exact (h : Bitwise 64 f op rest) (hco : ∀ a b, f a b=f b a)
    (hz : ∀ s t, zsign s t=!f (!s) (!t)) (hx : Proper x) (b : ℤ) :
    ∃ c, bitOperation op rest zsign x (canonical b)=canonical c ∧
      ∀ k, bit c k=f (bit x.toInt k) (bit b k) := by
  have hy := proper_operand b
  have hv := (operand_canonical b).1
  unfold bitOperation
  generalize operand (canonical b)=y at hy hv ⊢
  obtain ⟨hxs,hxv,hxl⟩ := flipped_spec hx
  obtain ⟨hys,hyv,hyl⟩ := flipped_spec hy
  have hxn : flipped x.sign x.digits ≠ [] := by
    rw [← length_pos_iff,hxl]
    exact length_pos_of_ne_nil hx.1
  have hyn : flipped y.sign y.digits ≠ [] := by
    rw [← length_pos_iff,hyl]
    exact length_pos_of_ne_nil hy.1
  rw [← hv,← hxv,← hyv]
  dsimp only
  split_ifs with hl
  · obtain ⟨c,hc,hb⟩ := zipDigits_exact h hl.le hxn hys hxs
    refine ⟨c,?_,fun k => by rw [hb,hco]⟩
    rw [hz,hco]
    exact hc
  · rw [hz]
    exact zipDigits_exact h (not_lt.mp hl) hyn hxs hys

lemma bitwise_and : Bitwise 64 (·&&·) (·&&&·) (fun sign d => if sign then 0 else d) := by
  constructor
  · exact fun x y hx _ => lt_of_le_of_lt Nat.and_le_left hx
  · exact fun x y j _ => Nat.testBit_and x y j
  · intro sign y hy
    split_ifs
    · decide
    · exact hy
  · intro sign y j
    cases sign <;> simp

lemma bitwise_or : Bitwise 64 (·||·) (·|||·) (fun sign d => if sign then d else bigrad-1) := by
  constructor
  · exact fun x y => Nat.or_lt_two_pow
  · exact fun x y j _ => Nat.testBit_or x y j
  · intro sign y hy
    split_ifs
    · exact hy
    · decide
  · intro sign y j hj _
    cases sign with
    | true => simp
    | false =>
      change (2^64-1).testBit j=_
      rw [Nat.testBit_two_pow_sub_one,decide_eq_true hj]
      rfl

lemma bitwise_xor :
    Bitwise 64 (fun a b => a ^^ b) (·^^^·) (fun sign d => if sign then d else bigrad-1-d) := by
  constructor
  · exact fun x y => Nat.xor_lt_two_pow
  · exact fun x y j _ => Nat.testBit_xor x y j
  · intro sign y hy
    have : bigrad-1-y < 2^64 := by
      change 2^64-1-y < 2^64
      omega
    split_ifs
    · exact hy
    · exact this
  · intro sign y j hj hy
    cases sign with
    | true => simp
    | false =>
      have hs : bigrad-1-y=2^64-(y+1) := by
        change 2^64-1-y=_
        omega
      rw [if_neg Bool.false_ne_true,hs,Nat.testBit_two_pow_sub_succ hy,decide_eq_true hj]
      simp

lemma rbBigNeg_eq (hx : Proper x) : rbBigNeg x=canonical (-1-x.toInt) := by
  obtain ⟨hxs,hxv,hxl⟩ := flipped_spec hx
  have hl : x.digits.length ≠ 0 := (length_pos_of_ne_nil hx.1).ne'
  have hc := twos_complement x.sign hxs
  have hb : Below bigrad (complement bigrad (flipped x.sign x.digits)) :=
    below_complement (by decide)
  have hn : complement bigrad (flipped x.sign x.digits) ≠ [] := by
    rw [← length_pos_iff,complement,length_map,hxl]
    exact length_pos_of_ne_nil hx.1
  have hf := bignorm_flipped (!x.sign) hn hb
  rw [hc,hxv] at hf
  have ht : (flipped x.sign x.digits).take x.digits.length=flipped x.sign x.digits := by
    rw [← hxl,take_length]
  have hd : (flipped x.sign x.digits).drop x.digits.length=[] := by
    rw [← hxl,drop_length]
  rw [rbBigNeg,if_neg hl]
  rw [ht,hd,append_nil,← hf]
  cases x.sign <;> rfl

lemma bit_not (n : ℤ) (k : ℕ) : bit (-1-n) k=!bit n k := by
  have hp : (0 : ℤ) < 2^k := by positivity
  have hd : (-1-n)/2^k = -1-n/2^k := by
    have hs := Int.mul_ediv_add_emod n (2^k)
    have hr : -1-n=2^k-1-n%2^k+2^k*(-1-n/2^k) := by linear_combination hs
    rw [hr,Int.add_mul_ediv_left _ _ hp.ne',Int.ediv_eq_zero_of_lt (by omega) (by omega),zero_add]
  rw [bit,bit]
  by_cases hb : n/2^k%2=1
  · rw [decide_eq_true hb,decide_eq_false (by omega)]
    rfl
  · rw [decide_eq_false hb,decide_eq_true (by omega)]
    rfl

variable {n : ℤ}

lemma word_toInt (h : Fixable n) : (word n).toInt=n := by
  unfold Fixable at h
  rw [word,BitVec.toInt_ofInt]
  exact long_eq (by omega) (by omega)

lemma bit_word (h : Fixable n) (k : ℕ) : bit n k=(word n).getLsbD (if k < 64 then k else 63) := by
  rw [← bit_toInt,word_toInt h]

lemma rbInt2inum_toInt (v : BitVec 64) : rbInt2inum v.toInt=canonical v.toInt :=
  rbInt2inum_eq (BitVec.le_toInt v) BitVec.toInt_lt

variable {g : BitVec 64 → BitVec 64 → BitVec 64}

lemma wordOperation_exact (hg : ∀ u v k, (g u v).getLsbD k=f (u.getLsbD k) (v.getLsbD k))
    {a b : ℤ} (ha : Fixable a) (hb : Fixable b) :
    ∃ c, rbInt2inum (g (word a) (word b)).toInt=canonical c ∧ ∀ k, bit c k=f (bit a k) (bit b k) :=
  ⟨_,rbInt2inum_toInt _,fun k => by rw [bit_toInt,hg,bit_word ha,bit_word hb]⟩

variable {m : Integer → Integer → Integer}

/-- The four combinations of representations, for a method `m` that works on the
words of two Fixnums and otherwise on Bignums, in either order. -/
lemma method_exact (h : Bitwise 64 f op rest) (hco : ∀ a b, f a b=f b a)
    (hz : ∀ s t, zsign s t=!f (!s) (!t))
    (hg : ∀ u v k, (g u v).getLsbD k=f (u.getLsbD k) (v.getLsbD k))
    (hw : ∀ x y, m (.fixnum x) (.fixnum y) =
      rbInt2inum (g (word (fix2long x)) (word (fix2long y))).toInt)
    (hm : ∀ x y, m (.fixnum x) (.bignum y)=bitOperation op rest zsign y (.fixnum x))
    (hbig : ∀ x y, m (.bignum x) y=bitOperation op rest zsign x y) (a b : ℤ) :
    ∃ c, m (canonical a) (canonical b)=canonical c ∧ ∀ k, bit c k=f (bit a k) (bit b k) := by
  by_cases ha : Fixable a
  · by_cases hb : Fixable b
    · rw [canonical_of_fixable ha,canonical_of_fixable hb,hw,fix2long_long2fix ha,
        fix2long_long2fix hb]
      exact wordOperation_exact hg ha hb
    · have hp := proper_operand b
      rw [canonical_of_not_fixable hb] at hp ⊢
      obtain ⟨c,hc,hbi⟩ := bitOperation_exact h hco hz hp a
      rw [canonical_of_fixable ha] at hc ⊢
      refine ⟨c,(hm _ _).trans hc,fun k => ?_⟩
      rw [hbi,hco]
      change f _ (bit (Bignum.ofInt b).toInt k)=_
      rw [ofInt_toInt]
  · have hp := proper_operand a
    rw [canonical_of_not_fixable ha] at hp ⊢
    obtain ⟨c,hc,hbi⟩ := bitOperation_exact h hco hz hp b
    refine ⟨c,(hbig _ _).trans hc,fun k => ?_⟩
    rw [hbi]
    change f (bit (Bignum.ofInt a).toInt k) _=_
    rw [ofInt_toInt]

lemma and_exact (a b : ℤ) :
    ∃ c, and (canonical a) (canonical b)=canonical c ∧ ∀ k, bit c k=(bit a k && bit b k) :=
  method_exact bitwise_and Bool.and_comm (by decide) (fun _ _ _ => BitVec.getLsbD_and)
    (fun _ _ => rfl) (fun _ _ => rfl) (fun _ _ => rfl) a b

lemma or_exact (a b : ℤ) :
    ∃ c, or (canonical a) (canonical b)=canonical c ∧ ∀ k, bit c k=(bit a k || bit b k) :=
  method_exact bitwise_or Bool.or_comm (by decide) (fun _ _ _ => BitVec.getLsbD_or)
    (fun _ _ => rfl) (fun _ _ => rfl) (fun _ _ => rfl) a b

lemma xor_sign (s t : Bool) : (!(s ^^ t))=!((!s) ^^ (!t)) := by
  cases s <;> cases t <;> rfl

lemma xor_exact (a b : ℤ) :
    ∃ c, xor (canonical a) (canonical b)=canonical c ∧ ∀ k, bit c k=(bit a k ^^ bit b k) :=
  method_exact bitwise_xor Bool.xor_comm xor_sign
    (fun _ _ _ => BitVec.getLsbD_xor) (fun _ _ => rfl) (fun _ _ => rfl) (fun _ _ => rfl) a b

lemma neg_exact (a : ℤ) : neg (canonical a)=canonical (-1-a) := by
  by_cases ha : Fixable a
  · have hn : (~~~word a).toInt = -1-a := by
      apply eq_of_bit
      intro k
      rw [bit_not,bit_toInt,bit_word ha,BitVec.getLsbD_not,decide_eq_true (by split_ifs <;> omega)]
      rfl
    rw [canonical_of_fixable ha,neg,fixRev,fix2long_long2fix ha,rbInt2inum_toInt,hn]
  · have hp := proper_operand a
    rw [canonical_of_not_fixable ha,operand] at hp
    rw [canonical_of_not_fixable ha,neg,rbBigNeg_eq hp,ofInt_toInt]

lemma two_pow_split (shift : ℕ) : (2 : ℕ)^shift=bigrad^(shift/64)*2^(shift%64) := by
  rw [← pow_mul,← pow_add,Nat.div_add_mod]

lemma bigLshift_eq (x : Bignum) (shift : ℕ) : bigLshift x shift=canonical (x.toInt*2^shift) := by
  have hs : 2^(shift%64) ≤ bigrad := Nat.pow_le_pow_right (by decide) (by omega)
  obtain ⟨-,hb,hl,hv⟩ := shiftUp_spec or_join hs
    (by positivity) x.digits_lt
  unfold bigLshift
  generalize hr : shiftUp (·|||·) bigrad (shift%64) 0 x.digits=r at hb hl hv
  have hle : r.1.length=x.digits.length := by
    rw [← hr]
    exact (shiftUp_spec or_join hs (by positivity) x.digits_lt).1
  have ht : r.2%bigrad=r.2 := Nat.mod_eq_of_lt (lt_of_lt_of_le hl hs)
  have hdi : Below bigrad (replicate (shift/64) 0++(r.1++[r.2])) := by
    refine below_append.mpr ⟨fun d hd => ?_,below_append.mpr ⟨hb,below_cons.mpr ⟨?_,below_nil⟩⟩⟩
    · rw [eq_of_mem_replicate hd]
      decide
    · exact lt_of_lt_of_le hl hs
  have hv' : Nat.ofDigits bigrad (replicate (shift/64) 0++(r.1++[r.2])) =
      Nat.ofDigits bigrad x.digits*2^shift := by
    rw [Nat.ofDigits_append,Nat.ofDigits_replicate_zero,length_replicate,ofDigits_concat,hle,
      hv,two_pow_split shift]
    ring
  dsimp only
  rw [ht,bignorm_eq,Bignum.toInt,signed_eq,ofDigits_digits hdi,hv',Bignum.toInt,signed_eq]
  change canonical (if x.sign then _ else _)=_
  split_ifs
  · rfl
  · push_cast
    rw [neg_mul]

lemma ediv_of_length_le (hx : Proper x) {shift : ℕ} (h : x.digits.length ≤ shift/64) :
    x.toInt/2^shift=if x.sign then 0 else -1 := by
  obtain ⟨hxs,hxv,hxl⟩ := flipped_spec hx
  have hd := twos_drop (by decide) x.sign hxs (shift/64)
  rw [drop_eq_nil_of_le (by omega),hxv] at hd
  have hp : (2 : ℤ)^shift=(bigrad : ℤ)^(shift/64)*2^(shift%64) := by
    exact_mod_cast two_pow_split shift
  rw [hp,← Int.ediv_ediv_of_nonneg (by positivity),← hd]
  have hpo : (0 : ℤ) < 2^(shift%64) := by positivity
  cases x.sign with
  | true => exact Int.zero_ediv _
  | false =>
    change -1/2^(shift%64) = -1
    exact Int.ediv_eq_neg_one_of_neg_of_le (by decide) (by omega)

lemma sign_fill (x : Bignum) :
    (if x.sign then int2fix 0 else int2fix (-1))=canonical (if x.sign then 0 else -1) := by
  split_ifs <;> exact int2fix_eq (by decide)

lemma sign_num (sign : Bool) :
    (if sign then 0 else wide bigrad ((bigrad*bigrad-1)*bigrad))=(if sign then 0 else 2^64-1)*2^64 := by
  cases sign with
  | true => rfl
  | false => decide

lemma bigRshift_eq (hx : Proper x) (shift : ℕ) :
    bigRshift x shift=canonical (x.toInt/2^shift) := by
  obtain ⟨hxs,hxv,hxl⟩ := flipped_spec hx
  unfold bigRshift
  rw [sign_fill,sign_num]
  by_cases hb : shift/64 > x.digits.length
  · rw [if_pos hb,ediv_of_length_le hx hb.le]
  rw [if_neg hb]
  by_cases he : (flipped x.sign x.digits).length-shift/64=0
  · rw [if_pos he,ediv_of_length_le hx (by omega)]
  · rw [if_neg he]
    have hdr := twos_drop (by decide) x.sign hxs (shift/64)
    have hbe : Below (2^64) ((flipped x.sign x.digits).drop (shift/64)) :=
      fun d hd => hxs d (mem_of_mem_drop hd)
    have hs := twos_shiftDown (by decide) (by omega : shift%64 ≤ 64) x.sign hbe
    have ht : (if x.sign then 0 else 2^64-1) < 2^64 := by split_ifs <;> decide
    obtain ⟨hl,hz,-⟩ := shiftDown_spec (by decide) (by omega : shift%64 ≤ 64) ht
      fun d hd => hbe d (mem_reverse.mp hd)
    have hp : (2 : ℤ)^shift=(bigrad : ℤ)^(shift/64)*2^(shift%64) := by
      exact_mod_cast two_pow_split shift
    rw [bignorm_flipped,hs,hdr,hxv,hp,Int.ediv_ediv_of_nonneg (by positivity)]
    · rw [← length_pos_iff,length_reverse,hl,length_reverse,length_drop]
      omega
    · exact fun d hd => hz d (mem_reverse.mp hd)

lemma ofInt_sign (n : ℤ) : (Bignum.ofInt n).sign=decide (0 ≤ n) := rfl

lemma ofInt_digits (n : ℤ) : (Bignum.ofInt n).digits=Nat.digits bigrad n.natAbs := rfl

lemma ofInt_length_le_one (n : ℤ) : (Bignum.ofInt n).digits.length ≤ 1 ↔ n.natAbs < 2^64 := by
  rw [ofInt_digits,Nat.digits_length_le_iff one_lt_bigrad,pow_one]

lemma big2ulong_ofInt (check : Bool) (h : n.natAbs < 2^64) :
    big2ulong (Bignum.ofInt n) check=.ok n.natAbs := by
  have hl := (ofInt_length_le_one n).mpr h
  rw [big2ulong,if_neg (by omega)]
  by_cases hz : n.natAbs=0
  · have hd : (Bignum.ofInt n).digits=[] := by
      rw [ofInt_digits,hz,Nat.digits_zero]
    rw [hd,hz]
    rfl
  · have hd : (Bignum.ofInt n).digits=[n.natAbs] := by
      rw [ofInt_digits,Nat.digits_of_lt _ _ hz h]
    have hz : wide bigrad 0=0 := rfl
    rw [hd,take_succ_cons,take_zero,foldr_cons,foldr_nil,zero_mul,hz,
      zero_add,wide_of_lt (by change _ < 2^64*2^64; omega),Nat.mod_eq_of_lt h]

lemma big2ulong_of_large (h : 2^64 ≤ n.natAbs) :
    big2ulong (Bignum.ofInt n) true=.error .range := by
  have hl := (ofInt_length_le_one n).not.mpr (by omega)
  rw [big2ulong,if_pos ⟨by omega,rfl⟩]

lemma ulong_eq (h : 0 ≤ n) (h' : n < 2^64) : ulong n=n.natAbs := by
  rw [ulong]
  omega

lemma floor_of_nonneg (a : ℤ) (h : 0 ≤ n) : ⌊(a : ℚ)*2^n⌋=a*2^n.natAbs := by
  obtain ⟨k,rfl⟩ := Int.eq_ofNat_of_zero_le h
  exact_mod_cast Int.floor_intCast (a*2^k)

lemma floor_of_nonpos (a : ℤ) (h : n ≤ 0) : ⌊(a : ℚ)*2^n⌋=a/2^n.natAbs := by
  obtain ⟨k,hk⟩ := Int.eq_ofNat_of_zero_le (by omega : 0 ≤ -n)
  obtain rfl : n = -k := by omega
  have hf := Rat.floor_intCast_div_natCast a (2^k)
  rw [Int.natAbs_neg,zpow_neg]
  push_cast at hf
  exact hf

variable {x : Bignum} (hx : Proper x) (hsize : x.digits.length ≤ 2^58)
include hx hsize

lemma checkShiftdown_eq (n : ℤ) : checkShiftdown (Bignum.ofInt n) x =
      if n.natAbs < 2^64 then none else some (canonical (x.toInt/2^n.natAbs)) := by
  have hl := ofInt_length_le_one n
  rw [checkShiftdown,if_neg (length_pos_of_ne_nil hx.1).ne',sign_fill]
  by_cases hs : n.natAbs < 2^64
  · rw [if_neg (by omega),if_pos hs]
  · rw [if_pos (by omega),if_neg hs,ediv_of_length_le hx (by omega)]

lemma shiftdown_exact (n : ℤ) : (match checkShiftdown (Bignum.ofInt n) x with
      | some t => .ok t
      | none => (big2ulong (Bignum.ofInt n) true).map (bigRshift x)) =
      (.ok (canonical (x.toInt/2^n.natAbs)) : Except Error Integer) := by
  rw [checkShiftdown_eq hx hsize]
  by_cases hs : n.natAbs < 2^64
  · rw [if_pos hs]
    rw [big2ulong_ofInt true hs,Except.map,bigRshift_eq hx]
  · rw [if_neg hs]

omit hx hsize in
lemma shiftup_exact (n : ℤ) : (big2ulong (Bignum.ofInt n) true).map (bigLshift x) =
      if n.natAbs < 2^64 then .ok (canonical (x.toInt*2^n.natAbs)) else .error .range := by
  split_ifs with hs
  · rw [big2ulong_ofInt true hs,Except.map,bigLshift_eq]
  · rw [big2ulong_of_large (by omega)]
    rfl

lemma rbBigLshift_exact (n : ℤ) : rbBigLshift x (canonical n) =
      if n < 2^64 then .ok (canonical ⌊(x.toInt : ℚ)*2^n⌋) else .error .range := by
  by_cases hf : Fixable n
  · rw [canonical_of_fixable hf,rbBigLshift,fix2long_long2fix hf]
    unfold Fixable at hf
    rw [if_pos (by omega : n < 2^64)]
    split_ifs with hn
    · rw [long_eq (by omega) (by omega),ulong_eq (by omega) (by omega),Int.natAbs_neg,bigRshift_eq hx,
        floor_of_nonpos _ hn.le]
    · rw [ulong_eq (by omega) (by omega),bigLshift_eq,floor_of_nonneg _ (by omega)]
  · rw [canonical_of_not_fixable hf,rbBigLshift,ofInt_sign]
    by_cases hn : n < 0
    · rw [if_neg (by simpa using hn),if_pos (by omega),floor_of_nonpos _ hn.le]
      exact shiftdown_exact hx hsize n
    · rw [if_pos (by simpa using hn),shiftup_exact,floor_of_nonneg _ (by omega)]
      have hc : n.natAbs < 2^64 ↔ n < 2^64 := by omega
      simp only [hc]

lemma rbBigRshift_exact (n : ℤ) : rbBigRshift x (canonical n) =
      if -2^64 < n then .ok (canonical ⌊(x.toInt : ℚ)*2^(-n)⌋) else .error .range := by
  by_cases hf : Fixable n
  · rw [canonical_of_fixable hf,rbBigRshift,fix2long_long2fix hf]
    unfold Fixable at hf
    rw [if_pos (by omega : -2^64 < n)]
    split_ifs with hn
    · rw [long_eq (by omega) (by omega),ulong_eq (by omega) (by omega),bigLshift_eq,
        floor_of_nonneg _ (by omega)]
    · rw [ulong_eq (by omega) (by omega),bigRshift_eq hx,floor_of_nonpos _ (by omega),Int.natAbs_neg]
  · rw [canonical_of_not_fixable hf,rbBigRshift,ofInt_sign]
    by_cases hn : n < 0
    · rw [if_neg (by simpa using hn),shiftup_exact,floor_of_nonneg _ (by omega),Int.natAbs_neg]
      have hc : n.natAbs < 2^64 ↔ -2^64 < n := by omega
      simp only [hc]
    · rw [if_pos (by simpa using hn),if_pos (by omega),floor_of_nonpos _ (by omega),Int.natAbs_neg]
      exact shiftdown_exact hx hsize n

omit hx hsize in
lemma bigtrunc_ofInt (n : ℤ) : bigtrunc (Bignum.ofInt n)=Bignum.ofInt n := by
  have ht : trunc (Bignum.ofInt n).digits=(Bignum.ofInt n).digits := by
    rw [ofInt_digits]
    apply trunc_eq
    by_cases hz : n.natAbs=0
    · rw [hz]
      exact Option.some_ne_none 0 ∘ .symm
    · have hn : Nat.digits bigrad n.natAbs ≠ [] := Nat.digits_ne_nil_iff_ne_zero.mpr hz
      rw [getLast?_eq_getLast_of_ne_nil hn]
      exact fun h => Nat.getLast_digit_ne_zero bigrad hz (Option.some.inj h)
  exact Bignum.ext rfl ht

omit hx hsize in
lemma int2fix_bit (b : Bool) : (if b then int2fix 1 else int2fix 0)=canonical (if b then 1 else 0) := by
  cases b <;> exact int2fix_eq (by decide)

omit hsize in
lemma bit_of_length_le {k : ℕ} (h : x.digits.length ≤ k/64) : bit x.toInt k=!x.sign := by
  obtain ⟨hxs,hxv,hxl⟩ := flipped_spec hx
  rw [← hxv,bit_twos (by decide) x.sign hxs,getElem?_eq_none (by omega)]

omit hx hsize in
lemma sign_bit (x : Bignum) :
    (if x.sign then int2fix 0 else int2fix 1)=canonical (if !x.sign then 1 else 0) := by
  cases x.sign <;> rfl

omit hsize in
lemma bigBit_exact (k : ℕ) : bigBit x k=canonical (if bit x.toInt k then 1 else 0) := by
  unfold bigBit
  dsimp only
  rw [sign_bit,int2fix_bit]
  by_cases hb : k/64 ≥ x.digits.length
  · rw [if_pos hb,bit_of_length_le hx hb]
  · rw [if_neg hb]
    cases hs : x.sign with
    | true =>
      obtain ⟨hxs,hxv,-⟩ := flipped_spec hx
      rw [← hxv,bit_twos (by decide) x.sign hxs,hs,flipped,if_pos rfl,if_pos rfl,
        getElem?_eq_getElem (by omega),getD_eq_getElem _ _ (by omega)]
    | false =>
      have hn := negatedDigit_testBit (by decide) le_rfl x.digits_lt
        (by omega : k/64 < x.digits.length) (by omega : k%64 < 64)
      have hv : x.toInt=((1 : ℕ))-1-(Nat.ofDigits (2^64) x.digits : ℕ) := by
        rw [Bignum.toInt,signed_eq,hs,if_neg Bool.false_ne_true]
        ring
      rw [if_neg Bool.false_ne_true,hn,hv,Nat.div_add_mod]

lemma rbBigAref_exact (n : ℤ) : rbBigAref x (canonical n) =
      .ok (canonical (if 0 ≤ n ∧ bit x.toInt n.natAbs then 1 else 0)) := by
  by_cases hn : n < 0
  · have hz : int2fix 0=canonical (if 0 ≤ n ∧ bit x.toInt n.natAbs then 1 else 0) := by
      rw [if_neg (by omega)]
      exact int2fix_eq (by decide)
    rw [← hz]
    by_cases hf : Fixable n
    · rw [canonical_of_fixable hf,rbBigAref,fix2long_long2fix hf,if_pos hn]
    · rw [canonical_of_not_fixable hf,rbBigAref,ofInt_sign,if_pos (by simpa using hn)]
  · simp only [not_lt.mp hn,true_and]
    by_cases hf : Fixable n
    · rw [canonical_of_fixable hf,rbBigAref,fix2long_long2fix hf,if_neg hn]
      unfold Fixable at hf
      rw [ulong_eq (by omega) (by omega),bigBit_exact hx]
    · have hl := ofInt_length_le_one n
      rw [canonical_of_not_fixable hf,rbBigAref,ofInt_sign,if_neg (by simpa using hn),
        bigtrunc_ofInt,sign_bit]
      by_cases hs : n.natAbs < 2^64
      · rw [if_neg (by omega),big2ulong_ofInt false hs,Except.map,bigBit_exact hx]
      · rw [if_pos (by omega),bit_of_length_le hx (by omega)]

end BitOperations

section FixnumShifts

lemma rbUint2inum_eq {n : ℕ} (h : n < 2^63) : rbUint2inum n=canonical n := by
  rw [← rbInt2inum_eq (by omega) (by omega)]
  have hw : ((n : ℤ)%2^64).toNat=n := by omega
  have hf : Fixable n ↔ n < 2^61 := by
    unfold Fixable
    omega
  unfold rbUint2inum rbInt2inum rbInt2big
  rw [if_neg (by omega : ¬(n : ℤ) < 0),hw]
  simp only [hf]

variable {a : ℤ} (ha : Fixable a)
include ha

lemma proper_rbInt2big : Proper (rbInt2big a) ∧ (rbInt2big a).digits.length ≤ 2^58 ∧
    (rbInt2big a).toInt=a := by
  have hp := proper_operand a
  rw [canonical_of_fixable ha,operand,fix2long_long2fix ha] at hp
  unfold Fixable at ha
  obtain ⟨hv,hd⟩ := rbInt2big_spec (n := a) (by omega) (by omega)
  refine ⟨hp,?_,hv⟩
  rw [hd,length_singleton]
  decide

lemma fixLshift_exact {n : ℤ} (h : 0 ≤ n) (h' : n ≤ 2^61) :
    fixLshift a n.natAbs=.ok (canonical ⌊(a : ℚ)*2^n⌋) := by
  unfold fixLshift
  split_ifs with hb
  · obtain ⟨hp,hsize,hv⟩ := proper_rbInt2big ha
    have hnu : rbUint2inum n.natAbs=canonical n := by
      rw [rbUint2inum_eq (by omega),Int.natAbs_of_nonneg h]
    rw [hnu,rbBigLshift_exact hp hsize,if_pos (by omega),hv]
  · rw [not_or,not_lt,not_lt,Nat.le_zero] at hb
    obtain ⟨hw,hwo⟩ := hb
    have hpo : 2^(63-n.natAbs)*2^n.natAbs=2^63 := by
      rw [← pow_add,Nat.sub_add_cancel hw]
    have hl : ulong a < 2^(63-n.natAbs) := (Nat.div_eq_zero_iff_lt (by positivity)).mp hwo
    have hle : 2^(63-n.natAbs) ≤ 2^63 := Nat.pow_le_pow_right (by decide) (by omega)
    have hn : 0 ≤ a := by
      unfold Fixable at ha
      unfold ulong at hl
      omega
    have hf : a*2^n.natAbs < 2^63 := by
      have hbo : a < 2^(63-n.natAbs) := by
        rw [ulong_eq hn (by unfold Fixable at ha; omega)] at hl
        have : ((2^(63-n.natAbs) : ℕ) : ℤ)=2^(63-n.natAbs) := by push_cast; rfl
        omega
      calc a*2^n.natAbs < 2^(63-n.natAbs)*2^n.natAbs := by
            exact mul_lt_mul_of_pos_right hbo (by positivity)
        _=2^63 := by exact_mod_cast hpo
    have hlo : 0 ≤ a*2^n.natAbs := by positivity
    rw [long_eq (by omega) hf,rbInt2inum_eq (by omega) hf,floor_of_nonneg _ h]

lemma fixRshift_exact (i : ℕ) : fixRshift a i=canonical (a/2^i) := by
  have hp : (0 : ℤ) < 2^i := by positivity
  unfold fixRshift
  split_ifs with hl hn
  · have hpo : (2 : ℤ)^63 ≤ 2^i := pow_le_pow_right₀ (by decide) hl
    unfold Fixable at ha
    rw [Int.ediv_eq_neg_one_of_neg_of_le hn (by omega)]
    exact int2fix_eq (by decide)
  · have hpo : (2 : ℤ)^63 ≤ 2^i := pow_le_pow_right₀ (by decide) hl
    unfold Fixable at ha
    rw [Int.ediv_eq_zero_of_lt (by omega) (by omega)]
    exact int2fix_eq (by decide)
  · apply int2fix_eq
    unfold Fixable at ha ⊢
    constructor
    · rw [Int.le_ediv_iff_mul_le hp]
      nlinarith
    · exact Int.ediv_lt_of_lt_mul hp (by nlinarith)

lemma bit_sign {k : ℕ} (h : 64 ≤ k) : bit a k=decide (a < 0) := by
  rw [bit_word ha,if_neg (by omega),← BitVec.msb_eq_getLsbD_last,BitVec.msb_eq_toInt,word_toInt ha]

lemma fixBit_exact (n : ℤ) : fixBit a n=canonical (if 0 ≤ n ∧ bit a n.natAbs then 1 else 0) := by
  have hw := bit_word ha n.natAbs
  unfold fixBit
  by_cases hn : n < 0
  · rw [if_pos hn,if_neg (by omega)]
    exact int2fix_eq (by decide)
  simp only [not_lt.mp hn,true_and]
  rw [if_neg hn]
  by_cases hl : 63 < n
  · have hf : (if a < 0 then int2fix 1 else int2fix 0) =
        canonical (if decide (a < 0) then 1 else 0) := by
      rw [← int2fix_bit]
      simp only [decide_eq_true_eq]
    rw [if_pos hl,bit_sign ha (by omega),hf]
  · have ht : n.toNat=n.natAbs := by omega
    rw [if_pos (by omega)] at hw
    rw [if_neg hl,ht,hw,int2fix_bit]

end FixnumShifts

/-- The number has at most 2^58 digits, the longest that 2^61 bytes hold. -/
def Held (a : ℤ) : Prop := (Nat.digits bigrad a.natAbs).length ≤ 2^58

variable {a : ℤ}

lemma lshift_exact (ha : Held a) (n : ℤ) : lshift (canonical a) (canonical n) =
      if n < 2^64 then .ok (canonical ⌊(a : ℚ)*2^n⌋) else .error .range := by
  by_cases hf : Fixable a
  · rw [canonical_of_fixable hf,lshift]
    by_cases hc : Fixable n
    · rw [canonical_of_fixable hc,rbFixLshift,fix2long_long2fix hf,fix2long_long2fix hc]
      unfold Fixable at hc
      rw [if_pos (by omega : n < 2^64)]
      split_ifs with hn
      · rw [long_eq (by omega) (by omega),ulong_eq (by omega) (by omega),Int.natAbs_neg,
          fixRshift_exact hf,floor_of_nonpos _ hn.le]
      · rw [ulong_eq (by omega) (by omega),fixLshift_exact hf (by omega) (by omega)]
    · obtain ⟨hp,hsize,hv⟩ := proper_rbInt2big hf
      have hs := rbBigLshift_exact hp hsize n
      rw [hv,canonical_of_not_fixable hc] at hs
      rw [canonical_of_not_fixable hc,rbFixLshift,fix2long_long2fix hf,hs]
  · have hp := proper_operand a
    rw [canonical_of_not_fixable hf,operand] at hp
    rw [canonical_of_not_fixable hf,lshift,rbBigLshift_exact hp ha,ofInt_toInt]

lemma rshift_exact (ha : Held a) (n : ℤ) : rshift (canonical a) (canonical n) =
      if -2^64 < n then .ok (canonical ⌊(a : ℚ)*2^(-n)⌋) else .error .range := by
  by_cases hf : Fixable a
  · rw [canonical_of_fixable hf,rshift]
    by_cases hc : Fixable n
    · rw [canonical_of_fixable hc,rbFixRshift,fix2long_long2fix hf,fix2long_long2fix hc]
      unfold Fixable at hc
      rw [if_pos (by omega : -2^64 < n)]
      split_ifs with hz hn
      · rw [hz,neg_zero,zpow_zero,mul_one,Int.floor_intCast,canonical_of_fixable hf]
      · rw [long_eq (by omega) (by omega),ulong_eq (by omega) (by omega),
          fixLshift_exact hf (by omega) (by omega)]
      · rw [ulong_eq (by omega) (by omega),fixRshift_exact hf,floor_of_nonpos _ (by omega),
          Int.natAbs_neg]
    · obtain ⟨hp,hsize,hv⟩ := proper_rbInt2big hf
      have hs := rbBigRshift_exact hp hsize n
      rw [hv,canonical_of_not_fixable hc] at hs
      rw [canonical_of_not_fixable hc,rbFixRshift,fix2long_long2fix hf,hs]
  · have hp := proper_operand a
    rw [canonical_of_not_fixable hf,operand] at hp
    rw [canonical_of_not_fixable hf,rshift,rbBigRshift_exact hp ha,ofInt_toInt]

lemma aref_exact (ha : Held a) (n : ℤ) : aref (canonical a) (canonical n) =
      .ok (canonical (if 0 ≤ n ∧ bit a n.natAbs then 1 else 0)) := by
  by_cases hf : Fixable a
  · rw [canonical_of_fixable hf,aref]
    by_cases hc : Fixable n
    · rw [canonical_of_fixable hc,fixAref,fix2long_long2fix hf,fix2long_long2fix hc,
        fixBit_exact hf]
    · have hno : bignorm (Bignum.ofInt n)=.bignum (Bignum.ofInt n) := by
        rw [bignorm_eq,ofInt_toInt,canonical_of_not_fixable hc]
      rw [canonical_of_not_fixable hc,fixAref,hno]
      dsimp only
      rw [ofInt_sign,fix2long_long2fix hf]
      by_cases hn : n < 0
      · rw [if_pos (by simp [hn]),if_neg (by omega),int2fix_eq (by decide)]
      · have hl : 64 ≤ n.natAbs := by
          unfold Fixable at hc
          omega
        rw [bit_sign hf hl]
        by_cases hs : a < 0
        · rw [if_neg (by simp [hn,hs]),if_pos (by simp [hs,not_lt.mp hn]), int2fix_eq (by decide)]
        · rw [if_pos (.inr (not_lt.mp hs)),if_neg (by simp [hs]),int2fix_eq (by decide)]
  · have hp := proper_operand a
    rw [canonical_of_not_fixable hf,operand] at hp
    rw [canonical_of_not_fixable hf,aref,rbBigAref_exact hp ha,ofInt_toInt]

/-- Every operation returns the canonical integer with the bits of the operation
on the infinite two's complement of its operands; a left shift by 2^64 or more
is refused. -/
theorem bit_operations_exact (a b : ℤ) :
    (∃ c, and (canonical a) (canonical b) = canonical c ∧ ∀ k, bit c k = (bit a k && bit b k)) ∧
    (∃ c, or (canonical a) (canonical b) = canonical c ∧ ∀ k, bit c k = (bit a k || bit b k)) ∧
    (∃ c, xor (canonical a) (canonical b) = canonical c ∧ ∀ k, bit c k = (bit a k ^^ bit b k)) ∧
    (∃ c, neg (canonical a) = canonical c ∧ ∀ k, bit c k = !bit a k) ∧ (Held a → ∀ n : ℤ,
      lshift (canonical a) (canonical n) =
        (if n < 2^64 then .ok (canonical ⌊(a : ℚ)*2^n⌋) else .error .range) ∧
      rshift (canonical a) (canonical n) =
        (if -2^64 < n then .ok (canonical ⌊(a : ℚ)*2^(-n)⌋) else .error .range) ∧
      aref (canonical a) (canonical n) =
        .ok (canonical (if 0 ≤ n ∧ bit a n.natAbs then 1 else 0))) :=
  ⟨and_exact a b,or_exact a b,xor_exact a b,⟨_,neg_exact a,bit_not a⟩,
    fun ha n => ⟨lshift_exact ha n,rshift_exact ha n,aref_exact ha n⟩⟩

lemma held_of_small (h : a ≠ 0) (h' : a.natAbs < bigrad) : Held a := by
  rw [Held,Nat.digits_of_lt _ _ (by omega) h',length_singleton]
  decide

/-- A Fixnum shifted to the right by a count of two digits. -/
theorem bit_operations_exact_fixnum : Held (-5) ∧ rshift (canonical (-5)) (canonical (2^70)) =
        .ok (canonical ⌊((-5 : ℤ) : ℚ)*2^(-(2^70 : ℤ))⌋) :=
  ⟨held_of_small (by decide) (by decide),
    ((bit_operations_exact (-5) 0).2.2.2.2 (held_of_small (by decide) (by decide)) (2^70)).2.1⟩

/-- One shifted by 2^64 raises. -/
theorem lshift_by_two_digits_refused :
    lshift (canonical 1) (canonical (2^64)) ≠ .ok (canonical ⌊((1 : ℤ) : ℚ)*2^(2^64 : ℤ)⌋) := by
  intro h
  cases h

end MacRuby.IntegerBits
