import MacRuby.IntegerDivision

/-!
# Comparison, negation and products of integers

The methods of Fixnum and Bignum that other numbers are built on: `-@`, `<=>`,
`==`, `div` and `%`. Each is exact on canonical integers. The product is exact up
to the multiple of `2^62` that `rb_fix_mul` loses; `overflow` says which.
-/
namespace MacRuby.IntegerMethods
open Digits Integers IntegerDivision List Int

/-- `fix_uminus` and `rb_big_uminus`. -/
def negate : Integer → Integer
  | .fixnum x => rbInt2inum (long (-fix2long x))
  | .bignum x => bignorm {x with sign := !x.sign}

/-- The loop of `rb_big_cmp` from the top digit down to the first difference. -/
def firstDifference : List ℕ → List ℕ → Option (ℕ × ℕ)
  | x::xs,y::ys => if x=y then firstDifference xs ys else some (x,y)
  | _,_ => none

def rbBigCmp (x y : Bignum) : ℤ :=
  if x.sign=true ∧ y.sign=false then 1
  else if x.sign=false ∧ y.sign=true then -1
  else if x.digits.length < y.digits.length then if x.sign then -1 else 1
  else if x.digits.length > y.digits.length then if x.sign then 1 else -1
  else match firstDifference x.digits.reverse y.digits.reverse with
    | none => 0
    | some (a,b) => if a > b then if x.sign then 1 else -1 else if x.sign then -1 else 1

/-- `fix_cmp` and `rb_big_cmp`. -/
def intCmp : Integer → Integer → ℤ
  | .fixnum x,.fixnum y => if x=y then 0 else if fix2long x > fix2long y then 1 else -1
  | .fixnum x,.bignum y => rbBigCmp (rbInt2big (fix2long x)) y
  | .bignum x,y => rbBigCmp x (operand y)

def rbBigEq (x y : Bignum) : Bool := x.sign == y.sign && x.digits == y.digits

/-- `fix_equal` and `rb_big_eq`. -/
def equal : Integer → Integer → Bool
  | .fixnum x,.fixnum y => x == y
  | .fixnum x,.bignum y => rbBigEq y (rbInt2big (fix2long x))
  | .bignum x,y => rbBigEq x (operand y)

/-- `fix_idiv` and `rb_big_idiv`. -/
def idiv (x y : Integer) : Except Error Integer := (divmod x y).map Prod.fst

/-- `fix_mod` and `rb_big_modulo`. -/
def modulo (x y : Integer) : Except Error Integer := (divmod x y).map Prod.snd

variable {n : ℤ} {B : ℕ}

lemma firstDifference_spec (hB : 1 < B) {xs ys : List ℕ}
    (hl : xs.length=ys.length) (hx : Below B xs) (hy : Below B ys) :
    match firstDifference xs ys with
    | none => xs=ys
    | some (a,b) => a ≠ b ∧ (a > b ↔ Nat.ofDigits B ys.reverse < Nat.ofDigits B xs.reverse) ∧
        (a < b ↔ Nat.ofDigits B xs.reverse < Nat.ofDigits B ys.reverse) := by
  induction xs generalizing ys with
  | nil =>
    obtain rfl : ys=[] := length_eq_zero_iff.mp hl.symm
    rfl
  | cons x xs ih =>
    cases ys with
    | nil => cases hl
    | cons y ys =>
      rw [below_cons] at hx hy
      simp only [length_cons,add_right_cancel_iff] at hl
      rw [firstDifference]
      split_ifs with hxy
      · have hr := ih hl hx.2 hy.2
        revert hr
        cases firstDifference xs ys with
        | none =>
          intro hs
          exact congrArg₂ cons hxy hs
        | some p =>
          intro hr
          simp only [reverse_cons,ofDigits_concat,length_reverse,hl,hxy, add_lt_add_iff_right]
          exact hr
      · have hl' : xs.reverse.length=ys.reverse.length := by simpa using hl
        have hx' : Below B xs.reverse := fun d hd => hx.2 d (mem_reverse.mp hd)
        have hy' : Below B ys.reverse := fun d hd => hy.2 d (mem_reverse.mp hd)
        have hles := top_lt (x := x) (y := y) hB hl' hx'
        have hm := top_lt (x := y) (y := x) hB hl'.symm hy'
        simp only [reverse_cons]
        refine ⟨hxy,⟨hm,fun h => ?_⟩,⟨hles,fun h => ?_⟩⟩
        · by_contra hle
          exact absurd (hles (by omega)) (by omega)
        · by_contra hle
          exact absurd (hm (by omega)) (by omega)

lemma lt_of_length_lt (hB : 1 < B) {xs ys : List ℕ} (hx : Below B xs)
    (hy : Full B ys) (hn : xs ≠ []) (h : xs.length < ys.length) :
    Nat.ofDigits B xs < Nat.ofDigits B ys := by
  have hp : 0 < xs.length := length_pos_iff.mpr hn
  have ht := hy (by omega)
  have hl := Nat.ofDigits_lt_base_pow_length hB hx
  have hpo : B^xs.length ≤ B^(ys.length-1) := Nat.pow_le_pow_right (by omega) (by omega)
  omega

/-- What `rb_big_cmp` needs of its arguments: no leading zeros, and no negative zero. -/
structure Comparable (x : Bignum) : Prop where
  full : Operand x
  nonempty : x.digits ≠ []
  sign : x.sign=decide (0 ≤ x.toInt)

lemma signs_of_lt {m n : ℕ} (h : m < n) : ((m : ℤ)-n).sign = -1 ∧ ((n : ℤ)-m).sign=1 :=
  ⟨sign_eq_neg_one_of_neg (by omega),sign_eq_one_of_pos (by omega)⟩

lemma rbBigCmp_of_sign {x y : Bignum} (hx : Comparable x) (hy : Comparable y)
    (hsi : x.sign=y.sign) : rbBigCmp x y = if x.sign then
        (((Nat.ofDigits bigrad x.digits : ℕ) : ℤ)-(Nat.ofDigits bigrad y.digits : ℕ)).sign
      else (((Nat.ofDigits bigrad y.digits : ℕ) : ℤ)-(Nat.ofDigits bigrad x.digits : ℕ)).sign := by
  have hb : ¬(x.sign=true ∧ y.sign=false) := by
    rw [← hsi]
    rintro ⟨h,h'⟩
    rw [h] at h'
    cases h'
  have hb' : ¬(x.sign=false ∧ y.sign=true) := by
    rw [← hsi]
    rintro ⟨h,h'⟩
    rw [h] at h'
    cases h'
  rw [rbBigCmp,if_neg hb,if_neg hb']
  by_cases hle : x.digits.length < y.digits.length
  · have hl := lt_of_length_lt one_lt_bigrad x.digits_lt hy.full hx.nonempty hle
    rw [if_pos hle,(signs_of_lt hl).1,(signs_of_lt hl).2]
  · rw [if_neg hle]
    by_cases hm : x.digits.length > y.digits.length
    · have hl := lt_of_length_lt one_lt_bigrad y.digits_lt hx.full hy.nonempty hm
      rw [if_pos hm,(signs_of_lt hl).1,(signs_of_lt hl).2]
    · have hsp := firstDifference_spec one_lt_bigrad (by simp only [length_reverse]; omega :
          x.digits.reverse.length=y.digits.reverse.length)
        (fun d hd => x.digits_lt d (mem_reverse.mp hd))
        fun d hd => y.digits_lt d (mem_reverse.mp hd)
      rw [if_neg hm]
      simp only [reverse_reverse] at hsp
      revert hsp
      cases firstDifference x.digits.reverse y.digits.reverse with
      | none =>
        intro hsa
        rw [reverse_inj.mp hsa,sub_self,sign_zero,ite_self]
      | some p =>
        rintro ⟨hn,hg,hl⟩
        dsimp only
        by_cases hp : p.1 > p.2
        · have hs := signs_of_lt (hg.mp hp)
          rw [if_pos hp,hs.1,hs.2]
        · have hs := signs_of_lt (hl.mp (by omega))
          rw [if_neg hp,hs.1,hs.2]

lemma rbBigCmp_eq {x y : Bignum} (hx : Comparable x) (hy : Comparable y) :
    rbBigCmp x y=(x.toInt-y.toInt).sign := by
  have hxv : x.toInt=_ := signed_eq x.sign x.digits
  have hyv : y.toInt=_ := signed_eq y.sign y.digits
  have hxs := hx.sign
  have hys := hy.sign
  cases hs : x.sign <;> cases hsy : y.sign
  · rw [rbBigCmp_of_sign hx hy (hs.trans hsy.symm),hxv,hyv,hs,hsy]
    simp only [Bool.false_eq_true,if_false]
    congr 1
    ring
  · rw [hs] at hxs
    rw [hsy] at hys
    have hn := of_decide_eq_false hxs.symm
    have hp := of_decide_eq_true hys.symm
    rw [rbBigCmp,hs,hsy,sign_eq_neg_one_of_neg (by omega)]
    rfl
  · rw [hs] at hxs
    rw [hsy] at hys
    have hp := of_decide_eq_true hxs.symm
    have hn := of_decide_eq_false hys.symm
    rw [rbBigCmp,hs,hsy,sign_eq_one_of_pos (by omega)]
    rfl
  · rw [rbBigCmp_of_sign hx hy (hs.trans hsy.symm),hxv,hyv,hs,hsy]
    simp only [if_true]

lemma rbInt2big_sign (h : -2^63 ≤ n) (h' : n < 2^63) : (rbInt2big n).sign=decide (0 ≤ n) := by
  unfold rbInt2big
  split_ifs with hn
  · exact (decide_eq_false (by omega)).symm
  · exact (decide_eq_true (by omega)).symm

lemma comparable_rbInt2big (h : -2^63 ≤ n) (h' : n < 2^63) : Comparable (rbInt2big n) := by
  obtain ⟨hv,hd⟩ := rbInt2big_spec h h'
  refine ⟨operand_of_singleton hd,?_,?_⟩
  · rw [hd]
    exact cons_ne_nil _ _
  · rw [hv]
    exact rbInt2big_sign h h'

lemma comparable_ofInt (h : n ≠ 0) : Comparable (Bignum.ofInt n) := by
  refine ⟨ofInt_full n,?_,?_⟩
  · change Nat.digits bigrad n.natAbs ≠ []
    exact Nat.digits_ne_nil_iff_ne_zero.mpr (natAbs_ne_zero.mpr h)
  · rw [ofInt_toInt]
    rfl

lemma comparable_operand (n : ℤ) : Comparable (operand (canonical n)) := by
  by_cases hf : Fixable n
  · rw [canonical_of_fixable hf,operand,fix2long_long2fix hf]
    unfold Fixable at hf
    exact comparable_rbInt2big (by omega) (by omega)
  · rw [canonical_of_not_fixable hf]
    refine comparable_ofInt fun hz => hf ?_
    rw [hz]
    decide

variable {b a : ℤ}

lemma long2fix_inj (ha : Fixable a) (hb : Fixable b) : long2fix a=long2fix b ↔ a=b := by
  refine ⟨fun h => ?_,congrArg long2fix⟩
  rw [← fix2long_long2fix ha,← fix2long_long2fix hb,h]

lemma negate_canonical (a : ℤ) : negate (canonical a)=canonical (-a) := by
  by_cases hf : Fixable a
  · rw [canonical_of_fixable hf,negate,fix2long_long2fix hf]
    unfold Fixable at hf
    rw [long_eq (by omega) (by omega),rbInt2inum_eq (by omega) (by omega)]
  · rw [canonical_of_not_fixable hf,negate,bignorm_eq]
    congr 1
    have hv := ofInt_toInt a
    rw [Bignum.toInt,signed_eq] at hv ⊢
    conv_rhs => rw [← hv]
    cases (Bignum.ofInt a).sign <;> simp

lemma intCmp_canonical (a b : ℤ) : intCmp (canonical a) (canonical b)=(a-b).sign := by
  have hbi := rbBigCmp_eq (comparable_operand a) (comparable_operand b)
  rw [(operand_canonical a).1,(operand_canonical b).1] at hbi
  rw [← hbi]
  by_cases ha : Fixable a
  · rw [canonical_of_fixable ha] at hbi ⊢
    by_cases hb : Fixable b
    · rw [canonical_of_fixable hb] at hbi ⊢
      rw [hbi,intCmp,fix2long_long2fix ha,fix2long_long2fix hb]
      by_cases hab : a=b
      · rw [if_pos ((long2fix_inj ha hb).mpr hab),hab,sub_self,sign_zero]
      · rw [if_neg (mt (long2fix_inj ha hb).mp hab)]
        split_ifs with hg
        · rw [sign_eq_one_of_pos (by omega)]
        · rw [sign_eq_neg_one_of_neg (by omega)]
    · rw [canonical_of_not_fixable hb]
      rfl
  · rw [canonical_of_not_fixable ha]
    rfl

lemma rbBigEq_operand (a b : ℤ) : rbBigEq (operand (canonical a)) (operand (canonical b))=true ↔
      operand (canonical a)=operand (canonical b) := by
  rw [rbBigEq,Bool.and_eq_true,beq_iff_eq,beq_iff_eq]
  exact ⟨fun h => Bignum.ext h.1 h.2,fun h => by rw [h]; exact ⟨rfl,rfl⟩⟩

lemma operand_inj (a b : ℤ) : operand (canonical a)=operand (canonical b) ↔ a=b := by
  refine ⟨fun h => ?_,fun h => by rw [h]⟩
  rw [← (operand_canonical a).1,← (operand_canonical b).1,h]

lemma equal_canonical (a b : ℤ) : equal (canonical a) (canonical b)=true ↔ a=b := by
  have hbi := (rbBigEq_operand a b).trans (operand_inj a b)
  have hs := (rbBigEq_operand b a).trans (operand_inj b a)
  by_cases ha : Fixable a
  · rw [canonical_of_fixable ha] at hbi hs ⊢
    by_cases hb : Fixable b
    · rw [canonical_of_fixable hb,equal,beq_iff_eq]
      exact long2fix_inj ha hb
    · rw [canonical_of_not_fixable hb] at hs ⊢
      exact hs.trans eq_comm
  · rw [canonical_of_not_fixable ha] at hbi ⊢
    exact hbi

lemma idiv_of_dvd (hb : b ≠ 0) (h : b ∣ a) :
    idiv (canonical a) (canonical b)=.ok (canonical (a/b)) := by
  obtain ⟨q,r,hru,hv,hf⟩ := divmod_canonical a hb
  obtain ⟨c,rfl⟩ := h
  have hr : r=0 := by
    have hd : b ∣ r := ⟨c-q,by linarith [mul_sub b c q,mul_comm q b]⟩
    rcases hf with hz | ⟨-,hl⟩
    · exact hz
    · exact eq_zero_of_abs_lt_dvd ((abs_dvd _ _).mpr hd) hl
  have hq : q=c := by
    rw [hr,add_zero,mul_comm b c] at hv
    exact mul_right_cancel₀ hb hv.symm
  rw [idiv,hru,hq,mul_ediv_cancel_left _ hb]
  rfl

lemma modulo_canonical (a : ℤ) (hb : 0 < b) :
    modulo (canonical a) (canonical b)=.ok (canonical (a%b)) := by
  obtain ⟨q,r,hru,hv,hf⟩ := divmod_canonical a hb.ne'
  have hr : 0 ≤ r ∧ r < b := by
    rcases hf with hz | ⟨hs,hl⟩
    · omega
    · rw [sign_eq_one_of_pos hb,sign_eq_one_iff_pos] at hs
      rw [abs_of_pos hb] at hl
      exact ⟨hs.le,(abs_lt.mp hl).2⟩
  have hm : a%b=r := by
    rw [hv,add_comm,add_mul_emod_self_right,emod_eq_of_lt hr.1 hr.2]
  rw [modulo,hru,hm]
  rfl

/-- How many times `2^62` is lost by `rb_fix_mul`. -/
def overflow (a b : ℤ) : ℤ :=
  if FitSqrtLong a ∧ FitSqrtLong b ∧ ¬Fixable (a*b) then (a*b).sign else 0

/-- The product that `*` returns. -/
def product (a b : ℤ) : ℤ := a*b-2^62*overflow a b

lemma product_of_overflow (h : overflow a b=0) : product a b=a*b := by
  rw [product,h,mul_zero,sub_zero]

lemma abs_mul_le_of_fit (ha : FitSqrtLong a) (hb : FitSqrtLong b) :
    |a*b| ≤ 2^62 := by
  have hs := mul_le_mul (abs_le.mpr ⟨ha.2,ha.1.le⟩) (abs_le.mpr ⟨hb.2,hb.1.le⟩)
    (abs_nonneg b) (by norm_num)
  rw [abs_mul]
  exact hs

lemma mul_canonical_eq (a b : ℤ) : mul (canonical a) (canonical b)=canonical (product a b) := by
  by_cases ho : FitSqrtLong a ∧ FitSqrtLong b ∧ ¬Fixable (a*b)
  · obtain ⟨hf,hfb,hn⟩ := ho
    have hbo := abs_le.mp (abs_mul_le_of_fit hf hfb)
    have ha : Fixable a := by
      unfold FitSqrtLong at hf
      unfold Fixable
      omega
    have hb : Fixable b := by
      unfold FitSqrtLong at hfb
      unfold Fixable
      omega
    have hfi : Fixable (product a b) := by
      rw [product,overflow,if_pos ⟨hf,hfb,hn⟩]
      unfold Fixable at hn ⊢
      rcases lt_or_gt_of_ne (show a*b ≠ 0 by omega) with hne | hp
      · rw [sign_eq_neg_one_of_neg hne]
        omega
      · rw [sign_eq_one_of_pos hp]
        omega
    rw [canonical_of_fixable ha,canonical_of_fixable hb,canonical_of_fixable hfi]
    simp only [mul,rbFixMul,fix2long_long2fix ha,fix2long_long2fix hb,hf,hfb,and_self,if_true]
    rw [long_eq (by omega) (by omega)]
    congr 1
    apply BitVec.eq_of_toInt_eq
    rw [long2fix,long2fix,BitVec.toInt_ofInt,BitVec.toInt_ofInt]
    exact (sub_mul_bmod_self_left (a*b) (2^62) (overflow a b)).symm
  · have hz : overflow a b=0 := if_neg ho
    rw [product_of_overflow hz]
    exact (mul_canonical a b).mpr ho

end MacRuby.IntegerMethods
