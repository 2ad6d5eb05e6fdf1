import MacRuby.FixnumPowers

/-!
# The integer functions of `rational.c`

Each function tests for small Fixnums first and calls the method of the integer
otherwise. On canonical integers they are exact, but for `f_mul`, whose product is
the one of `*`. The comparisons give the Fixnums `-1`, `0` and `1`, which are kept
as integers.
-/
namespace MacRuby.RationalParts
open Integers IntegerDivision IntegerMethods Int

inductive Failure
  /-- `ZeroDivisionError`. -/
  | zeroDivision
  /-- A digit of a quotient was counted down below zero. -/
  | underflow
  /-- A loop that does not end. -/
  | endless
deriving DecidableEq, Repr

def ofError : Error → Failure
  | .zeroDivision => .zeroDivision
  | .underflow => .underflow

lemma ok_bind {α β : Type} (x : α) (f : α → Except Failure β) :
    ((Except.ok x : Except Failure α) >>= f)=f x := rfl

/-- `ZERO` and `ONE`. -/
def zero : Integer := .fixnum (long2fix 0)

def one : Integer := .fixnum (long2fix 1)

/-- `FIXNUM_P(x) && FIX2LONG(x) == n`. -/
def isFix (n : ℤ) : Integer → Bool
  | .fixnum x => fix2long x == n
  | .bignum _ => false

def fAdd (x y : Integer) : Integer :=
  if isFix 0 y then x else if isFix 0 x then y else plus x y

def fSub (x y : Integer) : Integer := if isFix 0 y then x else minus x y

def fCmp (x y : Integer) : ℤ :=
  match x,y with
  | .fixnum a,.fixnum b => (long (fix2long a-fix2long b)).sign
  | x,y => intCmp x y

def fMul (x y : Integer) : Integer :=
  match y with
  | .fixnum b => if fix2long b=0 then zero else if fix2long b=1 then x else mul x y
  | .bignum _ => match x with
      | .fixnum a => if fix2long a=0 then zero else if fix2long a=1 then y else mul x y
      | .bignum _ => mul x y

def fEqeqP (x y : Integer) : Bool :=
  match x,y with
  | .fixnum a,.fixnum b => fix2long a == fix2long b
  | x,y => equal x y

/-- `f_negative_p`; `<` of a Bignum is the one of `Comparable`. -/
def fNegativeP : Integer → Bool
  | .fixnum x => decide (fix2long x < 0)
  | .bignum x => decide (intCmp (.bignum x) zero < 0)

def fZeroP (x : Integer) : Bool := isFix 0 x

def fOneP (x : Integer) : Bool := isFix 1 x

def fIdiv (x y : Integer) : Except Failure Integer := (idiv x y).mapError ofError

def fMod (x y : Integer) : Except Failure Integer := (modulo x y).mapError ofError

/-- The loop of `i_gcd`. -/
def iGcdLoop (x y : ℤ) : ℤ :=
  if 0 < x then iGcdLoop (y.tmod x) x else y
termination_by x.natAbs
decreasing_by
  have hlt := natAbs_tmod y x
  have hmod := Nat.mod_lt y.natAbs (show 0 < x.natAbs by omega)
  omega

def iGcd (x y : ℤ) : ℤ :=
  let x := if x < 0 then long (-x) else x
  let y := if y < 0 then long (-y) else y
  if x=0 then y else if y=0 then x else iGcdLoop x y

/-- The loop of `f_gcd`, with a bound for the number of rounds. -/
def fGcdLoop : ℕ → Integer → Integer → Except Failure Integer
  | 0,_,_ => .error .endless
  | fuel+1,x,y =>
    let round := do
      let r ← fMod y x
      fGcdLoop fuel r x
    match x with
    | .fixnum a =>
      if fix2long a=0 then .ok y
      else match y with
        | .fixnum b => .ok (rbInt2inum (iGcd (fix2long a) (fix2long b)))
        | .bignum _ => round
    | .bignum _ => round

/-- `f_gcd`; the first number is smaller in every round. -/
def fGcd (x y : Integer) : Except Failure Integer :=
  match x,y with
  | .fixnum a,.fixnum b => .ok (rbInt2inum (iGcd (fix2long a) (fix2long b)))
  | x,y =>
    let x := if fNegativeP x then negate x else x
    let y := if fNegativeP y then negate y else y
    if fZeroP x then .ok y else if fZeroP y then .ok x
    else fGcdLoop (x.toInt.natAbs+1) x y

def fImul (a b : ℤ) : Integer :=
  if a=0 ∨ b=0 then zero
  else if a=1 then rbInt2inum b
  else if b=1 then rbInt2inum a
  else
    let c := long (a*b)
    let r := rbInt2inum c
    if r.toInt ≠ c ∨ c.tdiv a ≠ b then rbBigMul (rbInt2big a) (.bignum (rbInt2big b)) else r

variable (a b : ℤ)

@[simp] lemma zero_eq : zero=canonical 0 := (canonical_of_fixable (by decide)).symm

@[simp] lemma one_eq : one=canonical 1 := (canonical_of_fixable (by decide)).symm

lemma isFix_canonical {n : ℤ} (hn : Fixable n) (a : ℤ) : isFix n (canonical a)=true ↔ a=n := by
  by_cases hf : Fixable a
  · rw [canonical_of_fixable hf,isFix,beq_iff_eq,fix2long_long2fix hf]
  · rw [canonical_of_not_fixable hf]
    refine ⟨fun h => absurd h Bool.false_ne_true,fun h => ?_⟩
    rw [h] at hf
    exact absurd hn hf

lemma fZeroP_canonical (a : ℤ) : fZeroP (canonical a)=true ↔ a=0 :=
  isFix_canonical (by decide) a

lemma fOneP_canonical (a : ℤ) : fOneP (canonical a)=true ↔ a=1 :=
  isFix_canonical (by decide) a

lemma fAdd_canonical : fAdd (canonical a) (canonical b)=canonical (a+b) := by
  rw [fAdd]
  by_cases hb : b=0
  · rw [if_pos ((isFix_canonical (by decide) b).mpr hb),hb,add_zero]
  · rw [if_neg fun h => hb ((isFix_canonical (by decide) b).mp h)]
    by_cases ha : a=0
    · rw [if_pos ((isFix_canonical (by decide) a).mpr ha),ha,zero_add]
    · rw [if_neg fun h => ha ((isFix_canonical (by decide) a).mp h),plus_canonical]

lemma fSub_canonical : fSub (canonical a) (canonical b)=canonical (a-b) := by
  rw [fSub]
  by_cases hb : b=0
  · rw [if_pos ((isFix_canonical (by decide) b).mpr hb),hb,sub_zero]
  · rw [if_neg fun h => hb ((isFix_canonical (by decide) b).mp h),minus_canonical]

lemma fCmp_canonical : fCmp (canonical a) (canonical b)=(a-b).sign := by
  have hc := intCmp_canonical a b
  by_cases ha : Fixable a
  · by_cases hb : Fixable b
    · rw [canonical_of_fixable ha,canonical_of_fixable hb,fCmp,fix2long_long2fix ha,
        fix2long_long2fix hb]
      unfold Fixable at ha hb
      rw [long_eq (by omega) (by omega)]
    · rw [canonical_of_fixable ha,canonical_of_not_fixable hb] at hc ⊢
      exact hc
  · rw [canonical_of_not_fixable ha] at hc ⊢
    exact hc

lemma overflow_comm : overflow a b=overflow b a := by
  unfold overflow
  rw [mul_comm b a]
  by_cases h : FitSqrtLong a ∧ FitSqrtLong b ∧ ¬Fixable (a*b)
  · rw [if_pos h,if_pos ⟨h.2.1,h.1,h.2.2⟩]
  · rw [if_neg h,if_neg fun h' => h ⟨h'.2.1,h'.1,h'.2.2⟩]

lemma overflow_of_natAbs_le_one {a : ℤ} (ha : a.natAbs ≤ 1) (b : ℤ) : overflow a b=0 := by
  refine if_neg fun h => h.2.2 ?_
  obtain ⟨-,hf,-⟩ := h
  unfold FitSqrtLong at hf
  unfold Fixable
  have hc : a=0 ∨ a=1 ∨ a = -1 := by omega
  rcases hc with h | h | h <;> rw [h] <;> omega

lemma fMul_canonical : fMul (canonical a) (canonical b)=canonical (product a b) := by
  have hm := mul_canonical_eq a b
  by_cases hb : Fixable b
  · rw [canonical_of_fixable hb] at hm ⊢
    rw [fMul,fix2long_long2fix hb]
    split_ifs with hz ho
    · rw [hz,product_of_overflow
        ((overflow_comm a 0).trans (overflow_of_natAbs_le_one (by decide) a)),mul_zero,zero_eq]
    · rw [ho,product_of_overflow
        ((overflow_comm a 1).trans (overflow_of_natAbs_le_one (by decide) a)),mul_one]
    · rw [hm]
  · rw [canonical_of_not_fixable hb] at hm ⊢
    by_cases ha : Fixable a
    · rw [canonical_of_fixable ha] at hm ⊢
      rw [fMul,fix2long_long2fix ha]
      split_ifs with hz ho
      · rw [hz,product_of_overflow (overflow_of_natAbs_le_one (by decide) b),zero_mul,zero_eq]
      · rw [ho,product_of_overflow (overflow_of_natAbs_le_one (by decide) b),one_mul,
          canonical_of_not_fixable hb]
      · rw [hm]
    · rw [canonical_of_not_fixable ha] at hm ⊢
      rw [fMul,hm]

lemma fEqeqP_canonical : fEqeqP (canonical a) (canonical b)=true ↔ a=b := by
  have he := equal_canonical a b
  by_cases ha : Fixable a
  · by_cases hb : Fixable b
    · rw [canonical_of_fixable ha,canonical_of_fixable hb,fEqeqP,fix2long_long2fix ha,
        fix2long_long2fix hb,beq_iff_eq]
    · rw [canonical_of_fixable ha,canonical_of_not_fixable hb] at he ⊢
      exact he
  · rw [canonical_of_not_fixable ha] at he ⊢
    exact he

lemma fNegativeP_canonical (a : ℤ) : fNegativeP (canonical a)=true ↔ a < 0 := by
  by_cases ha : Fixable a
  · rw [canonical_of_fixable ha,fNegativeP,fix2long_long2fix ha,decide_eq_true_iff]
  · have hc := intCmp_canonical a 0
    rw [canonical_of_not_fixable ha,← zero_eq,sub_zero] at hc
    rw [canonical_of_not_fixable ha,fNegativeP,hc,decide_eq_true_iff,sign_neg_iff]

lemma fIdiv_of_dvd {a b : ℤ} (hb : b ≠ 0) (h : b ∣ a) :
    fIdiv (canonical a) (canonical b)=.ok (canonical (a/b)) := by
  rw [fIdiv,idiv_of_dvd hb h]
  rfl

lemma fMod_canonical (a : ℤ) {b : ℤ} (hb : 0 < b) :
    fMod (canonical a) (canonical b)=.ok (canonical (a%b)) := by
  rw [fMod,modulo_canonical a hb]
  rfl

lemma iGcdLoop_eq {x y : ℤ} (hx : 0 ≤ x) (hy : 0 ≤ y) : iGcdLoop x y=Int.gcd x y := by
  induction hn : x.natAbs using Nat.strong_induction_on generalizing x y with
  | _ n ih =>
    rw [iGcdLoop]
    split_ifs with hp
    · have hm : y.tmod x=y%x := tmod_eq_emod_of_nonneg hy
      have hl := emod_lt_of_pos y hp
      have hno := emod_nonneg y hp.ne'
      rw [hm,ih (y%x).natAbs (by omega) hno hx rfl,gcd_emod, gcd_comm]
    · have hz : x=0 := by omega
      rw [hz,gcd_zero_left,natAbs_of_nonneg hy]

lemma iGcd_eq {x y : ℤ} (hx : Fixable x) (hy : Fixable y) : iGcd x y=Int.gcd x y := by
  have ha : ∀ n, -2^61 ≤ n → n < 2^61 → (if n < 0 then long (-n) else n)=n.natAbs := by
    intro n h h'
    split_ifs
    · rw [long_eq (by omega) (by omega)]
      omega
    · omega
  rw [iGcd,ha x hx.1 hx.2,ha y hy.1 hy.2]
  split_ifs with hz hz'
  · have hx0 : x=0 := by omega
    rw [hx0,gcd_zero_left]
  · have hy0 : y=0 := by omega
    rw [hy0,gcd_zero_right]
  · rw [iGcdLoop_eq (by omega) (by omega)]
    rfl

lemma rbInt2inum_iGcd {x y : ℤ} (hx : Fixable x) (hy : Fixable y) :
    rbInt2inum (iGcd x y)=canonical (Int.gcd x y) := by
  have hl : Int.gcd x y ≤ 2^61 := by
    unfold Fixable at hx hy
    by_cases hz : x=0
    · rw [hz,gcd_zero_left]
      omega
    · exact (gcd_le_natAbs_left y hz).trans (by omega)
  rw [iGcd_eq hx hy]
  exact rbInt2inum_eq (by omega) (by omega)

lemma fGcdLoop_eq {fuel : ℕ} {x y : ℤ} (hx : 0 ≤ x) (hy : 0 ≤ y) (hf : x.natAbs < fuel) :
    fGcdLoop fuel (canonical x) (canonical y)=.ok (canonical (Int.gcd x y)) := by
  induction fuel generalizing x y with
  | zero => omega
  | succ fuel ih =>
    have hr : 0 < x → (do
        let r ← fMod (canonical y) (canonical x)
        fGcdLoop fuel r (canonical x))=.ok (canonical (Int.gcd x y)) := by
      intro hp
      have hl := emod_lt_of_pos y hp
      have hn := emod_nonneg y hp.ne'
      rw [fMod_canonical y hp]
      refine (ih hn hx (by omega)).trans ?_
      rw [gcd_emod,gcd_comm]
    by_cases hxf : Fixable x
    · rw [canonical_of_fixable hxf] at hr ⊢
      unfold fGcdLoop
      dsimp only
      rw [fix2long_long2fix hxf]
      split_ifs with hz
      · rw [hz,gcd_zero_left,natAbs_of_nonneg hy]
      · by_cases hyf : Fixable y
        · rw [canonical_of_fixable hyf]
          dsimp only
          rw [fix2long_long2fix hyf,rbInt2inum_iGcd hxf hyf]
        · rw [canonical_of_not_fixable hyf] at hr ⊢
          exact hr (by omega)
    · have hp : 0 < x := by
        unfold Fixable at hxf
        omega
      rw [canonical_of_not_fixable hxf] at hr ⊢
      exact hr hp

lemma abs_canonical (a : ℤ) :
    (if fNegativeP (canonical a) then negate (canonical a) else canonical a) =
      canonical a.natAbs := by
  by_cases hn : a < 0
  · rw [if_pos ((fNegativeP_canonical a).mpr hn),negate_canonical]
    congr 1
    omega
  · rw [if_neg (mt (fNegativeP_canonical a).mp hn)]
    congr 1
    omega

lemma fGcd_of_not_fixable {a b : ℤ} (h : ¬(Fixable a ∧ Fixable b)) :
    fGcd (canonical a) (canonical b) =
      (let x := if fNegativeP (canonical a) then negate (canonical a) else canonical a
      let y := if fNegativeP (canonical b) then negate (canonical b) else canonical b
      if fZeroP x then .ok y else if fZeroP y then .ok x else fGcdLoop (x.toInt.natAbs+1) x y) := by
  by_cases ha : Fixable a
  · rw [canonical_of_fixable ha,canonical_of_not_fixable fun hb => h ⟨ha,hb⟩]
    rfl
  · rw [canonical_of_not_fixable ha]
    rfl

lemma fGcd_canonical (a b : ℤ) :
    fGcd (canonical a) (canonical b)=.ok (canonical (Int.gcd a b)) := by
  by_cases hf : Fixable a ∧ Fixable b
  · rw [canonical_of_fixable hf.1,canonical_of_fixable hf.2,fGcd,fix2long_long2fix hf.1,
      fix2long_long2fix hf.2,rbInt2inum_iGcd hf.1 hf.2]
  · rw [fGcd_of_not_fixable hf]
    rw [abs_canonical,abs_canonical]
    by_cases ha : (a.natAbs : ℤ)=0
    · rw [if_pos ((fZeroP_canonical _).mpr ha)]
      have ha' : a=0 := by omega
      rw [ha',gcd_zero_left]
    · rw [if_neg (mt (fZeroP_canonical _).mp ha)]
      by_cases hb : (b.natAbs : ℤ)=0
      · rw [if_pos ((fZeroP_canonical _).mpr hb)]
        have hb' : b=0 := by omega
        rw [hb',gcd_zero_right]
      · rw [if_neg (mt (fZeroP_canonical _).mp hb),canonical_toInt,
          fGcdLoop_eq (by omega) (by omega) (by omega)]
        rfl

lemma fImul_eq {a b : ℤ} (ha : a.natAbs < 2^62) (hb : b.natAbs < 2^62) :
    fImul a b=canonical (a*b) := by
  rw [fImul]
  split_ifs with hz ho ho'
  · rw [zero_eq,mul_eq_zero.mpr hz]
  · rw [ho,one_mul,rbInt2inum_eq (by omega) (by omega)]
  · rw [ho',mul_one,rbInt2inum_eq (by omega) (by omega)]
  dsimp only
  have hl : -2^63 ≤ long (a*b) ∧ long (a*b) < 2^63 := by
    have h := le_bmod (x := a*b) (m := 2^64) (by decide)
    have h' := bmod_lt (x := a*b) (m := 2^64) (by decide)
    unfold long
    omega
  rw [rbInt2inum_eq hl.1 hl.2,canonical_toInt]
  by_cases hd : (long (a*b)).tdiv a=b
  · rw [if_neg (by simp [hd]),eq_mul_of_tdiv (by omega) rfl hd]
  · obtain ⟨ht,-⟩ := rbInt2big_spec (n := a) (by omega) (by omega)
    obtain ⟨hto,-⟩ := rbInt2big_spec (n := b) (by omega) (by omega)
    rw [if_pos (.inr hd),rbBigMul,bignorm_eq,rbBigMul0_toInt,ht,operand,hto]
end MacRuby.RationalParts
