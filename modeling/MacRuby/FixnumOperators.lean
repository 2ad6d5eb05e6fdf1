import MacRuby.IntegerMethods

/-!
# Inlined operators on Fixnums

For the arithmetic operators and the comparisons the compiler emits code that works on
tagged words. If both operands are constants, it computes the result itself. Otherwise
the emitted code tests the tags, shifts them out, operates on 64-bit words, and puts
the tag back if the result is in the range of Fixnums; if it is not, it calls the
function of the library. The operators are taken not to be redefined.

Words are bit vectors, and so is what the emitted code does with them. The functions of
the library are those of the model of integers.
-/
namespace MacRuby.FixnumOperators
open Integers IntegerDivision

inductive Sum
  | plus
  | minus
deriving DecidableEq, Repr

inductive Relation
  | lt
  | le
  | gt
  | ge
deriving DecidableEq, Repr

inductive Op
  | sum (s : Sum)
  | mult
  | div
  | relation (r : Relation)
deriving DecidableEq, Repr

/-- `LONG2FIX` of a word. -/
def box (l : BitVec 64) : BitVec 64 := l <<< 2 ||| 1#64

def word (x : BitVec 62) : BitVec 64 := box (x.signExtend 64)

/-- What comes out; `undefined` is the trap of a division by zero. -/
inductive Outcome
  | word (w : BitVec 64)
  | bignum (b : Bignum)
  | truth (b : Bool)
  | zeroDivision
  | undefined

def outcome : Integer → Outcome
  | .fixnum x => .word (word x)
  | .bignum b => .bignum b

/-- `fix_lt`, `fix_le`, `fix_gt` and `fix_ge` on Fixnums. -/
def fixCompare (r : Relation) (x y : BitVec 62) : Bool :=
  match r with
  | .lt => decide (fix2long x < fix2long y)
  | .le => decide (fix2long x ≤ fix2long y)
  | .gt => decide (fix2long x > fix2long y)
  | .ge => decide (fix2long x ≥ fix2long y)

/-- `fix_divide` on Fixnums. -/
def fixDivide (x y : BitVec 62) : Outcome :=
  match fixdivmod (fix2long x) (fix2long y) with
  | .ok (div,_) => outcome (rbInt2inum div)
  | .error _ => .zeroDivision

def library (op : Op) (x y : BitVec 62) : Outcome :=
  match op with
  | .sum .plus => outcome (rbFixPlus x (.fixnum y))
  | .sum .minus => outcome (rbFixMinus x (.fixnum y))
  | .mult => outcome (rbFixMul x (.fixnum y))
  | .div => fixDivide x y
  | .relation r => .truth (fixCompare r x y)

/-- What an instruction computes; the quotient by zero is undefined. -/
inductive Computed
  | value (w : BitVec 64)
  | predicate (b : Bool)
  | undefined

/-- `optimized_immediate_op` on integers, and `optimized_const_immediate_op` but for a division
by zero. -/
def immediateOp (op : Op) (a b : BitVec 64) : Computed :=
  match op with
  | .sum .plus => .value (a+b)
  | .sum .minus => .value (a-b)
  | .mult => .value (a*b)
  | .div => if b=0#64 then .undefined else .value (a.sdiv b)
  | .relation .lt => .predicate (a.slt b)
  | .relation .le => .predicate (a.sle b)
  | .relation .gt => .predicate (b.slt a)
  | .relation .ge => .predicate (b.sle a)

/-- `FIXNUM_MAX + 1` and `FIXNUM_MIN`. -/
def fixnumMax : BitVec 64 := BitVec.ofInt 64 (2^61)

def fixnumMin : BitVec 64 := BitVec.ofInt 64 (-2^61)

def boxed (w : BitVec 64) (dispatch : Outcome) : Outcome :=
  if w.slt fixnumMax then if fixnumMin.sle w then .word (box w) else dispatch else dispatch

/-- An operand: a constant of the program, or a word that is not known before. -/
inductive Operand
  | constant (x : BitVec 62)
  | loaded (w : BitVec 64)

def Operand.isFixnum : Operand → Bool
  | .constant _ => true
  | .loaded w => w &&& 3#64 == 1#64

def Operand.unboxed : Operand → BitVec 64
  | .constant x => x.signExtend 64
  | .loaded w => w.sshiftRight 2

def Operand.payload : Operand → BitVec 62
  | .constant x => x
  | .loaded w => w.extractLsb' 2 62

/-- Both operands are constants: a division by zero is left to the dispatcher. -/
def folded (op : Op) (x y : BitVec 62) : Outcome :=
  if op=.div ∧ y.signExtend 64=0#64 then library op x y
  else match immediateOp op (x.signExtend 64) (y.signExtend 64) with
    | .value w => boxed w (library op x y)
    | .predicate b => .truth b
    | .undefined => .undefined

/-- The code of the fast path; words that are not Fixnums take another path. -/
def fastPath (op : Op) (l r : Operand) : Option Outcome :=
  if l.isFixnum && r.isFixnum then
    some (match immediateOp op l.unboxed r.unboxed with
      | .value w => boxed w (library op l.payload r.payload)
      | .predicate b => .truth b
      | .undefined => .undefined)
  else none

def compiled (op : Op) (l r : Operand) : Option Outcome :=
  match l,r with
  | .constant x,.constant y => some (folded op x y)
  | l,r => fastPath op l r

def operandOf (const : Bool) (x : BitVec 62) : Operand :=
  if const then .constant x else .loaded (word x)

lemma toInt_signExtend (x : BitVec 62) : (x.signExtend 64).toInt=fix2long x :=
  BitVec.toInt_signExtend_of_le (by decide)

lemma getLsbD_box (l : BitVec 64) (i : ℕ) :
    (box l).getLsbD i=(decide (i=0) || (decide (2 ≤ i ∧ i < 64) && l.getLsbD (i-2))) := by
  rw [box]
  by_cases hz : i=0
  · subst hz
    simp
  · have ho : (1#64).getLsbD i=false := by simp [hz]
    by_cases hl : i < 2
    · simp [hl]
    · have ht : 2 ≤ i := by omega
      simp [hz,hl,ht]

lemma word_tag (x : BitVec 62) : word x &&& 3#64=1#64 := by
  refine BitVec.eq_of_getLsbD_eq fun i _ => ?_
  rw [BitVec.getLsbD_and,word,getLsbD_box]
  rcases i with _ | _ | i
  · simp
  · simp
  · have ht : (3#64).getLsbD (i+2)=false := by
      rw [BitVec.getLsbD_ofNat,Nat.testBit_lt_two_pow,Bool.and_false]
      calc 3 < 2^2 := by decide
        _ ≤ 2^(i+2) := Nat.pow_le_pow_right (by decide) (by omega)
    rw [ht]
    simp [BitVec.getLsbD_one]

lemma word_unboxed (x : BitVec 62) : (word x).sshiftRight 2=x.signExtend 64 := by
  refine BitVec.eq_of_getLsbD_eq fun i hi => ?_
  rw [BitVec.getLsbD_sshiftRight,BitVec.getLsbD_signExtend,word,getLsbD_box,
    BitVec.msb_eq_getLsbD_last,getLsbD_box,BitVec.getLsbD_signExtend,BitVec.getLsbD_signExtend]
  by_cases hs : i < 62
  · have hin : 2+i < 64 := by omega
    simp [hi,hin]
  · have ho : ¬2+i < 64 := by omega
    simp [hi,hs,ho,BitVec.msb_eq_getLsbD_last]

lemma word_payload (x : BitVec 62) : (word x).extractLsb' 2 62=x := by
  refine BitVec.eq_of_getLsbD_eq fun i hi => ?_
  have hin : 2+i < 64 := by omega
  have hw : i < 64 := by omega
  rw [BitVec.getLsbD_extractLsb',word,getLsbD_box,BitVec.getLsbD_signExtend]
  simp [hi,hin,hw]

lemma isFixnum_operandOf (const : Bool) (x : BitVec 62) : (operandOf const x).isFixnum=true := by
  cases const with
  | true => rfl
  | false => exact beq_iff_eq.mpr (word_tag x)

lemma unboxed_operandOf (const : Bool) (x : BitVec 62) :
    (operandOf const x).unboxed=x.signExtend 64 := by
  cases const with
  | true => rfl
  | false => exact word_unboxed x

lemma payload_operandOf (const : Bool) (x : BitVec 62) : (operandOf const x).payload=x := by
  cases const with
  | true => rfl
  | false => exact word_payload x

lemma eq_signExtend {w : BitVec 64} (h : Fixable w.toInt) :
    w=(long2fix w.toInt).signExtend 64 := by
  refine BitVec.eq_of_toInt_eq ?_
  rw [toInt_signExtend,fix2long_long2fix h]

lemma boxed_eq (w : BitVec 64) (dispatch : Outcome) :
    boxed w dispatch=if Fixable w.toInt then .word (word (long2fix w.toInt)) else dispatch := by
  have hm : fixnumMax.toInt=2^61 := by decide
  have hmi : fixnumMin.toInt = -2^61 := by decide
  rw [boxed,BitVec.slt_eq_decide,BitVec.sle_eq_decide,hm,hmi]
  simp only [decide_eq_true_eq]
  by_cases h : Fixable w.toInt
  · rw [if_pos h,if_pos h.2,if_pos h.1,word,← eq_signExtend h]
  · rw [if_neg h]
    unfold Fixable at h
    split_ifs
    · omega
    · rfl
    · rfl

lemma outcome_canonical {n : ℤ} (h : Fixable n) :
    outcome (canonical n)=.word (word (long2fix n)) := by
  rw [canonical_of_fixable h]
  rfl

/-- What both kinds of code come to, once the operands are unboxed. -/
def computed (op : Op) (x y : BitVec 62) : Outcome :=
  match immediateOp op (x.signExtend 64) (y.signExtend 64) with
  | .value w => boxed w (library op x y)
  | .predicate b => .truth b
  | .undefined => .undefined

lemma signExtend_eq_zero_iff (y : BitVec 62) : y.signExtend 64=0#64 ↔ fix2long y=0 := by
  rw [← toInt_signExtend,← BitVec.toInt_inj,BitVec.toInt_zero]

lemma fastPath_operandOf (op : Op) (c d : Bool) (x y : BitVec 62) :
    fastPath op (operandOf c x) (operandOf d y)=some (computed op x y) := by
  rw [fastPath,isFixnum_operandOf,isFixnum_operandOf,unboxed_operandOf,unboxed_operandOf,
    payload_operandOf,payload_operandOf]
  rfl

lemma compiled_operandOf (op : Op) (c d : Bool) (x y : BitVec 62) :
    compiled op (operandOf c x) (operandOf d y) =
      some (if c && d && decide (op=.div ∧ fix2long y=0) then library op x y
        else computed op x y) := by
  cases c with
  | false =>
    change fastPath op (operandOf false x) (operandOf d y)=_
    rw [fastPath_operandOf]
    rfl
  | true =>
    cases d with
    | false =>
      change fastPath op (operandOf true x) (operandOf false y)=_
      rw [fastPath_operandOf]
      rfl
    | true =>
      change some (folded op x y)=_
      simp only [folded,signExtend_eq_zero_iff,Bool.true_and,decide_eq_true_eq]
      rfl

lemma boxed_exact {w : BitVec 64} {n : ℤ} (hw : w.toInt=n) :
    boxed w (outcome (canonical n))=outcome (canonical n) := by
  rw [boxed_eq,hw]
  split_ifs with h
  · rw [outcome_canonical h]
  · rfl

lemma computed_sum (s : Sum) (x y : BitVec 62) : computed (.sum s) x y=library (.sum s) x y := by
  obtain ⟨hx,hx'⟩ := fix2long_fixable x
  obtain ⟨hy,hy'⟩ := fix2long_fixable y
  cases s with
  | plus =>
    have hlo : long (fix2long x+fix2long y)=fix2long x+fix2long y :=
      long_eq (by omega) (by omega)
    have hl : library (.sum .plus) x y=outcome (canonical (fix2long x+fix2long y)) := by
      rw [library,rbFixPlus,hlo,rbInt2inum_eq (by omega) (by omega)]
    have hv : (x.signExtend 64+y.signExtend 64).toInt=fix2long x+fix2long y := by
      rw [BitVec.toInt_add,toInt_signExtend,toInt_signExtend]
      exact hlo
    rw [computed,hl]
    exact boxed_exact hv
  | minus =>
    have hlo : long (fix2long x-fix2long y)=fix2long x-fix2long y :=
      long_eq (by omega) (by omega)
    have hl : library (.sum .minus) x y=outcome (canonical (fix2long x-fix2long y)) := by
      rw [library,rbFixMinus,hlo,rbInt2inum_eq (by omega) (by omega)]
    have hv : (x.signExtend 64-y.signExtend 64).toInt=fix2long x-fix2long y := by
      rw [BitVec.toInt_sub,toInt_signExtend,toInt_signExtend]
      exact hlo
    rw [computed,hl]
    exact boxed_exact hv

lemma computed_relation (r : Relation) (x y : BitVec 62) :
    computed (.relation r) x y=library (.relation r) x y := by
  cases r <;>
    simp only [computed,immediateOp,library,fixCompare,BitVec.slt_eq_decide,BitVec.sle_eq_decide,
      toInt_signExtend]

/-- Addition, subtraction and the comparisons of Fixnums, folded or in place, give what the
library gives. -/
theorem inlined_sum_relation (x y : BitVec 62) (c d : Bool) :
    (∀ s : Sum, compiled (.sum s) (operandOf c x) (operandOf d y) = some (library (.sum s) x y)) ∧
      ∀ r : Relation, compiled (.relation r) (operandOf c x) (operandOf d y) =
        some (library (.relation r) x y) := by
  refine ⟨fun s => ?_,fun r => ?_⟩
  · rw [compiled_operandOf,computed_sum,ite_self]
  · rw [compiled_operandOf,computed_relation,ite_self]

lemma word_inj {x y : BitVec 62} (h : word x=word y) : x=y := by
  rw [← word_payload x,h,word_payload]

lemma outcome_inj {m n : Integer} (h : outcome m=outcome n) : m=n := by
  cases m with
  | fixnum x =>
    cases n with
    | fixnum y => exact congrArg Integer.fixnum (word_inj (Outcome.word.inj h))
    | bignum b => cases h
  | bignum b =>
    cases n with
    | fixnum y => cases h
    | bignum c => exact congrArg Integer.bignum (Outcome.bignum.inj h)

lemma outcome_canonical_inj (m n : ℤ) : outcome (canonical m)=outcome (canonical n) ↔ m=n := by
  constructor
  · intro h
    have he := congrArg Integer.toInt (outcome_inj h)
    rwa [canonical_toInt,canonical_toInt] at he
  · rintro rfl
    rfl

lemma long2fix_fix2long (x : BitVec 62) : long2fix (fix2long x)=x := BitVec.ofInt_toInt

/-- When the product is exact: it is a Fixnum, or it does not wrap into one and is not taken
for small by the library. -/
def MulSafe (a b : ℤ) : Prop :=
  Fixable (a*b) ∨ (¬Fixable (long (a*b)) ∧ ¬(FitSqrtLong a ∧ FitSqrtLong b))

lemma library_mult_iff (x y : BitVec 62) :
    library .mult x y=outcome (canonical (fix2long x*fix2long y)) ↔
      ¬(FitSqrtLong (fix2long x) ∧ FitSqrtLong (fix2long y) ∧
        ¬Fixable (fix2long x*fix2long y)) := by
  have hm := rbFixMul_fixnum (fix2long_fixable x) (fix2long_fixable y)
  rw [long2fix_fix2long,long2fix_fix2long] at hm
  rw [← hm,library]
  exact ⟨outcome_inj,fun h => by rw [h]⟩

lemma computed_mult (x y : BitVec 62) :
    computed .mult x y=if Fixable (long (fix2long x*fix2long y)) then
      outcome (canonical (long (fix2long x*fix2long y))) else library .mult x y := by
  have hv : (x.signExtend 64*y.signExtend 64).toInt=long (fix2long x*fix2long y) := by
    rw [BitVec.toInt_mul,toInt_signExtend,toInt_signExtend]
    rfl
  rw [computed,immediateOp]
  dsimp only
  rw [boxed_eq,hv]
  split_ifs with h
  · rw [outcome_canonical h]
  · rfl

lemma long_of_fixable {n : ℤ} (h : Fixable n) : long n=n := by
  unfold Fixable at h
  exact long_eq (by omega) (by omega)

lemma computed_mult_iff (x y : BitVec 62) :
    (computed .mult x y=outcome (canonical (fix2long x*fix2long y)) ∧
      computed .mult x y=library .mult x y) ↔ MulSafe (fix2long x) (fix2long y) := by
  have hl := library_mult_iff x y
  rw [computed_mult]
  by_cases hf : Fixable (fix2long x*fix2long y)
  · rw [long_of_fixable hf,if_pos hf]
    refine iff_of_true ⟨rfl,?_⟩ (.inl hf)
    exact (hl.mpr fun h => h.2.2 hf).symm
  · split_ifs with hw
    · refine iff_of_false (fun h => hf ?_) ?_
      · rw [← (outcome_canonical_inj _ _).mp h.1]
        exact hw
      · rintro (h | h)
        · exact hf h
        · exact h.1 hw
    · rw [and_iff_left rfl,hl]
      constructor
      · intro h
        exact .inr ⟨hw,fun hfi => h ⟨hfi.1,hfi.2,hf⟩⟩
      · rintro (h | h)
        · exact absurd h hf
        · exact fun ha => h.2 ⟨ha.1,ha.2.1⟩

def floorQuotient (a b : ℤ) : Outcome :=
  if b=0 then .zeroDivision else outcome (canonical (a.fdiv b))

/-- When the quotient is exact; `const` says that both operands are constants. -/
def DivSafe (const : Bool) (a b : ℤ) : Prop :=
  if b=0 then const=true else b ∣ a ∨ (0 < a ↔ 0 < b)

lemma fdiv_of_floored {a b q r : ℤ} (hb : b ≠ 0) (h : a=q*b+r) (hr : Floored r b) :
    a.fdiv b=q := by
  have hsu : r+b*q=a := by rw [h,mul_comm,add_comm]
  rcases lt_or_gt_of_ne hb with hn | hp
  · refine ((Int.fdiv_fmod_unique' hn).mpr ⟨hsu,?_⟩).1
    rcases hr with rfl | ⟨hs,ha⟩
    · exact ⟨hn,le_refl 0⟩
    · rw [Int.sign_eq_neg_one_of_neg hn] at hs
      have hl := Int.sign_eq_neg_one_iff_neg.mp hs
      rw [abs_of_neg hn,abs_of_neg hl] at ha
      exact ⟨by omega,by omega⟩
  · refine ((Int.fdiv_fmod_unique hp).mpr ⟨hsu,?_⟩).1
    rcases hr with rfl | ⟨hs,ha⟩
    · exact ⟨le_refl 0,hp⟩
    · rw [Int.sign_eq_one_of_pos hp] at hs
      have hh := Int.sign_eq_one_iff_pos.mp hs
      rw [abs_of_pos hp,abs_of_pos hh] at ha
      exact ⟨by omega,by omega⟩

lemma library_div (x y : BitVec 62) :
    library .div x y=floorQuotient (fix2long x) (fix2long y) := by
  rw [library,fixDivide,floorQuotient]
  split_ifs with hz
  · rw [hz,fixdivmod_zero]
  · obtain ⟨q,r,hr,hl,hh,-,-,hv,hf⟩ :=
      fixdivmod_spec (fix2long_fixable x) (fix2long_fixable y) hz
    rw [hr,fdiv_of_floored hz hv hf]
    dsimp only
    rw [rbInt2inum_eq (by omega) (by omega)]

lemma tdiv_eq_fdiv_iff {a b : ℤ} (hb : b ≠ 0) : a.tdiv b=a.fdiv b ↔ b ∣ a ∨ (0 < a ↔ 0 < b) := by
  rw [Int.tdiv_eq_fdiv]
  by_cases hd : b ∣ a
  · exact iff_of_true (by omega) (.inl hd)
  · have ha : a ≠ 0 := by
      rintro rfl
      exact hd (dvd_zero b)
    rcases lt_or_gt_of_ne hb with hn | hp
    · rw [Int.sign_eq_neg_one_of_neg hn]
      split_ifs <;> omega
    · rw [Int.sign_eq_one_of_pos hp]
      split_ifs <;> omega

lemma computed_div (x y : BitVec 62) : computed .div x y=if fix2long y=0 then .undefined else
      if Fixable ((fix2long x).tdiv (fix2long y)) then
        outcome (canonical ((fix2long x).tdiv (fix2long y)))
      else library .div x y := by
  rw [computed,immediateOp]
  by_cases hz : fix2long y=0
  · rw [if_pos ((signExtend_eq_zero_iff y).mpr hz),if_pos hz]
  · have hq : ((fix2long x).tdiv (fix2long y)).natAbs ≤ (fix2long x).natAbs := by
      rw [Int.natAbs_tdiv]
      exact Nat.div_le_self _ _
    have hx := fix2long_fixable x
    unfold Fixable at hx
    have hv : ((x.signExtend 64).sdiv (y.signExtend 64)).toInt =
        (fix2long x).tdiv (fix2long y) := by
      rw [BitVec.toInt_sdiv,toInt_signExtend,toInt_signExtend]
      exact long_eq (by omega) (by omega)
    rw [if_neg (mt (signExtend_eq_zero_iff y).mp hz)]
    dsimp only
    rw [boxed_eq,hv]
    split_ifs with h
    · rw [outcome_canonical h]
    · rfl

lemma computed_div_iff (x y : BitVec 62) (hy : fix2long y ≠ 0) :
    computed .div x y=floorQuotient (fix2long x) (fix2long y) ↔
      fix2long y ∣ fix2long x ∨ (0 < fix2long x ↔ 0 < fix2long y) := by
  rw [computed_div,library_div,← tdiv_eq_fdiv_iff hy,floorQuotient,if_neg hy]
  split_ifs with hf
  · exact outcome_canonical_inj _ _
  · -- only the quotient of the smallest Fixnum and -1 is not fixable
    refine iff_of_true rfl ((tdiv_eq_fdiv_iff hy).mpr (.inl (Int.natAbs_dvd.mp ?_)))
    have hx := fix2long_fixable x
    have ho : (fix2long y).natAbs=1 := by
      by_contra hne
      have hh : ((fix2long x).tdiv (fix2long y)).natAbs ≤ (fix2long x).natAbs/2 := by
        rw [Int.natAbs_tdiv]
        exact Nat.div_le_div_left (by omega) (by decide)
      unfold Fixable at hx hf
      omega
    rw [ho]
    exact one_dvd _

/-- The product is exact and the quotient is rounded to minus infinity, as the library has
them. -/
def Exact (x y : BitVec 62) (c d : Bool) : Prop :=
  compiled .mult (operandOf c x) (operandOf d y) =
      some (outcome (canonical (fix2long x*fix2long y))) ∧
    compiled .mult (operandOf c x) (operandOf d y)=some (library .mult x y) ∧
    compiled .div (operandOf c x) (operandOf d y) =
      some (floorQuotient (fix2long x) (fix2long y)) ∧
    compiled .div (operandOf c x) (operandOf d y)=some (library .div x y)

lemma compiled_div_iff (x y : BitVec 62) (c d : Bool) :
    compiled .div (operandOf c x) (operandOf d y) =
      some (floorQuotient (fix2long x) (fix2long y)) ↔ DivSafe (c && d) (fix2long x) (fix2long y) := by
  rw [compiled_operandOf,DivSafe,library_div,Option.some_inj]
  by_cases hz : fix2long y=0
  · rw [if_pos hz]
    cases hc : c && d with
    | true => exact iff_of_true (if_pos (by simp [hz])) rfl
    | false =>
      refine iff_of_false (fun h => ?_) Bool.false_ne_true
      rw [computed_div,if_pos hz,floorQuotient,
        if_pos hz] at h
      cases h
  · rw [← computed_div_iff x y hz]
    simp only [hz,and_false,decide_false,Bool.and_false,Bool.false_eq_true,if_false]

/-- Inlined products and quotients of Fixnums are exact exactly for these operands. -/
theorem inlined_product_quotient_iff (x y : BitVec 62) (c d : Bool) : Exact x y c d ↔
      MulSafe (fix2long x) (fix2long y) ∧ DivSafe (c && d) (fix2long x) (fix2long y) := by
  have hm : compiled .mult (operandOf c x) (operandOf d y)=some (computed .mult x y) := by
    rw [compiled_operandOf]
    simp
  rw [Exact,← library_div,and_self,← and_assoc,library_div,compiled_div_iff,hm,Option.some_inj,
    Option.some_inj,computed_mult_iff]

/-- The square of `2^32` comes out as 0, the quotient of -7 and 2 as -3, and a division by a
zero that is no constant has no meaning. -/
theorem inlined_product_quotient_wrong :
    compiled .mult (.loaded (word 4294967296)) (.loaded (word 4294967296)) = some (.word (word 0)) ∧
      compiled .div (.constant (-7)) (.constant 2) = some (.word (word (-3))) ∧
      compiled .div (.loaded (word 1)) (.loaded (word 0)) = some .undefined :=
  ⟨rfl,rfl,rfl⟩
end MacRuby.FixnumOperators
