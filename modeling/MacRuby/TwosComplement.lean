import Mathlib.Data.BitVec
import MacRuby.DigitShifts

/-!
# Infinite two's complement and its digits

Every integer is an infinite sequence of bits: bit `k` is the parity of the
integer divided by `2^k`, rounded down. A list of digits stands for the low
digits of such a sequence, continued by zeros for a nonnegative integer and by
ones for a negative one. Complement and increment turn the digits of an
absolute value into those of the negative integer and back.
-/
namespace MacRuby.TwosComplement
open Digits DigitShifts List Int

/-- Bit `k` of the infinite two's complement of `n`. -/
def bit (n : ℤ) (k : ℕ) : Bool := decide (n/2^k%2=1)

lemma emod_pow_succ (n : ℤ) (k : ℕ) : n%2^(k+1)=n%2^k+2^k*(n/2^k%2) := by
  have hs := mul_ediv_add_emod n (2^k)
  have hp := mul_ediv_add_emod (n/2^k) 2
  have hn : n=n%2^k+2^k*(n/2^k%2)+2^(k+1)*(n/2^k/2) := by
    linear_combination -hs-2^k*hp
  have hb : n/2^k%2=0 ∨ n/2^k%2=1 := emod_two_eq_zero_or_one _
  conv_lhs => rw [hn]
  rw [add_mul_emod_self_left,emod_eq_of_lt] <;> rcases hb with hb | hb <;> rw [hb] <;> omega

lemma eq_of_bit {m n : ℤ} (h : ∀ k, bit m k=bit n k) : m=n := by
  have hm : ∀ k, m%2^k=n%2^k := by
    intro k
    induction k with
    | zero => rw [pow_zero,emod_one,emod_one]
    | succ k ih =>
      have hb := h k
      simp only [bit,decide_eq_decide] at hb
      have hd : m/2^k%2=n/2^k%2 := by omega
      rw [emod_pow_succ,emod_pow_succ,ih,hd]
  have hk : |m-n| < 2^(m-n).natAbs := by
    rw [abs_eq_natAbs]
    exact_mod_cast Nat.lt_two_pow_self
  have hdv : (2 : ℤ)^(m-n).natAbs ∣ m-n := ModEq.dvd (hm _).symm
  have hz := eq_zero_of_abs_lt_dvd hdv hk
  omega

lemma bit_natCast (d k : ℕ) : bit d k=d.testBit k := by
  rw [bit,Nat.testBit_eq_decide_div_mod_eq]
  norm_cast

variable {w : ℕ}

lemma bit_add_mul {d : ℕ} (hd : d < 2^w) (m : ℤ) (k : ℕ) :
    bit (d+2^w*m) k=if k < w then d.testBit k else bit m (k-w) := by
  split_ifs with hk
  · rw [← bit_natCast,bit,bit]
    have hp : (2 : ℤ)^w=2^k*(2*2^(w-k-1)) := by
      rw [← pow_succ',← pow_add]
      congr 1
      omega
    rw [hp,mul_assoc (2^k),add_mul_ediv_left _ _ (by positivity),mul_assoc,
      add_mul_emod_self_left]
  · have hp : (2 : ℤ)^k=2^w*2^(k-w) := by
      rw [← pow_add]
      congr 1
      omega
    have hl : ((d : ℤ)+2^w*m)/2^w=m := by
      rw [add_mul_ediv_left _ _ (by positivity),
        ediv_eq_zero_of_lt (by positivity) (by exact_mod_cast hd),zero_add]
    rw [bit,bit,hp,← ediv_ediv_of_nonneg (by positivity),hl]

lemma bit_zero (k : ℕ) : bit 0 k=false := by
  rw [bit,zero_ediv]
  rfl

lemma bit_neg_one (k : ℕ) : bit (-1) k=true := by
  have hd : -1/2^k = -1 := ediv_eq_neg_one_of_neg_of_le (by decide) (by
    have : (0 : ℤ) < 2^k := by positivity
    omega)
  rw [bit,hd]
  rfl

lemma bit_toInt (v : BitVec w) (k : ℕ) : bit v.toInt k=v.getLsbD (if k < w then k else w-1) := by
  have hv : v.toInt=v.toNat+2^w*if v.getLsbD (w-1) then -1 else 0 := by
    rw [BitVec.toInt_eq_msb_cond,BitVec.msb_eq_getLsbD_last]
    split_ifs <;> push_cast <;> ring
  rw [hv,bit_add_mul v.isLt]
  split_ifs with _ hs
  · exact BitVec.testBit_toNat v
  · rw [bit_neg_one,hs]
  · rw [bit_zero,Bool.eq_false_of_not_eq_true hs]

variable {B : ℕ} {ds : List ℕ}

/-- The integer of a sequence of digits, continued by zeros for `true` and by
ones for `false`. -/
def twos (B : ℕ) (sign : Bool) : List ℕ → ℤ
  | [] => if sign then 0 else -1
  | d::ds => d+B*twos B sign ds

lemma bit_twos_nil (sign : Bool) (k : ℕ) : bit (twos B sign []) k=!sign := by
  cases sign with
  | true => exact bit_zero k
  | false => exact bit_neg_one k

lemma twos_eq (sign : Bool) (ds : List ℕ) :
    twos B sign ds=(Nat.ofDigits B ds : ℕ)-(if sign then 0 else (B : ℤ)^ds.length) := by
  induction ds with
  | nil => cases sign <;> rfl
  | cons d ds ih =>
    rw [twos,ih,Nat.ofDigits_cons,length_cons]
    push_cast
    split_ifs <;> ring

lemma twos_drop (hB : 0 < B) (sign : Bool) (hd : Below B ds) (k : ℕ) :
    twos B sign (ds.drop k)=twos B sign ds/B^k := by
  induction k generalizing ds with
  | zero => rw [drop_zero,pow_zero,ediv_one]
  | succ k ih =>
    cases ds with
    | nil =>
      have hp : (0 : ℤ) < B^(k+1) := by positivity
      cases sign with
      | true => exact (zero_ediv _).symm
      | false =>
        change -1=(-1 : ℤ)/B^(k+1)
        exact (ediv_eq_neg_one_of_neg_of_le (by decide) (by omega)).symm
    | cons d ds =>
      rw [below_cons] at hd
      have hl : ((d : ℤ)+B*twos B sign ds)/B=twos B sign ds := by
        rw [add_mul_ediv_left _ _ (by omega),
          ediv_eq_zero_of_lt (by positivity) (by exact_mod_cast hd.1),zero_add]
      rw [drop_succ_cons,ih hd.2,twos,pow_succ',← ediv_ediv_of_nonneg (by positivity), hl]

lemma bit_twos {w : ℕ} (hw : 0 < w) (sign : Bool) (hd : Below (2^w) ds) (k : ℕ) :
    bit (twos (2^w) sign ds) k = match ds[k/w]? with
      | some d => d.testBit (k%w)
      | none => !sign := by
  induction ds generalizing k with
  | nil => exact bit_twos_nil sign k
  | cons d ds ih =>
    rw [below_cons] at hd
    rw [twos,Nat.cast_pow,Nat.cast_ofNat,bit_add_mul hd.1]
    split_ifs with hk
    · rw [Nat.div_eq_of_lt hk,Nat.mod_eq_of_lt hk]
      rfl
    · have hdi : k/w=(k-w)/w+1 := by
        rw [← Nat.sub_add_cancel (not_lt.mp hk),Nat.add_div_right _ hw,Nat.add_sub_cancel]
      have hm : (k-w)%w=k%w := (Nat.mod_eq_sub_mod (not_lt.mp hk)).symm
      rw [ih hd.2,hdi,hm,getElem?_cons_succ]

/-- `~` of every digit. -/
def complement (B : ℕ) (ds : List ℕ) : List ℕ := ds.map (B-1-·)

/-- The carry runs through all the digits and is returned with them. -/
def increment (B : ℕ) : ℕ → List ℕ → List ℕ × ℕ
  | num,[] => ([],num)
  | num,d::ds =>
    let r := increment B (wide B (num+d)/B) ds
    (wide B (num+d)%B::r.1,r.2)

/-- Two's complement of the digits, with one more digit for a last carry. -/
def get2comp (B : ℕ) (ds : List ℕ) : List ℕ :=
  if ds=[] then ds
  else
    let r := increment B 1 (complement B ds)
    if r.2 ≠ 0 then r.1++[1] else r.1

lemma below_complement (hB : 0 < B) : Below B (complement B ds) := by
  intro d hd
  obtain ⟨e,-,rfl⟩ := mem_map.mp hd
  omega

lemma twos_complement (sign : Bool) (hds : Below B ds) :
    twos B (!sign) (complement B ds) = -1-twos B sign ds := by
  induction ds with
  | nil => cases sign <;> rfl
  | cons d ds ih =>
    rw [below_cons] at hds
    change ((B-1-d : ℕ))+B*twos B (!sign) (complement B ds) = -1-(d+B*twos B sign ds)
    have hd : ((B-1-d : ℕ) : ℤ)=B-1-d := by omega
    rw [ih hds.2,hd]
    ring

lemma increment_spec (hB : 1 < B) {num : ℕ} (hn : num ≤ 1) (hd : Below B ds) :
    (increment B num ds).1.length=ds.length ∧ Below B (increment B num ds).1 ∧
      (increment B num ds).2 ≤ 1 ∧
      Nat.ofDigits B (increment B num ds).1+B^ds.length*(increment B num ds).2 =
        num+Nat.ofDigits B ds := by
  induction ds generalizing num with
  | nil => simp [increment,hn]
  | cons d ds ih =>
    rw [below_cons] at hd
    obtain ⟨hw,hc⟩ := wide_add_le hB (n := num+d) (by omega)
    obtain ⟨hle,hb,hl,hv⟩ := ih hc hd.2
    simp only [increment,hw,length_cons]
    refine ⟨by rw [hle],below_cons.mpr ⟨Nat.mod_lt _ (by omega),hb⟩,hl,?_⟩
    rw [Nat.ofDigits_cons,Nat.ofDigits_cons]
    have hdi := Nat.mod_add_div (num+d) B
    linear_combination B*hv+hdi

lemma get2comp_spec (hB : 1 < B) (hn : ds ≠ []) (hd : Below B ds) :
    Below B (get2comp B ds) ∧ Nat.ofDigits B (get2comp B ds)+Nat.ofDigits B ds=B^ds.length ∧
      (0 < Nat.ofDigits B ds → (get2comp B ds).length=ds.length) := by
  have hl : (complement B ds).length=ds.length := length_map _
  have hco : Nat.ofDigits B (complement B ds)+Nat.ofDigits B ds+1=B^ds.length := by
    have ht := twos_complement true hd
    rw [twos_eq,twos_eq,hl] at ht
    simp only [if_true] at ht
    rw [← Nat.cast_pow] at ht
    omega
  obtain ⟨hle,hb,hla,hv⟩ := increment_spec hB le_rfl
    (below_complement (by omega))
  rw [get2comp,if_neg hn]
  generalize increment B 1 (complement B ds)=r at hle hb hla hv ⊢
  rw [hl] at hle hv
  have hs : Nat.ofDigits B r.1+B^ds.length*r.2+Nat.ofDigits B ds=B^ds.length := by omega
  dsimp only
  split_ifs with hc
  · have ho : r.2=1 := by omega
    rw [ho,mul_one] at hs
    rw [ofDigits_concat,below_append,hle,mul_one]
    exact ⟨⟨hb,below_cons.mpr ⟨hB,below_nil⟩⟩,hs,fun hp => by omega⟩
  · have hz : r.2=0 := by omega
    rw [hz] at hs
    exact ⟨hb,hs,fun _ => hle⟩

lemma twos_get2comp (hB : 1 < B) (hd : Below B ds) (hp : 0 < Nat.ofDigits B ds) :
    twos B false (get2comp B ds) = -(Nat.ofDigits B ds : ℕ) := by
  have hne : ds ≠ [] := by
    intro hn
    rw [hn,Nat.ofDigits_nil] at hp
    omega
  obtain ⟨-,hs,hl⟩ := get2comp_spec hB hne hd
  rw [twos_eq,hl hp,if_neg Bool.false_ne_true,← Nat.cast_pow]
  omega

lemma ofDigits_get2comp (hB : 1 < B) (hn : ds ≠ []) (hd : Below B ds) :
    -((Nat.ofDigits B (get2comp B ds) : ℕ) : ℤ)=twos B false ds := by
  obtain ⟨-,hs,-⟩ := get2comp_spec hB hn hd
  rw [twos_eq,if_neg Bool.false_ne_true,← Nat.cast_pow]
  omega

variable {xs : List ℕ}

/-- Digit by digit along the shorter list; the rest of the longer one is met by
the sign of the shorter one. -/
def zipDigits (op : ℕ → ℕ → ℕ) (rest : ℕ → ℕ) : List ℕ → List ℕ → List ℕ
  | [],ys => ys.map rest
  | _,[] => []
  | x::xs,y::ys => op x y::zipDigits op rest xs ys

/-- An operation on bits done on digits: `op` on two digits and `rest` on the
sign of the shorter list and a digit of the longer one. -/
structure Bitwise (w : ℕ) (f : Bool → Bool → Bool) (op : ℕ → ℕ → ℕ) (rest : Bool → ℕ → ℕ) :
    Prop where
  op_lt : ∀ x y, x < 2^w → y < 2^w → op x y < 2^w
  op_bit : ∀ x y j, j < w → (op x y).testBit j=f (x.testBit j) (y.testBit j)
  rest_lt : ∀ sign y, y < 2^w → rest sign y < 2^w
  rest_bit : ∀ sign y j, j < w → y < 2^w → (rest sign y).testBit j=f (!sign) (y.testBit j)

section Zip
variable {f : Bool → Bool → Bool} {op : ℕ → ℕ → ℕ} {rest : Bool → ℕ → ℕ} (h : Bitwise w f op rest)
  {s t : Bool}
include h

lemma bit_map_rest {ys : List ℕ} (hy : Below (2^w) ys) (k : ℕ) : Below (2^w) (ys.map (rest s)) ∧
      bit (twos (2^w) (!f (!s) (!t)) (ys.map (rest s))) k=f (!s) (bit (twos (2^w) t ys) k) := by
  induction ys generalizing k with
  | nil => exact ⟨below_nil,by rw [map_nil,bit_twos_nil,bit_twos_nil,Bool.not_not]⟩
  | cons y ys ih =>
    rw [below_cons] at hy
    have hr := h.rest_lt s y hy.1
    rw [map_cons,twos,twos,Nat.cast_pow,Nat.cast_ofNat,bit_add_mul hr,bit_add_mul hy.1]
    refine ⟨below_cons.mpr ⟨hr,(ih hy.2 0).1⟩,?_⟩
    split_ifs with hk
    · exact h.rest_bit s y k hk hy.1
    · exact (ih hy.2 (k-w)).2

lemma bit_zipDigits {xs ys : List ℕ} (hl : xs.length ≤ ys.length) (hx : Below (2^w) xs)
    (hy : Below (2^w) ys) (k : ℕ) : Below (2^w) (zipDigits op (rest s) xs ys) ∧
      bit (twos (2^w) (!f (!s) (!t)) (zipDigits op (rest s) xs ys)) k =
        f (bit (twos (2^w) s xs) k) (bit (twos (2^w) t ys) k) := by
  induction xs generalizing ys k with
  | nil =>
    rw [bit_twos_nil]
    exact bit_map_rest h hy k
  | cons x xs ih =>
    cases ys with
    | nil => exact absurd hl (by simp)
    | cons y ys =>
      rw [below_cons] at hx hy
      rw [length_cons,length_cons] at hl
      have ho := h.op_lt x y hx.1 hy.1
      rw [zipDigits,twos,twos,twos,Nat.cast_pow,Nat.cast_ofNat,bit_add_mul ho,
        bit_add_mul hx.1,bit_add_mul hy.1]
      refine ⟨below_cons.mpr ⟨ho,(ih (by omega) hx.2 hy.2 0).1⟩,?_⟩
      split_ifs with hk
      · exact h.op_bit x y k hk
      · exact (ih (by omega) hx.2 hy.2 (k-w)).2

end Zip

lemma twos_shiftDown (hw : 0 < w) {s : ℕ} (hs : s ≤ w) (sign : Bool) {ds : List ℕ}
    (hds : Below (2^w) ds) : twos (2^w) sign
        (shiftDown (2^w) s ((if sign then 0 else 2^w-1)*2^w) ds.reverse).reverse =
      twos (2^w) sign ds/2^s := by
  have hr : Below (2^w) ds.reverse := fun d hd => hds d (mem_reverse.mp hd)
  have hto : (if sign then 0 else 2^w-1) < 2^w := by
    have : 0 < 2^w := by positivity
    split_ifs <;> omega
  obtain ⟨hl,-,hv⟩ := shiftDown_spec hw hs hto hr
  have hsi := Nat.ofDigits_lt_base_pow_length (Nat.one_lt_two_pow hw.ne') hds
  rw [length_reverse] at hl hv
  rw [reverse_reverse] at hv
  rw [twos_eq,twos_eq,length_reverse,hl,hv]
  obtain ⟨c,hc⟩ : ∃ c, 2^w=2^s*c := pow_dvd_pow 2 hs
  generalize Nat.ofDigits (2^w) ds=value at hsi ⊢
  generalize hpo : (2^w)^ds.length=top at hsi ⊢
  have ht : (((2^w : ℕ) : ℤ))^ds.length=top := by
    rw [← hpo]
    rfl
  rw [ht]
  cases sign with
  | true =>
    have hlt : value/2^s < top := lt_of_le_of_lt (Nat.div_le_self _ _) hsi
    rw [if_pos rfl,zero_mul,zero_add,Nat.mod_eq_of_lt hlt]
    rfl
  | false =>
    have hb : 1 ≤ 2^w := Nat.one_le_two_pow
    have hp : (0 : ℤ) < 2^s := by positivity
    have hn : (((2^w-1)*top+value : ℕ) : ℤ)=value-top+2^s*(c*top) := by
      have hca : ((2^w : ℕ) : ℤ)=2^s*c := by rw [hc]; push_cast; rfl
      rw [Nat.cast_add,Nat.cast_mul,Nat.cast_sub hb,hca]
      ring
    have hne : ((value : ℤ)-top)/2^s < 0 := ediv_neg_of_neg_of_pos (by omega) hp
    have hlo : -(top : ℤ) ≤ ((value : ℤ)-top)/2^s := by
      rw [Int.le_ediv_iff_mul_le hp]
      nlinarith
    rw [if_neg Bool.false_ne_true,if_neg Bool.false_ne_true,natCast_emod,natCast_ediv,hn,
      Nat.cast_pow,Nat.cast_ofNat,add_mul_ediv_left _ _ hp.ne',add_mul_emod_self_right,
      ← add_emod_right,emod_eq_of_lt (by omega) (by omega),add_sub_cancel_right]

/-- The carry of a complement and increment that is followed to digit `k`. -/
def negatedDigit (B : ℕ) : ℕ → ℕ → List ℕ → ℕ
  | num,_,[] => num
  | num,0,x::_ => wide B (num+(B-1-x))
  | num,k+1,x::xs => negatedDigit B (wide B (num+(B-1-x))/B) k xs

lemma negated_cons {num x : ℕ} (hx : x < 2^w) : (num : ℤ)-1-(Nat.ofDigits (2^w) (x::xs) : ℕ) =
      ((num+(2^w-1-x))%2^w : ℕ)+
        2^w*(((num+(2^w-1-x))/2^w : ℕ)-1-((Nat.ofDigits (2^w) xs : ℕ) : ℤ)) := by
  have hd : ((2^w-1-x : ℕ) : ℤ)=2^w-1-x := by
    rw [Nat.sub_sub,Nat.cast_sub (by omega)]
    push_cast
    ring
  have hdi : (((num+(2^w-1-x))%2^w : ℕ) : ℤ)+2^w*((num+(2^w-1-x))/2^w : ℕ)=num+(2^w-1-x : ℕ) := by
    exact_mod_cast Nat.mod_add_div (num+(2^w-1-x)) (2^w)
  rw [hd] at hdi
  rw [Nat.ofDigits_cons,Nat.cast_add,Nat.cast_mul,Nat.cast_pow]
  linear_combination -hdi

lemma negatedDigit_testBit (hw : 0 < w) {num k j : ℕ} (hn : num ≤ 1)
    (hx : Below (2^w) xs) (hk : k < xs.length) (hj : j < w) :
    (negatedDigit (2^w) num k xs).testBit j = bit (num-1-(Nat.ofDigits (2^w) xs : ℕ)) (w*k+j) := by
  induction k generalizing num xs with
  | zero =>
    cases xs with
    | nil => exact absurd hk (by simp)
    | cons x xs =>
      rw [below_cons] at hx
      obtain ⟨hwi,-⟩ := wide_add_le (Nat.one_lt_two_pow hw.ne') (n := num+(2^w-1-x)) (by omega)
      rw [negatedDigit,hwi,negated_cons hx.1,mul_zero,zero_add,
        bit_add_mul (Nat.mod_lt _ (by positivity)),if_pos hj,Nat.testBit_mod_two_pow,
        decide_eq_true hj,Bool.true_and]
  | succ k ih =>
    cases xs with
    | nil => exact absurd hk (by simp)
    | cons x xs =>
      rw [below_cons] at hx
      rw [length_cons] at hk
      obtain ⟨hwi,hc⟩ := wide_add_le (Nat.one_lt_two_pow hw.ne') (n := num+(2^w-1-x)) (by omega)
      have hb : w*(k+1)+j-w=w*k+j := by rw [mul_add]; omega
      rw [negatedDigit,hwi,ih hc hx.2 (by omega),negated_cons hx.1,
        bit_add_mul (Nat.mod_lt _ (by positivity)),if_neg (by rw [mul_add]; omega),hb]

end MacRuby.TwosComplement
