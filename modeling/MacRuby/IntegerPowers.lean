import MacRuby.Integers

/-!
# Powers of Bignums

`bigsqr` squares a long number by halves: the two squares are laid side by side
and twice the product of the halves is added across them. `rb_big_pow` goes
through the bits of the exponent from the top, squares at each bit and
multiplies at each bit that is set. Results that would be too long, and
exponents that are not counts, leave the integers.
-/
namespace MacRuby.IntegerPowers
open Digits Integers List Nat

section Squares
variable {num k : ℕ}

def carryUp (B : ℕ) : ℕ → List ℕ → List ℕ
  | num,[] => if num=0 then [] else [num%B]
  | num,z::zs =>
    if num=0 then z::zs
    else (wide B (num+z))%B::carryUp B ((wide B (num+z))/B) zs

/-- Twice the first number is added to the second, which is not shorter. -/
def addDouble (B : ℕ) : ℕ → List ℕ → List ℕ → List ℕ
  | num,[],zs => carryUp B num zs
  | _,_::_,[] => []
  | num,a::as,z::zs =>
    let num := wide B (num+(z+wide B (2*a)))
    num%B::addDouble B (num/B) as zs

/-- The digits of a square, without zeros at the top. Numbers of fewer than
`4000/BITSPERDIG` digits are multiplied in the plain way. -/
def sqrDigits (xs : List ℕ) : List ℕ :=
  if xs.length < 62 then trunc (mulDigits bigrad xs xs)
  else
    let k := xs.length/2
    let a := xs.drop k
    let b := xs.take k
    let a2 := trunc (sqrDigits a)
    let z := sqrDigits b
    let z := (z++List.replicate (2*k-z.length) 0).take (2*k)++a2
    let ab := trunc (mulDigits bigrad a b)
    trunc (z.take k++addDouble bigrad 0 ab (z.drop k))
termination_by xs.length
decreasing_by
  · rw [length_drop]
    omega
  · rw [length_take]
    omega

variable {B : ℕ} (hB : 3 < B)
include hB

lemma carryUp_spec {zs : List ℕ} (hn : num < B) (hzs : Below B zs) :
    Nat.ofDigits B (carryUp B num zs)=num+Nat.ofDigits B zs ∧ Below B (carryUp B num zs) := by
  induction zs generalizing num with
  | nil =>
    simp only [carryUp]
    split_ifs with hze
    · rw [hze]
      exact ⟨rfl,below_nil⟩
    · rw [mod_eq_of_lt hn]
      exact ⟨rfl,below_cons.mpr ⟨hn,below_nil⟩⟩
  | cons z zs ih =>
    obtain ⟨hz,hr⟩ := below_cons.mp hzs
    simp only [carryUp]
    split_ifs with hze
    · rw [hze,zero_add]
      exact ⟨rfl,hzs⟩
    · obtain ⟨hw,hc⟩ := wide_add_le (B := B) (n := num+z) (by omega) (by omega)
      rw [hw]
      have hs : (num+z)/B < B := by omega
      obtain ⟨hv,hb⟩ := ih hs hr
      refine ⟨?_,below_cons.mpr ⟨mod_lt _ (by omega),hb⟩⟩
      have hd := mod_add_div (num+z) B
      rw [ofDigits_cons,ofDigits_cons,hv]
      linear_combination hd

lemma addDouble_spec {as zs : List ℕ} (hn : num ≤ 2) (hl : as.length ≤ zs.length)
    (has : Below B as) (hzs : Below B zs) :
    Nat.ofDigits B (addDouble B num as zs)=num+2*Nat.ofDigits B as+Nat.ofDigits B zs ∧
      Below B (addDouble B num as zs) := by
  induction as generalizing num zs with
  | nil =>
    exact carryUp_spec hB (by omega) hzs
  | cons a as ih =>
    cases zs with
    | nil => simp at hl
    | cons z zs =>
      obtain ⟨ha,has⟩ := below_cons.mp has
      obtain ⟨hz,hzs⟩ := below_cons.mp hzs
      rw [length_cons,length_cons] at hl
      have hs : 4*B ≤ B*B := mul_le_mul_right B hB
      have hd : wide B (2*a)=2*a := wide_of_lt (by omega)
      have hw : wide B (num+(z+2*a))=num+(z+2*a) := wide_of_lt (by omega)
      have hc : (num+(z+2*a))/B ≤ 2 := Nat.lt_succ_iff.mp (Nat.div_lt_of_lt_mul (by omega))
      simp only [addDouble,hd,hw]
      obtain ⟨hv,hb⟩ := ih hc (by omega) has hzs
      refine ⟨?_,below_cons.mpr ⟨mod_lt _ (by omega),hb⟩⟩
      have hdi := mod_add_div (num+(z+2*a)) B
      rw [ofDigits_cons,ofDigits_cons,ofDigits_cons,hv]
      linear_combination hdi

omit hB in
lemma length_trunc_le_of_lt {ds : List ℕ} {n : ℕ} (hds : Below bigrad ds) (hn : 0 < n)
    (hlt : Nat.ofDigits bigrad ds < bigrad^n) : (trunc ds).length ≤ n := by
  obtain ⟨hv,hb,ht,-⟩ := trunc_spec hds
  by_contra hlong
  have ho : 1 < (trunc ds).length := by omega
  have hl : ∀ h,(trunc ds).getLast h ≠ 0 := by
    intro h hz
    exact ht ho (by rw [getLast?_eq_some_getLast h,hz])
  have hd := digits_ofDigits bigrad one_lt_bigrad _ hb hl
  have hle := (digits_length_le_iff one_lt_bigrad _).mpr (hv.trans_lt hlt)
  rw [hd] at hle
  exact hlong hle

omit hB in
lemma ofDigits_cut (xs : List ℕ) (hk : k ≤ xs.length) :
    Nat.ofDigits B xs=Nat.ofDigits B (xs.take k)+B^k*Nat.ofDigits B (xs.drop k) := by
  conv_lhs => rw [← take_append_drop k xs]
  rw [ofDigits_append,length_take_of_le hk]

omit hB in
lemma halves_spec {xs a2 z : List ℕ} (hk : 0 < k) (hkx : k ≤ xs.length)
    (hx : Below bigrad xs) (ha2 : Below bigrad a2) (hz : Below bigrad z) (hzl : z.length ≤ 2*k)
    (hv : Nat.ofDigits bigrad a2=Nat.ofDigits bigrad (xs.drop k)^2)
    (hva : Nat.ofDigits bigrad z=Nat.ofDigits bigrad (xs.take k)^2) :
    let zs := (z++List.replicate (2*k-z.length) 0).take (2*k)++a2
    let ab := trunc (mulDigits bigrad (xs.drop k) (xs.take k))
    Nat.ofDigits bigrad (zs.take k++addDouble bigrad 0 ab (zs.drop k))=Nat.ofDigits bigrad xs^2 ∧
      Below bigrad (zs.take k++addDouble bigrad 0 ab (zs.drop k)) := by
  intro zs ab
  have hh : Below bigrad (xs.drop k) := fun d hd => hx d (mem_of_mem_drop hd)
  have hl : Below bigrad (xs.take k) := fun d hd => hx d (mem_of_mem_take hd)
  have hp : (z++replicate (2*k-z.length) 0).length=2*k := by
    rw [length_append,length_replicate]
    omega
  have hpa : (z++replicate (2*k-z.length) 0).take (2*k)=z++replicate (2*k-z.length) 0 :=
    take_of_length_le hp.le
  have hzsv : Nat.ofDigits bigrad zs=Nat.ofDigits bigrad (xs.take k)^2+
      bigrad^(2*k)*Nat.ofDigits bigrad (xs.drop k)^2 := by
    rw [show zs=z++replicate (2*k-z.length) 0++a2 from congrArg (·++a2) hpa,
      ofDigits_append,hp,ofDigits_append_replicate_zero,hv,hva]
  have hzsl : zs.length=2*k+a2.length := by
    rw [show zs=z++replicate (2*k-z.length) 0++a2 from congrArg (·++a2) hpa, length_append,hp]
  have hzs : Below bigrad zs := by
    rw [show zs=z++replicate (2*k-z.length) 0++a2 from congrArg (·++a2) hpa,below_append,
      below_append]
    refine ⟨⟨hz,fun d hd => ?_⟩,ha2⟩
    rw [eq_of_mem_replicate hd]
    decide
  -- the product of the halves is not longer than what lies above the low half
  obtain ⟨hmu,hm⟩ := mulDigits_spec one_lt_bigrad hh hl
  obtain ⟨hab,habb,-⟩ := trunc_spec hm
  have habl : ab.length ≤ k+a2.length := by
    have ha : Nat.ofDigits bigrad (xs.drop k) < bigrad^a2.length := by
      have hsq := ofDigits_lt_base_pow_length one_lt_bigrad ha2
      rw [hv] at hsq
      exact (Nat.le_self_pow (by decide) _).trans_lt hsq
    have hb : Nat.ofDigits bigrad (xs.take k) < bigrad^k := by
      have hlt := ofDigits_lt_base_pow_length one_lt_bigrad hl
      rwa [length_take_of_le hkx] at hlt
    refine length_trunc_le_of_lt hm (by omega) ?_
    rw [hmu,add_comm,pow_add]
    exact mul_lt_mul'' ha hb
  have hdr : Below bigrad (zs.drop k) := fun d hd => hzs d (mem_of_mem_drop hd)
  have ht : Below bigrad (zs.take k) := fun d hd => hzs d (mem_of_mem_take hd)
  obtain ⟨hsu,hs⟩ := addDouble_spec (by decide) (zero_le 2)
    (habl.trans (by rw [length_drop]; omega)) habb hdr
  refine ⟨?_,below_append.mpr ⟨ht,hs⟩⟩
  have hc := ofDigits_cut (B := bigrad) zs (k := k) (by omega)
  rw [ofDigits_append,length_take_of_le (by omega),hsu,hab,hmu, ofDigits_cut xs hkx]
  rw [hzsv] at hc
  linear_combination -hc

omit hB in
lemma sqrDigits_spec {xs : List ℕ} (hx : Below bigrad xs) :
    ∃ ws, sqrDigits xs=trunc ws ∧ Below bigrad ws ∧
      Nat.ofDigits bigrad ws=Nat.ofDigits bigrad xs^2 := by
  induction xs using sqrDigits.induct with
  | case1 xs hs =>
    obtain ⟨hm,hbe⟩ := mulDigits_spec one_lt_bigrad hx hx
    refine ⟨_,?_,hbe,by rw [hm,sq]⟩
    rw [sqrDigits,if_pos hs]
  | case2 xs hl k a b iha ihb =>
    obtain ⟨wa,ha,hwa,hval⟩ := iha fun d hd => hx d (mem_of_mem_drop hd)
    obtain ⟨wb,hb,hw,hv⟩ := ihb fun d hd => hx d (mem_of_mem_take hd)
    have hlo : Nat.ofDigits bigrad b < bigrad^k := by
      have hlt := ofDigits_lt_base_pow_length one_lt_bigrad
        (fun d hd => hx d (mem_of_mem_take hd) : Below bigrad (xs.take k))
      rwa [length_take_of_le (by omega)] at hlt
    have hz : (trunc wb).length ≤ 2*k := by
      refine length_trunc_le_of_lt hw (by omega) ?_
      rw [hv,mul_comm,pow_mul]
      exact Nat.pow_lt_pow_left hlo (by decide)
    obtain ⟨ht,ht',-⟩ := trunc_spec hwa
    obtain ⟨ht2,ht2',-⟩ := trunc_spec ht'
    obtain ⟨htb,htb',-⟩ := trunc_spec hw
    obtain ⟨hva,hbe⟩ := halves_spec (by omega) (by omega) hx ht2' htb' hz
      (ht2.trans (ht.trans hval)) (htb.trans hv)
    refine ⟨_,?_,hbe,hva⟩
    rw [sqrDigits,if_neg hl]
    simp only [← ha,← hb]
    rfl

end Squares

variable {x : Bignum} {z : Option Bignum}

def bigsqr (x : Bignum) : Bignum :=
  ⟨true,sqrDigits x.digits,by
    obtain ⟨ws,heq,hbelow,-⟩ := sqrDigits_spec x.digits_lt
    rw [heq]
    exact (trunc_spec hbelow).2.1⟩

/-- What a power is: an integer, or a value of another class. -/
inductive Power
  | integer (z : Integer)
  | float
  | rational

/-- The bits of the exponent below the given position, from the top; there is no
number before the first bit that is set. -/
def powLoop (x : Bignum) (yy : ℕ) : ℕ → Option Bignum → Option Bignum
  | 0,z => z
  | k+1,z =>
    let z := z.map (fun z => bigtrunc (bigsqr z))
    powLoop x yy k (if yy.testBit k then
      some (match z with
        | some z => bigtrunc (rbBigMul0 z (.bignum x))
        | none => x)
      else z)

def biglenLimit : ℕ := 1024*1024/8

/-- `rb_big_pow` of an integer exponent. -/
def rbBigPow (x : Bignum) (y : Integer) : Power :=
  match y with
  | .bignum y => if y.toInt < 0 then .rational else .float
  | .fixnum y =>
    let yy := fix2long y
    if yy=0 then .integer (.fixnum (long2fix 1))
    else if yy < 0 then .rational
    else if x.digits.length > biglenLimit ∨ x.digits.length > biglenLimit/yy.toNat then .float
    else
      match powLoop x yy.toNat 62 none with
      | some z => .integer (bignorm z)
      -- no bit is set, which the test for zero excludes
      | none => .integer (.fixnum (long2fix 0))

lemma bigsqr_toInt (x : Bignum) : (bigsqr x).toInt=x.toInt^2 := by
  obtain ⟨ws,he,hb,hv⟩ := sqrDigits_spec x.digits_lt
  have hd : Nat.ofDigits bigrad (bigsqr x).digits=Nat.ofDigits bigrad x.digits^2 := by
    rw [← hv,← (trunc_spec hb).1,← he]
    rfl
  have hsq : x.toInt^2=Nat.ofDigits bigrad x.digits^2 := by
    rw [Bignum.toInt,signed_eq]
    split_ifs
    · rfl
    · rw [neg_sq]
  rw [hsq,Bignum.toInt,signed_eq,hd]
  rfl

lemma bigtrunc_toInt (x : Bignum) : (bigtrunc x).toInt=x.toInt := by
  rw [Bignum.toInt,Bignum.toInt,signed_eq,signed_eq,bigtrunc,(trunc_spec x.digits_lt).1]

/-- What the loop holds after the bits from position `k` on: nothing while those
bits are zeros, and then the power to the number they make. -/
def Raised (x : Bignum) (yy k : ℕ) (z : Option Bignum) : Prop :=
  match z with
  | none => yy/2^k=0
  | some z => 0 < yy/2^k ∧ z.toInt=x.toInt^(yy/2^k)

lemma raised_step {yy k : ℕ} (h : Raised x yy (k+1) z) : Raised x yy k (if yy.testBit k then
      some (match z.map (fun z => bigtrunc (bigsqr z)) with
        | some z => bigtrunc (rbBigMul0 z (.bignum x))
        | none => x)
      else z.map (fun z => bigtrunc (bigsqr z))) := by
  have hh : yy/2^(k+1)=yy/2^k/2 := by rw [pow_succ,Nat.div_div_eq_div_mul]
  have hb : yy.testBit k=decide (yy/2^k%2=1) := testBit_eq_decide_div_mod_eq
  rw [hb]
  cases z with
  | none =>
    change yy/2^(k+1)=0 at h
    by_cases ho : yy/2^k%2=1
    · have hon : yy/2^k=1 := by omega
      rw [if_pos (by simpa using ho)]
      exact ⟨by omega,by rw [hon,pow_one]; rfl⟩
    · rw [if_neg (by simpa using ho)]
      change yy/2^k=0
      omega
  | some z =>
    obtain ⟨hp,hz⟩ := h
    rw [Option.map_some]
    have hs : (bigtrunc (bigsqr z)).toInt=x.toInt^(2*(yy/2^k/2)) := by
      rw [bigtrunc_toInt,bigsqr_toInt,hz,hh,← pow_mul,mul_comm]
    by_cases ho : yy/2^k%2=1
    · rw [if_pos (by simpa using ho)]
      refine ⟨by omega,?_⟩
      have he : yy/2^k=2*(yy/2^k/2)+1 := by omega
      rw [he,pow_succ,bigtrunc_toInt,rbBigMul0_toInt,hs]
      rfl
    · rw [if_neg (by simpa using ho)]
      refine ⟨by omega,?_⟩
      have he : yy/2^k=2*(yy/2^k/2) := by omega
      rw [hs,← he]

lemma raised_powLoop {yy k : ℕ} (h : Raised x yy k z) : Raised x yy 0 (powLoop x yy k z) := by
  induction k generalizing z with
  | zero => exact h
  | succ k ih => exact ih (raised_step h)

lemma rbBigPow_eq {yy : ℤ} (hf : Fixable yy) (hp : 0 < yy)
    (hl : x.digits.length ≤ biglenLimit/yy.toNat) :
    rbBigPow x (.fixnum (long2fix yy))=.integer (canonical (x.toInt^yy.toNat)) := by
  have hle : biglenLimit/yy.toNat ≤ biglenLimit := div_le_self _ _
  have hs : Raised x yy.toNat 62 none := by
    unfold Fixable at hf
    exact div_eq_of_lt (by omega)
  have he := raised_powLoop hs
  rw [rbBigPow]
  simp only [fix2long_long2fix hf]
  rw [if_neg (by omega),if_neg (by omega),if_neg (by omega)]
  cases hz : powLoop x yy.toNat 62 none with
  | none =>
    rw [hz] at he
    change yy.toNat/2^0=0 at he
    omega
  | some z =>
    rw [hz] at he
    obtain ⟨-,hv⟩ := he
    rw [pow_zero,Nat.div_one] at hv
    change Power.integer (bignorm z)=_
    rw [bignorm_eq,hv]

end MacRuby.IntegerPowers
