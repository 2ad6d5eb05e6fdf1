import MacRuby.DigitDivision
import MacRuby.DigitShifts
import MacRuby.Integers

/-!
# Floor division of integers

`divmod` for Fixnums and Bignums. Two Fixnums are divided as `long`s; otherwise
both operands become Bignums, which are divided digit by digit with truncation.
The long division scales both operands so that the highest bit of the divisor
is set, and the remainder is scaled back. A last step turns truncation into
floor where the signs differ and something remains.
-/
namespace MacRuby.IntegerDivision
open Digits DigitDivision DigitShifts Integers List Nat Int

inductive Error
  /-- `ZeroDivisionError`. -/
  | zeroDivision
  /-- A digit of the quotient was counted down below zero. -/
  | underflow
  deriving DecidableEq

def bigzerop (x : Bignum) : Bool := x.digits.all (· == 0)

/-- The shift after which the highest bit of a digit is set; the loop takes at
most as many rounds as the digit has bits. -/
def topShift : ℕ → ℕ → ℕ
  | 0,_ => 0
  | n+1,q => if q &&& 2^63=0 then topShift n (q*2%bigrad)+1 else 0

def dropTop (ds : List ℕ) : List ℕ := (ds.reverse.dropWhile (· == 0)).reverse

/-- The digits of the dividend in the order of the rounds, scaled, with one more
digit, and with two more when the divisor is as long. -/
def scaledDividend (dd ny : ℕ) (xs : List ℕ) : List ℕ :=
  let zds :=
    if dd ≠ 0 then
      let r := shiftUp (·+·) bigrad dd 0 xs
      r.1++[r.2%bigrad]
    else xs++[0]
  if xs.length=ny then zds++[0] else zds

def scaledDivisor (dd : ℕ) (ys : List ℕ) : List ℕ :=
  if dd ≠ 0 then (shiftUp (·+·) bigrad dd 0 ys).1 else ys

def unscale (dd : ℕ) (ds : List ℕ) : List ℕ :=
  if dd ≠ 0 then (shiftDown bigrad dd 0 (trunc ds).reverse).reverse else trunc ds

/-- `bigdivrem` for a divisor of two or more digits. -/
def longDivide (xs ys : List ℕ) : Option (List ℕ × List ℕ) :=
  let ys := dropTop ys
  let dd := topShift 64 (ys.getLastD 0)
  let zds := scaledDividend dd ys.length xs
  let k := zds.length-ys.length
  (divRounds bigrad (scaledDivisor dd ys) (zds.take k).reverse (zds.drop k)).map
    (fun r => (r.1,unscale dd r.2))

/-- `bigdivrem`: the quotient is truncated and the remainder has the sign of `x`. -/
def bigdivrem (x y : Bignum) : Except Error (Bignum × Bignum) :=
  let nx := x.digits.length
  let ny := y.digits.length
  if bigzerop y then .error .zeroDivision
  else if nx < ny ∨ nx=ny ∧ x.digits.getLastD 0 < y.digits.getLastD 0 then .ok (rbInt2big 0,x)
  else if ny=1 then
    let r := divDigit bigrad (y.digits.headD 0) 0 x.digits.reverse
    .ok (ofDigits (x.sign == y.sign) r.1.reverse,{rbUint2big r.2 with sign := x.sign})
  else
    match longDivide x.digits y.digits with
    | none => .error .underflow
    | some (q,r) => .ok (ofDigits (x.sign == y.sign) q,ofDigits x.sign r)

def bigdivmod (x y : Bignum) : Except Error (Bignum × Bignum) := do
  let (div,mod) ← bigdivrem x y
  if x.sign ≠ y.sign ∧ ¬bigzerop mod then
    .ok (bigadd div (rbInt2big 1) false,bigadd mod y true)
  else .ok (div,mod)

def rbBigDivmod (x : Bignum) (y : Integer) : Except Error (Integer × Integer) := do
  let (div,mod) ← bigdivmod x (operand y)
  .ok (bignorm div,bignorm mod)

/-- `fixdivmod`; `/` truncates. -/
def fixdivmod (x y : ℤ) : Except Error (ℤ × ℤ) :=
  if y=0 then .error .zeroDivision
  else
    let div :=
      if y < 0 then
        if x < 0 then long ((long (-x)).tdiv (long (-y))) else long (-(long (x.tdiv (long (-y)))))
      else
        if x < 0 then long (-(long ((long (-x)).tdiv y))) else long (x.tdiv y)
    let mod := long (x-long (div*y))
    if (mod < 0 ∧ y > 0) ∨ (mod > 0 ∧ y < 0) then .ok (long (div-1),long (mod+y))
    else .ok (div,mod)

def fixDivmod (x : BitVec 62) (y : Integer) : Except Error (Integer × Integer) :=
  match y with
  | .fixnum y => do
    let (div,mod) ← fixdivmod (fix2long x) (fix2long y)
    .ok (rbInt2inum div,rbInt2inum mod)
  | .bignum y => rbBigDivmod (rbInt2big (fix2long x)) (.bignum y)

/-- `divmod` of an integer receiver. -/
def divmod : Integer → Integer → Except Error (Integer × Integer)
  | .fixnum x,y => fixDivmod x y
  | .bignum x,y => rbBigDivmod x y

lemma and_top_eq_zero {q : ℕ} (hq : q < 2^64) : q &&& 2^63=0 ↔ q < 2^63 := by
  rw [and_two_pow,testBit_eq_decide_div_mod_eq]
  have hd : q/2^63=0 ∨ q/2^63=1 := by omega
  rcases hd with hd | hd
  · rw [hd]
    simp only [zero_mod,zero_ne_one,decide_false,Bool.toNat_false]
    omega
  · rw [hd]
    simp only [decide_true,Bool.toNat_true]
    omega

lemma topShift_spec {n q : ℕ} (hq : q < 2^64) (hn : 2^63 ≤ q*2^n) :
    topShift n q ≤ n ∧ 2^63 ≤ q*2^topShift n q ∧ q*2^topShift n q < 2^64 := by
  induction n generalizing q with
  | zero =>
    rw [pow_zero,mul_one] at hn
    simp only [topShift,pow_zero,mul_one]
    exact ⟨le_rfl,hn,hq⟩
  | succ n ih =>
    simp only [topShift]
    split_ifs with hb
    · rw [and_top_eq_zero hq] at hb
      have hm : q*2%bigrad=q*2 := mod_eq_of_lt (by change q*2 < 2^64; omega)
      rw [hm]
      have hp : ∀ k, q*2^(k+1)=q*2*2^k := fun k => by ring
      rw [hp] at hn ⊢
      obtain ⟨hle,hl,hh⟩ := ih (by omega) hn
      exact ⟨by omega,hl,hh⟩
    · rw [and_top_eq_zero hq] at hb
      rw [pow_zero,mul_one]
      exact ⟨by omega,by omega,hq⟩

lemma dropTop_eq {low : List ℕ} {top : ℕ} (h : top ≠ 0) : dropTop (low++[top])=low++[top] := by
  simp [dropTop,h]

/-- What the loops need of the shift: the highest digit of the divisor keeps all
its bits. -/
def Scales (dd ytop : ℕ) : Prop := dd ≤ 64 ∧ ytop*2^dd < bigrad

variable {dd ytop : ℕ} {xs ys : List ℕ}

lemma two_pow_le_bigrad (h : dd ≤ 64) : 2^dd ≤ bigrad := Nat.pow_le_pow_right (by decide) h

lemma Scales.succ_mul_le (hd : Scales dd ytop) : (ytop+1)*2^dd ≤ bigrad := by
  have hs : bigrad=2^(64-dd)*2^dd := by
    rw [← pow_add,Nat.sub_add_cancel hd.1]
  have hl := hd.2
  rw [hs] at hl ⊢
  exact mul_le_mul_right _ (Nat.lt_of_mul_lt_mul_right hl)

lemma scaledDivisor_spec (hd : Scales dd ytop) (hy : Below bigrad (ys++[ytop])) (hp : 0 < ytop) :
    ∃ ys' ytop', scaledDivisor dd (ys++[ytop])=ys'++[ytop'] ∧ ys'.length=ys.length ∧
      Below bigrad (ys'++[ytop']) ∧ 2^dd ≤ ytop' ∧
      Nat.ofDigits bigrad (ys'++[ytop'])=2^dd*Nat.ofDigits bigrad (ys++[ytop]) := by
  unfold scaledDivisor
  split_ifs with hz
  · obtain ⟨hl,hb,-,hv⟩ := shiftUp_spec (fun _ _ _ => rfl)
      (two_pow_le_bigrad hd.1) (by positivity) hy
    generalize shiftUp (·+·) bigrad dd 0 (ys++[ytop])=r at hl hb hv ⊢
    have hle : (ys++[ytop]).length=ys.length+1 := by simp
    rw [hle] at hl hv
    obtain ⟨ys',ytop',hr,hl',hy',-⟩ := exists_concat hl hb
    have hlo := ofDigits_lt_base_pow_length one_lt_bigrad (below_append.mp hy).1
    have hlo' := ofDigits_lt_base_pow_length one_lt_bigrad hy'
    have hf := hd.succ_mul_le
    have ht : 0 < 2^dd := by positivity
    rw [hl'] at hlo'
    rw [hr,ofDigits_concat,ofDigits_concat,hl',pow_succ,zero_add] at hv
    rw [hr] at hb ⊢
    refine ⟨ys',ytop',rfl,hl',hb,?_⟩
    rw [ofDigits_concat,ofDigits_concat,hl']
    generalize Nat.ofDigits bigrad ys=low at *
    generalize Nat.ofDigits bigrad ys'=low' at *
    generalize bigrad^ys.length=p at *
    generalize 2^dd=t at *
    -- no bit leaves the highest digit
    have hc : r.2=0 := by
      by_contra hne
      have ho : p*bigrad*1 ≤ p*bigrad*r.2 := mul_le_mul_left _ (by omega)
      have hm : p*((ytop+1)*t) ≤ p*bigrad := mul_le_mul_left _ hf
      have hm' : t*low < t*p := (Nat.mul_lt_mul_left ht).mpr hlo
      have hre : 0 ≤ low'+p*ytop' := zero_le
      linarith
    rw [hc,mul_zero] at hv
    refine ⟨?_,hv⟩
    have hm' : p*(t*1) ≤ p*(t*ytop) := mul_le_mul_left _ (mul_le_mul_left _ hp)
    nlinarith
  · obtain rfl : dd=0 := not_not.mp hz
    exact ⟨ys,ytop,rfl,rfl,hy,by rw [pow_zero]; exact hp,by simp⟩

/-- The dividend with its new highest digit, which is less than the highest
digit of a scaled divisor. -/
lemma scaledDividend_spec (hd : dd ≤ 64) (ny : ℕ) (hx : Below bigrad xs) :
    ∃ zs ztop, scaledDividend dd ny xs=zs++[ztop] ∧
      zs.length=(if xs.length=ny then xs.length+1 else xs.length) ∧
      Below bigrad (zs++[ztop]) ∧ ztop < 2^dd ∧
      Nat.ofDigits bigrad (zs++[ztop])=2^dd*Nat.ofDigits bigrad xs := by
  -- the digits with the bits that left the highest one
  obtain ⟨ws,wtop,hw,hl,hb,ht,hv⟩ : ∃ ws wtop,
      (if dd ≠ 0 then (shiftUp (·+·) bigrad dd 0 xs).1++[(shiftUp (·+·) bigrad dd 0 xs).2%bigrad]
        else xs++[0])=ws++[wtop] ∧ ws.length=xs.length ∧ Below bigrad (ws++[wtop]) ∧
        wtop < 2^dd ∧ Nat.ofDigits bigrad (ws++[wtop])=2^dd*Nat.ofDigits bigrad xs := by
    split_ifs with hz
    · obtain ⟨hl,hb,hla,hv⟩ := shiftUp_spec (fun _ _ _ => rfl)
        (two_pow_le_bigrad hd) (by positivity) hx
      have hlt := lt_of_lt_of_le hla (two_pow_le_bigrad hd)
      rw [mod_eq_of_lt hlt]
      refine ⟨_,_,rfl,hl,below_append.mpr ⟨hb,by simpa using hlt⟩,hla,?_⟩
      rw [ofDigits_concat,hl,hv,zero_add]
    · obtain rfl : dd=0 := not_not.mp hz
      refine ⟨xs,0,rfl,rfl,below_append.mpr ⟨hx,by simp⟩,by simp,by simp [ofDigits_concat]⟩
  unfold scaledDividend
  rw [hw]
  split_ifs
  · refine ⟨ws++[wtop],0,rfl,by simp [hl],below_append.mpr ⟨hb,by simp⟩,by positivity,?_⟩
    rw [ofDigits_concat,mul_zero,add_zero,hv]
  · exact ⟨ws,wtop,rfl,hl,hb,ht,hv⟩

lemma unscale_spec {ds : List ℕ} (hdd : dd ≤ 64) (hds : Below bigrad ds) :
    Below bigrad (unscale dd ds) ∧ (unscale dd ds).length ≤ ds.length ∧
      Nat.ofDigits bigrad (unscale dd ds)=Nat.ofDigits bigrad ds/2^dd := by
  obtain ⟨hv,hb,-,-⟩ := trunc_spec hds
  have hl := length_trunc_le ds
  unfold unscale
  split_ifs with hz
  · have hr : Below (2^64) (trunc ds).reverse := fun d hd => hb d (mem_reverse.mp hd)
    obtain ⟨hl',hb',hv'⟩ := shiftDown_spec (by decide) hdd (by positivity) hr
    rw [zero_mul] at hl' hb' hv'
    rw [zero_mul,zero_add,reverse_reverse,length_reverse] at hv'
    refine ⟨fun d hd => hb' d (mem_reverse.mp hd),?_,?_⟩
    · rw [length_reverse,hl',length_reverse]
      exact hl
    · have hs := ofDigits_lt_base_pow_length one_lt_bigrad hb
      rw [hv',mod_eq_of_lt (lt_of_le_of_lt (div_le_self _ _) hs),hv]
  · obtain rfl : dd=0 := not_not.mp hz
    rw [pow_zero,Nat.div_one]
    exact ⟨hb,hl,hv⟩

lemma longDivide_spec (hx : Below bigrad xs) (hys : Below bigrad (ys++[ytop])) (hp : 0 < ytop)
    (hle : ys.length+1 ≤ xs.length) :
    ∃ q r, longDivide xs (ys++[ytop])=some (q,r) ∧ Below bigrad q ∧ Below bigrad r ∧
      r.length ≤ ys.length+1 ∧ Nat.ofDigits bigrad r < Nat.ofDigits bigrad (ys++[ytop]) ∧
      Nat.ofDigits bigrad xs =
        Nat.ofDigits bigrad q*Nat.ofDigits bigrad (ys++[ytop])+Nat.ofDigits bigrad r := by
  have hyd : ytop < 2^64 := (below_cons.mp (below_append.mp hys).2).1
  obtain ⟨hs,-,hto⟩ := topShift_spec (n := 64) hyd (by omega)
  have hsc : Scales (topShift 64 ytop) ytop := ⟨hs,hto⟩
  have hla : (ys++[ytop]).getLastD 0=ytop := getLastD_concat
  have hl : (ys++[ytop]).length=ys.length+1 := by simp
  unfold longDivide
  rw [dropTop_eq hp.ne']
  dsimp only
  rw [hla,hl]
  generalize topShift 64 ytop=dd at hs hsc ⊢
  obtain ⟨ys',ytop',hy,hyl,hyb,hyt,hyv⟩ := scaledDivisor_spec hsc hys hp
  obtain ⟨zs,ztop,hz,hzl,hzb,hzt,hzv⟩ := scaledDividend_spec hs (ys.length+1) hx
  have hzs : ys.length+1 ≤ zs.length := by split_ifs at hzl <;> omega
  rw [hy,hz]
  -- the digits of the first remainder, and those that are brought down
  have hdr : (zs++[ztop]).drop ((zs++[ztop]).length-(ys.length+1)) =
      zs.drop (zs.length-ys.length)++[ztop] := by
    have hc : (zs++[ztop]).length-(ys.length+1)=zs.length-ys.length := by simp
    rw [hc,drop_append_of_le_length (by omega)]
  have hf : Nat.ofDigits bigrad (zs.drop (zs.length-ys.length)++[ztop]) <
      Nat.ofDigits bigrad (ys'++[ytop']) := by
    refine top_lt one_lt_bigrad ?_ ?_ (by omega)
    · rw [length_drop]
      omega
    · exact fun d hd => (below_append.mp hzb).1 d (mem_of_mem_drop hd)
  have hta : Below bigrad ((zs++[ztop]).take ((zs++[ztop]).length-(ys.length+1))).reverse :=
    fun d hd => hzb d (mem_of_mem_take (mem_reverse.mp hd))
  have hr : Below bigrad (zs.drop (zs.length-ys.length)++[ztop]) := by
    rw [← hdr]
    exact fun d hd => hzb d (mem_of_mem_drop hd)
  have hre : (zs.drop (zs.length-ys.length)++[ztop]).length=ys'.length+1 := by
    rw [length_append,length_drop,length_singleton]
    omega
  have ht : 0 < 2^dd := by positivity
  obtain ⟨q,rem,hru,-,hq,hrle,hrem,hrl,hv⟩ := divRounds_spec (by decide) hyb
    (by omega) hta hr hre hf
  rw [reverse_reverse,← hdr,take_append_drop,hzv,hyv,mul_left_comm] at hv
  rw [hdr,hru]
  obtain ⟨hun,hunL,hu⟩ := unscale_spec hs hrem
  refine ⟨q,unscale dd rem,rfl,hq,hun,by omega,?_,?_⟩
  · rw [hu]
    rw [hyv] at hrl
    exact Nat.div_lt_of_lt_mul hrl
  · have hdi := congrArg (·/2^dd) hv
    rw [Nat.mul_div_cancel_left _ ht,mul_add_div ht] at hdi
    rw [hu,hdi]

variable {x y : Bignum}

lemma bigzerop_iff (x : Bignum) : bigzerop x=true ↔ x.toInt=0 := by
  have ha := toInt_natAbs x
  have hz : Nat.ofDigits bigrad x.digits=0 ↔ ∀ d ∈ x.digits, d=0 := by
    constructor
    · intro h d hd
      exact digits_zero_of_eq_zero (by decide) h d hd
    · intro h
      rw [eq_replicate_of_mem h]
      exact ofDigits_replicate_zero
  rw [bigzerop,all_eq_true]
  simp only [beq_iff_eq]
  rw [← hz]
  omega

/-- A divisor as `bigdivrem` gets it: its highest digit is not zero. -/
def Divisor (y : Bignum) : Prop := ∃ ys ytop, y.digits=ys++[ytop] ∧ 0 < ytop

/-- What truncating division returns. The quotient has the sign of the signs of
the operands, unless it is the plain zero. -/
structure Truncated (x y div mod : Bignum) : Prop where
  value : x.toInt=div.toInt*y.toInt+mod.toInt
  mod_sign : mod.sign=x.sign
  mod_lt : mod.toInt.natAbs < y.toInt.natAbs
  mod_length : mod.digits.length ≤ y.digits.length
  div_sign : div.sign=(x.sign == y.sign) ∨ div.digits=[0]

lemma Truncated.of_digits {div mod : Bignum} (hd : div.sign=(x.sign == y.sign))
    (hm : mod.sign=x.sign) (hlt : Nat.ofDigits bigrad mod.digits < Nat.ofDigits bigrad y.digits)
    (hl : mod.digits.length ≤ y.digits.length) (hv : Nat.ofDigits bigrad x.digits =
      Nat.ofDigits bigrad div.digits*Nat.ofDigits bigrad y.digits+Nat.ofDigits bigrad mod.digits) :
    Truncated x y div mod := by
  refine ⟨?_,hm,by rwa [toInt_natAbs,toInt_natAbs],hl,.inl hd⟩
  rw [Bignum.toInt,Bignum.toInt,Bignum.toInt,Bignum.toInt,signed_eq,signed_eq,signed_eq,signed_eq,
    hd,hm,hv]
  cases x.sign <;> cases y.sign <;> simp <;> ring

lemma lt_of_shorter {ys : List ℕ} {ytop : ℕ} (hy : y.digits=ys++[ytop]) (hp : 0 < ytop)
    (h : x.digits.length < y.digits.length ∨
      x.digits.length=y.digits.length ∧ x.digits.getLastD 0 < y.digits.getLastD 0) :
    Nat.ofDigits bigrad x.digits < Nat.ofDigits bigrad y.digits := by
  have hl : y.digits.length=ys.length+1 := by simp [hy]
  rcases h with hlt | ⟨he,ht⟩
  · have hx := ofDigits_lt_base_pow_length one_lt_bigrad x.digits_lt
    have hpo : bigrad^x.digits.length ≤ bigrad^ys.length :=
      Nat.pow_le_pow_right (by decide) (by omega)
    have hyt : bigrad^ys.length*1 ≤ bigrad^ys.length*ytop := mul_le_mul_left _ hp
    rw [hy,ofDigits_concat]
    omega
  · obtain ⟨xs,xtop,hx,hxl,hxs,-⟩ := exists_concat (he.trans hl) x.digits_lt
    rw [hx,hy,getLastD_concat,getLastD_concat] at ht
    rw [hx,hy]
    exact top_lt one_lt_bigrad hxl hxs ht

lemma bigdivrem_spec (x : Bignum) (hy : Divisor y) :
    ∃ div mod, bigdivrem x y=.ok (div,mod) ∧ Truncated x y div mod := by
  obtain ⟨ys,ytop,hdi,hp⟩ := hy
  have hyb := y.digits_lt
  rw [hdi] at hyb
  have hyd : ytop < bigrad := (below_cons.mp (below_append.mp hyb).2).1
  have hl : y.digits.length=ys.length+1 := by simp [hdi]
  have hz : ¬bigzerop y=true := by
    rw [bigzerop,hdi,all_eq_true]
    intro ha
    have := ha ytop (by simp)
    simp only [beq_iff_eq] at this
    omega
  unfold bigdivrem
  rw [if_neg hz]
  split_ifs with hles ho
  · have hlt := lt_of_shorter hdi hp hles
    obtain ⟨hi,hi'⟩ := rbInt2big_spec (n := 0) (by decide) (by decide)
    refine ⟨rbInt2big 0,x,rfl,⟨?_,rfl,?_,by omega,.inr hi'⟩⟩
    · rw [hi,zero_mul,zero_add]
    · rwa [toInt_natAbs,toInt_natAbs]
  · obtain rfl : ys=[] := length_eq_zero_iff.mp (by omega)
    have hh : y.digits.headD 0=ytop := by simp [hdi]
    have hrev : Below bigrad x.digits.reverse := fun d hd => x.digits_lt d (mem_reverse.mp hd)
    obtain ⟨-,hb,hre,hv⟩ := divDigit_spec hyd.le hp hrev
    rw [zero_mul,zero_add,reverse_reverse] at hv
    rw [hh]
    generalize divDigit bigrad ytop 0 x.digits.reverse=r at hb hre hv ⊢
    have hqb : Below bigrad r.1.reverse := fun d hd => hb d (mem_reverse.mp hd)
    have hm := rbUint2big_digits (by change r.2 < bigrad; omega)
    refine ⟨_,_,rfl,Truncated.of_digits rfl rfl ?_ ?_ ?_⟩
    · change Nat.ofDigits bigrad (rbUint2big r.2).digits < _
      rw [hm,hdi]
      exact hre
    · change (rbUint2big r.2).digits.length ≤ _
      rw [hm,ho,length_singleton]
    · change _=_+Nat.ofDigits bigrad (rbUint2big r.2).digits
      rw [hm,hdi,ofDigits_digits hqb,nil_append,ofDigits_singleton, ofDigits_singleton,hv]
  · have hle : ys.length+1 ≤ x.digits.length := by omega
    obtain ⟨q,r,hru,hq,hr,hrl,hrlt,hv⟩ := longDivide_spec x.digits_lt hyb hp hle
    rw [hdi,hru]
    refine ⟨_,_,rfl,Truncated.of_digits rfl rfl ?_ ?_ ?_⟩
    · rw [ofDigits_digits hr,hdi]
      exact hrlt
    · rw [ofDigits_digits hr,hl]
      exact hrl
    · rw [ofDigits_digits hq,ofDigits_digits hr,hdi]
      exact hv

/-- The remainder of floor division is zero or has the sign of the divisor and a
smaller absolute value. -/
def Floored (r y : ℤ) : Prop := r=0 ∨ r.sign=y.sign ∧ |r| < |y|

lemma floored_add {mod y : ℤ} (hl : mod.natAbs < y.natAbs) (hn : mod ≠ 0)
    (hs : 0 ≤ mod ∧ y ≤ 0 ∨ mod ≤ 0 ∧ 0 ≤ y) : Floored (mod+y) y := by
  right
  rcases hs with ⟨hm,hy⟩ | ⟨hm,hy⟩
  · rw [sign_eq_neg_one_of_neg (by omega),sign_eq_neg_one_of_neg (by omega),
      abs_of_neg (by omega),abs_of_neg (by omega)]
    exact ⟨rfl,by omega⟩
  · rw [sign_eq_one_of_pos (by omega),sign_eq_one_of_pos (by omega),
      abs_of_pos (by omega),abs_of_pos (by omega)]
    exact ⟨rfl,by omega⟩

lemma floored_of_sign {mod y : ℤ} (hl : mod.natAbs < y.natAbs)
    (hs : mod=0 ∨ 0 ≤ mod ∧ 0 ≤ y ∨ mod ≤ 0 ∧ y ≤ 0) : Floored mod y := by
  by_cases hz : mod=0
  · exact .inl hz
  right
  rcases hs with h | ⟨hm,hy⟩ | ⟨hm,hy⟩
  · exact absurd h hz
  · rw [sign_eq_one_of_pos (by omega),sign_eq_one_of_pos (by omega),
      abs_of_pos (by omega),abs_of_pos (by omega)]
    exact ⟨rfl,by omega⟩
  · rw [sign_eq_neg_one_of_neg (by omega),sign_eq_neg_one_of_neg (by omega),
      abs_of_neg (by omega),abs_of_neg (by omega)]
    exact ⟨rfl,by omega⟩

lemma bigadd_one_toInt {d : Bignum} (h : d.sign=false ∨ d.digits=[0]) :
    (bigadd d (rbInt2big 1) false).toInt=d.toInt-1 := by
  obtain ⟨ho,hd⟩ := rbInt2big_spec (n := 1) (by decide) (by decide)
  have hs : (bigadd d (rbInt2big 1) false).toInt =
      d.toInt+if false then (rbInt2big 1).toInt else -(rbInt2big 1).toInt := by
    rcases h with h | h
    · exact bigadd_toInt_of_sign (by rw [h]; decide)
    · have hle : d.digits.length=(rbInt2big 1).digits.length := by rw [h]; rfl
      exact bigadd_toInt_of_length fun hl => by omega fun hl => by omega false
  rw [hs,if_neg Bool.false_ne_true,ho,sub_eq_add_neg]

lemma bigdivmod_spec (x : Bignum) (hy : Divisor y) (hfu : Operand y) :
    ∃ div mod, bigdivmod x y=.ok (div,mod) ∧ x.toInt=div.toInt*y.toInt+mod.toInt ∧
      Floored mod.toInt y.toInt := by
  obtain ⟨div,mod,hr,ht⟩ := bigdivrem_spec x hy
  have hv := ht.value
  unfold bigdivmod
  rw [hr]
  change ∃ div' mod', (if x.sign ≠ y.sign ∧ ¬bigzerop mod=true then
    Except.ok (bigadd div (rbInt2big 1) false,bigadd mod y true) else .ok (div,mod))=.ok (div',mod') ∧ _
  split_ifs with hf
  · obtain ⟨hs,hn⟩ := hf
    rw [bigzerop_iff] at hn
    have hm : (bigadd mod y true).toInt=mod.toInt+y.toInt :=
      (bigadd_toInt_of_length (fun hl => by have := ht.mod_length; omega)
        (fun _ => hfu) true).trans (by rw [if_pos rfl])
    have hd := bigadd_one_toInt (by
      rcases ht.div_sign with h | h
      · left
        rw [h]
        simpa using hs
      · exact .inr h)
    refine ⟨_,_,rfl,?_,?_⟩
    · rw [hd,hm]
      linear_combination hv
    · rw [hm]
      refine floored_add ht.mod_lt hn ?_
      cases hx : x.sign with
      | true =>
        have hy' : y.sign=false := by simpa [hx] using hs
        exact .inl ⟨toInt_nonneg (ht.mod_sign.trans hx),toInt_nonpos hy'⟩
      | false =>
        have hy' : y.sign=true := by simpa [hx] using hs
        exact .inr ⟨toInt_nonpos (ht.mod_sign.trans hx),toInt_nonneg hy'⟩
  · refine ⟨div,mod,rfl,hv,floored_of_sign ht.mod_lt ?_⟩
    by_cases hz : mod.toInt=0
    · exact .inl hz
    have hsa : x.sign=y.sign := by
      by_contra hdiff
      exact hf ⟨hdiff,by rwa [bigzerop_iff]⟩
    right
    cases hx : x.sign with
    | true =>
      exact .inl ⟨toInt_nonneg (ht.mod_sign.trans hx),toInt_nonneg (hsa.symm.trans hx)⟩
    | false =>
      exact .inr ⟨toInt_nonpos (ht.mod_sign.trans hx),toInt_nonpos (hsa.symm.trans hx)⟩

lemma operand_divisor {n : ℤ} (hn : n ≠ 0) : Divisor (operand (canonical n)) := by
  by_cases hf : Fixable n
  · rw [canonical_of_fixable hf,operand,fix2long_long2fix hf]
    unfold Fixable at hf
    obtain ⟨-,hd⟩ := rbInt2big_spec (n := n) (by omega) (by omega)
    exact ⟨[],n.natAbs,hd,by omega⟩
  · rw [canonical_of_not_fixable hf]
    have hne : digits bigrad n.natAbs ≠ [] := digits_ne_nil_iff_ne_zero.mpr (by omega)
    have hl := getLast_digit_ne_zero bigrad (m := n.natAbs) (by omega)
    exact ⟨_,_,(dropLast_concat_getLast hne).symm,pos_of_ne_zero hl⟩

lemma rbBigDivmod_spec (x : Bignum) {y : ℤ} (hy : y ≠ 0) :
    ∃ q r, rbBigDivmod x (canonical y)=.ok (canonical q,canonical r) ∧ x.toInt=q*y+r ∧
      Floored r y := by
  obtain ⟨hv,hf⟩ := operand_canonical y
  obtain ⟨div,mod,hr,hd,hm⟩ := bigdivmod_spec x (operand_divisor hy) hf
  rw [hv] at hd hm
  refine ⟨div.toInt,mod.toInt,?_,hd,hm⟩
  rw [rbBigDivmod,hr,← bignorm_eq,← bignorm_eq]
  rfl

lemma rbBigDivmod_zero (x : Bignum) {y : Integer} (hy : (operand y).toInt=0) :
    rbBigDivmod x y=.error .zeroDivision := by
  have hz := (bigzerop_iff (operand y)).mpr hy
  have hr : bigdivrem x (operand y)=.error .zeroDivision := by
    simp only [bigdivrem,hz,if_true]
  simp only [rbBigDivmod,bigdivmod,hr]
  rfl

/-- No operation on `long`s overflows: the truncated quotient of two Fixnums is
not larger than the dividend. -/
lemma fixdivmod_spec {x y : ℤ} (hx : Fixable x) (hy : Fixable y) (hn : y ≠ 0) :
    ∃ q r, fixdivmod x y=.ok (q,r) ∧ -2^62 ≤ q ∧ q ≤ 2^62 ∧ -2^62 ≤ r ∧ r ≤ 2^62 ∧ x=q*y+r ∧
      Floored r y := by
  unfold Fixable at hx hy
  have hq : (x.tdiv y).natAbs ≤ x.natAbs := by
    rw [natAbs_tdiv]
    exact div_le_self _ _
  have hre := mul_tdiv_add_tmod x y
  have hr : (x.tmod y).natAbs < y.natAbs := by
    rw [natAbs_tmod]
    exact mod_lt _ (by omega)
  have hd : (if y < 0 then
        if x < 0 then long ((long (-x)).tdiv (long (-y))) else long (-long (x.tdiv (long (-y))))
      else if x < 0 then long (-long ((long (-x)).tdiv y)) else long (x.tdiv y))=x.tdiv y := by
    rw [long_eq (n := -x) (by omega) (by omega),long_eq (n := -y) (by omega) (by omega)]
    split_ifs
    · rw [Int.neg_tdiv_neg,long_eq (by omega) (by omega)]
    · rw [Int.tdiv_neg,long_eq (n := -x.tdiv y) (by omega) (by omega),neg_neg,
        long_eq (by omega) (by omega)]
    · rw [Int.neg_tdiv,long_eq (n := -x.tdiv y) (by omega) (by omega),neg_neg,
        long_eq (by omega) (by omega)]
    · exact long_eq (by omega) (by omega)
  have hmu : x.tdiv y*y=x-x.tmod y := by linarith
  have hm : long (x-long (x.tdiv y*y))=x.tmod y := by
    rw [hmu,long_eq (n := x-x.tmod y) (by omega) (by omega),sub_sub_cancel,
      long_eq (by omega) (by omega)]
  unfold fixdivmod
  simp only [hn,if_false,hd,hm]
  split_ifs with hf
  · refine ⟨x.tdiv y-1,x.tmod y+y,?_,by omega,by omega,by omega,by omega,by linarith,?_⟩
    · rw [long_eq (by omega) (by omega),long_eq (by omega) (by omega)]
    · exact floored_add hr (by omega) (by omega)
  · exact ⟨x.tdiv y,x.tmod y,rfl,by omega,by omega,by omega,by omega,by linarith,
      floored_of_sign hr (by omega)⟩

lemma fixdivmod_zero (x : ℤ) : fixdivmod x 0=.error .zeroDivision := if_pos rfl

lemma divmod_canonical (x : ℤ) {y : ℤ} (hy : y ≠ 0) :
    ∃ q r, divmod (canonical x) (canonical y)=.ok (canonical q,canonical r) ∧ x=q*y+r ∧
      Floored r y := by
  by_cases hx : Fixable x
  · rw [canonical_of_fixable hx]
    by_cases hf : Fixable y
    · obtain ⟨q,r,hru,hq,hq',hr,hr',hv⟩ := fixdivmod_spec hx hf hy
      refine ⟨q,r,?_,hv⟩
      rw [canonical_of_fixable hf,divmod,fixDivmod,fix2long_long2fix hx,fix2long_long2fix hf,
        hru,← rbInt2inum_eq (by omega) (by omega),← rbInt2inum_eq (by omega) (by omega)]
      rfl
    · have hru := rbBigDivmod_spec (rbInt2big x) hy
      have hl : -2^63 ≤ x ∧ x < 2^63 := by
        unfold Fixable at hx
        omega
      rw [(rbInt2big_spec hl.1 hl.2).1,canonical_of_not_fixable hf] at hru
      rw [canonical_of_not_fixable hf,divmod,fixDivmod,fix2long_long2fix hx]
      exact hru
  · have hru := rbBigDivmod_spec (Bignum.ofInt x) hy
    rw [ofInt_toInt] at hru
    rw [canonical_of_not_fixable hx]
    exact hru

lemma divmod_zero (x : Integer) {y : Integer} (hy : y.toInt=0) :
    divmod x y=.error .zeroDivision := by
  have ho : (operand y).toInt=0 := by
    cases y with
    | fixnum y =>
      change fix2long y=0 at hy
      rw [operand,hy,(rbInt2big_spec (by decide) (by decide)).1]
    | bignum y => exact hy
  cases x with
  | bignum x => exact rbBigDivmod_zero x ho
  | fixnum x =>
    cases y with
    | bignum y => exact rbBigDivmod_zero (rbInt2big (fix2long x)) ho
    | fixnum y =>
      change fix2long y=0 at hy
      rw [divmod,fixDivmod,hy]
      rfl

/-- Floor division returns the canonical quotient and remainder for every two
integers, and refuses a divisor of value zero in whatever form it comes. -/
theorem divmod_exact : (∀ x y : ℤ, y ≠ 0 →
      ∃ q r, divmod (canonical x) (canonical y) = .ok (canonical q,canonical r) ∧ x = q*y+r ∧
        Floored r y) ∧ ∀ x y : Integer, y.toInt = 0 → divmod x y = .error .zeroDivision :=
  ⟨fun x _ hy => divmod_canonical x hy,fun x _ hy => divmod_zero x hy⟩

/-- The quotient of the smallest Fixnum by -1 is a Bignum; a Bignum is not divided
by zero. -/
theorem divmod_exact_smallest :
    (∃ q r, divmod (canonical (-2^61)) (canonical (-1)) = .ok (canonical q,canonical r) ∧
      -2^61 = q*(-1)+r ∧ Floored r (-1)) ∧
    divmod (canonical (2^70)) (canonical 0) = .error .zeroDivision :=
  ⟨divmod_exact.1 (-2^61) (-1) (by decide),divmod_exact.2 (canonical (2^70)) (canonical 0) rfl⟩
end MacRuby.IntegerDivision
