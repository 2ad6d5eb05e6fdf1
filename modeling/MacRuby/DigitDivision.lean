import MacRuby.Digits

/-!
# Long division of digit lists

Schoolbook division to a base `B`, lowest digit first. Each round brings one more
digit down to the remainder, estimates a digit of the quotient from the two highest
digits, multiplies and subtracts, and adds the divisor back as long as the
difference is negative. The estimate is never too small, and the difference never
runs out of the digits that are kept, so that the correction ends with the digit of
the quotient. This does not need the divisor to be scaled.

`wide` is the unsigned register of two digits, `swide` the signed one.
-/
namespace MacRuby.DigitDivision
open Digits List Nat Int

variable {B : ℕ}

def uwide (B : ℕ) (n : ℤ) : ℤ := n%(B*B : ℕ)

def swide (B : ℕ) (n : ℤ) : ℤ := n.bmod (B*B)

/-- Subtracts `q` times the divisor from the digits, with what is left to carry
of the product and to borrow in the difference. -/
def mulSub (B q : ℕ) : ℕ → ℤ → List ℕ → List ℕ → List ℕ × ℕ × ℤ
  | t2,num,y::ys,z::zs =>
    let t2 := wide B (t2+y*q)
    let ee := uwide B (num-(t2%B : ℕ))
    let num := swide B (z+ee)
    let rest := mulSub B q (t2/B) (num/B) ys zs
    ((if ee=0 then z else (num%B).toNat)::rest.1,rest.2)
  | t2,num,_,_ => ([],t2,num)

def addRow (B : ℕ) : ℤ → List ℕ → List ℕ → List ℕ × ℤ
  | num,y::ys,z::zs =>
    let ee := uwide B (num+y)
    let num := swide B (z+ee)
    let rest := addRow B (num/B) ys zs
    ((if ee=0 then z else (num%B).toNat)::rest.1,rest.2)
  | num,_,_ => ([],num)

/-- Adds back while the high digit of the difference is not zero. A quotient
digit that would be counted down below zero has no result. -/
def addBack (B : ℕ) (ys : List ℕ) : ℕ → ℤ → List ℕ → Option (ℕ × List ℕ)
  | 0,num,zs => if num=0 then some (0,zs) else none
  | q+1,num,zs =>
    if num=0 then some (q+1,zs)
    else addBack B ys q ((addRow B 0 ys zs).2-1) (addRow B 0 ys zs).1

/-- The digit of the quotient, from the highest digit of the divisor and the two
highest of what is divided. -/
def estimate (B ytop ztop znext : ℕ) : ℕ :=
  if ztop=ytop then B-1 else wide B (ztop*B+znext)/ytop%B

/-- Multiplies by the estimate, subtracts and corrects. The highest digit is
borrowed from and not changed. -/
def subtract (B : ℕ) (ys : List ℕ) (q ztop : ℕ) (zs : List ℕ) : Option (ℕ × List ℕ) :=
  let r := mulSub B q 0 0 ys zs
  addBack B ys q (swide B (r.2.2+uwide B (ztop-(r.2.1 : ℤ)))) r.1

/-- One round: the digit `d` is brought down to the remainder `rem`. -/
def divRound (B : ℕ) (ys : List ℕ) (d : ℕ) (rem : List ℕ) : Option (ℕ × List ℕ) :=
  let ztop := (d::rem).getLastD 0
  let zs := (d::rem).dropLast
  let q := estimate B (ys.getLastD 0) ztop (zs.getLastD 0)
  if q=0 then some (0,zs) else subtract B ys q ztop zs

def divRounds (B : ℕ) (ys : List ℕ) : List ℕ → List ℕ → Option (List ℕ × List ℕ)
  | [],rem => some ([],rem)
  | d::ds,rem => do
    let (q,rem) ← divRound B ys d rem
    let (qs,rem) ← divRounds B ys ds rem
    some (qs++[q],rem)

/-- Division by one digit: the digits of the quotient, highest first as those
that are divided, and the remainder. -/
def divDigit (B dd : ℕ) : ℕ → List ℕ → List ℕ × ℕ
  | t2,[] => ([],t2)
  | t2,x::xs =>
    let t2 := wide B (t2*B+x)
    let rest := divDigit B dd (t2%dd) xs
    (t2/dd%B::rest.1,rest.2)

lemma divDigit_spec {dd t2 : ℕ} {xs : List ℕ} (hdd : dd ≤ B) (ht2 : t2 < dd) (hx : Below B xs) :
    (divDigit B dd t2 xs).1.length=xs.length ∧ Below B (divDigit B dd t2 xs).1 ∧
      (divDigit B dd t2 xs).2 < dd ∧ t2*B^xs.length+Nat.ofDigits B xs.reverse =
        Nat.ofDigits B (divDigit B dd t2 xs).1.reverse*dd+(divDigit B dd t2 xs).2 := by
  induction xs generalizing t2 with
  | nil => simp [divDigit,ht2]
  | cons x xs ih =>
    rw [below_cons] at hx
    have hm : (t2+1)*B ≤ dd*B := mul_le_mul_right _ ht2
    have hm' : dd*B ≤ B*B := mul_le_mul_right _ hdd
    rw [add_mul] at hm
    have hw : wide B (t2*B+x)=t2*B+x := wide_of_lt (by omega)
    have hd : (t2*B+x)/dd < B := Nat.div_lt_of_lt_mul (by omega)
    obtain ⟨hl,hb,hla,hv⟩ := ih (mod_lt (t2*B+x) (by omega)) hx.2
    simp only [divDigit,hw,mod_eq_of_lt hd,length_cons,reverse_cons]
    refine ⟨by rw [hl],below_cons.mpr ⟨hd,hb⟩,hla,?_⟩
    rw [ofDigits_concat,ofDigits_concat,length_reverse,length_reverse,hl]
    have hdi := mod_add_div (t2*B+x) dd
    linear_combination hv-B^xs.length*hdi

section Registers
variable (hB : 3 < B) {e : ℤ} {z : ℕ}
include hB

lemma four_mul_le : 4*B ≤ B*B := mul_le_mul_right B hB

lemma swide_uwide {z : ℤ} (hl : -B ≤ z+e) (hh : z+e < 2*B) : swide B (z+uwide B e)=z+e := by
  have hs := four_mul_le hB
  have hm : swide B (z+uwide B e)=(z+e).bmod (B*B) := by
    unfold swide uwide
    rw [bmod_def,bmod_def,add_emod_emod]
  rw [hm]
  exact bmod_eq_of_le_mul_two (by omega) (by omega)

lemma digit_eq (hz : z < B) (hl : -B ≤ e) (hh : e ≤ B) :
    (((if uwide B e=0 then z else ((z+e)%B).toNat : ℕ) : ℕ) : ℤ)=(z+e)%B := by
  have hp : (0 : ℤ) < B := by omega
  split_ifs with hze
  · have hs := four_mul_le hB
    have hd : (B*B : ℤ) ∣ e := dvd_of_emod_eq_zero hze
    have he : e=0 := eq_zero_of_abs_lt_dvd hd (by rw [abs_lt]; omega)
    rw [he]
    exact (emod_eq_of_lt (by omega) (by omega)).symm
  · exact toNat_of_nonneg (emod_nonneg _ hp.ne')

lemma digit_lt (hz : z < B) : (if uwide B e=0 then z else ((z+e)%B).toNat) < B := by
  split_ifs
  · exact hz
  · exact toNat_emod_lt (by omega) _

variable {zs ys : List ℕ} {num : ℤ}
include hB

lemma mulSub_spec {q t2 : ℕ} (hq : q < B) (ht2 : t2 < B)
    (hlow : -1 ≤ num) (hh : num ≤ 0) (hy : Below B ys) (hz : Below B zs)
    (hl : zs.length=ys.length) :
    (mulSub B q t2 num ys zs).1.length=ys.length ∧ Below B (mulSub B q t2 num ys zs).1 ∧
      ((Nat.ofDigits B (mulSub B q t2 num ys zs).1 : ℕ) : ℤ)+
          (B : ℤ)^ys.length*((mulSub B q t2 num ys zs).2.2-(mulSub B q t2 num ys zs).2.1) =
        (Nat.ofDigits B zs : ℕ)+num-t2-q*(Nat.ofDigits B ys : ℕ) := by
  induction ys generalizing t2 num zs with
  | nil =>
    obtain rfl : zs=[] := length_eq_zero_iff.mp hl
    simp [mulSub]
  | cons y ys ih =>
    cases zs with
    | nil => simp at hl
    | cons z zs =>
      rw [below_cons] at hy hz
      simp only [length_cons,add_right_cancel_iff] at hl
      have hw : wide B (t2+y*q)=t2+y*q ∧ (t2+y*q)/B < B := by
        obtain ⟨hf,-,hc⟩ := wide_mul (by omega) ht2 hy.1 hq (z := 0) (by omega)
        rw [zero_add] at hc
        exact ⟨hf,hc⟩
      have hlo : (t2+y*q)%B < B := mod_lt _ (by omega)
      have hs : swide B (z+uwide B (num-((t2+y*q)%B : ℕ)))=z+(num-((t2+y*q)%B : ℕ)) :=
        swide_uwide hB (by omega) (by omega)
      have hb : -1 ≤ (z+(num-((t2+y*q)%B : ℕ)))/(B : ℤ) ∧
          (z+(num-((t2+y*q)%B : ℕ)))/(B : ℤ) ≤ 0 := by
        constructor
        · exact Int.le_ediv_of_mul_le (by omega) (by omega)
        · have hlt : (z+(num-((t2+y*q)%B : ℕ)))/(B : ℤ) < 1 :=
            Int.ediv_lt_of_lt_mul (by omega) (by omega)
          omega
      obtain ⟨ihlen,ihbelow,ihvalue⟩ := ih hw.2 hb.1 hb.2 hy.2 hz.2 hl
      simp only [mulSub,hw.1,hs]
      refine ⟨by simp only [length_cons,ihlen],?_,?_⟩
      · exact below_cons.mpr ⟨digit_lt hB hz.1,ihbelow⟩
      · rw [ofDigits_cons,ofDigits_cons,ofDigits_cons]
        push_cast
        have hd := digit_eq hB hz.1 (e := num-((t2+y*q)%B : ℕ)) (by omega) (by omega)
        push_cast at hd ihvalue
        rw [hd,length_cons]
        have hdi := emod_add_mul_ediv (z+(num-((t2 : ℤ)+y*q)%B)) B
        have hc := emod_add_mul_ediv ((t2 : ℤ)+y*q) B
        linear_combination (B : ℤ)*ihvalue+hdi-hc

lemma addRow_spec (hlo : 0 ≤ num) (hh : num ≤ 1)
    (hy : Below B ys) (hz : Below B zs) (hl : zs.length=ys.length) :
    (addRow B num ys zs).1.length=ys.length ∧ Below B (addRow B num ys zs).1 ∧
      0 ≤ (addRow B num ys zs).2 ∧ (addRow B num ys zs).2 ≤ 1 ∧
      ((Nat.ofDigits B (addRow B num ys zs).1 : ℕ) : ℤ)+(B : ℤ)^ys.length*(addRow B num ys zs).2 =
        (Nat.ofDigits B zs : ℕ)+num+(Nat.ofDigits B ys : ℕ) := by
  induction ys generalizing num zs with
  | nil =>
    obtain rfl : zs=[] := length_eq_zero_iff.mp hl
    simp [addRow,hlo,hh]
  | cons y ys ih =>
    cases zs with
    | nil => simp at hl
    | cons z zs =>
      rw [below_cons] at hy hz
      simp only [length_cons,add_right_cancel_iff] at hl
      have hs : swide B (z+uwide B (num+y))=z+(num+y) := swide_uwide hB (by omega) (by omega)
      have hc : 0 ≤ (z+(num+y))/(B : ℤ) ∧ (z+(num+y))/(B : ℤ) ≤ 1 := by
        constructor
        · exact ediv_nonneg (by omega) (by omega)
        · have hlt : (z+(num+y))/(B : ℤ) < 2 := Int.ediv_lt_of_lt_mul (by omega) (by omega)
          omega
      obtain ⟨ihlen,ihbelow,ihlow,ihhigh,ihvalue⟩ := ih hc.1 hc.2 hy.2 hz.2 hl
      simp only [addRow,hs]
      refine ⟨by simp only [length_cons,ihlen],?_,ihlow,ihhigh,?_⟩
      · exact below_cons.mpr ⟨digit_lt hB hz.1,ihbelow⟩
      · rw [ofDigits_cons,ofDigits_cons,ofDigits_cons]
        push_cast
        have hd := digit_eq hB hz.1 (e := num+y) (by omega) (by omega)
        push_cast at hd ihvalue
        rw [hd,length_cons]
        have hdi := emod_add_mul_ediv (z+(num+y)) B
        linear_combination (B : ℤ)*ihvalue+hdi

lemma ofDigits_lt_pow {n : ℕ} (hz : Below B zs) (hl : zs.length=n) :
    ((Nat.ofDigits B zs : ℕ) : ℤ) < (B : ℤ)^n := by
  have hs := ofDigits_lt_base_pow_length (by omega) hz
  rw [hl] at hs
  exact_mod_cast hs

/-- A negative difference is corrected until it is the remainder; the digit of
the quotient is counted down as often as the divisor is added. -/
lemma addBack_spec {q : ℕ} {diff : ℤ} (hy : Below B ys) (hzs : Below B zs)
    (hl : zs.length=ys.length) (hlo : -1 ≤ num) (hh : num ≤ 0)
    (hd : diff=(Nat.ofDigits B zs : ℕ)+(B : ℤ)^ys.length*num)
    (hlt : diff < (Nat.ofDigits B ys : ℕ)) (hp : 0 ≤ diff+q*(Nat.ofDigits B ys : ℕ)) :
    ∃ q' zs', addBack B ys q num zs=some (q',zs') ∧ q' ≤ q ∧ zs'.length=ys.length ∧ Below B zs' ∧
      Nat.ofDigits B zs' < Nat.ofDigits B ys ∧
      ((Nat.ofDigits B zs' : ℕ) : ℤ)+q'*(Nat.ofDigits B ys : ℕ)=diff+q*(Nat.ofDigits B ys : ℕ) := by
  induction q generalizing num diff zs with
  | zero =>
    have hz : num=0 := by
      have hs := ofDigits_lt_pow hB hzs hl
      by_contra hne
      obtain rfl : num = -1 := by omega
      omega
    subst hz
    rw [mul_zero,add_zero] at hd
    exact ⟨0,zs,if_pos rfl,le_rfl,hl,hzs,by omega,by rw [hd]⟩
  | succ q ih =>
    by_cases hz : num=0
    · subst hz
      rw [mul_zero,add_zero] at hd
      exact ⟨q+1,zs,if_pos rfl,le_rfl,hl,hzs,by omega,by rw [hd]⟩
    · obtain rfl : num = -1 := by omega
      have hs := ofDigits_lt_pow hB hzs hl
      obtain ⟨hrl,hr,hrlo,hrh,hrv⟩ := addRow_spec hB le_rfl (by decide) hy hzs hl
      have hn : diff+ofDigits B ys =
          ofDigits B (addRow B 0 ys zs).1+(B : ℤ)^ys.length*((addRow B 0 ys zs).2-1) := by
        linear_combination hd-hrv
      rw [cast_succ] at hp
      obtain ⟨q',zs',hru,hq',hl',hb',hlt',hv'⟩ :=
        ih hr hrl (by omega) (by omega) hn (by omega) (by linarith)
      refine ⟨q',zs',(if_neg hz).trans hru,by omega,hl',hb',hlt',?_⟩
      rw [cast_succ]
      linear_combination hv'

end Registers

lemma exists_concat {ds : List ℕ} {n : ℕ} (hl : ds.length=n+1) (hd : Below B ds) :
    ∃ low top, ds=low++[top] ∧ low.length=n ∧ Below B low ∧ top < B := by
  have hn : ds ≠ [] := by
    rintro rfl
    simp at hl
  have hs := dropLast_concat_getLast hn
  rw [← hs,below_append,below_cons] at hd
  refine ⟨ds.dropLast,ds.getLast hn,hs.symm,?_,hd.1,hd.2.1⟩
  rw [length_dropLast,hl,Nat.add_sub_cancel]

variable (hB : 3 < B) {ytop : ℕ} {ys rem : List ℕ}
include hB

/-- The estimate is a digit, it is not too small, and the difference it leads to
is not less than one unit beyond the digits that are kept. -/
lemma estimate_spec {ztop znext low ylow p : ℕ} (hyt : 0 < ytop) (hz : znext < B)
    (hlo : low < p) (hyl : ylow < p) (hy : ytop < B) (hlt : low+p*(znext+B*ztop) < B*(ylow+p*ytop)) :
    estimate B ytop ztop znext < B ∧
      low+p*(znext+B*ztop) < (estimate B ytop ztop znext+1)*(ylow+p*ytop) ∧
      estimate B ytop ztop znext*(ylow+p*ytop) < low+p*(znext+B*ztop)+p*B := by
  have hzt : ztop ≤ ytop := by
    by_contra hgt
    have hm : p*(B*(ytop+1)) ≤ p*(B*ztop) :=
      mul_le_mul_left _ (mul_le_mul_left _ (by omega))
    nlinarith
  unfold estimate
  split_ifs with he
  · subst he
    refine ⟨by omega,?_,?_⟩
    · have hs : B-1+1=B := by omega
      rw [hs]
      exact hlt
    · obtain ⟨b,rfl⟩ : ∃ b, B=b+1 := ⟨B-1,by omega⟩
      rw [Nat.add_sub_cancel]
      nlinarith [mul_le_mul_left b hyl]
  · have hle : ztop < ytop := by omega
    have hb : ztop*B+znext < ytop*B := by nlinarith
    have hw : wide B (ztop*B+znext)=ztop*B+znext :=
      wide_of_lt (lt_of_lt_of_le hb (mul_le_mul_right B hy.le))
    have hd : (ztop*B+znext)/ytop < B := Nat.div_lt_of_lt_mul (by linarith)
    rw [hw,mod_eq_of_lt hd]
    generalize hq : (ztop*B+znext)/ytop=q at hd ⊢
    have hu : ztop*B+znext+1 ≤ (q+1)*ytop := by
      have := lt_mul_div_succ (ztop*B+znext) hyt
      rw [hq] at this
      linarith
    have hl : q*ytop ≤ ztop*B+znext := by
      rw [← hq]
      exact div_mul_le_self _ _
    refine ⟨hd,?_,?_⟩
    · nlinarith [mul_le_mul_left p hu]
    · nlinarith [mul_le_mul_left p hl,mul_le_mul_left q hyl.le]

/-- With an estimate that is not too small and not much too large, the
corrected digit and the difference are quotient and remainder. -/
lemma subtract_spec {q t : ℕ} {zs : List ℕ} (hq : q < B) (hy : Below B ys)
    (hzs : Below B zs) (hl : zs.length=ys.length)
    (hu : Nat.ofDigits B zs+B^ys.length*t < (q+1)*Nat.ofDigits B ys)
    (hlo : q*Nat.ofDigits B ys < Nat.ofDigits B zs+B^ys.length*t+B^ys.length) :
    ∃ q' zs', subtract B ys q t zs=some (q',zs') ∧ q' ≤ q ∧ zs'.length=ys.length ∧
      Below B zs' ∧ Nat.ofDigits B zs' < Nat.ofDigits B ys ∧
      Nat.ofDigits B zs+B^ys.length*t=q'*Nat.ofDigits B ys+Nat.ofDigits B zs' := by
  obtain ⟨hl',hb,hv⟩ := mulSub_spec hB hq (by omega : 0 < B) (by decide)
    le_rfl hy hzs hl
  unfold subtract
  dsimp only
  generalize mulSub B q 0 0 ys zs=r at hl' hb hv ⊢
  have hs := ofDigits_lt_pow hB hb hl'
  have hysi := ofDigits_lt_pow hB hy rfl
  -- the difference, and the digit that it leaves beyond those that are kept
  obtain ⟨diff,hd⟩ : ∃ diff,
      diff=ofDigits B zs+(B : ℤ)^ys.length*t-q*ofDigits B ys := ⟨_,rfl⟩
  have hh : diff=ofDigits B r.1+(B : ℤ)^ys.length*(r.2.2+(t-r.2.1)) := by
    rw [hd]
    linear_combination -hv
  have hu' : diff < ofDigits B ys := by
    have : ofDigits B zs+(B : ℤ)^ys.length*t < (q+1)*ofDigits B ys := by
      exact_mod_cast hu
    linarith
  have hlo' : -(B : ℤ)^ys.length < diff := by
    have : (q : ℤ)*ofDigits B ys <
        ofDigits B zs+(B : ℤ)^ys.length*t+(B : ℤ)^ys.length := by
      exact_mod_cast hlo
    linarith
  have hnu : -1 ≤ r.2.2+(t-r.2.1) ∧ r.2.2+(t-r.2.1) ≤ 0 := by
    constructor
    · by_contra hneg
      nlinarith
    · by_contra hpos
      nlinarith
  rw [swide_uwide hB (by omega) (by omega)]
  have hn : 0 ≤ diff+q*ofDigits B ys := by
    have : (0 : ℤ) ≤ ofDigits B zs+(B : ℤ)^ys.length*t := by positivity
    linarith
  obtain ⟨q',zs',hr,hq',hzl,hz,hzlt,hzv⟩ :=
    addBack_spec hB hy hb hl' hnu.1 hnu.2 hh hu' hn
  refine ⟨q',zs',hr,hq',hzl,hz,hzlt,?_⟩
  have hc : ofDigits B zs+(B : ℤ)^ys.length*t =
      q'*ofDigits B ys+ofDigits B zs' := by
    linear_combination -hzv-hd
  exact_mod_cast hc

/-- One round: the digit brought down and the remainder give the digit of the
quotient and the next remainder. -/
lemma divRound_spec {d : ℕ} (hy : Below B (ys++[ytop]))
    (hyt : 0 < ytop) (hd : d < B) (hr : Below B rem) (hle : rem.length=ys.length+1)
    (hlt : Nat.ofDigits B rem < Nat.ofDigits B (ys++[ytop])) :
    ∃ q rem', divRound B (ys++[ytop]) d rem=some (q,rem') ∧ q < B ∧ rem'.length=ys.length+1 ∧
      Below B rem' ∧ Nat.ofDigits B rem' < Nat.ofDigits B (ys++[ytop]) ∧
      Nat.ofDigits B (d::rem)=q*Nat.ofDigits B (ys++[ytop])+Nat.ofDigits B rem' := by
  have ho : 1 < B := by omega
  -- the digits of what is divided: `low`, `znext` and `ztop`
  obtain ⟨zs,ztop,hz,hzl,hzs,-⟩ := exists_concat
    (by rw [length_cons,hle]) (below_cons.mpr ⟨hd,hr⟩)
  obtain ⟨low,znext,rfl,hlowl,hlow,hzn⟩ := exists_concat hzl hzs
  have hyd : ytop < B := (below_cons.mp (below_append.mp hy).2).1
  have hyv : ofDigits B (ys++[ytop])=ofDigits B ys+B^ys.length*ytop := ofDigits_concat _ _
  have hw : ofDigits B (d::rem) =
      ofDigits B (low++[znext])+B^(ys.length+1)*ztop := by rw [hz,ofDigits_concat,hzl]
  have hzva : ofDigits B (d::rem)=ofDigits B low+B^ys.length*(znext+B*ztop) := by
    rw [hw,ofDigits_concat,hlowl]
    ring
  have hb : ofDigits B (d::rem) < B*ofDigits B (ys++[ytop]) := by
    rw [ofDigits_cons]
    nlinarith
  have hlowlt : ofDigits B low < B^ys.length := by
    rw [← hlowl]
    exact ofDigits_lt_base_pow_length ho hlow
  have hysl := ofDigits_lt_base_pow_length ho (below_append.mp hy).1
  obtain ⟨hq,hu,hlo⟩ := estimate_spec hB hyt hzn hlowlt hysl hyd (by rw [← hzva,← hyv]; exact hb)
  rw [← hzva,← hyv] at hu hlo
  have hl : (ys++[ytop]).length=ys.length+1 := by simp
  have hun : divRound B (ys++[ytop]) d rem =
      (if estimate B ytop ztop znext=0 then some (0,low++[znext])
      else subtract B (ys++[ytop]) (estimate B ytop ztop znext) ztop (low++[znext])) := by
    unfold divRound
    simp only [hz,getLastD_concat,dropLast_concat]
  rw [hun]
  generalize estimate B ytop ztop znext=q at hq hu hlo ⊢
  split_ifs with hze
  · -- what is divided is less than the divisor, and its highest digit is zero
    subst hze
    have hysi := ofDigits_lt_base_pow_length ho hy
    rw [hl] at hysi
    obtain rfl : ztop=0 := by
      by_contra hne
      have := mul_le_mul_left (B^(ys.length+1)) (pos_of_ne_zero hne)
      omega
    exact ⟨0,_,rfl,by omega,hzl,hzs,by omega,by omega⟩
  · obtain ⟨q',zs',hru,hq',hzl',hzb,hzlt,hzv⟩ :=
      subtract_spec hB hq hy hzs (hzl.trans hl.symm) (by rw [hl,← hw]; exact hu)
        (by rw [hl,← hw]; exact hlo)
    rw [hl] at hzl' hzv
    exact ⟨q',zs',hru,by omega,hzl',hzb,hzlt,hw.trans hzv⟩

/-- All rounds: what is divided is the product of quotient and divisor, and the
remainder, which is less than the divisor. -/
lemma divRounds_spec {ds : List ℕ} (hys : Below B (ys++[ytop]))
    (hy : 0 < ytop) (hd : Below B ds) (hr : Below B rem) (hl : rem.length=ys.length+1)
    (hlt : Nat.ofDigits B rem < Nat.ofDigits B (ys++[ytop])) :
    ∃ qs rem', divRounds B (ys++[ytop]) ds rem=some (qs,rem') ∧ qs.length=ds.length ∧
      Below B qs ∧ rem'.length=ys.length+1 ∧ Below B rem' ∧
      Nat.ofDigits B rem' < Nat.ofDigits B (ys++[ytop]) ∧ Nat.ofDigits B (ds.reverse++rem) =
        Nat.ofDigits B qs*Nat.ofDigits B (ys++[ytop])+Nat.ofDigits B rem' := by
  induction ds generalizing rem with
  | nil => exact ⟨[],rem,rfl,rfl,below_nil,hl,hr,hlt,by simp⟩
  | cons d ds ih =>
    rw [below_cons] at hd
    obtain ⟨q,rem₁,hrou,hq,hl₁,hr₁,hlt₁,hv₁⟩ :=
      divRound_spec hB hys hy hd.1 hr hl hlt
    obtain ⟨qs,rem₂,hro,hql,hqs,hl₂,hr₂,hlt₂,hv₂⟩ := ih hd.2 hr₁ hl₁ hlt₁
    refine ⟨qs++[q],rem₂,?_,by simp [hql],?_,hl₂,hr₂,hlt₂,?_⟩
    · simp only [divRounds,hrou,hro,Option.bind_eq_bind,Option.bind_some]
    · exact below_append.mpr ⟨hqs,below_cons.mpr ⟨hq,below_nil⟩⟩
    · have hs : (d::ds).reverse++rem=ds.reverse++d::rem := by simp
      rw [ofDigits_append] at hv₂
      rw [hs,ofDigits_append,hv₁,ofDigits_concat qs q,hql]
      rw [length_reverse] at hv₂ ⊢
      linear_combination hv₂

end MacRuby.DigitDivision
