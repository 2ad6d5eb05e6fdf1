import MacRuby.DigitEstimate
import MacRuby.PowerCache
import MacRuby.RadixDigits

/-!
# Printing integers

`to_s` of Fixnums and Bignums. A Fixnum is divided by the radix digit by digit.
A short Bignum is divided by the fourth power of the radix, which gives four
characters at a time from the right; a long one is first cut into halves, the
lower one with its leading zeros when anything stands before it. The text is
written into a buffer whose length is an estimate, so at most that many of the
lowest digits are written.
-/
namespace MacRuby.IntegerText
open Digits DigitDivision DigitEstimate Integers PowerCache RadixDigits List Nat
open IntegerDivision hiding Error

def rubyDigitmap : List Char :=
  ['0','1','2','3','4','5','6','7','8','9','a','b','c','d','e','f','g','h','i','j','k','l','m',
   'n','o','p','q','r','s','t','u','v','w','x','y','z']

def digitChar (d : ℕ) : Char := rubyDigitmap.getD d '0'

lemma digitChar_eq_zero_iff : ∀ d < 36,(digitChar d = '0' ↔ d=0) := by decide

lemma dropWhile_map_digitChar {ds : List ℕ} (hds : Below 36 ds) :
    (ds.map digitChar).dropWhile (· == '0')=(significant ds).map digitChar := by
  induction ds with
  | nil => rfl
  | cons d ds ih =>
    obtain ⟨hd,hr⟩ := below_cons.mp hds
    have hz := digitChar_eq_zero_iff d hd
    by_cases h : d=0
    · rw [map_cons,dropWhile_cons_of_pos (by simpa using hz.mpr h),ih hr,h, significant_cons_zero]
    · rw [map_cons,dropWhile_cons_of_neg (by simpa using fun he => h (hz.mp he)),
        significant_cons h,map_cons]

/-- The loop of `rb_fix2str`; the buffer has room for 64 digits. -/
def fixLoop (base : ℕ) : ℕ → ℕ → List Char → List Char
  | 0,_,buf => buf
  | n+1,val,buf =>
    let buf := digitChar (val%base)::buf
    if val/base=0 then buf else fixLoop base n (val/base) buf

def rbFix2str (x : BitVec 62) (base : ℤ) : Except Error (List Char) :=
  let val := fix2long x
  if base < 2 ∨ 36 < base then .error (.invalidRadix base)
  else if val=0 then .ok ['0']
  else
    let buf := fixLoop base.toNat 64 (if val < 0 then long (-val) else val).toNat []
    .ok (if val < 0 then '-'::buf else buf)

/-- `rb_fix2int`, which is `FIX2INT`. -/
def rbFix2int (x : BitVec 62) : Except Error ℤ :=
  let num := fix2long x
  if num < -2^31 ∨ num > 2^31-1 then .error (.intRange num) else .ok num

/-- Up to `k` characters of `num`, from the right, until the buffer is full or,
at the end of the number, nothing is left. -/
def emit (base : ℕ) (stop : Bool) : ℕ → ℕ → ℕ → List Char → ℕ × List Char
  | 0,_,j,out => (j,out)
  | k+1,num,j,out =>
    let out := digitChar (num%base)::out
    if j-1=0 then (j-1,out)
    else if stop ∧ num/base=0 then (j-1,out)
    else emit base stop k (num/base) (j-1) out

/-- The rounds of `big2str_orig`. The digits `ds` are those below `i`; the ones
above are zeros. Each round fills at least one of the `j` free places. -/
def origLoop (base hbase : ℕ) (trim : Bool) : ℕ → List ℕ → ℕ → List Char → List Char
  | 0,_,_,out => out
  | n+1,ds,j,out =>
    if ds=[] ∨ j=0 then out
    else
      let r := divDigit bigrad hbase 0 ds.reverse
      let ds := r.1.reverse
      let ds := if trim ∧ ds.getLastD 0=0 then ds.dropLast else ds
      let e := emit base (trim && ds.isEmpty) 4 r.2 j out
      origLoop base hbase trim n ds e.1 e.2

def big2strOrig (x : Bignum) (base len hbase : ℕ) (trim : Bool) : List Char :=
  let out := origLoop base hbase trim len x.digits len []
  if trim then out.dropWhile (· == '0') else out

/-- `big2str_karatsuba`, with a bound on the depth. -/
def big2strKaratsuba (b : Radix) (hbase : ℕ) :
    ℕ → Cache → Integer → ℕ → ℕ → Bool → Except Error (List Char × Cache)
  | 0,_,_,_,_,_ => .error .depth
  | _+1,c,.fixnum x,_,len,trim => do
    let str ← rbFix2str x b.base
    if trim then
      let num ← rbFix2int x
      .ok (if num=0 then [] else str,c)
    else .ok (List.replicate (len-str.length) '0'++str,c)
  | n+1,c,.bignum x,n1,len,trim =>
    if bigzerop x then .ok (if trim then [] else List.replicate len '0',c)
    else if n1 ≤ 128 then .ok (big2strOrig x b.base len hbase trim,c)
    else do
      let (m1,y,c) ← powerCacheGetPower c b n1
      let (q,r) ← (bigdivmod x y).mapError .division
      let (high,c) ← big2strKaratsuba b hbase n c (.bignum q) ((len-m1)/2) (len-m1) trim
      let (low,c) ← big2strKaratsuba b hbase n c (.bignum r) (m1/2) m1 (high.isEmpty && trim)
      .ok (high++low,c)

def big2strFindN1 (x : Integer) (b : Radix) : Except Error ℕ :=
  match x with
  | .fixnum _ => .ok (digitEstimate ((64-1)/2+1) b.base)
  | .bignum x =>
    if bigzerop x then .ok 0
    else if x.digits.length ≥ (2^63-1)/64 then .error .tooBig
    else .ok (digitEstimate (64*x.digits.length) b.base)

def big2strDigits (c : Cache) (x : Bignum) (b : Radix) (n2 : ℕ) (trim : Bool) :
    Except Error (List Char × Cache) :=
  let n1 := (n2+1)/2
  let hbase := b.base*b.base*(b.base*b.base)
  if n1 ≤ 128 then .ok (big2strOrig x b.base n2 hbase trim,c)
  else big2strKaratsuba b hbase (n1+1) c (.bignum x) n1 n2 trim

/-- `rb_big2str0`. The buffer has `n2+1` places; the sign, when it is wanted,
takes the first. -/
def rbBig2str0 (c : Cache) (x : Integer) (base : ℤ) (trim : Bool) :
    Except Error (List Char × Cache) :=
  match x with
  | .fixnum x => do
    let str ← rbFix2str x base
    .ok (str,c)
  | .bignum x =>
    if bigzerop x then .ok (['0'],c)
    else if h : 2 ≤ base ∧ base ≤ 36 then do
      let b : Radix := ⟨base.toNat,by omega,by omega⟩
      let n2 ← big2strFindN1 (.bignum x) b
      let (text,c) ← big2strDigits c {x with sign := true} b n2 trim
      .ok (if trim && x.sign then text else (if x.sign then '+' else '-')::text,c)
    else .error (.invalidRadix base)

def rbBig2str (c : Cache) (x : Integer) (base : ℤ) : Except Error (List Char × Cache) :=
  rbBig2str0 c x base true

/-- `to_s` with a radix: `fix_to_s` or `rb_big_to_s`. -/
def toS (c : Cache) (x : Integer) (base : ℤ) : Except Error (List Char × Cache) :=
  match x with
  | .fixnum x => do
    let str ← rbFix2str x base
    .ok (str,c)
  | .bignum x => rbBig2str c (.bignum x) base

variable {base : ℕ} {ds : List ℕ}

/-- What is written are the lowest digits: as many as there is room for, or, at
the end of the number, at least those that count. -/
lemma emit_spec (base : ℕ) (stop : Bool) {k j : ℕ} (num : ℕ) (out : List Char) (hj : 0 < j) :
    ∃ t ≤ j,emit base stop k num j out=(j-t,(lowDigits base t num).map digitChar++out) ∧
      (t=min k j ∨ stop=true ∧ 0 < t ∧ t ≤ k ∧ num/base^t=0) := by
  induction k generalizing num j out with
  | zero => exact ⟨0,by omega,rfl,.inl (by omega)⟩
  | succ k ih =>
    have ho : (lowDigits base 1 num).map digitChar++out=digitChar (num%base)::out := rfl
    rw [emit]
    split_ifs with hf hst
    · exact ⟨1,by omega,by rw [ho],.inl (by omega)⟩
    · refine ⟨1,by omega,by rw [ho],.inr ⟨hst.1,by omega,by omega,?_⟩⟩
      rw [pow_one]
      exact hst.2
    obtain ⟨t,ht,heq,he⟩ := ih (num/base) (digitChar (num%base)::out) (show 0 < j-1 by omega)
    have hd : lowDigits base (t+1) num=lowDigits base t (num/base)++[num%base] := rfl
    refine ⟨t+1,by omega,?_,?_⟩
    · rw [heq,hd,map_append,append_assoc,Nat.sub_sub,add_comm 1 t]
      rfl
    · rcases he with he | ⟨hs,hp,hl,hz⟩
      · exact .inl (by omega)
      · refine .inr ⟨hs,by omega,by omega,?_⟩
        rwa [pow_succ',← Nat.div_div_eq_div_mul]

lemma divDigit_value {h : ℕ} (hp : 0 < h) (hh : h ≤ bigrad) (hds : Below bigrad ds) :
    Below bigrad (divDigit bigrad h 0 ds.reverse).1.reverse ∧
      (divDigit bigrad h 0 ds.reverse).1.reverse.length=ds.length ∧
      Nat.ofDigits bigrad (divDigit bigrad h 0 ds.reverse).1.reverse=Nat.ofDigits bigrad ds/h ∧
      (divDigit bigrad h 0 ds.reverse).2=Nat.ofDigits bigrad ds%h := by
  have hre : Below bigrad ds.reverse := fun d hd => hds d (mem_reverse.mp hd)
  obtain ⟨hl,hb,hr,hv⟩ := divDigit_spec hh hp hre
  rw [zero_mul,zero_add,reverse_reverse] at hv
  have hu := (Nat.div_mod_unique hp).mpr ⟨(by rw [mul_comm,add_comm,hv] :
    (divDigit bigrad h 0 ds.reverse).2+h*Nat.ofDigits bigrad
      (divDigit bigrad h 0 ds.reverse).1.reverse=Nat.ofDigits bigrad ds),hr⟩
  refine ⟨fun d hd => hb d (mem_reverse.mp hd),?_,hu.1.symm,hu.2.symm⟩
  rw [length_reverse,hl,length_reverse]

lemma dropLast_value (h : ds.getLastD 0=0) :
    Nat.ofDigits bigrad ds.dropLast=Nat.ofDigits bigrad ds := by
  rcases ds.eq_nil_or_concat with rfl | ⟨low,top,rfl⟩
  · rfl
  · rw [concat_eq_append,getLastD_concat] at h
    rw [concat_eq_append,dropLast_concat,ofDigits_concat,h,mul_zero,add_zero]

lemma origLoop_spec (hba : 0 < base) (hba' : base ≤ 36) (trim : Bool) {n j : ℕ}
    (out : List Char) (hn : j ≤ n) (hds : Below bigrad ds) (hne : trim=true ∨ ds ≠ []) :
    ∃ t ≤ j,origLoop base (base^4) trim n ds j out =
        (lowDigits base t (Nat.ofDigits bigrad ds)).map digitChar++out ∧
      (t=j ∨ trim=true ∧ Nat.ofDigits bigrad ds/base^t=0) := by
  induction n generalizing ds j out with
  | zero => exact ⟨0,by omega,rfl,.inl (by omega)⟩
  | succ n ih =>
    rw [origLoop]
    by_cases hen : ds=[] ∨ j=0
    · refine ⟨0,by omega,by rw [if_pos hen]; rfl,?_⟩
      rcases hen with hni | hj
      · exact .inr ⟨hne.resolve_right fun h => h hni,by rw [hni]; simp⟩
      · exact .inl hj.symm
    rw [if_neg hen]
    have hj : 0 < j := by omega
    have hh : base^4 ≤ bigrad := (Nat.pow_le_pow_left hba' 4).trans (by decide)
    obtain ⟨hb,hlen,hq,hr⟩ := divDigit_value (Nat.pow_pos hba) hh hds
    simp only [hr]
    generalize hX : Nat.ofDigits bigrad ds=X at hq hr ⊢
    -- the digits that are left, without a zero at the top when it is to be dropped
    obtain ⟨ds',hds',hb',hq',hne'⟩ : ∃ ds',
        (if trim=true ∧ (divDigit bigrad (base^4) 0 ds.reverse).1.reverse.getLastD 0=0 then
          (divDigit bigrad (base^4) 0 ds.reverse).1.reverse.dropLast
          else (divDigit bigrad (base^4) 0 ds.reverse).1.reverse)=ds' ∧ Below bigrad ds' ∧
        Nat.ofDigits bigrad ds'=X/base^4 ∧ (trim=true ∨ ds' ≠ []) := by
      refine ⟨_,rfl,?_⟩
      split_ifs with hdr
      · exact ⟨fun d hd => hb d (mem_of_mem_dropLast hd),
          (dropLast_value hdr.2).trans hq,.inl hdr.1⟩
      · refine ⟨hb,hq,hne.imp_right fun h => ?_⟩
        rw [← length_pos_iff,hlen,length_pos_iff]
        exact h
    simp only [hds']
    obtain ⟨t₁,ht₁,hem,hs⟩ :=
      emit_spec base (trim && ds'.isEmpty) (X%base^4) out hj
    rw [hem]
    obtain ⟨t₂,ht₂,hl,hdo⟩ := ih ((lowDigits base t₁ (X%base^4)).map digitChar++out)
      (show j-t₁ ≤ n by omega) hb' hne'
    rw [hq'] at hl hdo
    -- the second part continues the first
    have hhi : lowDigits base t₂ (X/base^4)=lowDigits base t₂ (X/base^t₁) ∧
        (t₂=j-t₁ ∨ trim=true ∧ X/base^t₁/base^t₂=0) := by
      rcases hs with hfu | ⟨he,-,hle,hz⟩
      · by_cases hf : t₁=4
        · rw [hf] at hdo ⊢
          exact ⟨rfl,hdo⟩
        · obtain rfl : t₂=0 := by omega
          exact ⟨rfl,.inl (by omega)⟩
      · rw [Bool.and_eq_true,List.isEmpty_iff] at he
        have hq0 : X/base^4=0 := by
          rw [← hq',he.2]
          rfl
        have hX0 : X%base^4=X := by
          rw [mod_eq_of_lt]
          exact lt_of_div_eq_zero (Nat.pow_pos hba) hq0
        rw [hX0] at hz
        rw [hq0,hz,Nat.zero_div]
        exact ⟨rfl,.inr ⟨he.1,rfl⟩⟩
    refine ⟨t₂+t₁,by omega,?_,?_⟩
    · rw [hl,hhi.1,lowDigits_mod X (by omega),lowDigits_add,map_append, append_assoc]
    · rcases hhi.2 with ha | ⟨htr,hz⟩
      · exact .inl (by omega)
      · refine .inr ⟨htr,?_⟩
        rwa [add_comm,pow_add,← Nat.div_div_eq_div_mul]

/-- The lowest `len` digits as a text, with or without zeros at the top. -/
def printed (base len x : ℕ) (trim : Bool) : List Char :=
  (if trim then significant (lowDigits base len x) else lowDigits base len x).map digitChar

lemma big2strOrig_spec (hb : 0 < base) (hb' : base ≤ 36) (x : Bignum) (len : ℕ) {trim : Bool}
    (hne : trim=true ∨ x.digits ≠ []) :
    big2strOrig x base len (base^4) trim=printed base len (Nat.ofDigits bigrad x.digits) trim := by
  obtain ⟨t,ht,hl,hdo⟩ := origLoop_spec hb hb' trim [] le_rfl x.digits_lt hne
  rw [big2strOrig,hl,append_nil,printed]
  cases trim with
  | false =>
    obtain rfl : t=len := hdo.resolve_right fun h => Bool.false_ne_true h.1
    rfl
  | true =>
    have hbe : Below 36 (lowDigits base t (Nat.ofDigits bigrad x.digits)) :=
      fun d hd => (below_lowDigits hb t _ d hd).trans_le hb'
    simp only [if_true]
    rw [dropWhile_map_digitChar hbe]
    rcases hdo with rfl | ⟨-,hz⟩
    · rfl
    · rw [significant_lowDigits_of_div ht hz]

variable {x : Bignum}

lemma toInt_of_sign (h : x.sign=true) : x.toInt=(Nat.ofDigits bigrad x.digits : ℕ) := by
  rw [Bignum.toInt,signed_eq,h,if_pos rfl]

lemma bigdivmod_of_power {base e : ℕ} {y : Bignum} (hx : x.sign=true) (hy : IsPower base e y) :
    ∃ q r,bigdivmod x y=.ok (q,r) ∧ (q.sign=true ∨ bigzerop q=true) ∧ r.sign=true ∧
      Nat.ofDigits bigrad q.digits=Nat.ofDigits bigrad x.digits/base^e ∧
      Nat.ofDigits bigrad r.digits=Nat.ofDigits bigrad x.digits%base^e := by
  obtain ⟨q,r,hru,ht⟩ := bigdivrem_spec x hy.divisor
  have hsa : ¬(x.sign ≠ y.sign ∧ ¬bigzerop r=true) := fun h => h.1 (hx.trans hy.sign.symm)
  have hr : r.sign=true := ht.mod_sign.trans hx
  have hq : q.toInt=Nat.ofDigits bigrad q.digits ∧ (q.sign=true ∨ bigzerop q=true) := by
    rcases ht.div_sign with hs | hz
    · rw [hx,hy.sign] at hs
      exact ⟨toInt_of_sign hs,.inl hs⟩
    · have ha := toInt_natAbs q
      rw [hz,ofDigits_singleton] at ha
      have hto : q.toInt=0 := by omega
      exact ⟨by rw [hto,hz]; rfl,.inr ((bigzerop_iff q).mpr hto)⟩
  have hv := ht.value
  have hl := ht.mod_lt
  rw [hy.value,toInt_of_sign hr] at hl
  rw [toInt_of_sign hx,hq.1,toInt_of_sign hr,hy.value] at hv
  have hl' : Nat.ofDigits bigrad r.digits < base^e := by
    have ha : ((base : ℤ)^e).natAbs=base^e := by rw [Int.natAbs_pow,Int.natAbs_natCast]
    rwa [Int.natAbs_natCast,ha] at hl
  have hv' : Nat.ofDigits bigrad r.digits+base^e*Nat.ofDigits bigrad q.digits =
      Nat.ofDigits bigrad x.digits := by
    apply Int.natCast_inj.mp
    rw [cast_add,cast_mul,cast_pow,hv]
    ring
  have hu := (Nat.div_mod_unique (zero_lt_of_lt hl')).mpr ⟨hv',hl'⟩
  refine ⟨q,r,?_,hq.2,hr,hu.1.symm,hu.2.symm⟩
  rw [bigdivmod,hru]
  exact if_neg hsa

lemma printed_zero (base len : ℕ) (trim : Bool) :
    printed base len 0 trim=if trim then [] else List.replicate len '0' := by
  rw [printed,lowDigits_zero]
  cases trim with
  | true => simp only [if_true,significant_replicate,map_nil]
  | false => simp only [Bool.false_eq_true,if_false,map_replicate]; rfl

/-- The text of a number is that of its halves; the lower one keeps its zeros
unless nothing stands before it. -/
lemma printed_split {base len m : ℕ} (x : ℕ) (trim : Bool) (h : m ≤ len) :
    printed base len x trim=printed base (len-m) (x/base^m) trim++
      printed base m (x%base^m) ((printed base (len-m) (x/base^m) trim).isEmpty && trim) := by
  have hd : lowDigits base len x=lowDigits base (len-m) (x/base^m)++lowDigits base m x := by
    rw [← lowDigits_add,Nat.sub_add_cancel h]
  cases trim with
  | false =>
    simp only [printed,Bool.and_false,Bool.false_eq_true,if_false]
    rw [lowDigits_mod x le_rfl,hd,map_append]
  | true =>
    simp only [printed,Bool.and_true,if_true,isEmpty_map]
    rw [lowDigits_mod x le_rfl,hd,significant_append]
    by_cases hni : significant (lowDigits base (len-m) (x/base^m))=[]
    · rw [hni]
      rfl
    · rw [if_neg hni,if_neg (by rwa [List.isEmpty_iff]),map_append]

def Width (n1 len : ℕ) : Prop := 2*n1 ≤ len+1 ∧ len ≤ 2*n1+1

lemma big2strKaratsuba_spec (b : Radix) {n n1 len : ℕ} (hn : n1 < n) (hw : Width n1 len)
    (hsm : n1 ≤ 2^30) (c : Cache) (hx : x.sign=true ∨ bigzerop x=true) (trim : Bool) :
    ∃ c',big2strKaratsuba b (b.base^4) n c (.bignum x) n1 len trim =
      .ok (printed b.base len (Nat.ofDigits bigrad x.digits) trim,c') := by
  induction n generalizing n1 len c x trim with
  | zero => omega
  | succ n ih =>
    have hb : 0 < b.base := by have := b.two_le; omega
    rw [big2strKaratsuba]
    by_cases hz : bigzerop x=true
    · have hX : Nat.ofDigits bigrad x.digits=0 := by
        rw [← toInt_natAbs,(bigzerop_iff x).mp hz]
        rfl
      exact ⟨c,by rw [if_pos hz,hX,printed_zero]⟩
    split_ifs with hs
    · have hne : x.digits ≠ [] := by
        intro hni
        rw [bigzerop,hni] at hz
        exact hz rfl
      exact ⟨c,by rw [big2strOrig_spec hb b.le_36 x len (.inr hne)]⟩
    obtain ⟨m1,y,c₁,hg,hle,hlt,hp⟩ :=
      powerCacheGetPower_spec c b (not_le.mp hs) hsm
    obtain ⟨q,r,hd,hqs,hrs,hq,hr⟩ :=
      bigdivmod_of_power (hx.resolve_right hz) hp
    unfold Width at hw
    obtain ⟨c₂,hh⟩ := ih (by omega)
      (show Width ((len-m1)/2) (len-m1) by unfold Width; omega) (by omega) c₁ hqs trim
    rw [hq] at hh
    obtain ⟨c₃,hl⟩ := ih (by omega)
      (show Width (m1/2) m1 by unfold Width; omega) (by omega) c₂ (.inl hrs)
      ((printed b.base (len-m1) (Nat.ofDigits bigrad x.digits/b.base^m1) trim).isEmpty && trim)
    rw [hr] at hl
    refine ⟨c₃,?_⟩
    rw [printed_split (Nat.ofDigits bigrad x.digits) trim (show m1 ≤ len by omega)]
    simp only [hg,hd,hh,hl,bind,Except.bind,Except.mapError]

lemma big2strKaratsuba_of_large (b : Radix) (hb n : ℕ) {n1 : ℕ} (hl : 2^30 < n1)
    (hh : n1 < 2^64) (c : Cache) (hx : bigzerop x=false) (len : ℕ) (trim : Bool) :
    ∃ m,big2strKaratsuba b hb (n+1) c (.bignum x) n1 len trim=.error (.shiftOverflow m) := by
  obtain ⟨m,hg⟩ := powerCacheGetPower_of_large c b hl hh
  refine ⟨m,?_⟩
  rw [big2strKaratsuba,hx,if_neg Bool.false_ne_true,if_neg (by omega),hg]
  rfl

def withSign (n : ℤ) (text : List Char) : List Char := if n < 0 then '-'::text else text

def Spelled (base x : ℕ) (text : List Char) : Prop :=
  ∃ ds,Below base ds ∧ ds.head? ≠ some 0 ∧ horner base ds=x ∧ text=ds.map digitChar

lemma spelled_printed (hb : 0 < base) (len x : ℕ) :
    Spelled base (x%base^len) (printed base len x true) := by
  refine ⟨significant (lowDigits base len x),below_significant (below_lowDigits hb len x),?_,?_,
    by rw [printed,if_pos rfl]⟩
  · rcases significant_cases (lowDigits base len x) with hni | ⟨d,es,hc,hd⟩
    · rw [hni]
      simp
    · rw [hc]
      exact fun h => hd (Option.some.inj h)
  · rw [horner_significant,horner_lowDigits]

lemma fixLoop_eq {n val : ℕ} (buf : List Char) (hp : 0 < val) (hva : val < base^n) :
    fixLoop base n val buf=printed base n val true++buf := by
  induction n generalizing val buf with
  | zero =>
    rw [pow_zero] at hva
    omega
  | succ n ih =>
    have hd : lowDigits base (n+1) val=lowDigits base n (val/base)++[val%base] := rfl
    have hlt : val/base < base^n := Nat.div_lt_of_lt_mul (by rwa [← pow_succ'])
    rw [fixLoop,printed,if_pos rfl,hd,significant_append]
    by_cases hl : val/base=0
    · have hm : val%base=val := by
        have := div_add_mod val base
        rw [hl] at this
        omega
      rw [hl,lowDigits_zero,if_pos (significant_replicate n),significant_cons (by omega)]
      rfl
    · have hne : significant (lowDigits base n (val/base)) ≠ [] := by
        intro hni
        have hv := horner_significant base (lowDigits base n (val/base))
        rw [hni,horner_lowDigits,mod_eq_of_lt hlt] at hv
        exact hl hv.symm
      rw [if_neg hl,if_neg hne,ih _ (pos_of_ne_zero hl) hlt,
        map_append,append_assoc]
      rfl

lemma rbFix2str_eq {n : ℤ} (hn : n ≠ 0) (hf : Fixable n) (b : Radix) :
    rbFix2str (long2fix n) b.base=.ok (withSign n (printed b.base 64 n.natAbs true)) := by
  have ht := b.two_le
  have hle := b.le_36
  have hv : (if n < 0 then long (-n) else n).toNat=n.natAbs := by
    unfold Fixable at hf
    split_ifs
    · rw [long_eq (by omega) (by omega)]
      omega
    · omega
  have hl : n.natAbs < b.base^64 := by
    unfold Fixable at hf
    have hp : 2^64 ≤ b.base^64 := Nat.pow_le_pow_left ht 64
    omega
  rw [rbFix2str]
  simp only [fix2long_long2fix hf]
  rw [if_neg (by omega),if_neg hn,hv,Int.toNat_natCast,fixLoop_eq [] (by omega) hl, append_nil]
  rfl

lemma rbFix2str_zero (b : Radix) : rbFix2str (long2fix 0) b.base=.ok ['0'] := by
  have ht := b.two_le
  have hl := b.le_36
  rw [rbFix2str]
  simp only [fix2long_long2fix (show Fixable 0 by decide)]
  rw [if_neg (by omega),if_pos trivial]

def bigLength (n : ℤ) : ℕ := (Nat.digits bigrad n.natAbs).length

def textLength (n : ℤ) (b : Radix) : ℕ := digitEstimate (64*bigLength n) b.base

variable {n : ℤ} (hn : ¬Fixable n) (b : Radix) (c : Cache)
include hn

lemma bigzerop_ofInt : bigzerop (Bignum.ofInt n)=false := by
  rw [← Bool.not_eq_true,bigzerop_iff,ofInt_toInt]
  rintro rfl
  exact hn (by decide)

lemma bigLength_pos : 0 < bigLength n := by
  rw [bigLength,length_pos_iff,digits_ne_nil_iff_ne_zero]
  unfold Fixable at hn
  omega

lemma toS_bignum (h : bigLength n < (2^63-1)/64) : toS c (canonical n) b.base =
      (big2strDigits c {Bignum.ofInt n with sign := true} b (textLength n b) true).map
        (fun r => (withSign n r.1,r.2)) := by
  have ht := b.two_le
  have hle := b.le_36
  have hl : ¬(Bignum.ofInt n).digits.length ≥ (2^63-1)/64 := not_le.mpr h
  have hs (text : List Char) : (if (true && (Bignum.ofInt n).sign)=true then text
        else (if (Bignum.ofInt n).sign=true then '+' else '-')::text)=withSign n text := by
    rw [withSign,show (Bignum.ofInt n).sign=decide (0 ≤ n) from rfl]
    by_cases hne : n < 0
    · rw [decide_eq_false (by omega),if_pos hne]
      rfl
    · rw [decide_eq_true (by omega),if_neg hne]
      rfl
  rw [canonical_of_not_fixable hn,toS,rbBig2str,rbBig2str0]
  rw [dif_pos ⟨by omega,by omega⟩]
  simp only [big2strFindN1,bigzerop_ofInt hn,if_neg hl,hs]
  change (big2strDigits c {Bignum.ofInt n with sign := true} b (textLength n b) true >>= fun r =>
    .ok (withSign n r.1,r.2))=_
  cases big2strDigits c {Bignum.ofInt n with sign := true} b (textLength n b) true <;> rfl

lemma toS_eq_ok (h : bigLength n < (2^63-1)/64) (hl : textLength n b ≤ 2^31) :
    ∃ c',toS c (canonical n) b.base =
      .ok (withSign n (printed b.base (textLength n b) n.natAbs true),c') := by
  have hb : 0 < b.base := by have := b.two_le; omega
  have hh : b.base*b.base*(b.base*b.base)=b.base^4 := by ring
  have hv : Nat.ofDigits bigrad (Bignum.ofInt n).digits=n.natAbs := ofDigits_digits _ _
  rw [toS_bignum hn b c h,big2strDigits]
  simp only [hh]
  split_ifs with hs
  · refine ⟨c,?_⟩
    rw [big2strOrig_spec hb b.le_36 _ _ (.inl rfl),hv]
    rfl
  · obtain ⟨c',hr⟩ := big2strKaratsuba_spec b (lt_succ_self ((textLength n b+1)/2))
      (show Width _ (textLength n b) by unfold Width; omega) (by omega) c
      (x := {Bignum.ofInt n with sign := true}) (.inl rfl) true
    refine ⟨c',?_⟩
    rw [hr,hv]
    rfl

lemma toS_of_long (h : (2^63-1)/64 ≤ bigLength n) :
    toS c (canonical n) b.base=.error .tooBig := by
  have ht := b.two_le
  have hle := b.le_36
  have hl : (Bignum.ofInt n).digits.length ≥ (2^63-1)/64 := h
  rw [canonical_of_not_fixable hn,toS,rbBig2str,rbBig2str0]
  rw [dif_pos ⟨by omega,by omega⟩]
  simp only [big2strFindN1,bigzerop_ofInt hn,if_pos hl]
  rfl

lemma toS_of_large (h : bigLength n < (2^63-1)/64) (hl : 2^31 < textLength n b) :
    ∃ m,toS c (canonical n) b.base=.error (.shiftOverflow m) := by
  have hlt : textLength n b < 2^64 := by
    have hp := bigLength_pos hn
    have hle := digitEstimate_le (show 0 < 64*bigLength n by omega) b.base
    unfold textLength
    omega
  obtain ⟨m,hr⟩ := big2strKaratsuba_of_large b (b.base*b.base*(b.base*b.base))
    ((textLength n b+1)/2) (show 2^30 < (textLength n b+1)/2 by omega) (by omega) c
    (x := {Bignum.ofInt n with sign := true}) (bigzerop_ofInt hn) (textLength n b) true
  refine ⟨m,?_⟩
  rw [toS_bignum hn b c h,big2strDigits]
  rw [if_neg (by omega),hr]
  rfl

end MacRuby.IntegerText
