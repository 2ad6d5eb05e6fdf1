import MacRuby.Integers
import MacRuby.RadixDigits

/-!
# Parsing integers

`rb_cstr_to_inum` reads white space, a sign and a prefix that fits the radix,
squeezes zeros and then takes one of two ways. When the characters cannot hold
more than 64 bits the rest is given to `ruby_strtoul`; otherwise, and when an
underscore turns up, the digits are accumulated in a Bignum whose length is
estimated from the number of characters. With `badcheck` anything that is left
over is an error, without it the rest is ignored.

A string is the list of its characters before the terminating `NUL`.
-/
namespace MacRuby.IntegerParse
open Digits Integers RadixDigits List

/-- `ArgumentError`s, and a write behind the digits of the result. -/
inductive Error
  /-- "invalid radix %d". -/
  | invalidRadix (base : ℤ)
  /-- "invalid value for Integer: %s". -/
  | invalidValue (s : List Char)
  | outOfBounds
  deriving DecidableEq

def isspace (c : Char) : Bool := c.toNat == 32 || (9 ≤ c.toNat && c.toNat ≤ 13)

def skipSpaces (str : List Char) : List Char := str.dropWhile isspace

/-- `conv_digit`, which is also the table of `scan_digits`; `none` is -1. -/
def convDigit (c : Char) : Option ℕ :=
  if 48 ≤ c.toNat ∧ c.toNat ≤ 57 then some (c.toNat-48)
  else if 97 ≤ c.toNat ∧ c.toNat ≤ 122 then some (c.toNat-97+10)
  else if 65 ≤ c.toNat ∧ c.toNat ≤ 90 then some (c.toNat-65+10)
  else none

def readSign : List Char → Bool × List Char
  | [] => (true,[])
  | c::str => if c = '+' then (true,str) else if c = '-' then (false,str) else (true,c::str)

/-- The radix, from the text when `base` is not positive. -/
def chooseBase (base : ℤ) (str : List Char) : ℤ :=
  if base ≤ 0 then
    if str.head? = some '0' then
      match str.tail.head? with
      | some 'x' | some 'X' => 16
      | some 'b' | some 'B' => 2
      | some 'o' | some 'O' => 8
      | some 'd' | some 'D' => 10
      | _ => 8
    else if base < -1 then -base
    else 10
  else base

/-- The letters that may follow a zero in front of digits of the radix. -/
def prefixLetters (base : ℤ) : List Char :=
  if base=2 then ['b','B'] else if base=8 then ['o','O']
  else if base=10 then ['d','D'] else if base=16 then ['x','X'] else []

def skipPrefix (base : ℤ) : List Char → List Char
  | c::d::str => if c = '0' ∧ d ∈ prefixLetters base then str else c::d::str
  | str => str

def bitsPerChar (base : ℕ) : ℕ :=
  if base=2 then 1 else if base=3 then 2 else if base ≤ 8 then 3
  else if base ≤ 16 then 4 else if base ≤ 32 then 5 else 6

/-- The rest after zeros and single underscores. At the end of the digits the
last character that was read is given back. -/
def squeeze (us : ℕ) (last : Char) : List Char → List Char
  | [] => [last]
  | c::str =>
    if c = '0' then squeeze 0 c str
    else if c = '_' ∧ us+1 < 2 then squeeze (us+1) c str
    else if isspace c then last::c::str
    else c::str

def squeezeZeros : List Char → List Char
  | [] => []
  | c::str => if c = '0' then squeeze 0 c str else c::str

/-- `scan_digits`: the value, whether a word was too small for it, and the rest. -/
def scanDigits (base : ℕ) : ℕ → Bool → List Char → ℕ × Bool × List Char
  | ret,overflow,[] => (ret,overflow,[])
  | ret,overflow,c::str =>
    match convDigit c with
    | none => (ret,overflow,c::str)
    | some d =>
      if base ≤ d then (ret,overflow,c::str)
      else
        let x := ret*base%2^64
        let ret' := (x+d)%2^64
        scanDigits base ret' (overflow || decide ((2^64-1)/base < ret) || decide (ret' < x)) str

/-- `ruby_strtoul` for a radix from 2 to 36: the value and `*endptr`. -/
def rubyStrtoul (str : List Char) (base : ℕ) : ℕ × List Char :=
  let (sign,rest) := readSign (skipSpaces str)
  let (found,digits) :=
    if rest.head? = some '0' then
      (rest.tail,
        if base=16 ∧ (rest.tail.head? = some 'x' ∨ rest.tail.head? = some 'X') then rest.tail.tail
        else rest.tail)
    else (str,rest)
  let (ret,overflow,stop) := scanDigits base 0 false digits
  let endptr := if stop.length < digits.length then stop else found
  (if overflow then 2^64-1 else if sign then ret else (2^64-ret)%2^64,endptr)

/-- The integer of a word, by `POSFIXABLE`. -/
def shortInteger (sign : Bool) (val : ℕ) : Integer :=
  if val < 2^61 then
    if sign then .fixnum (long2fix val) else .fixnum (long2fix (long (-val)))
  else bignorm {rbUint2big val with sign := sign}

/-- The digits times the radix, plus `num`, and what is carried out of them. -/
def mulAdd (base : ℕ) : ℕ → List ℕ → List ℕ × ℕ
  | num,[] => ([],num)
  | num,z::zs =>
    let num := wide bigrad (num+wide bigrad (z*base))
    let rest := mulAdd base (num/bigrad) zs
    (num%bigrad::rest.1,rest.2)

/-- The digits that `blen` is increased for. -/
def carryOut (num : ℕ) : List ℕ :=
  if num=0 then []
  else if num/bigrad=0 then [num] else [num%bigrad,num/bigrad]

/-- The loop behind `bigparse`: the digits below `blen` and the rest of the text. -/
def parseLoop (s : List Char) (base len : ℕ) (badcheck : Bool) :
    Bool → List ℕ → List Char → Except Error (List ℕ × List Char)
  | _,zds,[] => .ok (zds,[])
  | nondigit,zds,c::str =>
    if c = '_' then
      if nondigit then
        if badcheck then .error (.invalidValue s) else .ok (zds,c::str)
      else parseLoop s base len badcheck true zds str
    else
      match convDigit c with
      | none => .ok (zds,c::str)
      | some d =>
        if d ≥ base then .ok (zds,c::str)
        else
          let r := mulAdd base d zds
          let zds := r.1++carryOut r.2
          if zds.length > len then .error .outOfBounds
          else parseLoop s base len badcheck false zds str

/-- The character in front of the rest is an underscore, and not the first one. -/
def afterUnderscore (s str : List Char) : Prop :=
  1 < s.length-str.length ∧ (s.take (s.length-str.length)).getLast? = some '_'

instance (s str : List Char) : Decidable (afterUnderscore s str) :=
  inferInstanceAs (Decidable (_ ∧ _))

def bigparse (s : List Char) (sign : Bool) (base bits : ℕ) (badcheck : Bool) (str : List Char) :
    Except Error Integer :=
  let len := bits/64+1
  if badcheck ∧ str.head? = some '_' then .error (.invalidValue s)
  else do
    let (zds,rest) ← parseLoop s base len badcheck false [0] str
    if badcheck ∧ (afterUnderscore s rest ∨ skipSpaces rest ≠ []) then .error (.invalidValue s)
    else .ok (bignorm (ofDigits sign (zds++List.replicate (len-zds.length) 0)))

def bad (s : List Char) (badcheck : Bool) : Except Error Integer :=
  if badcheck then .error (.invalidValue s) else .ok (.fixnum (long2fix 0))

/-- The part of `rb_cstr_to_inum` behind the prefix. -/
def parseDigits (s : List Char) (sign : Bool) (base : ℕ) (badcheck : Bool) (str : List Char) :
    Except Error Integer :=
  if ∀ d ∈ str.head?.bind convDigit,d ≥ base then bad s badcheck
  else
    let bits := bitsPerChar base*str.length
    let (val,rest) := rubyStrtoul str base
    if bits ≤ 64 ∧ ¬(rest.length < str.length ∧ rest.head? = some '_') then
      if badcheck ∧ (rest.length=str.length ∨ skipSpaces rest ≠ []) then .error (.invalidValue s)
      else .ok (shortInteger sign val)
    else bigparse s sign base bits badcheck str

def rbCstrToInum (s : List Char) (base : ℤ) (badcheck : Bool) : Except Error Integer :=
  let (sign,str) := readSign (skipSpaces s)
  if str.head? = some '+' ∨ str.head? = some '-' then bad s badcheck
  else
    let base := chooseBase base str
    if base < 2 ∨ 36 < base then .error (.invalidRadix base)
    else parseDigits s sign base.toNat badcheck (squeezeZeros (skipPrefix base str))

variable {base : ℕ} {zs : List ℕ}

lemma mulAdd_spec {num : ℕ} (hba : base ≤ 36) (hn : num < bigrad) (hzs : Below bigrad zs) :
    (mulAdd base num zs).1.length=zs.length ∧ Below bigrad (mulAdd base num zs).1 ∧
      (mulAdd base num zs).2 < bigrad ∧
      Nat.ofDigits bigrad (mulAdd base num zs).1+bigrad^zs.length*(mulAdd base num zs).2 =
        Nat.ofDigits bigrad zs*base+num := by
  induction zs generalizing num with
  | nil => exact ⟨rfl,below_nil,hn,by simp [mulAdd]⟩
  | cons z zs ih =>
    obtain ⟨hz,hr⟩ := below_cons.mp hzs
    have hra : bigrad*64 ≤ bigrad*bigrad := Nat.mul_le_mul_left _ (by decide)
    have hp : z*base ≤ z*36 := Nat.mul_le_mul_left z hba
    have hw : wide bigrad (z*base)=z*base := wide_of_lt (by omega)
    have hw' : wide bigrad (num+z*base)=num+z*base := wide_of_lt (by omega)
    have hc : (num+z*base)/bigrad < bigrad := Nat.div_lt_of_lt_mul (by omega)
    obtain ⟨hl,hb,ho,hv⟩ := ih hc hr
    simp only [mulAdd,hw,hw',length_cons]
    refine ⟨by rw [hl],below_cons.mpr ⟨Nat.mod_lt _ (by decide),hb⟩,ho,?_⟩
    have hd := Nat.mod_add_div (num+z*base) bigrad
    rw [Nat.ofDigits_cons,Nat.ofDigits_cons]
    linear_combination hd+bigrad*hv

lemma accumulated {d : ℕ} (hb : 0 < base) (hb' : base ≤ 36) (hd : d < base)
    (hz : Below bigrad zs) (hn : zs ≠ []) (hf : Full bigrad zs) :
    let r := mulAdd base d zs
    let zs' := r.1++carryOut r.2
    Below bigrad zs' ∧ zs' ≠ [] ∧ Full bigrad zs' ∧
      Nat.ofDigits bigrad zs'=Nat.ofDigits bigrad zs*base+d := by
  intro r zs'
  have hra : (36 : ℕ) < bigrad := by decide
  obtain ⟨hl,hbe,ho,hv⟩ := mulAdd_spec hb' (show d < bigrad by omega) hz
  have hr : r.1 ≠ [] := by
    rw [← length_pos_iff,hl,length_pos_iff]
    exact hn
  by_cases hze : r.2=0
  · have hz' : zs'=r.1 := by
      change r.1++carryOut r.2=r.1
      rw [hze,carryOut,if_pos rfl,append_nil]
    have hv' : Nat.ofDigits bigrad r.1=Nat.ofDigits bigrad zs*base+d := by
      rw [← hv,hze,mul_zero,add_zero]
    rw [hz']
    refine ⟨hbe,hr,fun hlo => ?_,hv'⟩
    have hold := hf (by rw [← hl]; exact hlo)
    have hs : Nat.ofDigits bigrad zs*1 ≤ Nat.ofDigits bigrad zs*base :=
      Nat.mul_le_mul_left _ hb
    rw [hl]
    omega
  · have hz' : zs'=r.1++[r.2] := by
      change r.1++carryOut r.2=_
      rw [carryOut,if_neg hze,if_pos (Nat.div_eq_of_lt ho)]
    have hv' : Nat.ofDigits bigrad zs'=Nat.ofDigits bigrad zs*base+d := by
      rw [hz',ofDigits_concat,← hv,hl]
    refine ⟨?_,?_,fun _ => ?_,hv'⟩
    · rw [hz',below_append]
      exact ⟨hbe,below_cons.mpr ⟨ho,below_nil⟩⟩
    · rw [hz']
      simp
    · have hlow : bigrad^r.1.length*1 ≤ bigrad^r.1.length*r.2 :=
        Nat.mul_le_mul_left _ (pos_of_ne_zero hze)
      rw [hz',length_append,length_singleton,Nat.add_sub_cancel,ofDigits_concat]
      omega

variable {zds : List ℕ} {s : List Char}

def Reads (cs : List Char) (ds : List ℕ) : Prop :=
  List.Forall₂ (fun c d => convDigit c=some d) cs ds

lemma convDigit_some {c : Char} {d : ℕ} (h : convDigit c=some d) :
    isspace c=false ∧ c ≠ '+' ∧ c ≠ '-' ∧ c ≠ '_' ∧ (c = '0' → d=0) := by
  have hn {c' : Char} (hc' : convDigit c'=none) : c ≠ c' := by
    rintro rfl
    rw [hc'] at h
    exact Option.some_ne_none d h.symm
  refine ⟨?_,hn rfl,hn rfl,hn rfl,?_⟩
  · by_contra hspace
    rw [Bool.not_eq_false,isspace,Bool.or_eq_true,Bool.and_eq_true,beq_iff_eq,decide_eq_true_eq,
      decide_eq_true_eq] at hspace
    refine hn ?_ rfl
    rw [convDigit,if_neg (by omega),if_neg (by omega),if_neg (by omega)]
  · rintro rfl
    exact Option.some.inj h.symm

variable {base : ℕ} {cs : List Char} {ds : List ℕ}

lemma scanDigits_reads (hb : 0 < base) (h : Reads cs ds) (hds : Below base ds) {v : ℕ}
    (hl : accumulate base v ds < 2^64) :
    scanDigits base v false cs=(accumulate base v ds,false,[]) := by
  induction h generalizing v with
  | nil => rfl
  | @cons c d cs ds hc _ ih =>
    obtain ⟨hd,hr⟩ := below_cons.mp hds
    have hn : accumulate base v (d::ds)=accumulate base (v*base+d) ds := rfl
    have hle := le_accumulate hb (v*base+d) ds
    have hm : v*base%2^64=v*base := Nat.mod_eq_of_lt (by omega)
    have ha : (v*base+d)%2^64=v*base+d := Nat.mod_eq_of_lt (by omega)
    have hf : ¬(2^64-1)/base < v := by
      rw [not_lt,Nat.le_div_iff_mul_le hb]
      omega
    have hg : ¬v*base+d < v*base := by omega
    rw [scanDigits]
    simp only [hc,if_neg (not_le.mpr hd),hm,ha,hf,hg]
    exact ih hr hl

lemma skipSpaces_reads (h : Reads cs ds) : skipSpaces cs=cs := by
  cases h with
  | nil => rfl
  | cons hc _ =>
    rw [skipSpaces,dropWhile_cons_of_neg]
    rw [(convDigit_some hc).1]
    exact Bool.false_ne_true

lemma readSign_reads (h : Reads cs ds) : readSign cs=(true,cs) := by
  cases h with
  | nil => rfl
  | cons hc _ =>
    obtain ⟨-,hp,hm,-,-⟩ := convDigit_some hc
    rw [readSign,if_neg hp,if_neg hm]

lemma head_ne_zero (h : Reads cs ds) (hh : ds.head? ≠ some 0) : cs.head? ≠ some '0' := by
  cases h with
  | nil => simp
  | cons hc _ =>
    intro hz
    exact hh (congrArg some ((convDigit_some hc).2.2.2.2 (Option.some.inj hz)))

lemma rubyStrtoul_reads (hb : 0 < base) (h : Reads cs ds) (hd : Below base ds) (hn : ds ≠ [])
    (hh : ds.head? ≠ some 0) (hl : horner base ds < 2^64) :
    rubyStrtoul cs base=(horner base ds,[]) := by
  have hp : 0 < cs.length := by
    rw [h.length_eq,length_pos_iff]
    exact hn
  rw [rubyStrtoul]
  simp only [skipSpaces_reads h,readSign_reads h,if_neg (head_ne_zero h hh),
    scanDigits_reads hb h hd hl,length_nil,if_pos hp]
  rfl

lemma parseLoop_reads (s : List Char) {len : ℕ} (badcheck : Bool) (hb : 0 < base)
    (hb' : base ≤ 36) (hl : 0 < len) (h : Reads cs ds) (hds : Below base ds)
    (nondigit : Bool) (hz : Below bigrad zds) (hn : zds ≠ [])
    (hf : Full bigrad zds) (hfi : accumulate base (Nat.ofDigits bigrad zds) ds < bigrad^len)
    (hzl : zds.length ≤ len) :
    ∃ zds',parseLoop s base len badcheck nondigit zds cs=.ok (zds',[]) ∧ Below bigrad zds' ∧
      zds'.length ≤ len ∧ Nat.ofDigits bigrad zds'=accumulate base (Nat.ofDigits bigrad zds) ds := by
  induction h generalizing zds nondigit with
  | nil => exact ⟨zds,rfl,hz,hzl,rfl⟩
  | @cons c d cs ds hc _ ih =>
    obtain ⟨hd,hr⟩ := below_cons.mp hds
    obtain ⟨hbe',hn',hf',hv'⟩ := accumulated hb hb' hd hz hn hf
    have hnex : accumulate base (Nat.ofDigits bigrad zds) (d::ds) =
        accumulate base (Nat.ofDigits bigrad zds*base+d) ds := rfl
    rw [parseLoop,if_neg (convDigit_some hc).2.2.2.1]
    simp only [hc,if_neg (not_le.mpr hd)]
    generalize (mulAdd base d zds).1++carryOut (mulAdd base d zds).2=zds₁
      at hbe' hn' hf' hv' ⊢
    rw [hnex,← hv'] at hfi
    -- the highest digit counts, so there are not more digits than fit
    have hl₁ : zds₁.length ≤ len := by
      by_contra hlong
      have hle := le_accumulate hb (Nat.ofDigits bigrad zds₁) ds
      have hp := hf' (by omega)
      have hm : bigrad^len ≤ bigrad^(zds₁.length-1) := Nat.pow_le_pow_right (by decide) (by omega)
      omega
    rw [if_neg (not_lt.mpr hl₁),hnex,← hv']
    exact ih hr false hbe' hn' hf' hfi hl₁

lemma le_two_pow_bitsPerChar : ∀ b < 37,b ≤ 2^bitsPerChar b := by decide

lemma horner_lt_two_pow (hb : base ≤ 36) (hd : Below base ds) :
    horner base ds < 2^(bitsPerChar base*ds.length) := by
  calc horner base ds < base^ds.length := horner_lt hd
    _ ≤ (2^bitsPerChar base)^ds.length :=
        Nat.pow_le_pow_left (le_two_pow_bitsPerChar base (by omega)) _
    _=2^(bitsPerChar base*ds.length) := by rw [pow_mul]

def ofSign (sign : Bool) (x : ℕ) : ℤ := if sign then x else -x

lemma shortInteger_eq (sign : Bool) {val : ℕ} (h : val < 2^64) :
    shortInteger sign val=canonical (ofSign sign val) := by
  rw [shortInteger]
  by_cases hfi : val < 2^61
  · have hf : Fixable (ofSign sign val) := by
      unfold Fixable ofSign
      split_ifs <;> omega
    rw [if_pos hfi,canonical_of_fixable hf]
    cases sign with
    | true => rfl
    | false => rw [long_eq (by omega) (by omega)]; rfl
  · rw [if_neg hfi,bignorm_eq]
    simp only [rbUint2big_digits h]
    rfl

lemma toInt_padded (sign : Bool) (h : Below bigrad zds) (k : ℕ) :
    (ofDigits sign (zds++List.replicate k 0)).toInt=ofSign sign (Nat.ofDigits bigrad zds) := by
  have hp : Below bigrad (zds++replicate k 0) := by
    refine below_append.mpr ⟨h,fun d hd => ?_⟩
    rw [eq_of_mem_replicate hd]
    decide
  rw [Bignum.toInt,signed_eq,ofDigits_digits hp,Nat.ofDigits_append_replicate_zero]
  rfl

lemma underscore_not_mem (h : Reads cs ds) : '_' ∉ cs := by
  induction h with
  | nil => exact not_mem_nil
  | cons hc _ ih =>
    rw [mem_cons,not_or]
    exact ⟨(convDigit_some hc).2.2.2.1.symm,ih⟩

lemma bigparse_reads (hs : '_' ∉ s) (sign : Bool) (hb : 0 < base)
    (hb' : base ≤ 36) (h : Reads cs ds) (hd : Below base ds) :
    bigparse s sign base (bitsPerChar base*ds.length) true cs =
      .ok (canonical (ofSign sign (horner base ds))) := by
  have hh : cs.head? ≠ some '_' := fun hc => underscore_not_mem h (mem_of_head? hc)
  have ha : ¬(afterUnderscore s [] ∨ skipSpaces [] ≠ []) := by
    rintro (⟨-,hl⟩ | hsp)
    · exact hs (mem_of_mem_take (mem_of_getLast? hl))
    · exact hsp rfl
  have hf : accumulate base (Nat.ofDigits bigrad [0]) ds <
      bigrad^(bitsPerChar base*ds.length/64+1) := by
    refine (horner_lt_two_pow hb' hd).trans_le ?_
    rw [← pow_mul]
    exact Nat.pow_le_pow_right (by decide) (by omega)
  have hz : Below bigrad [0] := below_cons.mpr ⟨by decide,below_nil⟩
  obtain ⟨zds,hr,hbe,hle,hv⟩ := parseLoop_reads s true hb hb' (Nat.succ_pos _) h hd
    false hz (by simp) (fun hlo => absurd hlo (by decide)) hf (by simp)
  rw [bigparse]
  simp only [true_and,if_neg hh]
  rw [hr]
  simp only [bind,Except.bind,if_neg ha,bignorm_eq,toInt_padded sign hbe,hv]
  rfl

lemma parseDigits_reads (hs : '_' ∉ s) (sign : Bool) (hb : 0 < base)
    (hb' : base ≤ 36) (h : Reads cs ds) (hd : Below base ds) (hn : ds ≠ [])
    (hh : ds.head? ≠ some 0) :
    parseDigits s sign base true cs=.ok (canonical (ofSign sign (horner base ds))) := by
  have hl := h.length_eq
  have hp : 0 < ds.length := length_pos_iff.mpr hn
  have hf : ¬∀ d ∈ cs.head?.bind convDigit,d ≥ base := by
    cases h with
    | nil => exact absurd rfl hn
    | cons hc _ => exact fun ha => not_le.mpr (below_cons.mp hd).1 (ha _ hc)
  rw [parseDigits,if_neg hf]
  simp only [hl]
  by_cases hsh : bitsPerChar base*ds.length ≤ 64
  · have hlt : horner base ds < 2^64 :=
      (horner_lt_two_pow hb' hd).trans_le (Nat.pow_le_pow_right (by decide) hsh)
    rw [rubyStrtoul_reads hb h hd hn hh hlt]
    simp only [length_nil,head?_nil,hsh,true_and,reduceCtorEq,and_false,
      not_false_eq_true,if_true,skipSpaces,dropWhile_nil,ne_eq,not_true_eq_false,or_false]
    rw [if_neg hp.ne,shortInteger_eq sign hlt]
  · simp only [hsh]
    exact bigparse_reads hs sign hb hb' h hd

variable (sign : Bool) {str : List Char}

lemma skipPrefix_of_head (b : ℤ) (h : str.head? ≠ some '0') : skipPrefix b str=str := by
  match str with
  | [] => rfl
  | [_] => rfl
  | c::d::str =>
    rw [skipPrefix,if_neg]
    exact fun hc => h (congrArg some hc.1)

lemma squeezeZeros_of_head (h : str.head? ≠ some '0') : squeezeZeros str=str := by
  match str with
  | [] => rfl
  | c::str =>
    rw [squeezeZeros,if_neg]
    exact fun hc => h (congrArg some hc)

def signedText (sign : Bool) (cs : List Char) : List Char := if sign then cs else '-'::cs

lemma readSign_signedText (h : Reads cs ds) :
    readSign (skipSpaces (signedText sign cs))=(sign,cs) := by
  cases sign with
  | true => exact (congrArg readSign (skipSpaces_reads h)).trans (readSign_reads h)
  | false => rfl

lemma rbCstrToInum_signedText (badcheck : Bool) (hb : 2 ≤ base)
    (hb' : base ≤ 36) (h : Reads cs ds) (hh : ds.head? ≠ some 0) :
    rbCstrToInum (signedText sign cs) base badcheck =
      parseDigits (signedText sign cs) sign base badcheck cs := by
  have hs : ¬(cs.head? = some '+' ∨ cs.head? = some '-') := by
    cases h with
    | nil => simp
    | cons hc _ =>
      obtain ⟨-,hp,hm,-,-⟩ := convDigit_some hc
      rintro (hp' | hm')
      · exact hp (Option.some.inj hp')
      · exact hm (Option.some.inj hm')
  have hz := head_ne_zero h hh
  have hch : chooseBase base cs=base := if_neg (by omega)
  rw [rbCstrToInum]
  simp only [readSign_signedText sign h,if_neg hs,hch,skipPrefix_of_head _ hz,
    squeezeZeros_of_head hz]
  exact if_neg (by omega)

lemma rbCstrToInum_reads (hb : 2 ≤ base) (hb' : base ≤ 36) (h : Reads cs ds)
    (hd : Below base ds) (hn : ds ≠ []) (hh : ds.head? ≠ some 0) :
    rbCstrToInum (signedText sign cs) base true =
      .ok (canonical (ofSign sign (horner base ds))) := by
  have hs : '_' ∉ signedText sign cs := by
    have hc := underscore_not_mem h
    cases sign with
    | true => exact hc
    | false =>
      rw [signedText,if_neg Bool.false_ne_true,mem_cons,not_or]
      exact ⟨by decide,hc⟩
  rw [rbCstrToInum_signedText sign true hb hb' h hh]
  exact parseDigits_reads hs sign (by omega) hb' h hd hn hh

lemma rbCstrToInum_nil (hb : 2 ≤ base) (hb' : base ≤ 36) :
    rbCstrToInum (signedText sign []) base true=.error (.invalidValue (signedText sign [])) := by
  rw [rbCstrToInum_signedText sign true hb hb' Forall₂.nil (by simp)]
  exact if_pos (by simp)

lemma rbCstrToInum_zero (hb : 2 ≤ base) (hb' : base ≤ 36) :
    rbCstrToInum ['0'] base true=.ok (canonical 0) := by
  interval_cases base <;> rfl

end MacRuby.IntegerParse
