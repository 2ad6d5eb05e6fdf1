import MacRuby.IntegerLiterals

/-!
# Strict parsing of integers

With `badcheck` the parser returns a number for the literals of the grammar and
raises an `ArgumentError` for every other text, whichever of its two ways it
takes. `rb_str_to_inum` hands it the bytes of a string as a C string, which ends
at the first `NUL`.
-/
namespace MacRuby.StrictParse
open Digits Integers RadixDigits IntegerParse IntegerLiterals List Nat Option

def nul : Char := Char.ofNat 0

def cstr (s : List Char) : List Char := s.takeWhile (fun c => c ≠ nul)

def rbStrToInum (s : List Char) (base : ℤ) (badcheck : Bool) : Except Error Integer :=
  rbCstrToInum (cstr s) base badcheck

/-- `parseDigits` when it always goes to `bigparse`. -/
def generalDigits (s : List Char) (sign : Bool) (base : ℕ) (badcheck : Bool) (str : List Char) :
    Except Error Integer :=
  if ∀ d ∈ str.head?.bind convDigit,d ≥ base then bad s badcheck
  else bigparse s sign base (bitsPerChar base*str.length) badcheck str

/-- `rb_cstr_to_inum` without the way for short numbers. -/
def generalCstrToInum (s : List Char) (base : ℤ) (badcheck : Bool) : Except Error Integer :=
  let (sign,str) := readSign (skipSpaces s)
  if str.head? = some '+' ∨ str.head? = some '-' then bad s badcheck
  else
    let base := chooseBase base str
    if base < 2 ∨ 36 < base then .error (.invalidRadix base)
    else generalDigits s sign base.toNat badcheck (squeezeZeros (skipPrefix base str))

/-- The result for a text that denotes the absolute value, or nothing. -/
def verdict (s : List Char) (sign : Bool) : Option ℕ → Except Error Integer
  | some v => .ok (canonical (ofSign sign v))
  | none => .error (.invalidValue s)

section Zeros
variable {base : ℕ}

lemma follows_squeeze (hb : 0 < base) (cs : List Char) :
    follows base true 0 (squeeze 0 '0' cs)=follows base false 0 cs ∧
      follows base true 0 (squeeze 1 '_' cs)=follows base true 0 cs := by
  have hz := digitOf_zero hb
  have hdi (due : Bool) (cs : List Char) :
      follows base due 0 ('0'::cs)=follows base false 0 cs := by
    rw [follows_digit hz,zero_mul]
  induction cs with
  | nil => exact ⟨hdi true [],rfl⟩
  | cons c cs ih =>
    by_cases h0 : c = '0'
    · subst h0
      rw [hdi,hdi]
      exact ⟨ih.1,ih.1⟩
    by_cases hu : c = '_'
    · subst hu
      exact ⟨ih.2,rfl⟩
    simp only [squeeze,hu,false_and,if_false]
    split_ifs with hs
    · rw [hdi,follows_due (digitOf_of_isspace hs)]
      exact ⟨rfl,rfl⟩
    · refine ⟨?_,rfl⟩
      cases hd : digitOf base c with
      | some d => rw [follows_digit hd,follows_digit hd]
      | none =>
        rw [follows_due hd,follows_stop hd hu,if_neg]
        rw [skipSpaces_eq_nil,spaces_cons]
        exact fun h => hs h.1

lemma follows_squeezeZeros (hb : 0 < base) (str : List Char) :
    follows base true 0 (squeezeZeros str)=follows base true 0 str := by
  cases str with
  | nil => rfl
  | cons c str =>
    rw [squeezeZeros]
    by_cases hc : c = '0'
    · rw [if_pos hc,hc,(follows_squeeze hb str).1,follows_digit (digitOf_zero hb),zero_mul]
    · rw [if_neg hc]

lemma squeeze_suffix (us : ℕ) (last : Char) (cs : List Char) :
    squeeze us last cs <:+ last::cs := by
  induction cs generalizing us last with
  | nil => exact suffix_rfl
  | cons c cs ih =>
    rw [squeeze]
    split_ifs
    · exact (ih 0 c).trans (suffix_cons _ _)
    · exact (ih (us+1) c).trans (suffix_cons _ _)
    · exact suffix_rfl
    · exact suffix_cons _ _

lemma squeezeZeros_suffix (str : List Char) : squeezeZeros str <:+ str := by
  cases str with
  | nil => exact suffix_rfl
  | cons c str =>
    rw [squeezeZeros]
    by_cases hc : c = '0'
    · rw [if_pos hc]
      exact squeeze_suffix 0 c str
    · rw [if_neg hc]

def Squeezed (str : List Char) : Prop :=
  ∀ cs,str = '0'::cs → ∀ c ∈ cs.head?,isspace c=true

lemma squeezed_squeeze (us : ℕ) (last : Char) (cs : List Char) :
    Squeezed (squeeze us last cs) := by
  induction cs generalizing us last with
  | nil =>
    intro cs hcs c hc
    rw [← (cons.inj hcs).2] at hc
    cases hc
  | cons c cs ih =>
    rw [squeeze]
    split_ifs with h0 _ hs
    · exact ih 0 c
    · exact ih (us+1) c
    · intro cs' hcs' c' hc'
      rw [← (cons.inj hcs').2] at hc'
      rw [← some.inj hc']
      exact hs
    · intro cs' hcs'
      exact absurd (cons.inj hcs').1 h0

lemma squeezed_squeezeZeros (str : List Char) : Squeezed (squeezeZeros str) := by
  cases str with
  | nil =>
    intro cs hcs
    cases hcs
  | cons c str =>
    rw [squeezeZeros]
    split_ifs with hc
    · exact squeezed_squeeze 0 c str
    · intro cs hcs
      exact absurd (cons.inj hcs).1 hc

variable {c : Char} {cs s p : List Char} {len d : ℕ} {zds : List ℕ}

lemma afterUnderscore_append (p rest : List Char) :
    afterUnderscore (p++rest) rest ↔ 1 < p.length ∧ p.getLast? = some '_' := by
  have hl : (p++rest).length-rest.length=p.length := by simp
  rw [afterUnderscore,hl,take_left]

lemma parseLoop_stop (s : List Char) (len : ℕ) (us : Bool) (zds : List ℕ)
    (hc : digitOf base c=none) (hc' : c ≠ '_') (cs : List Char) :
    parseLoop s base len true us zds (c::cs)=.ok (zds,c::cs) := by
  rw [parseLoop,if_neg hc']
  cases hd : convDigit c with
  | none => rfl
  | some d => exact if_pos (digitOf_eq_none.mp hc d hd)

lemma follows_stopped {us : Bool} {rest : List Char} (hp : us=true → 1 < p.length)
    (hu : p.getLast? = some '_' ↔ us=true) (v : ℕ)
    (hr : ∀ c ∈ rest.head?,digitOf base c=none ∧ c ≠ '_') :
    (if afterUnderscore (p++rest) rest ∨ skipSpaces rest ≠ [] then none else some v) =
      follows base us v rest := by
  cases us with
  | true =>
    have ha : afterUnderscore (p++rest) rest :=
      (afterUnderscore_append p rest).mpr ⟨hp rfl,hu.mpr rfl⟩
    rw [if_pos (.inl ha)]
    cases rest with
    | nil => rfl
    | cons c rest => rw [follows_due (hr c rfl).1]
  | false =>
    have ha : ¬afterUnderscore (p++rest) rest := by
      rw [afterUnderscore_append]
      exact fun h => absurd (hu.mp h.2) Bool.false_ne_true
    have hst : follows base false v rest=if skipSpaces rest=[] then some v else none := by
      cases rest with
      | nil => rfl
      | cons c rest => exact follows_stop (hr c rfl).1 (hr c rfl).2 v rest
    rw [hst]
    by_cases hs : skipSpaces rest=[]
    · rw [if_neg (not_or.mpr ⟨ha,not_not.mpr hs⟩),if_pos hs]
    · rw [if_pos (.inr hs),if_neg hs]

/-- The digits so far are well formed and leave room for `n` more characters. -/
structure Room (base len n : ℕ) (zds : List ℕ) : Prop where
  below : Below bigrad zds
  ne_nil : zds ≠ []
  full : Full bigrad zds
  length_le : zds.length ≤ len
  fits : (Nat.ofDigits bigrad zds+1)*base^n ≤ bigrad^len

lemma Room.skip {n : ℕ} (h : Room base len (n+1) zds) (hb : 0 < base) : Room base len n zds := by
  refine ⟨h.below,h.ne_nil,h.full,h.length_le,le_trans (mul_le_mul_left _ ?_) h.fits⟩
  exact Nat.pow_le_pow_right hb (by omega)

lemma parseLoop_digit (s : List Char) (hb : 0 < base) (hb' : base ≤ 36) (us : Bool)
    (hc : digitOf base c=some d) (h : Room base len (cs.length+1) zds) :
    ∃ zds₁,parseLoop s base len true us zds (c::cs)=parseLoop s base len true false zds₁ cs ∧
      Room base len cs.length zds₁ ∧ Nat.ofDigits bigrad zds₁=Nat.ofDigits bigrad zds*base+d := by
  obtain ⟨hd,hlt⟩ := digitOf_eq_some.mp hc
  obtain ⟨hbe,hn,hf,hv⟩ := accumulated hb hb' hlt h.below h.ne_nil h.full
  rw [parseLoop,if_neg (ne_underscore_of_digitOf hc)]
  simp only [hd,if_neg (not_le.mpr hlt)]
  generalize (mulAdd base d zds).1++carryOut (mulAdd base d zds).2=zds₁ at hbe hn hf hv ⊢
  have hfi : (Nat.ofDigits bigrad zds₁+1)*base^cs.length ≤ bigrad^len := by
    refine le_trans ?_ h.fits
    rw [pow_succ',← mul_assoc]
    refine mul_le_mul_right _ ?_
    rw [add_mul]
    omega
  -- the highest digit counts, so there are not more digits than fit
  have hl : zds₁.length ≤ len := by
    by_contra hlong
    have hp := length_pos_iff.mpr h.ne_nil
    have hold := h.length_le
    have hpo := hf (by omega)
    have hm : bigrad^len ≤ bigrad^(zds₁.length-1) := Nat.pow_le_pow_right (by decide) (by omega)
    have ho : 1 ≤ base^cs.length := one_le_pow _ _ hb
    have hs := mul_le_mul_left (Nat.ofDigits bigrad zds₁+1) ho
    omega
  exact ⟨zds₁,if_neg (not_lt.mpr hl),⟨hbe,hn,hf,hl,hfi⟩,hv⟩

/-- The loop of the general way and the checks behind it decide what follows.
The characters before the text are `p`. -/
lemma parseLoop_follows (hb : 0 < base) (hb' : base ≤ 36) (us : Bool) (hs : s=p++cs) (hp : p ≠ [])
    (hp' : us=true → 1 < p.length) (hus : p.getLast? = some '_' ↔ us=true)
    (h : Room base len cs.length zds) :
    (∃ zds' rest,parseLoop s base len true us zds cs=.ok (zds',rest) ∧
      (if afterUnderscore s rest ∨ skipSpaces rest ≠ [] then none
        else some (Nat.ofDigits bigrad zds'))=follows base us (Nat.ofDigits bigrad zds) cs ∧
      Below bigrad zds' ∧ zds'.length ≤ len) ∨
    (parseLoop s base len true us zds cs=.error (.invalidValue s) ∧
      follows base us (Nat.ofDigits bigrad zds) cs=none) := by
  induction cs generalizing us zds p with
  | nil =>
    subst hs
    exact .inl ⟨zds,[],rfl,follows_stopped hp' hus _ (fun c hc => by cases hc),h.below,
      h.length_le⟩
  | cons c cs ih =>
    have hs' : s=p++[c]++cs := by rw [hs,append_assoc,singleton_append]
    have hp₁ : p++[c] ≠ [] := by simp
    cases hc : digitOf base c with
    | some d =>
      have hu := ne_underscore_of_digitOf hc
      obtain ⟨zds₁,hst,hr,hv⟩ := parseLoop_digit s hb hb' us hc h
      rw [hst,follows_digit hc,← hv]
      exact ih false hs' hp₁ (fun h => absurd h Bool.false_ne_true) (by simp [hu]) hr
    | none =>
      by_cases hu : c = '_'
      · subst hu
        cases us with
        | true => exact .inr ⟨rfl,follows_due hc _ _⟩
        | false =>
          have hl : 1 < (p++['_']).length := by
            have := length_pos_iff.mpr hp
            simp only [length_append,length_singleton]
            omega
          exact ih true hs' hp₁ (fun _ => hl) (by simp) (h.skip hb)
      · subst hs
        refine .inl ⟨zds,c::cs,parseLoop_stop _ _ _ _ hc hu cs,?_,h.below,h.length_le⟩
        refine follows_stopped hp' hus _ fun c' hc' => ?_
        rw [← some.inj hc']
        exact ⟨hc,hu⟩

lemma room_zero (hb : 0 < base) (hb' : base ≤ 36) (n : ℕ) :
    Room base (bitsPerChar base*n/64+1) n [0] := by
  refine ⟨below_cons.mpr ⟨by decide,below_nil⟩,by simp,fun hl => absurd hl (by decide),by simp,?_⟩
  have hp : base^n ≤ (2^bitsPerChar base)^n :=
    Nat.pow_le_pow_left (le_two_pow_bitsPerChar base (by omega)) n
  have hr : (2^bitsPerChar base)^n ≤ bigrad^(bitsPerChar base*n/64+1) := by
    rw [← pow_mul,← pow_mul]
    exact Nat.pow_le_pow_right (by decide) (by omega)
  simpa using hp.trans hr

lemma bigparse_follows (sign : Bool) (hb : 0 < base) (hb' : base ≤ 36)
    (hc : digitOf base c=some d) (hs : s=p++c::cs) :
    bigparse s sign base (bitsPerChar base*(c::cs).length) true (c::cs) =
      verdict s sign (follows base true 0 (c::cs)) := by
  have hu := ne_underscore_of_digitOf hc
  have hh : (c::cs).head? ≠ some '_' := fun h => hu (some.inj h)
  have hs' : s=p++[c]++cs := by rw [hs,append_assoc,singleton_append]
  obtain ⟨zds₁,hst,hro,hv⟩ := parseLoop_digit s hb hb' false hc (room_zero hb hb' (cs.length+1))
  have hv' : Nat.ofDigits bigrad zds₁=0*base+d := by
    rw [hv,ofDigits_singleton]
  rw [follows_digit hc,← hv',bigparse]
  simp only [true_and,if_neg hh,length_cons]
  rw [hst]
  rcases parseLoop_follows hb hb' false hs' (by simp) (fun h => absurd h Bool.false_ne_true)
    (by simp [hu]) hro with ⟨zds',rest,hr,hch,hbe,hl⟩ | ⟨hr,hn⟩
  · rw [hr,← hch]
    simp only [bind,Except.bind]
    split_ifs with hba
    · rw [verdict]
    · rw [verdict,bignorm_eq,toInt_padded sign hbe]
  · rw [hr,hn]
    rfl

lemma first_digit_iff : (∀ d ∈ (c::cs).head?.bind convDigit,d ≥ base) ↔ digitOf base c=none := by
  rw [digitOf_eq_none]
  rfl

lemma generalDigits_eq {str : List Char} (sign : Bool) (hb : 0 < base) (hb' : base ≤ 36)
    (hs : s=p++str) :
    generalDigits s sign base true str=verdict s sign (follows base true 0 str) := by
  cases str with
  | nil => exact if_pos fun d hd => by cases hd
  | cons c cs =>
    rw [generalDigits]
    cases hc : digitOf base c with
    | none =>
      rw [if_pos (first_digit_iff.mpr hc),follows_due hc]
      rfl
    | some d =>
      rw [if_neg fun h => by rw [first_digit_iff.mp h] at hc; cases hc]
      exact bigparse_follows sign hb hb' hc hs

variable {v : ℕ}

lemma scanDigits_stop (hc : digitOf base c=none) (v : ℕ) (cs : List Char) :
    scanDigits base v false (c::cs)=(v,false,c::cs) := by
  rw [scanDigits]
  cases hd : convDigit c with
  | none => rfl
  | some d => exact if_pos (digitOf_eq_none.mp hc d hd)

lemma scanDigits_digit (hb : 0 < base) (hc : digitOf base c=some d)
    (hl : v*base+d < 2^64) (cs : List Char) :
    scanDigits base v false (c::cs)=scanDigits base (v*base+d) false cs := by
  obtain ⟨hd,hdl⟩ := digitOf_eq_some.mp hc
  have hm : v*base%2^64=v*base := mod_eq_of_lt (by omega)
  have ha : (v*base+d)%2^64=v*base+d := mod_eq_of_lt hl
  have hf : ¬(2^64-1)/base < v := by
    rw [not_lt,le_div_iff_mul_le hb]
    omega
  have hg : ¬v*base+d < v*base := by omega
  rw [scanDigits]
  simp only [hd,if_neg (not_le.mpr hdl),hm,ha,hf,hg,decide_false,Bool.or_false]

lemma word_step {n : ℕ} (hb : 0 < base) (hd : d < base) (hf : (v+1)*base^(n+1) ≤ 2^64) :
    v*base+d < 2^64 ∧ (v*base+d+1)*base^n ≤ 2^64 := by
  have hs : (v*base+d+1)*base^n ≤ (v+1)*base^(n+1) := by
    rw [pow_succ',← mul_assoc]
    refine mul_le_mul_right _ ?_
    rw [add_mul]
    omega
  have ho : (v*base+d+1)*1 ≤ (v*base+d+1)*base^n :=
    mul_le_mul_left _ (one_le_pow _ _ hb)
  exact ⟨by omega,hs.trans hf⟩

lemma scanDigits_follows (hb : 0 < base) (hf : (v+1)*base^cs.length ≤ 2^64) :
    ∃ w stop,scanDigits base v false cs=(w,false,stop) ∧
      follows base false v cs=follows base false w stop ∧ w < 2^64 ∧
      (∀ c ∈ stop.head?,digitOf base c=none) ∧ stop.length ≤ cs.length := by
  induction cs generalizing v with
  | nil => exact ⟨v,[],rfl,rfl,by simpa using hf,fun c hc => (by cases hc),le_rfl⟩
  | cons c cs ih =>
    cases hc : digitOf base c with
    | none =>
      have hv : v < 2^64 := by
        have := mul_le_mul_left (v+1) (one_le_pow (c::cs).length base hb)
        omega
      refine ⟨v,c::cs,scanDigits_stop hc v cs,rfl,hv,fun c' hc' => ?_,le_rfl⟩
      rw [← some.inj hc',hc]
    | some d =>
      obtain ⟨hlt,hf'⟩ := word_step hb (digitOf_eq_some.mp hc).2 hf
      obtain ⟨w,stop,hs,hfo,hw,hst,hl⟩ := ih hf'
      rw [scanDigits_digit hb hc hlt,follows_digit hc]
      exact ⟨w,stop,hs,hfo,hw,hst,hl.trans (le_succ _)⟩

lemma skipSpaces_digit (hc : digitOf base c=some d) (cs : List Char) :
    readSign (skipSpaces (c::cs))=(true,c::cs) := by
  obtain ⟨hs,hp,hm,-,-⟩ := convDigit_some (digitOf_eq_some.mp hc).1
  rw [skipSpaces,dropWhile_cons_of_neg (by simp [hs]),readSign,if_neg hp,if_neg hm]

lemma rubyStrtoul_zero (hb : 0 < base) (hc : Squeezed ('0'::cs)) :
    rubyStrtoul ('0'::cs) base=(0,cs) := by
  have hs := hc cs rfl
  have hl : ¬(base=16 ∧ (('0'::cs).tail.head? = some 'x' ∨ ('0'::cs).tail.head? = some 'X')) := by
    rintro ⟨-,h | h⟩ <;> exact absurd (hs _ h) (by decide)
  have hsc : scanDigits base 0 false cs=(0,false,cs) := by
    cases cs with
    | nil => rfl
    | cons c cs => exact scanDigits_stop (digitOf_of_isspace (hs c rfl)) 0 cs
  rw [rubyStrtoul,skipSpaces_digit (digitOf_zero hb)]
  simp only [if_neg hl]
  simp only [head?_cons,tail_cons,if_true,hsc,lt_irrefl,if_false,Bool.false_eq_true]

lemma rubyStrtoul_follows (hb : 0 < base) (hc : digitOf base c=some d) (hs : Squeezed (c::cs))
    (hf : base^(c::cs).length ≤ 2^64) :
    ∃ w rest,rubyStrtoul (c::cs) base=(w,rest) ∧ w < 2^64 ∧ rest.length < (c::cs).length ∧
      follows base true 0 (c::cs)=follows base false w rest ∧
      ∀ c ∈ rest.head?,digitOf base c=none := by
  by_cases h0 : c = '0'
  · subst h0
    refine ⟨0,cs,rubyStrtoul_zero hb hs,by decide,lt_succ_self _,?_,fun c hc => ?_⟩
    · rw [follows_digit (digitOf_zero hb),zero_mul]
    · exact digitOf_of_isspace (hs cs rfl c hc)
  · obtain ⟨hlt,hf'⟩ := word_step hb (digitOf_eq_some.mp hc).2
      (show (0+1)*base^(cs.length+1) ≤ 2^64 by simpa using hf)
    obtain ⟨w,stop,hsc,hfo,hw,hst,hl⟩ := scanDigits_follows hb hf'
    have hsh : stop.length < (c::cs).length := lt_succ_of_le hl
    have hh : (c::cs).head? ≠ some '0' := fun h => h0 (some.inj h)
    refine ⟨w,stop,?_,hw,hsh,by rw [follows_digit hc,hfo],hst⟩
    rw [rubyStrtoul,skipSpaces_digit hc]
    simp only [if_neg hh,scanDigits_digit hb hc hlt,hsc,if_pos hsh,Bool.false_eq_true,
      if_false,if_true]

lemma parseDigits_eq {s p str : List Char} (sign : Bool) (hb : 0 < base) (hb' : base ≤ 36)
    (hs : s=p++str) (hsq : Squeezed str) :
    parseDigits s sign base true str=verdict s sign (follows base true 0 str) := by
  cases str with
  | nil => exact if_pos fun d hd => by cases hd
  | cons c cs =>
    rw [parseDigits]
    cases hc : digitOf base c with
    | none =>
      rw [if_pos (first_digit_iff.mpr hc),follows_due hc]
      rfl
    | some d =>
      rw [if_neg fun h => by rw [first_digit_iff.mp h] at hc; cases hc]
      have hg := bigparse_follows sign hb hb' hc hs
      by_cases hbi : bitsPerChar base*(c::cs).length ≤ 64
      · have hfi : base^(c::cs).length ≤ 2^64 := by
          refine (Nat.pow_le_pow_left (le_two_pow_bitsPerChar base (by omega)) _).trans ?_
          rw [← pow_mul]
          exact Nat.pow_le_pow_right (by decide) hbi
        obtain ⟨w,rest,hwo,hw,hl,hf,hst⟩ :=
          rubyStrtoul_follows hb hc hsq hfi
        simp only [hwo,hbi,hl,hl.ne,true_and,false_or]
        by_cases hu : rest.head? = some '_'
        · rw [if_neg (not_not.mpr hu)]
          exact hg
        · have hr : follows base false w rest=if skipSpaces rest=[] then some w else none := by
            cases rest with
            | nil => rfl
            | cons c' rest =>
              exact follows_stop (hst c' rfl) (fun h => hu (congrArg some h)) w rest
          rw [if_pos hu,hf,hr]
          by_cases hsp : skipSpaces rest=[]
          · rw [if_neg (not_not.mpr hsp),if_pos hsp,shortInteger_eq sign hw]
            rfl
          · rw [if_pos hsp,if_neg hsp]
            rfl
      · simp only [hbi]
        exact hg

end Zeros

variable {base : ℤ} {s : List Char}

lemma skipPrefix_suffix (r : ℤ) (str : List Char) : skipPrefix r str <:+ str := by
  rcases skipPrefix_cases r str with ⟨c,cs,rfl,-,hs⟩ | ⟨-,hs⟩
  · rw [hs]
    exact ⟨['0',c],rfl⟩
  · rw [hs]

lemma digits_suffix (s : List Char) (r : ℤ) :
    squeezeZeros (skipPrefix r (readSign (skipSpaces s)).2) <:+ s := by
  obtain ⟨text,ht,-⟩ := readSign_spec (skipSpaces s)
  have hs : (readSign (skipSpaces s)).2 <:+ skipSpaces s := ⟨text,ht.symm⟩
  exact ((squeezeZeros_suffix _).trans (skipPrefix_suffix r _)).trans
    (hs.trans (dropWhile_suffix isspace))

lemma unsigned_sign {str : List Char}
    (h : str.head? = some '+' ∨ str.head? = some '-') : unsigned base str=none := by
  by_contra hv
  obtain ⟨v,hv⟩ := ne_none_iff_exists'.mp hv
  obtain ⟨c,cs,d,rfl,hc⟩ := unsigned_head (unsigned_iff.mp hv)
  obtain ⟨-,hp,hm,-,-⟩ := convDigit_some hc
  rcases h with h | h
  · exact hp (some.inj h)
  · exact hm (some.inj h)

def Decides (number : Option ℤ) (result : Except Error Integer) : Prop :=
  match number with
  | some n => result=.ok (canonical n)
  | none => ∃ e,e ≠ .outOfBounds ∧ result=.error e

lemma decides_verdict (s : List Char) (sign : Bool) (v : Option ℕ) :
    Decides (v.map (fun v => ofSign sign v)) (verdict s sign v) := by
  cases v with
  | some v => rfl
  | none => exact ⟨.invalidValue s,by simp,rfl⟩

lemma rbCstrToInum_strict (s : List Char) (base : ℤ) :
    rbCstrToInum s base true=generalCstrToInum s base true ∧
      Decides (denoted base s) (rbCstrToInum s base true) := by
  have hsu := digits_suffix s (chooseBase base (readSign (skipSpaces s)).2)
  rw [rbCstrToInum,generalCstrToInum,denoted]
  generalize readSign (skipSpaces s)=r at hsu ⊢
  obtain ⟨sign,str⟩ := r
  dsimp only at hsu ⊢
  by_cases hs : str.head? = some '+' ∨ str.head? = some '-'
  · rw [if_pos hs,if_pos hs,unsigned_sign hs]
    exact ⟨rfl,.invalidValue s,by simp,rfl⟩
  rw [if_neg hs,if_neg hs,unsigned]
  by_cases hr : chooseBase base str < 2 ∨ 36 < chooseBase base str
  · simp only [if_pos hr]
    exact ⟨trivial,.invalidRadix _,by simp,rfl⟩
  simp only [if_neg hr]
  have hpo : 0 < (chooseBase base str).toNat := by omega
  have hl : (chooseBase base str).toNat ≤ 36 := by omega
  obtain ⟨p,hp⟩ := hsu
  rw [parseDigits_eq sign hpo hl hp.symm (squeezed_squeezeZeros _),
    generalDigits_eq sign hpo hl hp.symm,follows_squeezeZeros hpo]
  exact ⟨rfl,decides_verdict s sign _⟩

lemma nul_not_mem {n : ℤ} (h : Literal base s n) : nul ∉ s := by
  have hs {cs : List Char} (hcs : Spaces cs) : nul ∉ cs := fun hm =>
    absurd (hcs nul hm) (by decide)
  obtain ⟨lead,text,sign,str,v,rfl,hle,hsi,⟨pre,body,trail,r,ds,rfl,hr,hb,ht,-⟩,-⟩ := h
  have hte : nul ∉ text := by cases hsi <;> decide
  have hp : nul ∉ pre := by
    have hl {c : Char} (hc : c ∈ prefixLetters r) : nul ∉ ['0',c] := by
      intro hm
      rw [mem_pair] at hm
      rcases hm with hm | rfl
      · exact absurd hm (by decide)
      · rcases mem_prefixLetters.mp hc with ⟨-,h | h⟩ | ⟨-,h | h⟩ | ⟨-,h | h⟩ | ⟨-,h | h⟩
        all_goals exact absurd h (by decide)
    cases hr with
    | marked _ hc | chosen _ hc => exact hl hc
    | given | octal | decimal | negated => exact not_mem_nil
  have hb' : nul ∉ body := by
    have hd {c : Char} {d : ℕ} (hc : digitOf r c=some d) : nul ≠ c := by
      rintro rfl
      exact some_ne_none d (digitOf_eq_some.mp hc).1.symm
    clear hr
    induction hb with
    | one hc => simpa using hd hc
    | next hc _ ih => exact not_mem_cons_of_ne_of_not_mem (hd hc) ih
    | underscore hc _ ih =>
      exact not_mem_cons_of_ne_of_not_mem (hd hc) (not_mem_cons_of_ne_of_not_mem (by decide) ih)
  simp only [mem_append,not_or]
  exact ⟨hs hle,hte,hp,hb',hs ht⟩

lemma cstr_of_not_mem (h : nul ∉ s) : cstr s=s := by
  rw [cstr,takeWhile_eq_self_iff]
  intro c hc
  simp only [decide_not,Bool.not_eq_eq_eq_not,Bool.not_true,decide_eq_false_iff_not]
  rintro rfl
  exact h hc

/-- A number is returned for the literals, the one that is denoted, and an
`ArgumentError` is raised for every other text; both ways give this result. -/
def StrictOn (s : List Char) (base : ℤ) : Prop :=
  (match rbStrToInum s base true with
    | .ok v => ∃ n,v=canonical n ∧ ∀ m,Literal base s m ↔ m=n
    | .error e => e ≠ .outOfBounds ∧ ∀ m,¬Literal base s m) ∧
  rbStrToInum s base true=generalCstrToInum (cstr s) base true

/-- Strict parsing accepts the literals, unless a literal is followed by a `NUL`. -/
theorem strictOn_iff (s : List Char) (base : ℤ) :
    StrictOn s base ↔ nul ∉ s ∨ ∀ n,¬Literal base (cstr s) n := by
  obtain ⟨hw,hd⟩ := rbCstrToInum_strict (cstr s) base
  have hwh (m : ℤ) (hm : Literal base s m) : denoted base (cstr s)=some m := by
    rw [cstr_of_not_mem (nul_not_mem hm)]
    exact denoted_iff.mpr hm
  rw [StrictOn,rbStrToInum]
  cases hde : denoted base (cstr s) with
  | some n =>
    rw [hde] at hd
    have ho : rbCstrToInum (cstr s) base true=.ok (canonical n) := hd
    have hl : ¬∀ n,¬Literal base (cstr s) n := fun h => h n (denoted_iff.mp hde)
    simp only [ho,hl,or_false]
    constructor
    · rintro ⟨⟨m,-,hm⟩,-⟩
      exact nul_not_mem ((hm m).mpr rfl)
    · intro hnu
      refine ⟨⟨n,rfl,fun m => ?_⟩,ho.symm.trans hw⟩
      rw [cstr_of_not_mem hnu] at hde
      rw [← denoted_iff,hde,some_inj,eq_comm]
  | none =>
    rw [hde] at hd
    obtain ⟨e,he,her⟩ : ∃ e,e ≠ Error.outOfBounds ∧ rbCstrToInum (cstr s) base true=.error e := hd
    have hl : ∀ n,¬Literal base (cstr s) n := by
      intro n hn
      rw [denoted_iff.mpr hn] at hde
      cases hde
    simp only [her]
    refine ⟨fun _ => .inr hl,fun _ => ⟨⟨he,fun m hm => ?_⟩,her.symm.trans hw⟩⟩
    rw [hwh m hm] at hde
    cases hde

/-- What follows a `NUL` is not seen. -/
theorem strictOn_nul :
    rbStrToInum ['1',nul,'x'] 10 true = .ok (canonical 1) ∧ ¬StrictOn ['1',nul,'x'] 10 := by
  have hr : rbStrToInum ['1',nul,'x'] 10 true=.ok (canonical 1) := rfl
  refine ⟨hr,fun h => ?_⟩
  obtain ⟨n,-,hn⟩ := h.1
  exact nul_not_mem ((hn n).mpr rfl) (by decide)

end MacRuby.StrictParse
