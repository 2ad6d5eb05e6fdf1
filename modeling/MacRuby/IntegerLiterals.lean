import Mathlib.Data.List.TakeWhile
import MacRuby.IntegerParse

/-!
# The literals of integers

A literal is white space, a sign, a prefix that fits the radix, digits with
single underscores between them and white space. The grammar says which number
a text denotes; `denoted` decides it from left to right, in the order in which
the parser meets the characters.
-/
namespace MacRuby.IntegerLiterals
open RadixDigits IntegerParse List

def Spaces (cs : List Char) : Prop := ∀ c ∈ cs,isspace c=true

def digitOf (base : ℕ) (c : Char) : Option ℕ := (convDigit c).filter (fun d => decide (d < base))

inductive Numeral (base : ℕ) : List Char → List ℕ → Prop
  | one {c : Char} {d : ℕ} (hc : digitOf base c=some d) : Numeral base [c] [d]
  | next {c : Char} {d : ℕ} {cs : List Char} {ds : List ℕ} (hc : digitOf base c=some d)
      (h : Numeral base cs ds) : Numeral base (c::cs) (d::ds)
  | underscore {c : Char} {d : ℕ} {cs : List Char} {ds : List ℕ} (hc : digitOf base c=some d)
      (h : Numeral base cs ds) : Numeral base (c:: '_'::cs) (d::ds)

/-- The prefixes for the argument `base` and the radix that they give. A positive
argument is the radix. Otherwise the text chooses it: by the letter after a zero,
by a zero alone, and without one by the argument. -/
inductive Radix (base : ℤ) : List Char → List Char → ℕ → Prop
  | given {body : List Char} {r : ℕ} (hr : base=r) (h : 2 ≤ r) (h' : r ≤ 36) : Radix base [] body r
  | marked {body : List Char} {r : ℕ} {c : Char} (hr : base=r) (hc : c ∈ prefixLetters r) :
      Radix base ['0',c] body r
  | chosen {body : List Char} {r : ℕ} {c : Char} (hbase : base ≤ 0) (hc : c ∈ prefixLetters r) :
      Radix base ['0',c] body r
  | octal {body : List Char} (hbase : base ≤ 0) (hzero : body.head? = some '0') :
      Radix base [] body 8
  | decimal {body : List Char} (hbase : base=0 ∨ base = -1) (hzero : body.head? ≠ some '0') :
      Radix base [] body 10
  | negated {body : List Char} {r : ℕ} (hr : base = -r) (h : 2 ≤ r) (h' : r ≤ 36)
      (hzero : body.head? ≠ some '0') : Radix base [] body r

def Unsigned (base : ℤ) (str : List Char) (v : ℕ) : Prop :=
  ∃ pre body trail r ds,str=pre++(body++trail) ∧ Radix base pre body r ∧ Numeral r body ds ∧
    Spaces trail ∧ v=horner r ds

inductive Sign : List Char → Bool → Prop
  | none : Sign [] true
  | plus : Sign ['+'] true
  | minus : Sign ['-'] false

def Literal (base : ℤ) (s : List Char) (n : ℤ) : Prop :=
  ∃ lead text sign str v,s=lead++(text++str) ∧ Spaces lead ∧ Sign text sign ∧
    Unsigned base str v ∧ n=ofSign sign v

/-- The number of a text that goes on behind digits with the value `v`; `due`
says that a digit must come. -/
def follows (base : ℕ) : Bool → ℕ → List Char → Option ℕ
  | due,v,[] => if due then none else some v
  | due,v,c::cs =>
    match digitOf base c with
    | some d => follows base false (v*base+d) cs
    | none =>
      if due then none
      else if c = '_' then follows base true v cs
      else if skipSpaces (c::cs)=[] then some v else none

def unsigned (base : ℤ) (str : List Char) : Option ℕ :=
  let radix := chooseBase base str
  if radix < 2 ∨ 36 < radix then none
  else follows radix.toNat true 0 (skipPrefix radix str)

def denoted (base : ℤ) (s : List Char) : Option ℤ :=
  let (sign,str) := readSign (skipSpaces s)
  (unsigned base str).map (fun v => ofSign sign v)

section Characters
variable {base : ℕ} {c : Char} {d : ℕ} {cs : List Char}

lemma digitOf_eq_some : digitOf base c=some d ↔ convDigit c=some d ∧ d < base := by
  rw [digitOf,Option.filter_eq_some_iff,decide_eq_true_eq]

lemma digitOf_eq_none : digitOf base c=none ↔ ∀ d,convDigit c=some d → base ≤ d := by
  rw [digitOf]
  simp

lemma skipSpaces_eq_nil : skipSpaces cs=[] ↔ Spaces cs := by
  rw [skipSpaces,dropWhile_eq_nil_iff]
  rfl

lemma spaces_cons : Spaces (c::cs) ↔ isspace c=true ∧ Spaces cs := by
  rw [Spaces,forall_mem_cons]
  rfl

lemma isspace_of_digitOf (h : digitOf base c=some d) : isspace c=false :=
  (convDigit_some (digitOf_eq_some.mp h).1).1

lemma digitOf_of_isspace (h : isspace c=true) : digitOf base c=none := by
  by_contra hdigit
  obtain ⟨d,hd⟩ := Option.ne_none_iff_exists'.mp hdigit
  rw [isspace_of_digitOf hd] at h
  cases h

lemma ne_underscore_of_digitOf (h : digitOf base c=some d) : c ≠ '_' :=
  (convDigit_some (digitOf_eq_some.mp h).1).2.2.2.1

lemma digitOf_zero (h : 0 < base) : digitOf base '0'=some 0 := digitOf_eq_some.mpr ⟨rfl,h⟩

lemma mem_prefixLetters {r : ℤ} : c ∈ prefixLetters r ↔
    (r=2 ∧ (c = 'b' ∨ c = 'B')) ∨ (r=8 ∧ (c = 'o' ∨ c = 'O')) ∨
      (r=10 ∧ (c = 'd' ∨ c = 'D')) ∨ (r=16 ∧ (c = 'x' ∨ c = 'X')) := by
  rw [prefixLetters]
  split_ifs with h h h h <;> simp_all

lemma letter_stops {r : ℕ} (hc : c ∈ prefixLetters r) (hb : base=r ∨ base=8) :
    digitOf base c=none ∧ c ≠ '_' ∧ isspace c=false := by
  rcases mem_prefixLetters.mp hc with ⟨hr,rfl | rfl⟩ | ⟨hr,rfl | rfl⟩ | ⟨hr,rfl | rfl⟩ |
    ⟨hr,rfl | rfl⟩
  all_goals
    obtain rfl : r=_ := Int.ofNat.inj hr
    obtain rfl | rfl := hb
    all_goals exact ⟨rfl,by decide,rfl⟩

/-- A numeral and white space, with its value on top of `v`. -/
def Continues (base v : ℕ) (str : List Char) (w : ℕ) : Prop :=
  ∃ body trail ds,str=body++trail ∧ Numeral base body ds ∧ Spaces trail ∧ w=accumulate base v ds

lemma not_continues_nil {v w : ℕ} : ¬Continues base v [] w := by
  rintro ⟨body,trail,ds,hs,hb,-,-⟩
  have hn : body=[] := (append_eq_nil_iff.mp hs.symm).1
  subst hn
  cases hb

/-- What stands behind the first digit: white space, a numeral, or an underscore and one. -/
lemma continues_cons {v w : ℕ} {cs : List Char} : Continues base v (c::cs) w ↔
    ∃ d,digitOf base c=some d ∧ ((Spaces cs ∧ w=v*base+d) ∨ Continues base (v*base+d) cs w ∨
      ∃ cs',cs = '_'::cs' ∧ Continues base (v*base+d) cs' w) := by
  constructor
  · rintro ⟨body,trail,ds,hs,hb,ht,hw⟩
    cases hb with
    | @one c' d hc =>
      obtain ⟨rfl,rfl⟩ := cons.inj hs
      exact ⟨d,hc,.inl ⟨ht,hw⟩⟩
    | @next c' d cs' ds hc hr =>
      obtain ⟨rfl,rfl⟩ := cons.inj hs
      exact ⟨d,hc,.inr (.inl ⟨cs',trail,ds,rfl,hr,ht,hw⟩)⟩
    | @underscore c' d cs' ds hc hr =>
      obtain ⟨rfl,rfl⟩ := cons.inj hs
      exact ⟨d,hc,.inr (.inr ⟨_,rfl,cs',trail,ds,rfl,hr,ht,hw⟩)⟩
  · rintro ⟨d,hc,⟨ht,hw⟩ | ⟨body,trail,ds,rfl,hb,ht,hw⟩ | ⟨_,rfl,body,trail,ds,rfl,hb,ht,hw⟩⟩
    · exact ⟨[c],cs,[d],rfl,.one hc,ht,hw⟩
    · exact ⟨c::body,trail,d::ds,rfl,.next hc hb,ht,hw⟩
    · exact ⟨c:: '_'::body,trail,d::ds,rfl,.underscore hc hb,ht,hw⟩

lemma follows_digit {d : ℕ} (hc : digitOf base c=some d) (due : Bool) (v : ℕ)
    (cs : List Char) : follows base due v (c::cs)=follows base false (v*base+d) cs := by
  rw [follows,hc]

lemma follows_due (hc : digitOf base c=none) (v : ℕ) (cs : List Char) :
    follows base true v (c::cs)=none := by
  rw [follows,hc]
  rfl

lemma follows_underscore (v : ℕ) (cs : List Char) :
    follows base false v ('_'::cs)=follows base true v cs := rfl

lemma follows_stop (hc : digitOf base c=none) (hc' : c ≠ '_') (v : ℕ) (cs : List Char) :
    follows base false v (c::cs)=if skipSpaces (c::cs)=[] then some v else none := by
  rw [follows,hc]
  simp only [Bool.false_eq_true,if_false,if_neg hc']

lemma follows_iff (v w : ℕ) (cs : List Char) :
    (follows base true v cs=some w ↔ Continues base v cs w) ∧ (follows base false v cs=some w ↔
        (Spaces cs ∧ w=v) ∨ Continues base v cs w ∨
          ∃ cs',cs = '_'::cs' ∧ Continues base v cs' w) := by
  induction cs generalizing v with
  | nil =>
    have hsp : Spaces [] := fun c hc => absurd hc not_mem_nil
    simp [follows,not_continues_nil,hsp,eq_comm]
  | cons c cs ih =>
    cases hc : digitOf base c with
    | some d =>
      have hs : ¬Spaces (c::cs) := by
        rw [spaces_cons,isspace_of_digitOf hc]
        simp
      have hu : ¬∃ cs',c::cs = '_'::cs' ∧ Continues base v cs' w := by
        rintro ⟨cs',he,-⟩
        exact ne_underscore_of_digitOf hc (cons.inj he).1
      have hst : follows base false (v*base+d) cs=some w ↔ Continues base v (c::cs) w := by
        rw [(ih (v*base+d)).2,continues_cons]
        simp [hc]
      rw [follows_digit hc,follows_digit hc,hst]
      simp only [hs,hu,false_and,or_false,false_or,and_self]
    | none =>
      have hn : ¬Continues base v (c::cs) w := by
        rw [continues_cons]
        simp [hc]
      refine ⟨by simp [follows_due hc,hn],?_⟩
      by_cases hu : c = '_'
      · subst hu
        have hs : ¬Spaces ('_'::cs) := by
          rw [spaces_cons]
          exact fun h => absurd h.1 (by decide)
        rw [follows_underscore,(ih v).1]
        simp [hs,hn]
      · rw [follows_stop hc hu,ite_eq_iff,skipSpaces_eq_nil]
        simp [hn,hu,eq_comm]

end Characters

variable {r : ℕ}
variable {base : ℤ} {c : Char} {str body trail : List Char} {v : ℕ} {ds : List ℕ}

lemma follows_letter {base : ℕ} (hc : c ∈ prefixLetters r) (hb : base=r ∨ base=8)
    (due : Bool) (v : ℕ) (cs : List Char) : follows base due v (c::cs)=none := by
  obtain ⟨hd,hu,hs⟩ := letter_stops hc hb
  cases due with
  | true => exact follows_due hd v cs
  | false =>
    rw [follows_stop hd hu,if_neg]
    rw [skipSpaces_eq_nil,spaces_cons,hs]
    simp

lemma follows_zero_letter {base : ℕ} (hc : c ∈ prefixLetters r)
    (hb : base=r ∨ base=8) (v : ℕ) (cs : List Char) : follows base true v ('0'::c::cs)=none := by
  cases hz : digitOf base '0' with
  | some d => rw [follows_digit hz,follows_letter hc hb]
  | none => exact follows_due hz v _

lemma skipPrefix_cases (r : ℤ) (str : List Char) :
    (∃ c cs,str = '0'::c::cs ∧ c ∈ prefixLetters r ∧ skipPrefix r str=cs) ∨
      ((∀ c cs,str = '0'::c::cs → c ∉ prefixLetters r) ∧ skipPrefix r str=str) := by
  match str with
  | [] => exact .inr ⟨fun c cs h => (by cases h),rfl⟩
  | [_] => exact .inr ⟨fun c cs h => (by cases h),rfl⟩
  | c::d::str =>
    by_cases h : c = '0' ∧ d ∈ prefixLetters r
    · obtain ⟨rfl,hd⟩ := h
      exact .inl ⟨d,str,rfl,hd,if_pos ⟨rfl,hd⟩⟩
    · refine .inr ⟨fun c' cs he hc' => h ?_,if_neg h⟩
      obtain ⟨rfl,hr⟩ := cons.inj he
      obtain ⟨rfl,-⟩ := cons.inj hr
      exact ⟨rfl,hc'⟩

lemma skipPrefix_of_follows {w : ℕ} (h : follows r true v str=some w) : skipPrefix r str=str := by
  rcases skipPrefix_cases r str with ⟨c,cs,rfl,hc,-⟩ | ⟨-,hs⟩
  · rw [follows_zero_letter hc (.inl rfl)] at h
    cases h
  · exact hs

lemma skipPrefix_letter {r : ℤ} (hc : c ∈ prefixLetters r) (cs : List Char) :
    skipPrefix r ('0'::c::cs)=cs := if_pos ⟨rfl,hc⟩

lemma chooseBase_pos (hb : 0 < base) (str : List Char) :
    chooseBase base str=base := if_neg (not_le.mpr hb)

lemma chooseBase_letter (hb : base ≤ 0) {r : ℤ}
    (hc : c ∈ prefixLetters r) (cs : List Char) : chooseBase base ('0'::c::cs)=r := by
  rw [chooseBase,if_pos hb]
  rcases mem_prefixLetters.mp hc with ⟨rfl,rfl | rfl⟩ | ⟨rfl,rfl | rfl⟩ | ⟨rfl,rfl | rfl⟩ |
    ⟨rfl,rfl | rfl⟩
  all_goals rfl

lemma chooseBase_zero (hb : base ≤ 0) {cs : List Char}
    (hc : ∀ c cs',cs=c::cs' → ∀ r : ℕ,c ∉ prefixLetters r) : chooseBase base ('0'::cs)=8 := by
  rw [chooseBase,if_pos hb]
  cases cs with
  | nil => rfl
  | cons c cs =>
    have h2 := hc c cs rfl 2
    have h8 := hc c cs rfl 8
    have h10 := hc c cs rfl 10
    have h16 := hc c cs rfl 16
    simp only [prefixLetters] at h2 h8 h10 h16
    split <;> simp_all

lemma chooseBase_other (hb : base ≤ 0)
    (hz : str.head? ≠ some '0') : chooseBase base str=if base < -1 then -base else 10 := by
  rw [chooseBase,if_pos hb,if_neg hz]

lemma head_append {base : ℕ} (h : Numeral base body ds)
    (trail : List Char) : (body++trail).head? = body.head? := by
  cases h <;> rfl

lemma radix_found {pre : List Char} (hr : Radix base pre body r) (hbo : Numeral r body ds)
    (hf : follows r true 0 (body++trail)=some v) :
    chooseBase base (pre++(body++trail))=r ∧ 2 ≤ r ∧ r ≤ 36 ∧
      skipPrefix r (pre++(body++trail))=body++trail := by
  have hh := head_append hbo trail
  have hs := skipPrefix_of_follows hf
  have hl {c : Char} (hc : c ∈ prefixLetters r) : 2 ≤ r ∧ r ≤ 36 := by
    have := mem_prefixLetters.mp hc
    omega
  cases hr with
  | given hr h h' => exact ⟨by rw [chooseBase_pos (by omega),hr],h,h',hs⟩
  | marked hr hc =>
    obtain ⟨h,h'⟩ := hl hc
    exact ⟨by rw [chooseBase_pos (by omega),hr],h,h',skipPrefix_letter hc _⟩
  | chosen hb hc =>
    obtain ⟨h,h'⟩ := hl hc
    exact ⟨chooseBase_letter hb hc _,h,h',skipPrefix_letter hc _⟩
  | octal hb hz =>
    refine ⟨?_,by decide,by decide,hs⟩
    obtain ⟨cs,hcs⟩ : ∃ cs,body++trail = '0'::cs := by
      rw [← hh] at hz
      exact head?_eq_some_iff.mp hz
    rw [hcs]
    rw [hcs] at hf
    refine chooseBase_zero hb fun c cs' hc r' hl' => ?_
    rw [hc,follows_zero_letter hl' (.inr rfl)] at hf
    cases hf
  | decimal hb hz =>
    rw [← hh] at hz
    refine ⟨?_,by decide,by decide,hs⟩
    rw [nil_append,chooseBase_other (by omega) hz,if_neg (by omega)]
    rfl
  | negated hr h h' hz =>
    rw [← hh] at hz
    refine ⟨?_,h,h',hs⟩
    rw [nil_append,chooseBase_other (by omega) hz,if_pos (by omega),hr,neg_neg]

lemma radix_of_chooseBase (hr : chooseBase base str=r) (h : 2 ≤ r) (h' : r ≤ 36)
    (hn : ∀ c cs,str = '0'::c::cs → c ∉ prefixLetters r) (hs : str=body++trail)
    (hbo : Numeral r body ds) : Radix base [] body r := by
  have hh : str.head? = body.head? := by rw [hs,head_append hbo]
  by_cases hb : 0 < base
  · exact .given (by rw [← hr,chooseBase_pos hb]) h h'
  have hb : base ≤ 0 := not_lt.mp hb
  by_cases hz : str.head? = some '0'
  · obtain ⟨cs,rfl⟩ := head?_eq_some_iff.mp hz
    have height : chooseBase base ('0'::cs)=8 := by
      refine chooseBase_zero hb fun c cs' hc r' hl => ?_
      subst hc
      have hra : (r : ℤ)=r' := by rw [← hr,chooseBase_letter hb hl]
      rw [← hra] at hl
      exact hn c cs' rfl hl
    obtain rfl : r=8 := by omega
    exact .octal hb (by rw [← hh,hz])
  · rw [chooseBase_other hb hz] at hr
    rw [hh] at hz
    by_cases hlo : base < -1
    · exact .negated (by omega) h h' hz
    · obtain rfl : r=10 := by omega
      exact .decimal (by omega) hz

lemma unsigned_iff : unsigned base str=some v ↔ Unsigned base str v := by
  constructor
  · intro h
    rw [unsigned] at h
    simp only [ite_eq_iff,reduceCtorEq,and_false,false_or,not_or] at h
    obtain ⟨⟨hl,hh⟩,h⟩ := h
    obtain ⟨r,hr⟩ := Int.eq_ofNat_of_zero_le (show 0 ≤ chooseBase base str by omega)
    rw [hr] at hl hh h
    obtain ⟨body,trail,ds,hst,hb,ht,hv⟩ := (follows_iff 0 v _).1.mp h
    rcases skipPrefix_cases r str with ⟨c,cs,rfl,hc,hs⟩ | ⟨hn,hs⟩
    · rw [hs] at hst
      subst hst
      refine ⟨['0',c],body,trail,r,ds,rfl,?_,hb,ht,hv⟩
      by_cases hba : 0 < base
      · exact .marked (by rw [← hr,chooseBase_pos hba]) hc
      · exact .chosen (not_lt.mp hba) hc
    · rw [hs] at hst
      exact ⟨[],body,trail,r,ds,hst,radix_of_chooseBase hr (by omega) (by omega) hn hst hb,
        hb,ht,hv⟩
  · rintro ⟨pre,body,trail,r,ds,rfl,hr,hb,ht,rfl⟩
    have hf : follows r true 0 (body++trail)=some (horner r ds) :=
      (follows_iff _ _ _).1.mpr ⟨body,trail,ds,rfl,hb,ht,rfl⟩
    obtain ⟨hch,h,h',hs⟩ := radix_found hr hb hf
    rw [unsigned]
    simp only [hch,hs,Int.toNat_natCast,hf]
    exact if_neg (by omega)

lemma readSign_spec (cs : List Char) :
    ∃ text,cs=text++(readSign cs).2 ∧ Sign text (readSign cs).1 := by
  cases cs with
  | nil => exact ⟨[],rfl,.none⟩
  | cons c cs =>
    rw [readSign]
    split_ifs with hp hm
    · rw [hp]
      exact ⟨['+'],rfl,.plus⟩
    · rw [hm]
      exact ⟨['-'],rfl,.minus⟩
    · exact ⟨[],rfl,.none⟩

lemma unsigned_head {str : List Char} (h : Unsigned base str v) :
    ∃ c cs d,str=c::cs ∧ convDigit c=some d := by
  obtain ⟨pre,body,trail,r,ds,rfl,hr,hb,-,-⟩ := h
  have hf : ∃ c cs d,body=c::cs ∧ convDigit c=some d := by
    cases hb with
    | one hc | next hc _ | underscore hc _ => exact ⟨_,_,_,rfl,(digitOf_eq_some.mp hc).1⟩
  obtain ⟨c,cs,d,rfl,hc⟩ := hf
  cases hr with
  | marked | chosen => exact ⟨_,_,_,rfl,rfl⟩
  | given | octal | decimal | negated => exact ⟨_,_,_,rfl,hc⟩

lemma readSign_sign {text str : List Char} {sign : Bool}
    (hsi : Sign text sign) (h : Unsigned base str v) :
    readSign (skipSpaces (text++str))=(sign,str) := by
  obtain ⟨c,cs,d,rfl,hc⟩ := unsigned_head h
  obtain ⟨hs,hp,hm,-,-⟩ := convDigit_some hc
  cases hsi with
  | none =>
    rw [nil_append,skipSpaces,dropWhile_cons_of_neg (by simp [hs]),readSign, if_neg hp,if_neg hm]
  | plus | minus => rfl

lemma denoted_iff {s : List Char} {n : ℤ} : denoted base s=some n ↔ Literal base s n := by
  constructor
  · intro h
    obtain ⟨text,ht,hs⟩ := readSign_spec (skipSpaces s)
    obtain ⟨v,hv,hn⟩ : ∃ v,unsigned base (readSign (skipSpaces s)).2=some v ∧
        ofSign (readSign (skipSpaces s)).1 v=n := Option.map_eq_some_iff.mp h
    refine ⟨s.takeWhile isspace,text,_,_,v,?_,?_,hs,unsigned_iff.mp hv,hn.symm⟩
    · rw [← ht]
      exact takeWhile_append_dropWhile.symm
    · exact fun c hc => mem_takeWhile_imp hc
  · rintro ⟨lead,text,sign,str,v,rfl,hl,hs,hv,rfl⟩
    have hsk : skipSpaces (lead++(text++str))=skipSpaces (text++str) :=
      dropWhile_append_of_pos hl
    rw [denoted,hsk,readSign_sign hs hv]
    simp only [unsigned_iff.mpr hv,Option.map_some]

end MacRuby.IntegerLiterals
