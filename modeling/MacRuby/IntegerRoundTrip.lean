import MacRuby.IntegerParse
import MacRuby.IntegerText

/-!
# Printing and parsing integers

What `to_s` writes, `rb_cstr_to_inum` reads: the text of an integer has its
digits, as far as the estimated length has room for them, and the two ways of
the parser read any digits without leading zeros. So an integer is read back
exactly when the estimate is long enough, and not so long that the width of a
half is no `int`.
-/
namespace MacRuby.IntegerRoundTrip
open Digits DigitEstimate Integers RadixDigits PowerCache IntegerText
open IntegerParse (Reads convDigit ofSign signedText rbCstrToInum)

/-- The text of `n` is parsed, with strict checking, as `n`. -/
def RoundTrip (c : Cache) (n : ℤ) (b : Radix) : Prop :=
  ∃ text c',toS c (canonical n) b.base=.ok (text,c') ∧
    rbCstrToInum text b.base true=.ok (canonical n)

section Texts

lemma convDigit_digitChar : ∀ d < 36,convDigit (digitChar d)=some d := by decide

lemma reads_digitChar {ds : List ℕ} (hds : Below 36 ds) : Reads (ds.map digitChar) ds := by
  induction ds with
  | nil => exact .nil
  | cons d ds ih =>
    obtain ⟨hd,hr⟩ := below_cons.mp hds
    exact .cons (convDigit_digitChar d hd) (ih hr)

lemma withSign_eq (n : ℤ) (text : List Char) : withSign n text=signedText (decide (0 ≤ n)) text := by
  rw [withSign,signedText]
  by_cases h : n < 0
  · rw [if_pos h,if_neg (by simpa using h)]
  · rw [if_neg h,if_pos (by simpa using h)]

lemma ofSign_natAbs (n : ℤ) : ofSign (decide (0 ≤ n)) n.natAbs=n := by
  rw [ofSign]
  by_cases h : 0 ≤ n
  · rw [if_pos (by simpa using h)]
    omega
  · rw [if_neg (by simpa using h)]
    omega

variable (b : Radix) {x : ℕ} {text : List Char}

lemma rbCstrToInum_of_spelled (sign : Bool) (h : Spelled b.base x text) (hx : x ≠ 0) :
    rbCstrToInum (signedText sign text) b.base true=.ok (canonical (ofSign sign x)) := by
  obtain ⟨ds,hds,hh,hv,rfl⟩ := h
  have hb : Below 36 ds := fun d hd => (hds d hd).trans_le b.le_36
  have hn : ds ≠ [] := by
    rintro rfl
    exact hx hv.symm
  rw [IntegerParse.rbCstrToInum_reads sign b.two_le b.le_36 (reads_digitChar hb) hds hn hh, hv]

lemma rbCstrToInum_of_spelled_zero (sign : Bool) (h : Spelled b.base 0 text) :
    ∃ e,rbCstrToInum (signedText sign text) b.base true=.error e := by
  obtain ⟨ds,hds,hh,hv,rfl⟩ := h
  have hn : ds=[] := by
    cases ds with
    | nil => rfl
    | cons d ds =>
      have hd : 0 < d := pos_of_ne_zero fun hz => hh (congrArg some hz)
      have hl := le_horner_cons (b := b.base) hd ds
      have hp : 0 < b.base^ds.length := Nat.pow_pos (by have := b.two_le; omega)
      omega
  subst hn
  exact ⟨_,IntegerParse.rbCstrToInum_nil sign b.two_le b.le_36⟩

lemma rbCstrToInum_printed_iff {n : ℤ} (hn : n ≠ 0) (len : ℕ) :
    rbCstrToInum (withSign n (printed b.base len n.natAbs true)) b.base true=.ok (canonical n) ↔
      n.natAbs < b.base^len := by
  have hb : 0 < b.base := by have := b.two_le; omega
  have hs := spelled_printed hb len n.natAbs
  rw [withSign_eq]
  constructor
  · intro hp
    by_cases hz : n.natAbs%b.base^len=0
    · rw [hz] at hs
      obtain ⟨e,her⟩ := rbCstrToInum_of_spelled_zero b (decide (0 ≤ n)) hs
      rw [her] at hp
      exact absurd hp (by simp)
    · rw [rbCstrToInum_of_spelled b _ hs hz] at hp
      have he := congrArg Integer.toInt (Except.ok.inj hp)
      rw [canonical_toInt,canonical_toInt,ofSign] at he
      have hm : n.natAbs%b.base^len=n.natAbs := by
        generalize n.natAbs%b.base^len=y at he
        split_ifs at he <;> omega
      rw [← hm]
      exact Nat.mod_lt _ (Nat.pow_pos hb)
  · intro hl
    rw [Nat.mod_eq_of_lt hl] at hs
    rw [rbCstrToInum_of_spelled b _ hs (by omega),ofSign_natAbs]

end Texts

variable (c : Cache) (b : Radix) {n : ℤ}

lemma roundTrip_of_fixable (hn : Fixable n) : RoundTrip c n b := by
  rw [RoundTrip,canonical_of_fixable hn,toS]
  by_cases hz : n=0
  · refine ⟨['0'],c,?_,?_⟩
    · rw [hz,rbFix2str_zero]
      rfl
    · rw [hz]
      exact IntegerParse.rbCstrToInum_zero b.two_le b.le_36
  · refine ⟨withSign n (printed b.base 64 n.natAbs true),c,?_,?_⟩
    · rw [rbFix2str_eq hz hn]
      rfl
    · rw [← canonical_of_fixable hn,rbCstrToInum_printed_iff b hz]
      have hp : 2^64 ≤ b.base^64 := Nat.pow_le_pow_left b.two_le 64
      unfold Fixable at hn
      omega

lemma bigLength_lt (hle : textLength n b ≤ 2^31) (h : n.natAbs < b.base^textLength n b) (hn : n ≠ 0) :
    bigLength n < (2^63-1)/64 := by
  have hl := Nat.base_pow_length_digits_le bigrad n.natAbs one_lt_bigrad (by omega)
  have hh : n.natAbs < 2^(6*textLength n b) := by
    calc n.natAbs < b.base^textLength n b := h
      _ ≤ (2^6)^textLength n b := Nat.pow_le_pow_left (b.le_36.trans (by decide)) _
      _=2^(6*textLength n b) := by rw [pow_mul]
  have hp : 2^(64*bigLength n) < 2^(64+6*textLength n b) := by
    calc 2^(64*bigLength n)=bigrad^bigLength n := by rw [pow_mul]
      _ ≤ bigrad*n.natAbs := hl
      _ < bigrad*2^(6*textLength n b) := mul_lt_mul_of_pos_left hh (by decide)
      _=2^(64+6*textLength n b) := by rw [pow_add]
  have hlt := (Nat.pow_lt_pow_iff_right (by decide)).mp hp
  omega

/-- Only a Bignum whose text has room in the buffer and half of it in an `int` is
read back. -/
lemma room_of_roundTrip (hf : ¬Fixable n) (hn : n ≠ 0) (h : RoundTrip c n b) :
    textLength n b ≤ 2^31 ∧ n.natAbs < b.base^textLength n b := by
  obtain ⟨text,c',ht,hp⟩ := h
  by_cases hlo : (2^63-1)/64 ≤ bigLength n
  · rw [toS_of_long hf b c hlo] at ht
    exact absurd ht (by simp)
  by_cases hl : 2^31 < textLength n b
  · obtain ⟨m,he⟩ := toS_of_large hf b c (not_le.mp hlo) hl
    rw [he] at ht
    exact absurd ht (by simp)
  obtain ⟨c₁,ho⟩ := toS_eq_ok hf b c (not_le.mp hlo) (not_lt.mp hl)
  rw [ho] at ht
  rw [← (Prod.mk.inj (Except.ok.inj ht)).1,rbCstrToInum_printed_iff b hn] at hp
  exact ⟨not_lt.mp hl,hp⟩

lemma roundTrip_of_room (hf : ¬Fixable n) (hn : n ≠ 0) (hl : textLength n b ≤ 2^31)
    (hr : n.natAbs < b.base^textLength n b) : RoundTrip c n b := by
  obtain ⟨c₁,ho⟩ := toS_eq_ok hf b c (bigLength_lt b hl hr hn) hl
  exact ⟨_,c₁,ho,(rbCstrToInum_printed_iff b hn _).mpr hr⟩

lemma ne_zero_of_not_fixable (hf : ¬Fixable n) : n ≠ 0 := by
  rintro rfl
  exact hf (by decide)

/-- An integer is read back from its text exactly when it is a Fixnum, or the
estimated length has room for its digits and is at most 2^31. -/
theorem roundTrip_iff : RoundTrip c n b ↔
    Fixable n ∨ textLength n b ≤ 2^31 ∧ n.natAbs < b.base^textLength n b := by
  by_cases hf : Fixable n
  · exact ⟨fun _ => .inl hf,fun _ => roundTrip_of_fixable c b hf⟩
  have hn := ne_zero_of_not_fixable hf
  constructor
  · exact fun h => .inr (room_of_roundTrip c b hf hn h)
  · rintro (h | ⟨hl,hr⟩)
    · exact absurd h hf
    · exact roundTrip_of_room c b hf hn hl hr

lemma bigLength_pow (k : ℕ) : bigLength ((bigrad : ℤ)^k)=k+1 := by
  have ha : ((bigrad : ℤ)^k).natAbs=bigrad^k := by rw [Int.natAbs_pow,Int.natAbs_natCast]
  have hp : bigrad^k ≠ 0 := pow_ne_zero k (by decide)
  rw [bigLength,ha,Nat.length_digits bigrad _ one_lt_bigrad hp,Nat.log_pow one_lt_bigrad]

def emptyCache : Cache := fun _ _ => none

/-- `2^(2^31)` in binary: half of the estimated 2^31+64 characters is more than
2^30, so the width of the lower half is computed as `1 << 31`. -/
theorem binary_text_not_read_back :
    ¬RoundTrip emptyCache ((bigrad : ℤ)^2^25) ⟨2,by decide,by decide⟩ := by
  have hl : textLength ((bigrad : ℤ)^2^25) ⟨2,by decide,by decide⟩=2^31+64 := by
    rw [textLength,bigLength_pow]
    exact digitEstimate_two (by decide)
  have hla : (2 : ℤ)^61 ≤ (bigrad : ℤ)^2^25 := by
    calc (2 : ℤ)^61 ≤ (bigrad : ℤ)^1 := by decide
      _ ≤ (bigrad : ℤ)^2^25 := pow_le_pow_right₀ (by decide) Nat.one_le_two_pow
  have hf : ¬Fixable ((bigrad : ℤ)^2^25) := fun h => absurd h.2 (not_lt.mpr hla)
  intro h
  obtain ⟨hle,-⟩ := room_of_roundTrip emptyCache _ hf (ne_zero_of_not_fixable hf) h
  rw [hl] at hle
  exact absurd hle (by decide)

end MacRuby.IntegerRoundTrip
