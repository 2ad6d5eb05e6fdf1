import MacRuby.MarshalValues

/-!
# Marshalling of Integers

A Fixnum whose tagged word has 32 bits is written as a `long`. Every other
Integer is written as a sign, the number of its 16-bit pieces and the pieces.
The loader makes room for too few digits unless the pieces nearly fill the last
one, and it puts the bytes of a digit together with shifts of an `int`.

An Integer survives on every machine exactly when it is written as a `long`.
-/
namespace MacRuby.MarshalIntegers
open Faults MarshalFormat MarshalLoad MarshalValues Integers Digits List Nat

def pieceCount : ℕ → ℕ → ℕ
  | 0,_ => 0
  | n+1,num => if num=0 then 0 else pieceCount n (num/2^16)+1

/-- `shortlen`; the result is an `int`. -/
def shortlen (ds : List ℕ) : ℤ :=
  (((ds.length-1)*8/2+pieceCount 4 (ds.getLastD 0) : ℕ) : ℤ).bmod (2^32)

def wShort (x : ℕ) : Bytes := [byte x,byte (x/256)]

/-- The pieces of a digit; those of the last digit end where nothing is left. -/
def wDigit (last : Bool) : ℕ → ℕ → Bytes
  | 0,_ => []
  | n+1,num => wShort (num%2^16)++if last ∧ num/2^16=0 then [] else wDigit last n (num/2^16)

def wDigits : List ℕ → Bytes
  | [] => []
  | d::ds => wDigit (ds=[]) 4 d++wDigits ds

/-- `w_object` of a Bignum. -/
def wBignum (b : Bignum) : Except DumpError Bytes := do
  let head ← wLong (shortlen b.digits)
  pure (Tag.bignum.code::(if b.sign then 43 else 45)::(head++wDigits b.digits))

/-- `w_object` of a Fixnum: the test is on the tagged word. -/
def wFixnum (x : BitVec 62) : Except DumpError Bytes := do
  let obj := long (4*fix2long x+1)
  if obj/2^31=0 ∨ obj/2^31 = -1 then
    let bs ← wLong (fix2long x)
    pure (Tag.fixnum.code::bs)
  else wBignum (rbInt2big (fix2long x))

def wInteger : Integer → Except DumpError Bytes
  | .fixnum x => wFixnum x
  | .bignum b => wBignum b

/-- `Marshal.dump` of an Integer. -/
def dumpInteger (x : Integer) : Except DumpError Bytes := do
  let bs ← wInteger x
  pure (4::8::bs)

variable {D : Type} {n : ℤ}

/-- The Fixnums that are written as a `long`. -/
def Short (n : ℤ) : Prop := -2^29 ≤ n ∧ n < 2^29

lemma short_iff (h : Fixable n) : (long (4*n+1)/2^31=0 ∨ long (4*n+1)/2^31 = -1) ↔ Short n := by
  unfold Fixable at h
  rw [long_eq (by omega) (by omega),Short]
  omega

lemma wFixnum_of_short (h : Short n) :
    ∃ bs, wLong n=.ok bs ∧ wFixnum (long2fix n)=.ok (Tag.fixnum.code::bs) := by
  have hs : Short n := h
  unfold Short at h
  have hf : Fixable n := ⟨by omega,by omega⟩
  obtain ⟨bs,hb⟩ := (wLong_ok_iff n).mpr ⟨by omega,by omega⟩
  refine ⟨bs,hb,?_⟩
  simp only [wFixnum,fix2long_long2fix hf]
  rw [if_pos ((short_iff hf).mpr hs),hb]
  rfl

lemma wFixnum_of_not_short (hf : Fixable n) (h : ¬Short n) :
    wFixnum (long2fix n)=wBignum (rbInt2big n) := by
  simp only [wFixnum,fix2long_long2fix hf]
  rw [if_neg (mt (short_iff hf).mp h)]

lemma loadPlain_of_short (h : Short n) (pf : Platform D) (mach : Machine) :
    ∃ bs arg, dumpInteger (canonical n)=.ok bs ∧
      loadPlain pf mach bs=.ok (.integer (canonical n)) arg := by
  have hfi : Fixable n := by
    unfold Short at h
    exact ⟨by omega,by omega⟩
  obtain ⟨bs,hl,hf⟩ := wFixnum_of_short h
  have hd : dumpInteger (canonical n)=.ok (4::8::Tag.fixnum.code::bs) := by
    rw [canonical_of_fixable hfi,dumpInteger,wInteger,hf]
    rfl
  let arg : LoadArg (Val D) (Heap D) := ⟨4::8::Tag.fixnum.code::bs,2,[],[],⟨[],.false⟩⟩
  have hu : (arg.skip 1).unread=bs++[] := (append_nil bs).symm
  have ht : arg.unread=Tag.fixnum.code::bs := rfl
  have hr : Returns (rFixnum (plainEnv pf)) (arg.skip 1) (.integer (.fixnum (long2fix n)))
      ((arg.skip 1).skip bs.length) := rFixnum_returns hl hu
  refine ⟨_,(arg.skip 1).skip bs.length,hd,?_⟩
  rw [canonical_of_fixable hfi]
  exact rObject_returns ht (hr.bind returns_pure)

variable {pf : Platform D} {es : List ℕ} {top : ℕ} {len : ℤ}
variable {arg' : LoadArg (Val D) (Heap D)} {b : Bignum}

lemma digitCount_eq (h : 0 ≤ len) (h' : len < 2^31) : (digitCount len : ℤ)=(len+1)/4 := by
  rw [digitCount,long_eq (by omega) (by omega)]
  omega

lemma rBignum_value {mach : Machine} {arg : LoadArg (Val D) (Heap D)} {v : Val D} {c : UInt8}
    {head rest : Bytes} (hw : wLong len=.ok head) (hu : arg.unread=c::(head++rest))
    (h : Returns (rBignum (plainEnv pf) mach) arg v arg') : 0 ≤ long (len*2) ∧ ∃ sign copied,
      v=.integer (bignorm (ofDigits sign (rDigits mach copied (digitCount len)))) := by
  have hb : Returns (rByte : Load (Val D) (Heap D) Unit UInt8) arg c (arg.skip 1) :=
    rByte_returns hu
  have hl : Returns (rLong : Load (Val D) (Heap D) Unit ℤ) (arg.skip 1) len
      ((arg.skip 1).skip head.length) := by
    refine rLong_returns hw (?_ : _=head++rest)
    rw [unread_skip,hu]
    rfl
  obtain ⟨sign,arg₁,hs,h⟩ := h.of_bind
  obtain ⟨-,rfl⟩ := hb.unique hs
  obtain ⟨len',arg₂,hle,h⟩ := h.of_bind
  obtain ⟨rfl,rfl⟩ := hl.unique hle
  obtain ⟨data,arg₃,hd,h⟩ := h.of_bind
  obtain ⟨-,arg₄,-,h⟩ := h.of_bind
  obtain ⟨copied,arg₅,-,h⟩ := h.of_bind
  obtain ⟨big,arg₆,hbi,h⟩ := h.of_bind
  obtain ⟨rfl,-⟩ := (rEntryLeave_returns big).unique h
  obtain ⟨rfl,-⟩ := (returns_call rfl).unique hbi
  have hr : 0 ≤ long (len*2) := by
    rcases rBytes0_data hd with ⟨-,hz⟩ | ⟨-,hn,-⟩
    · omega
    · exact hn
  exact ⟨hr,_,copied,rfl⟩

/-- A machine on which a shift beyond the range of an `int` gives zero. -/
def zeroing : Machine where
  shl b s := if s < 32 ∧ b.toNat*2^s < 2^31 then BitVec.ofNat 32 (b.toNat*2^s) else 0
  shl_eq _ _ hs hb := if_pos ⟨hs,hb⟩
  junk _ := 0

lemma zeroing_shl_lt (b : UInt8) (s : ℕ) : ((zeroing.shl b s).signExtend 64).toNat < 2^31 := by
  have hl : (zeroing.shl b s).toNat < 2^31 := by
    change (if _ then _ else _ : BitVec 32).toNat < _
    split_ifs with h
    · rw [BitVec.toNat_ofNat,mod_eq_of_lt (by omega)]
      exact h.2
    · decide
  have hm : (zeroing.shl b s).msb=false := by
    rw [BitVec.msb_eq_decide]
    exact decide_eq_false (by omega)
  rw [BitVec.signExtend_eq_setWidth_of_msb_false hm,BitVec.toNat_setWidth, mod_eq_of_lt (by omega)]
  exact hl

lemma rDigit_zeroing_lt (p : ℕ → UInt8) : (rDigit zeroing p).toNat < 2^31 := by
  have hl : ∀ (is : List ℕ) num, num.toNat < 2^31 →
      (is.foldl (fun num i => num ||| (zeroing.shl (p i) (8*i)).signExtend 64) num).toNat < 2^31 := by
    intro is
    induction is with
    | nil => exact fun num h => h
    | cons i is ih =>
      intro num h
      refine ih _ ?_
      exact or_lt_two_pow h (zeroing_shl_lt _ _)
  exact hl _ _ (by decide)

/-- Digits of 31 bits have a smaller value than a number with more digits, or with a top digit
of more than 32 bits. -/
lemma ofDigits_lt_of_short {ds : List ℕ} (hds : Below (2^31) ds)
    (hl : ds.length ≤ es.length+1) (ht : top ≠ 0) (hf : ds.length=es.length+1 → 2^32 ≤ top) :
    Nat.ofDigits bigrad ds < Nat.ofDigits bigrad (es++[top]) := by
  have hb : Below bigrad ds := fun d hd => lt_trans (hds d hd) (by decide)
  have hv : bigrad^es.length*top ≤ Nat.ofDigits bigrad (es++[top]) := by
    rw [ofDigits_concat]
    exact le_add_left _ _
  rcases lt_or_eq_of_le hl with hs | heq
  · calc Nat.ofDigits bigrad ds < bigrad^ds.length :=
          ofDigits_lt_base_pow_length one_lt_bigrad hb
      _ ≤ bigrad^es.length := Nat.pow_le_pow_right (by decide) (by omega)
      _ ≤ bigrad^es.length*top := Nat.le_mul_of_pos_right _ (pos_of_ne_zero ht)
      _ ≤ _ := hv
  · obtain ⟨init,d,rfl⟩ : ∃ init d, ds=init++[d] := by
      refine ⟨ds.dropLast,ds.getLast (ne_nil_of_length_pos (by omega)),?_⟩
      exact (dropLast_append_getLast _).symm
    have hi : init.length=es.length := by
      rw [length_append,length_singleton] at heq
      omega
    have hd : d < 2^31 := hds d (by simp)
    have hlo : Nat.ofDigits bigrad init < bigrad^init.length :=
      ofDigits_lt_base_pow_length one_lt_bigrad fun e he => hb e (by simp [he])
    calc Nat.ofDigits bigrad (init++[d])=Nat.ofDigits bigrad init+bigrad^init.length*d :=
          ofDigits_concat _ _
      _ < bigrad^init.length+bigrad^init.length*d := Nat.add_lt_add_right hlo _
      _=bigrad^es.length*(d+1) := by rw [hi]; ring
      _ ≤ bigrad^es.length*top := mul_le_mul_left _ (by have := hf heq; omega)
      _ ≤ _ := hv

lemma pieceCount_le (n num : ℕ) : pieceCount n num ≤ n := by
  induction n generalizing num with
  | zero => exact le_rfl
  | succ n ih =>
    rw [pieceCount]
    split_ifs
    · omega
    · exact succ_le_succ (ih _)

lemma le_of_three_le_pieceCount {num : ℕ} (h : 3 ≤ pieceCount 4 num) : 2^32 ≤ num := by
  simp only [pieceCount] at h
  split_ifs at h <;> omega

lemma bmod_natCast_le (n m : ℕ) : (n : ℤ).bmod m ≤ n := by
  have hm : (n : ℤ)%m ≤ n := mod_cast mod_le n m
  rw [Int.bmod_def]
  split <;> omega

lemma shortlen_le (es : List ℕ) (top : ℕ) :
    shortlen (es++[top]) ≤ (4*es.length+pieceCount 4 top : ℕ) := by
  have hl : (es++[top]).getLastD 0=top := by simp
  have hle : ((es++[top]).length-1)*8/2=4*es.length := by
    rw [length_append,length_singleton]
    omega
  unfold shortlen
  simp only [hl,hle]
  exact bmod_natCast_le _ _

lemma rDigits_zeroing_lt (ht : top ≠ 0) (hlen : 0 ≤ shortlen (es++[top]))
    (hlen' : shortlen (es++[top]) < 2^31) (copied : Bytes) :
    Below (2^31) (rDigits zeroing copied (digitCount (shortlen (es++[top])))) ∧
      Nat.ofDigits bigrad (rDigits zeroing copied (digitCount (shortlen (es++[top])))) <
        Nat.ofDigits bigrad (es++[top]) := by
  have hc := digitCount_eq hlen hlen'
  have hle := shortlen_le es top
  have hp := pieceCount_le 4 top
  have hl : ∀ q, (rDigits zeroing copied q).length=q := by
    intro q
    rw [rDigits,length_map,length_range]
  have hs : ∀ q, Below (2^31) (rDigits zeroing copied q) := by
    intro q d hd
    obtain ⟨k,-,rfl⟩ := mem_map.mp hd
    exact rDigit_zeroing_lt _
  refine ⟨hs _,ofDigits_lt_of_short (hs _) (by rw [hl]; omega) ht fun he => ?_⟩
  rw [hl] at he
  exact le_of_three_le_pieceCount (by omega)

lemma loadPlain_wBignum_lt (hdi : b.digits=es++[top])
    (hto : top ≠ 0) {bs : Bytes} (hw : wBignum b=.ok bs) {x : Integer}
    (h : loadPlain pf zeroing (4::8::bs)=.ok (.integer x) arg') :
    x.toInt.natAbs < b.toInt.natAbs := by
  obtain ⟨head,hh,hw⟩ := ok_of_bind hw
  cases hw
  let arg : LoadArg (Val D) (Heap D) :=
    ⟨4::8::Tag.bignum.code::(if b.sign then 43 else 45)::head++wDigits b.digits,2,[],[],
      ⟨[],.false⟩⟩
  have ht : arg.unread=Tag.bignum.code::(if b.sign then 43 else 45)::head++wDigits b.digits :=
    rfl
  change (rObject _ _ _ arg).2=_ at h
  rw [rObject_eq _ ht] at h
  obtain ⟨r,arg₁,hr,hx⟩ := Returns.of_bind h
  obtain ⟨v,arg₂,hv,hr⟩ := Returns.of_bind hr
  obtain ⟨rfl,rfl⟩ := returns_pure.unique hr
  obtain ⟨rfl,rfl⟩ := returns_pure.unique hx
  obtain ⟨hn,sign,copied,hb⟩ := rBignum_value hh rfl hv
  cases hb
  obtain ⟨hlo,hhi⟩ := (wLong_ok_iff _).mp ⟨head,hh⟩
  rw [long_eq (by omega) (by omega)] at hn
  rw [bignorm_eq,canonical_toInt,toInt_natAbs,toInt_natAbs]
  rw [hdi] at hhi hn ⊢
  obtain ⟨hs,hl⟩ := rDigits_zeroing_lt hto (by omega) hhi copied
  rw [ofDigits_digits fun d hd => lt_trans (hs d hd) (by decide)]
  exact hl

lemma exists_top (hn : n ≠ 0) (h : b.digits=Nat.digits bigrad n.natAbs) :
    ∃ es top, b.digits=es++[top] ∧ top ≠ 0 := by
  have hne : digits bigrad n.natAbs ≠ [] :=
    digits_ne_nil_iff_ne_zero.mpr (Int.natAbs_ne_zero.mpr hn)
  refine ⟨_,_,h.trans (dropLast_append_getLast hne).symm,?_⟩
  exact getLast_digit_ne_zero bigrad (Int.natAbs_ne_zero.mpr hn)

lemma wInteger_of_not_short (h : ¬Short n) : ∃ b, wInteger (canonical n)=wBignum b ∧ b.toInt=n ∧
      ∃ es top, b.digits=es++[top] ∧ top ≠ 0 := by
  have hn : n ≠ 0 := by
    rintro rfl
    exact h ⟨by decide,by decide⟩
  by_cases hf : Fixable n
  · have hr : -2^63 ≤ n ∧ n < 2^63 := by
      unfold Fixable at hf
      omega
    obtain ⟨hv,hd⟩ := rbInt2big_spec hr.1 hr.2
    refine ⟨rbInt2big n,?_,hv,[],n.natAbs,hd,Int.natAbs_ne_zero.mpr hn⟩
    rw [canonical_of_fixable hf]
    exact wFixnum_of_not_short hf h
  · refine ⟨Bignum.ofInt n,?_,ofInt_toInt n,exists_top hn rfl⟩
    rw [canonical_of_not_fixable hf]
    rfl

/-- `Marshal.load(Marshal.dump(n)) == n`. -/
def Survives {D : Type} (pf : Platform D) (mach : Machine) (n : ℤ) : Prop :=
  ∃ bs x arg, dumpInteger (canonical n)=.ok bs ∧ loadPlain pf mach bs=.ok (.integer x) arg ∧
    x.toInt=n

/-- An integer survives whatever C leaves open exactly when it has 30 bits. -/
theorem survives_iff {D : Type} (pf : Platform D) (n : ℤ) :
    (∀ mach, Survives pf mach n) ↔ -2^29 ≤ n ∧ n < 2^29 := by
  constructor
  · intro h
    by_contra hla
    obtain ⟨bs,x,arg,hd,hl,hx⟩ := h zeroing
    obtain ⟨b,hwr,hb,es,top,hdi,ht⟩ := wInteger_of_not_short hla
    rw [dumpInteger,hwr] at hd
    obtain ⟨ws,hw,hd⟩ := ok_of_bind hd
    cases hd
    have hlt := loadPlain_wBignum_lt hdi ht hw hl
    rw [hx,hb] at hlt
    exact lt_irrefl _ hlt
  · intro h mach
    obtain ⟨bs,arg,hd,hl⟩ := loadPlain_of_short h pf mach
    exact ⟨bs,_,arg,hd,hl,canonical_toInt n⟩

set_option maxRecDepth 10000 in
/-- The first Fixnum that is written in pieces: there is no room for its only digit. -/
theorem first_long_fixnum_loads_as_zero :
    dumpInteger (canonical (2^29)) = .ok [4,8,108,43,7,0,0,0,32] ∧
    ∀ {D : Type} (pf : Platform D) (mach : Machine), ∃ arg,
      loadPlain pf mach [4,8,108,43,7,0,0,0,32] = .ok (.integer (canonical 0)) arg := by
  have hf : Fixable (2^29) := by decide
  have hl : ¬Short (2^29) := by
    unfold Short
    decide
  have hw : wBignum (rbInt2big (2^29))=.ok [108,43,7,0,0,0,32] := by
    simp only [wBignum,(rbInt2big_spec (n := 2^29) (by decide) (by decide)).2]
    rfl
  constructor
  · rw [canonical_of_fixable hf,dumpInteger,wInteger,wFixnum_of_not_short hf hl,hw]
    rfl
  · exact fun pf mach => ⟨_,rfl⟩

end MacRuby.MarshalIntegers
