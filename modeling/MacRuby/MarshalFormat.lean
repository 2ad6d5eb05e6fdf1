import MacRuby.Faults
import MacRuby.TwosComplement

/-!
# Bytes of the Marshal format

The primitives of the writer and the reader: single bytes, `long`s of at most
four bytes behind a count, and sequences of bytes behind their length. The
reader works on a string and an offset into it. Every access to memory is
written with its range: one outside the string, a buffer of negative size and a
copy beyond a buffer are faults.

A `long` goes through bytes unchanged.
-/
namespace MacRuby.MarshalFormat
open Faults TwosComplement List

abbrev Bytes := List UInt8

instance : LawfulBEq Bytes := inferInstanceAs (LawfulBEq (List UInt8))

def cstr (bs : Bytes) : Bytes := bs.takeWhile (· ≠ 0)

/-- A `char`. -/
def byte (x : ℤ) : UInt8 := UInt8.ofNat (x%256).toNat

def signExtendChar (c : UInt8) : ℤ := (c.toNat : ℤ).bmod 256

/-- What `Marshal.dump` raises. -/
inductive DumpError
  /-- `TypeError`: "long too big to dump". -/
  | longTooBig
  /-- A `long` that leaves the buffer of `w_long`. -/
  | overrun
  /-- A negative number of bytes. -/
  | negativeSize
  /-- `TypeError`: "can't dump Float". -/
  | cantDumpFloat
  /-- `ArgumentError`: "exceed depth limit". -/
  | depthLimit
  /-- The rounds of the model did not suffice. -/
  | rounds
  deriving DecidableEq

/-- The loop of `w_long` from round `i` on: the count and the bytes. -/
def wLongLoop : ℕ → ℕ → ℤ → Option (ℤ × Bytes)
  | 0,_,_ => none
  | n+1,i,x =>
    if x/256=0 then some (i,[byte x])
    else if x/256 = -1 then some (-i,[byte x])
    else (wLongLoop n (i+1) (x/256)).map (fun r => (r.1,byte x::r.2))

def wLong (x : ℤ) : Except DumpError Bytes :=
  if ¬(x/2^31=0 ∨ x/2^31 = -1) then .error .longTooBig
  else if x=0 then .ok [0]
  else if 0 < x ∧ x < 123 then .ok [byte (x+5)]
  else if -124 < x ∧ x < 0 then .ok [byte (x-5)]
  else
    match wLongLoop 8 1 x with
    | some (head,bs) => .ok (byte head::bs)
    | none => .error .overrun

/-- `w_bytes`; the length becomes an `int`. -/
def wBytes (s : Bytes) (len : ℤ) : Except DumpError Bytes := do
  let n := len.bmod (2^32)
  let head ← wLong n
  if n < 0 then .error .negativeSize else .ok (head++s.take n.toNat)

variable {V W E : Type}

/-- What `Marshal.load` raises by itself; `E` are the errors of what it calls. -/
inductive LoadError (E : Type)
  /-- `ArgumentError`: "marshal data too short". -/
  | tooShort
  /-- `TypeError`: "long too big for this architecture". -/
  | longTooBig (size : ℤ)
  /-- `ArgumentError`: "bad symbol". -/
  | badSymbol
  /-- `ArgumentError`: "dump format error(0x%x)". -/
  | formatError (type : UInt8)
  /-- `ArgumentError`: "dump format error (unlinked)". -/
  | unlinked
  /-- `TypeError`: "singleton can't be loaded". -/
  | singleton
  /-- `TypeError`: "struct %s not compatible (:%s for :%s)". -/
  | structMember (slot member : Bytes)
  /-- `ArgumentError`: "negative array size (or size too big)" or "array size too big". -/
  | arraySize (len : ℤ)
  /-- `TypeError`: "incompatible marshal file format (can't be read)". -/
  | incompatible (major minor : UInt8)
  | other (e : E)

/-- `struct load_arg`: the string, how much of it is read, the symbols and objects
met so far by number, and the world outside. -/
structure LoadArg (V W : Type) where
  src : Bytes
  offset : ℕ
  symbols : List Bytes
  data : List V
  world : W

/-- What the loader takes on trust: the number of bytes to copy from the string,
and the number of 16-bit pieces to copy into a Bignum. -/
inductive Request
  | bytes (len : ℤ)
  | digits (len : ℤ)
  deriving DecidableEq

abbrev Load (V W E : Type) : Type → Type := Comp Request (LoadError E) (LoadArg V W)

def LoadArg.skip (arg : LoadArg V W) (n : ℕ) : LoadArg V W := {arg with offset := arg.offset+n}

def rByte : Load V W E UInt8 := do
  let arg ← state
  if arg.src.length > arg.offset then
    match arg.src[arg.offset]? with
    | some c => do
      update (·.skip 1)
      pure c
    | none => fault
  else raise .tooShort

/-- The bytes of a `long`; those of a negative one replace bytes of -1. -/
def rLongLoop (neg : Bool) : ℕ → ℕ → BitVec 64 → Load V W E (BitVec 64)
  | 0,_,x => pure x
  | n+1,i,x => do
    let x := if neg then x &&& ~~~(255#64 <<< (8*i)) else x
    let c ← rByte
    rLongLoop neg n (i+1) (x ||| (BitVec.ofNat 64 c.toNat <<< (8*i)))

def rLong : Load V W E ℤ := do
  let c ← rByte
  let c := signExtendChar c
  if c=0 then pure 0
  else if c > 0 then
    if 4 < c ∧ c < 128 then pure (c-5)
    else if c > 8 then raise (.longTooBig c)
    else do
      let x ← rLongLoop false c.toNat 0 0
      pure x.toInt
  else
    if -129 < c ∧ c < -4 then pure (c+5)
    else if -c > 8 then raise (.longTooBig (-c))
    else do
      let x ← rLongLoop true (-c).toNat 0 (-1)
      pure x.toInt

def newBuffer (size : ℤ) : Load V W E Unit := if size < 0 then fault else pure ()

/-- `memcpy` of `n` bytes of the source, from `off` on, to a buffer of `size` bytes. -/
def memcpy (source : Bytes) (off : ℕ) (n size : ℤ) : Load V W E Bytes :=
  if 0 ≤ n ∧ off+n ≤ source.length ∧ n ≤ size then pure ((source.drop off).take n.toNat) else fault

/-- `r_bytes0`: the bytes with a NUL behind them. -/
def rBytes0 (len : ℤ) : Load V W E Bytes :=
  if len=0 then pure []
  else do
    let arg ← state
    if (arg.src.length : ℤ)-arg.offset ≥ len then
      request (.bytes len)
      newBuffer (len+1)
      let data ← memcpy arg.src arg.offset len (len+1)
      update (·.skip len.toNat)
      pure (data++[0])
    else raise .tooShort

def rBytes : Load V W E Bytes := do
  let len ← rLong
  rBytes0 len

/-- A C string, read up to its NUL; the pointer of the empty String has one. -/
def readCstr (data : Bytes) : Load V W E Bytes :=
  if data=[] ∨ 0 ∈ data then pure (cstr data) else fault

variable {j : ℕ}

/-- Bit `j` of a little-endian sequence of bytes. -/
def bitAt (bs : Bytes) (j : ℕ) : Bool := (bs.getD (j/8) 0).toNat.testBit (j%8)

lemma bitAt_cons (b : UInt8) (bs : Bytes) (j : ℕ) :
    bitAt (b::bs) j=if j < 8 then b.toNat.testBit j else bitAt bs (j-8) := by
  unfold bitAt
  split_ifs with hj
  · rw [Nat.div_eq_of_lt hj,Nat.mod_eq_of_lt hj,getD_cons_zero]
  · have hd : j/8=(j-8)/8+1 := by omega
    have hm : (j-8)%8=j%8 := by omega
    rw [hd,getD_cons_succ,hm]

lemma bit_div (n : ℤ) (a b : ℕ) : bit (n/2^a) b=bit n (a+b) := by
  rw [bit,bit,Int.ediv_ediv_of_nonneg (by positivity),← pow_add]

lemma byte_toNat (x : ℤ) : (byte x).toNat=(x%256).toNat := by
  have hl : (x%256).toNat < 256 := by omega
  exact Nat.mod_eq_of_lt hl

lemma byte_testBit (x : ℤ) (hj : j < 8) : (byte x).toNat.testBit j=bit x j := by
  have hs : x=(byte x).toNat+2^8*(x/256) := by
    rw [byte_toNat]
    omega
  conv_rhs => rw [hs]
  rw [bit_add_mul (byte x).toNat_lt,if_pos hj]

lemma bitAt_byte (x : ℤ) (hj : j < 8) : bitAt [byte x] j=bit x j := by
  rw [bitAt_cons,if_pos hj,byte_testBit x hj]

lemma wLongLoop_spec {m n i : ℕ} {x : ℤ} (hm : 0 < m) (hmn : m ≤ n)
    (hx : x/256^m=0 ∨ x/256^m = -1) :
    ∃ head bs, wLongLoop n i x=some (head,bs) ∧ 0 < bs.length ∧ bs.length ≤ m ∧
      (head=(i+bs.length : ℤ)-1 ∧ x/256^bs.length=0 ∨
        head = -((i+bs.length : ℤ)-1) ∧ x/256^bs.length = -1) ∧
      ∀ j, j < 8*bs.length → bitAt bs j=bit x j := by
  induction m generalizing n i x with
  | zero => omega
  | succ m ih =>
    obtain ⟨n,rfl⟩ : ∃ k, n=k+1 := ⟨n-1,by omega⟩
    rw [wLongLoop]
    split_ifs with hz hmi
    · refine ⟨_,_,rfl,by simp,by simp,.inl ⟨by simp,by simpa using hz⟩,?_⟩
      exact fun j hj => bitAt_byte x (by simpa using hj)
    · refine ⟨_,_,rfl,by simp,by simp,.inr ⟨by simp,by simpa using hmi⟩,?_⟩
      exact fun j hj => bitAt_byte x (by simpa using hj)
    have hp : ∀ k, x/256^(k+1)=x/256/256^k := by
      intro k
      rw [pow_succ',Int.ediv_ediv_of_nonneg (by decide)]
    have hmp : 0 < m := by
      rcases m with _ | m <;> omega
    rw [hp] at hx
    obtain ⟨head,bs,hl,hpo,hle,hh,hb⟩ := ih (n := n) hmp (by omega) hx
    refine ⟨head,byte x::bs,by rw [hl]; rfl,by simp,by simpa using hle,?_,?_⟩
    · rw [length_cons,hp]
      rcases hh with ⟨hh,hr⟩ | ⟨hh,hr⟩
      · exact .inl ⟨by omega,hr⟩
      · exact .inr ⟨by omega,hr⟩
    · intro j hj
      rw [length_cons] at hj
      rw [bitAt_cons]
      split_ifs with hlo
      · exact byte_testBit x hlo
      · have hd := bit_div x 8 (j-8)
        rw [hb (j-8) (by omega)]
        rw [show 8+(j-8)=j by omega] at hd
        exact hd

variable {arg : LoadArg V W} {rest bs : Bytes} {c : UInt8} {neg : Bool}
variable {x : BitVec 64} {len : ℤ}

def LoadArg.unread (arg : LoadArg V W) : Bytes := arg.src.drop arg.offset

lemma unread_skip (n : ℕ) : (arg.skip n).unread=arg.unread.drop n := by
  rw [LoadArg.unread,LoadArg.unread,drop_drop]
  rfl

lemma skip_skip (m n : ℕ) : (arg.skip m).skip n=arg.skip (m+n) := by
  rw [LoadArg.skip,LoadArg.skip,LoadArg.skip,add_assoc]

lemma length_unread (arg : LoadArg V W) : arg.unread.length=arg.src.length-arg.offset :=
  length_drop

lemma rByte_eq (h : arg.unread=c::rest) :
    (rByte : Load V W E UInt8) arg=([],.ok c (arg.skip 1)) := by
  have hl := length_unread arg
  rw [h,length_cons] at hl
  have hg : arg.src[arg.offset]? = some c := by
    have hz : arg.unread[0]? = some c := by rw [h]; rfl
    rw [LoadArg.unread,getElem?_drop] at hz
    exact hz
  have hs : (state : Load V W E (LoadArg V W)) arg=([],.ok arg arg) := rfl
  rw [rByte,bind_of_ok hs,if_pos (by omega),hg]
  rfl

lemma rByte_returns (h : arg.unread=c::rest) :
    Returns (rByte : Load V W E UInt8) arg c (arg.skip 1) := by
  rw [Returns,rByte_eq h]

lemma putByte_getLsbD {i : ℕ}
    (hx : ∀ j, 8*i ≤ j → j < 64 → x.getLsbD j=neg) (j : ℕ) (hj : j < 64) :
    ((if neg then x &&& ~~~(255#64 <<< (8*i)) else x) |||
      (BitVec.ofNat 64 c.toNat <<< (8*i))).getLsbD j = if j < 8*i then x.getLsbD j
    else if j < 8*i+8 then c.toNat.testBit (j-8*i) else neg := by
  have hma : (255#64).getLsbD (j-8*i)=decide (j-8*i < 8) := by
    have h255 : (255#64).toNat=2^8-1 := rfl
    rw [← BitVec.testBit_toNat,h255,Nat.testBit_two_pow_sub_one]
  have hw : (BitVec.ofNat 64 c.toNat).getLsbD (j-8*i)=c.toNat.testBit (j-8*i) := by
    rw [BitVec.getLsbD_ofNat,decide_eq_true (by omega),Bool.true_and]
  have hi : (if neg then x &&& ~~~(255#64 <<< (8*i)) else x).getLsbD j =
      (x.getLsbD j && !(neg && !decide (j < 8*i) && decide (j-8*i < 8))) := by
    cases neg with
    | false =>
      rw [if_neg Bool.false_ne_true]
      simp only [Bool.false_and,Bool.not_false,Bool.and_true]
    | true =>
      rw [if_pos rfl]
      simp only [BitVec.getLsbD_and,BitVec.getLsbD_not,BitVec.getLsbD_shiftLeft,hma,hj,decide_true,
        Bool.true_and]
  rw [BitVec.getLsbD_or,hi,BitVec.getLsbD_shiftLeft,hw,decide_eq_true hj]
  by_cases hl : j < 8*i
  · rw [if_pos hl,decide_eq_true hl]
    simp only [Bool.not_true,Bool.and_false,Bool.false_and,Bool.not_false,Bool.and_true,Bool.or_false]
  rw [decide_eq_false hl,hx j (by omega) hj]
  split_ifs with hm
  · rw [decide_eq_true (by omega)]
    cases neg <;> rfl
  · have hc : c.toNat.testBit (j-8*i)=false := Nat.testBit_lt_two_pow
      (lt_of_lt_of_le c.toNat_lt (Nat.pow_le_pow_right (by decide) (by omega)))
    rw [decide_eq_false (by omega),hc]
    cases neg <;> rfl

lemma rLongLoop_spec {n i : ℕ}
    (hn : bs.length=n) (hf : 8*(i+n) ≤ 64) (hx : ∀ j, 8*i ≤ j → j < 64 → x.getLsbD j=neg)
    (h : arg.unread=bs++rest) :
    ∃ y, Returns (rLongLoop neg n i x : Load V W E (BitVec 64)) arg y (arg.skip n) ∧
      ∀ j, j < 64 → y.getLsbD j =
        if j < 8*i then x.getLsbD j else if j < 8*(i+n) then bitAt bs (j-8*i) else neg := by
  induction n generalizing i x bs arg with
  | zero =>
    refine ⟨x,returns_pure,fun j hj => ?_⟩
    rw [add_zero]
    split_ifs with hl
    · rfl
    · exact hx j (by omega) hj
  | succ n ih =>
    cases bs with
    | nil => exact absurd hn (by simp)
    | cons c bs =>
      rw [length_cons] at hn
      have hby := rByte_returns (E := E) h
      have hr : (arg.skip 1).unread=bs++rest := by
        rw [unread_skip,h]
        rfl
      have hb := putByte_getLsbD (c := c) hx
      obtain ⟨y,hy,hyb⟩ := ih (i := i+1) (by omega) (by omega)
        fun j hj hlt => by rw [hb j hlt,if_neg (by omega),if_neg (by omega)] hr
      refine ⟨y,?_,fun j hj => ?_⟩
      · rw [skip_skip,add_comm 1 n] at hy
        exact hby.bind hy
      · rw [hyb j hj,hb j hj,bitAt_cons]
        by_cases hl : j < 8*i
        · rw [if_pos (by omega),if_pos hl,if_pos hl]
        by_cases hm : j < 8*i+8
        · rw [if_pos (by omega),if_neg hl,if_pos hm,if_neg hl,if_pos (by omega), if_pos (by omega)]
        · rw [if_neg (by omega),if_neg hl,if_neg (by omega : ¬j-8*i < 8)]
          by_cases hh : j < 8*(i+(n+1))
          · rw [if_pos (by omega),if_pos hh]
            congr 1
          · rw [if_neg (by omega),if_neg hh]

lemma signExtendChar_byte {y : ℤ} (h : -128 ≤ y) (h' : y ≤ 127) : signExtendChar (byte y)=y := by
  have hc : (byte y).toNat=y%256 := by
    rw [byte_toNat]
    omega
  have hch : signExtendChar (byte y)=(y%256).bmod 256 :=
    congrArg (fun n => n.bmod 256) hc
  rw [hch,Int.bmod_def]
  split <;> omega

lemma rLongLoop_returns {x : ℤ} (hle : bs.length ≤ 4)
    (hx : x/256^bs.length=if neg then -1 else 0) (hb : ∀ j, j < 8*bs.length → bitAt bs j=bit x j)
    (h : arg.unread=bs++rest) :
    ∃ y : BitVec 64, Returns (rLongLoop neg bs.length 0 (if neg then -1 else 0) : Load V W E _) arg y
      (arg.skip bs.length) ∧ y.toInt=x := by
  have hs : ∀ j, 8*0 ≤ j → j < 64 → (if neg then -1 else 0 : BitVec 64).getLsbD j=neg := by
    intro j _ hj
    cases neg with
    | false => exact BitVec.getLsbD_zero
    | true => rw [if_pos rfl,show -1=BitVec.allOnes 64 by decide,BitVec.getLsbD_allOnes,decide_eq_true hj]
  obtain ⟨y,hr,hy⟩ := rLongLoop_spec rfl (by omega) hs h
  refine ⟨y,hr,eq_of_bit fun k => ?_⟩
  have hh : ∀ j, 8*bs.length ≤ j → bit x j=neg := by
    intro j hj
    have hd := bit_div x (8*bs.length) (j-8*bs.length)
    rw [pow_mul,show (2 : ℤ)^8=256 by decide,hx,Nat.add_sub_cancel' hj] at hd
    rw [← hd]
    cases neg with
    | false => exact bit_zero _
    | true => exact bit_neg_one _
  have hw : ∀ j, j < 64 → y.getLsbD j=bit x j := by
    intro j hj
    rw [hy j hj,if_neg (by omega),zero_add]
    split_ifs with hl
    · exact hb j hl
    · exact (hh j (by omega)).symm
  rw [bit_toInt]
  split_ifs with hk
  · exact hw k hk
  · rw [hw 63 (by decide),hh 63 (by omega),hh k (by omega)]

lemma rLong_returns {x : ℤ} (hw : wLong x=.ok bs) (h : arg.unread=bs++rest) :
    Returns (rLong : Load V W E ℤ) arg x (arg.skip bs.length) := by
  unfold wLong at hw
  split_ifs at hw with hbi hz hp hn
  · cases hw
    refine (rByte_returns h).bind ?_
    rw [show signExtendChar 0=0 by decide,hz]
    exact returns_pure
  · cases hw
    refine (rByte_returns h).bind ?_
    rw [signExtendChar_byte (by omega) (by omega),if_neg (by omega),if_pos (by omega),
      if_pos (by omega),add_sub_cancel_right]
    exact returns_pure
  · cases hw
    refine (rByte_returns h).bind ?_
    rw [signExtendChar_byte (by omega) (by omega),if_neg (by omega),if_neg (by omega),
      if_pos (by omega),sub_add_cancel]
    exact returns_pure
  · have hsh : x/256^4=0 ∨ x/256^4 = -1 := by omega
    obtain ⟨head,ds,hl,hlen,hle,hh,hb⟩ :=
      wLongLoop_spec (n := 8) (by decide) (by decide) hsh
    rw [hl] at hw
    cases hw
    have hre : (arg.skip 1).unread=ds++rest := by
      rw [unread_skip,h]
      rfl
    have hby := rByte_returns (E := E) h
    rw [length_cons,add_comm,← skip_skip]
    rcases hh with ⟨hh,hx⟩ | ⟨hh,hx⟩
    · have hs : x/256^ds.length=if false then -1 else 0 := hx
      obtain ⟨y,hr,hy⟩ := rLongLoop_returns hle hs hb hre
      have hc : signExtendChar (byte head)=ds.length := by
        rw [signExtendChar_byte (by omega) (by omega)]
        omega
      refine hby.bind ?_
      rw [hc,if_neg (by omega),if_pos (by omega),if_neg (by omega),if_neg (by omega),← hy]
      exact hr.bind returns_pure
    · have hs : x/256^ds.length=if true then -1 else 0 := hx
      obtain ⟨y,hr,hy⟩ := rLongLoop_returns hle hs hb hre
      have hc : signExtendChar (byte head) = -ds.length := by
        rw [signExtendChar_byte (by omega) (by omega)]
        omega
      refine hby.bind ?_
      rw [hc,if_neg (by omega),if_neg (by omega),if_neg (by omega),if_neg (by omega),neg_neg,← hy]
      exact hr.bind returns_pure

lemma wLong_ok_iff (x : ℤ) : (∃ bs, wLong x=.ok bs) ↔ -2^31 ≤ x ∧ x < 2^31 := by
  constructor
  · intro hw
    by_contra hr
    rw [wLong,if_pos (by omega)] at hw
    exact nomatch hw
  · intro hr
    rw [wLong,if_neg (by omega)]
    split_ifs with hz hp hn
    · exact ⟨_,rfl⟩
    · exact ⟨_,rfl⟩
    · exact ⟨_,rfl⟩
    · have hs : x/256^4=0 ∨ x/256^4 = -1 := by omega
      obtain ⟨head,ds,hl,-⟩ :=
        wLongLoop_spec (n := 8) (by decide) (by decide) hs
      rw [hl]
      exact ⟨_,rfl⟩

/-- A number of 32 bits is read back from its bytes, whatever follows them, and the
reader stops where they end; any other number is refused. -/
theorem rLong_wLong (V W E : Type) (x : ℤ) :
    if -2^31 ≤ x ∧ x < 2^31 then
      ∃ bs, wLong x = .ok bs ∧ ∀ (arg : LoadArg V W) (rest : Bytes), arg.unread = bs++rest →
        Returns (rLong : Load V W E ℤ) arg x (arg.skip bs.length)
    else wLong x = .error .longTooBig := by
  split_ifs with hr
  · obtain ⟨bs,hw⟩ := (wLong_ok_iff x).mpr hr
    refine ⟨bs,hw,?_⟩
    intro arg rest h
    exact rLong_returns hw h
  · rw [wLong,if_pos (by omega)]

lemma ok_of_bind {ε α β : Type} {x : Except ε α} {f : α → Except ε β} {b : β}
    (h : (x >>= f)=.ok b) : ∃ a, x=.ok a ∧ f a=.ok b := by
  cases x with
  | error e => cases h
  | ok a => exact ⟨a,rfl,h⟩

lemma wBytes_ok {s : Bytes} (h : wBytes s len=.ok bs) :
    0 ≤ len.bmod (2^32) ∧ ∃ head, wLong (len.bmod (2^32))=.ok head ∧
      bs=head++s.take (len.bmod (2^32)).toNat := by
  obtain ⟨head,hh,h⟩ := ok_of_bind h
  split_ifs at h with hn
  cases h
  exact ⟨by omega,head,hh,rfl⟩

lemma wBytes_of_nonneg (s : Bytes) (h : 0 ≤ len.bmod (2^32)) : ∃ bs, wBytes s len=.ok bs := by
  have hl := Int.bmod_lt (x := len) (m := 2^32) (by decide)
  unfold wBytes
  generalize len.bmod (2^32)=n at h hl ⊢
  dsimp only
  obtain ⟨head,hh⟩ := (wLong_ok_iff n).mpr ⟨by omega,by omega⟩
  rw [hh]
  exact ⟨_,if_neg (by omega)⟩

lemma rBytes0_returns (hn : bs ≠ []) (h : arg.unread=bs++rest) :
    Returns (rBytes0 bs.length : Load V W E Bytes) arg (bs++[0]) (arg.skip bs.length) := by
  have hl := length_unread arg
  have hp := length_pos_of_ne_nil hn
  rw [h,length_append] at hl
  rw [rBytes0,if_neg (by omega)]
  refine returns_state.bind ?_
  rw [if_pos (by omega)]
  have hb : Returns (newBuffer (bs.length+1) : Load V W E Unit) arg () arg := by
    exact returns_pure
  have hm : Returns (memcpy arg.src arg.offset bs.length (bs.length+1) : Load V W E Bytes) arg bs
      arg := by
    have hc : (arg.src.drop arg.offset).take (bs.length : ℤ).toNat=bs := by
      rw [Int.toNat_natCast]
      change arg.unread.take _=_
      rw [h,take_left]
    rw [memcpy,if_pos ⟨by omega,by omega,by omega⟩,hc]
    exact returns_pure
  have hs : Returns (update (·.skip (bs.length : ℤ).toNat) : Load V W E Unit) arg ()
      (arg.skip bs.length) := returns_update
  exact returns_request.bind (hb.bind (hm.bind (hs.bind returns_pure)))

end MacRuby.MarshalFormat
