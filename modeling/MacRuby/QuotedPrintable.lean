import Mathlib.Data.List.Infix
import MacRuby.UnpackDirectives

/-!
# Quoted-printable text

The directive `M` of `Array#pack` (`qpencode`) and of `String#unpack`. The encoder writes
into a buffer of 1024 bytes, which it empties when few places are left; a write behind the
buffer is a fault.
-/
namespace MacRuby.QuotedPrintable
open List UnpackDirectives

def hexTable (d : UInt8) : UInt8 := if d < 10 then 48+d else 55+d

/-- The bytes that went to the data, `buff`, the column, and the previous character, where
none is `EOF`. -/
structure State where
  data : List UInt8
  buff : List UInt8
  n : ℤ
  prev : Option UInt8

/-- What a character is written as, with the new column and previous character. -/
def piece (n : ℤ) (prev : Option UInt8) (c : UInt8) : List UInt8 × ℤ × Option UInt8 :=
  if 126 < c ∨ c < 32 ∧ c ≠ 10 ∧ c ≠ 9 ∨ c=61 then
    ([61,hexTable (c/16),hexTable (c%16)],n+3,none)
  else if c=10 then (if prev=some 32 ∨ prev=some 9 then [61,c,c] else [c],0,some c)
  else ([c],n+1,some c)

def round (len n : ℤ) (prev : Option UInt8) (c : UInt8) : List UInt8 × ℤ × Option UInt8 :=
  if len < (piece n prev c).2.1 then ((piece n prev c).1++[61,10],0,some 10) else piece n prev c

def store (s : State) (w : List UInt8 × ℤ × Option UInt8) : Option State :=
  if 1024 < s.buff.length+w.1.length then none
  else if 1024-5 < s.buff.length+w.1.length then some ⟨s.data++(s.buff++w.1),[],w.2.1,w.2.2⟩
  else some ⟨s.data,s.buff++w.1,w.2.1,w.2.2⟩

def qpencodeLoop (len : ℤ) : List UInt8 → State → Option State
  | [],s => some s
  | c::rest,s => (store s (round len s.n s.prev c)).bind (qpencodeLoop len rest)

def qpencode (len : ℤ) (bytes : List UInt8) : Option (List UInt8) :=
  (qpencodeLoop len bytes ⟨[],[],0,none⟩).bind fun s =>
    if s.n ≤ 0 then some (s.data++s.buff)
    else if 1024 < s.buff.length+2 then none
    else some (s.data++(s.buff++[61,10]))

/-- The directive with a count; `len` is a `long`. -/
def packQuoted (count : ℕ) (bytes : List UInt8) : Option (List UInt8) :=
  qpencode (if asLong count ≤ 1 then 72 else asLong count) bytes

def hex2num (c : UInt8) : Option UInt8 :=
  if 48 ≤ c ∧ c ≤ 57 then some (c-48)
  else if 97 ≤ c ∧ c ≤ 102 then some (c-97+10)
  else if 65 ≤ c ∧ c ≤ 70 then some (c-65+10)
  else none

/-- The loop of the decoder; it ends at a sign that no two digits follow. -/
def unpackQuoted : List UInt8 → List UInt8
  | [] => []
  | c::rest =>
    if c=61 then match rest with
      | [] => []
      | d::rest =>
        if d=10 then unpackQuoted rest
        else match rest with
          | [] => []
          | e::rest =>
            if d=13 ∧ e=10 then unpackQuoted rest
            else match hex2num d,hex2num e with
              | some c1,some c2 => (c1*16+c2)::unpackQuoted rest
              | _,_ => []
    else c::unpackQuoted rest

lemma hex_digits (d : Fin 16) : hex2num (hexTable (UInt8.ofNat d))=some (UInt8.ofNat d) ∧
      hexTable (UInt8.ofNat d) ≠ 10 ∧ hexTable (UInt8.ofNat d) ≠ 13 := by
  revert d
  decide

lemma hexTable_spec {d : UInt8} (h : d.toNat < 16) :
    hex2num (hexTable d)=some d ∧ hexTable d ≠ 10 ∧ hexTable d ≠ 13 := by
  have hd := hex_digits ⟨d.toNat,h⟩
  rwa [UInt8.ofNat_toNat] at hd

lemma unpackQuoted_escape (c : UInt8) (tail : List UInt8) :
    unpackQuoted (61::hexTable (c/16)::hexTable (c%16)::tail)=c::unpackQuoted tail := by
  have hc := c.toNat_lt
  obtain ⟨hh,hn,hr⟩ := hexTable_spec (d := c/16) (by simp; omega)
  obtain ⟨hl,-⟩ := hexTable_spec (d := c%16) (by simp; omega)
  have hv : c/16*16+c%16=c := UInt8.toNat_inj.mp (by simp; omega)
  rw [unpackQuoted.eq_def]
  simp only [if_true,if_neg hn,if_neg fun h : _ ∧ _ => hr h.1,hh,hl,hv]

lemma unpackQuoted_softBreak (tail : List UInt8) :
    unpackQuoted (61::10::tail)=unpackQuoted tail := by
  rw [unpackQuoted.eq_def]
  rfl

lemma unpackQuoted_cons {c : UInt8} (h : c ≠ 61) (tail : List UInt8) :
    unpackQuoted (c::tail)=c::unpackQuoted tail := by
  rw [unpackQuoted.eq_def]
  exact if_neg h

def Fits (m : ℤ) : ℤ → List UInt8 → Prop
  | _,[] => True
  | col,c::rest => if c=10 then Fits m 0 rest else col+1 ≤ m ∧ Fits m (col+1) rest

variable {m col : ℤ} {text line : List UInt8}

lemma Fits.of_prefix (h : Fits m col text) (hc : col ≤ m) (hl : line <+: text) (hn : 10 ∉ line) :
    col+line.length ≤ m := by
  induction line generalizing col text with
  | nil => simpa using hc
  | cons c line ih =>
    obtain ⟨tail,rfl⟩ := hl
    obtain ⟨h10,hn⟩ := not_or.mp (mem_cons.not.mp hn)
    rw [cons_append,Fits,if_neg (Ne.symm h10)] at h
    have hi := ih h.2 h.1 (prefix_append _ _) hn
    rw [length_cons]
    omega

lemma Fits.of_infix (h : Fits m col text) (h0 : 0 ≤ col) (hc : col ≤ m) (hl : line <:+: text)
    (hn : 10 ∉ line) : line.length ≤ m := by
  induction text generalizing col with
  | nil =>
    rw [eq_nil_of_infix_nil hl]
    simpa using h0.trans hc
  | cons c text ih =>
    obtain hp | hi := infix_cons_iff.mp hl
    · have hp := h.of_prefix hc hp hn
      omega
    · rw [Fits] at h
      split_ifs at h
      · exact ih h le_rfl (h0.trans hc) hi
      · exact ih h.2 (by omega) h.1 hi

variable {len : ℤ} {s : State} {bytes : List UInt8}

/-- What a character is written as is read back, and a line that has come to its end fits. -/
lemma piece_spec {n : ℤ} (hl : 0 ≤ len) (h0 : 0 ≤ n) (hn : n ≤ len) (prev : Option UInt8)
    (c : UInt8) : (piece n prev c).1.length ≤ 3 ∧ 0 ≤ (piece n prev c).2.1 ∧
      (piece n prev c).2.1 ≤ len+3 ∧
      (∀ tail, unpackQuoted ((piece n prev c).1++tail)=c::unpackQuoted tail) ∧
      ∀ tail, Fits (len+4) (piece n prev c).2.1 tail →
        Fits (len+4) n ((piece n prev c).1++tail) := by
  have hc := c.toNat_lt
  have hh : hexTable (c/16) ≠ 10 := (hexTable_spec (by simp; omega)).2.1
  have hd : hexTable (c%16) ≠ 10 := (hexTable_spec (by simp; omega)).2.1
  unfold piece
  split_ifs with he hlf hp <;> dsimp only
  · refine ⟨by simp,by omega,by omega,unpackQuoted_escape c,fun tail ht => ?_⟩
    simp only [cons_append,Fits,hh,hd]
    exact ⟨by omega,by omega,by omega,by rwa [add_assoc n,add_assoc n]⟩
  · subst hlf
    exact ⟨by simp,le_rfl,by omega,fun tail => unpackQuoted_cons (by decide) tail,
      fun tail ht => ⟨by omega,ht⟩⟩
  · subst hlf
    exact ⟨by simp,le_rfl,by omega,fun tail => unpackQuoted_cons (by decide) tail,fun tail ht => ht⟩
  · have hs : c ≠ 61 := fun h => he (.inr (.inr h))
    refine ⟨by simp,by omega,by omega,unpackQuoted_cons hs,fun tail ht => ?_⟩
    simp only [cons_append,Fits,hlf]
    exact ⟨by omega,ht⟩

lemma round_spec {n : ℤ} (hl : 0 ≤ len) (h0 : 0 ≤ n) (hn : n ≤ len) (prev : Option UInt8)
    (c : UInt8) : (round len n prev c).1.length ≤ 5 ∧ 0 ≤ (round len n prev c).2.1 ∧
      (round len n prev c).2.1 ≤ len ∧
      (∀ tail, unpackQuoted ((round len n prev c).1++tail)=c::unpackQuoted tail) ∧
      ∀ tail, Fits (len+4) (round len n prev c).2.1 tail →
        Fits (len+4) n ((round len n prev c).1++tail) := by
  obtain ⟨hw,hw0,hwn,hd,hf⟩ := piece_spec hl h0 hn prev c
  unfold round
  split_ifs with hb
  · refine ⟨by simp; omega,le_rfl,hl,fun tail => ?_,fun tail ht => ?_⟩
    · rw [append_assoc,hd]
      exact congrArg (c::·) (unpackQuoted_softBreak tail)
    · rw [append_assoc]
      exact hf _ ⟨by omega,ht⟩
  · exact ⟨by omega,hw0,by omega,hd,hf⟩

lemma store_spec (hs : s.buff.length ≤ 1019) {w : List UInt8 × ℤ × Option UInt8}
    (hw : w.1.length ≤ 5) : ∃ s', store s w=some s' ∧ s'.buff.length ≤ 1019 ∧
      s'.data++s'.buff=s.data++s.buff++w.1 ∧ s'.n=w.2.1 := by
  unfold store
  rw [if_neg (by omega)]
  split_ifs with h
  · exact ⟨_,rfl,by simp,by simp,rfl⟩
  · exact ⟨_,rfl,by simp; omega,by simp,rfl⟩

lemma qpencodeLoop_spec (hl : 0 ≤ len) (h0 : 0 ≤ s.n) (hn : s.n ≤ len)
    (hb : s.buff.length ≤ 1019) (bytes : List UInt8) :
    ∃ s' text, qpencodeLoop len bytes s=some s' ∧ s'.data++s'.buff=s.data++s.buff++text ∧
      s'.buff.length ≤ 1019 ∧ 0 ≤ s'.n ∧ s'.n ≤ len ∧
      (∀ tail, unpackQuoted (text++tail)=bytes++unpackQuoted tail) ∧
      ∀ tail, Fits (len+4) s'.n tail → Fits (len+4) s.n (text++tail) := by
  induction bytes generalizing s with
  | nil => exact ⟨s,[],rfl,by simp,hb,h0,hn,fun _ => rfl,fun _ => id⟩
  | cons c bytes ih =>
    obtain ⟨hw,hw0,hwn,hd,hf⟩ := round_spec hl h0 hn s.prev c
    obtain ⟨s₁,hs,hb₁,hx₁,hn₁⟩ := store_spec hb hw
    rw [← hn₁] at hw0 hwn hf
    obtain ⟨s₂,text,hr,hx₂,hb₂,h0₂,hn₂,hd₂,hf₂⟩ := ih hw0 hwn hb₁
    refine ⟨s₂,(round len s.n s.prev c).1++text,?_,?_,hb₂,h0₂,hn₂,fun tail => ?_,fun tail h => ?_⟩
    · rw [qpencodeLoop,hs,Option.bind_some,hr]
    · rw [hx₂,hx₁,append_assoc]
    · rw [append_assoc,hd,hd₂,cons_append]
    · rw [append_assoc]
      exact hf _ (hf₂ tail h)

lemma qpencode_spec (hl : 0 ≤ len) (bytes : List UInt8) :
    ∃ text, qpencode len bytes=some text ∧ unpackQuoted text=bytes ∧ Fits (len+4) 0 text := by
  obtain ⟨s,text,hs,hx,hb,-,hn,hd,hf⟩ :=
    qpencodeLoop_spec (s := ⟨[],[],0,none⟩) hl le_rfl hl (Nat.zero_le _) bytes
  rw [qpencode,hs,Option.bind_some,← append_assoc,hx,if_neg (show ¬1024 < s.buff.length+2 by omega)]
  split_ifs with h
  · have hd := hd []
    have hf := hf [] trivial
    rw [append_nil] at hd hf
    exact ⟨_,rfl,hd.trans (append_nil bytes),hf⟩
  · exact ⟨_,rfl,(hd _).trans (append_nil bytes),hf _ ⟨by omega,trivial⟩⟩

/-- The text is read back as the bytes, its lines have at most four characters more than
the count says, and no write is behind the buffer. -/
theorem quoted_round_trip (bytes : List UInt8) (count : ℕ) (h : 2 ≤ count) :
    ∃ text, packQuoted count bytes=some text ∧ unpackQuoted text=bytes ∧
      ∀ line, line <:+: text → 10 ∉ line → line.length ≤ count+4 := by
  have hlen : 0 ≤ (if asLong count ≤ 1 then 72 else asLong count) ∧
      (if asLong count ≤ 1 then 72 else asLong count) ≤ count := by
    unfold asLong
    split_ifs <;> omega
  obtain ⟨text,ht,hu,hf⟩ := qpencode_spec hlen.1 bytes
  refine ⟨text,ht,hu,fun line hl hn => ?_⟩
  have hi := hf.of_infix le_rfl (by omega) hl hn
  omega

theorem quoted_round_trip_blank :
    ∃ text, packQuoted 2 [61,32,10]=some text ∧ unpackQuoted text=[61,32,10] ∧
      ∀ line, line <:+: text → 10 ∉ line → line.length ≤ 2+4 :=
  quoted_round_trip [61,32,10] 2 le_rfl

end MacRuby.QuotedPrintable
