import Mathlib.Tactic.IntervalCases
import MacRuby.UnpackBounds

/-!
# Characters of up to 31 bits

The directive `U` of `Array#pack` (`rb_uv_to_utf8`) and of `String#unpack`
(`utf8_to_uv`). A character has a first byte, which tells their number, and bytes with
six bits each.
-/
namespace MacRuby.Utf8Text
open List Nat
open UnpackDirectives (Stop utf8Length utf8Limit continuation)

/-- The bytes `((uv>>6*i)&0x3f)|0x80`, from the highest on. -/
def continued (uv : ℕ) : ℕ → List UInt8
  | 0 => []
  | k+1 => UInt8.ofNat (uv/64^k%64+0x80)::continued uv k

/-- A first byte with the bits of its mark, which the character does not have, and `k` bytes
after it. -/
def encoding (mark k uv : ℕ) : List UInt8 := UInt8.ofNat (uv/64^k+mark)::continued uv k

/-- `rb_uv_to_utf8`; there are no bytes where it raises. -/
def uvToUtf8 (uv : ℕ) : Option (List UInt8) :=
  if uv ≤ 0x7f then some (encoding 0 0 uv)
  else if uv ≤ 0x7ff then some (encoding 0xc0 1 uv)
  else if uv ≤ 0xffff then some (encoding 0xe0 2 uv)
  else if uv ≤ 0x1fffff then some (encoding 0xf0 3 uv)
  else if uv ≤ 0x3ffffff then some (encoding 0xf8 4 uv)
  else if uv ≤ 0x7fffffff then some (encoding 0xfc 5 uv)
  else none

/-- `pack('U*')` of numbers that are not negative. -/
def packUtf8 : List ℕ → Option (List UInt8)
  | [] => some []
  | uv::uvs => (uvToUtf8 uv).bind fun b => (packUtf8 uvs).map (b++·)

/-- `utf8_to_uv`, with the bytes after the character. -/
def utf8ToUv : List UInt8 → Except Stop (ℕ × List UInt8)
  | [] => .error .outside
  | c::rest => match utf8Length c with
    | none => .error .raised
    | some n =>
      if n=1 then .ok (c.toNat,rest)
      else if n > rest.length+1 then .error .raised
      else match continuation (n-1) (c.toNat%2^(7-n)) rest with
        | .error e => .error e
        | .ok (uv,rest) => if uv < utf8Limit n then .error .raised else .ok (uv,rest)

def utf8Loop : ℕ → List UInt8 → Except Stop (List ℕ)
  | 0,_ => .ok []
  | _+1,[] => .ok []
  | len+1,c::rest => match utf8ToUv (c::rest) with
    | .error e => .error e
    | .ok (uv,rest) => (utf8Loop len rest).map (uv::·)

/-- `unpack('U*')`. -/
def unpackUtf8 (bytes : List UInt8) : Except Stop (List ℕ) := utf8Loop bytes.length bytes

/-- The first character that does not fit into `k` bytes. -/
def room : ℕ → ℕ
  | 0 => 0
  | 1 => 2^7
  | k+1 => 2^(5*k+6)

/-- The mark of a first byte before `k` others. -/
def mark : ℕ → ℕ
  | 0 => 0
  | k+1 => 2^8-2^(6-k)

/-- The bytes of a character in the least number of them that has room. -/
def Shortest (uv : ℕ) (b : List UInt8) : Prop :=
  ∃ k ≤ 5, room k ≤ uv ∧ uv < room (k+1) ∧ b=encoding (mark k) k uv

variable {uv : ℕ} {b : List UInt8}

lemma uvToUtf8_eq_some : uvToUtf8 uv=some b ↔ Shortest uv b := by
  constructor
  · intro h
    unfold uvToUtf8 at h
    split_ifs at h <;> cases h
    · exact ⟨0,by omega,by simp [room],by simp [room]; omega,rfl⟩
    · exact ⟨1,by omega,by simp [room]; omega,by simp [room]; omega,rfl⟩
    · exact ⟨2,by omega,by simp [room]; omega,by simp [room]; omega,rfl⟩
    · exact ⟨3,by omega,by simp [room]; omega,by simp [room]; omega,rfl⟩
    · exact ⟨4,by omega,by simp [room]; omega,by simp [room]; omega,rfl⟩
    · exact ⟨5,by omega,by simp [room]; omega,by simp [room]; omega,rfl⟩
  · rintro ⟨k,hk,hl,hu,rfl⟩
    unfold uvToUtf8
    interval_cases k <;> simp [room] at hl hu <;> split_ifs <;> first | rfl | omega

lemma continuation_eq_ok {k acc : ℕ} {tail rest : List UInt8} :
    continuation k acc tail=.ok (uv,rest) ↔ acc=uv/64^k ∧ tail=continued uv k++rest := by
  induction k generalizing acc tail with
  | zero => simp [continuation,continued]
  | succ k ih =>
    have hq : uv/64^(k+1)=uv/64^k/64 := by rw [pow_succ,Nat.div_div_eq_div_mul]
    rw [hq,continued,cons_append]
    generalize uv/64^k=q at ih ⊢
    cases tail with
    | nil => simp [continuation]
    | cons c tail =>
      have hc : c=UInt8.ofNat (q%64+0x80) ↔ c.toNat=q%64+0x80 := by
        rw [← UInt8.toNat_inj,UInt8.toNat_ofNat_of_lt' (show q%64+0x80 < 256 by omega)]
      rw [continuation,cons.injEq,hc]
      split_ifs with h
      · exact iff_of_false (fun h => by cases h) (by omega)
      · have hlt := c.toNat_lt
        rw [ih,← and_assoc]
        exact and_congr_left' (by omega)

lemma utf8Length_eq_some {c : UInt8} {n : ℕ} : utf8Length c=some n ↔ n=1 ∧ c.toNat < 2^7 ∨
      ∃ k, 0 < k ∧ k ≤ 5 ∧ n=k+1 ∧ mark k ≤ c.toNat ∧ c.toNat < mark k+2^(6-k) := by
  constructor
  · intro h
    unfold utf8Length at h
    split_ifs at h <;> cases h
    · exact .inl ⟨rfl,by omega⟩
    · exact .inr ⟨1,by simp [mark]; omega⟩
    · exact .inr ⟨2,by simp [mark]; omega⟩
    · exact .inr ⟨3,by simp [mark]; omega⟩
    · exact .inr ⟨4,by simp [mark]; omega⟩
    · exact .inr ⟨5,by simp [mark]; omega⟩
  · rintro (⟨rfl,h⟩ | ⟨k,h0,hk,rfl,hl,hu⟩)
    · rw [utf8Length,if_pos (by omega)]
    · unfold utf8Length
      interval_cases k <;> simp [mark] at hl hu <;> split_ifs <;> first | rfl | omega

lemma room_eq {k : ℕ} (h0 : 0 < k) (hk : k ≤ 5) :
    room k=utf8Limit (k+1) ∧ room (k+1)=2^(6-k)*64^k := by
  interval_cases k <;> exact ⟨rfl,rfl⟩

lemma mark_mod {k c : ℕ} (h0 : 0 < k) (hk : k ≤ 5) (hl : mark k ≤ c) (hu : c < mark k+2^(6-k)) :
    c%2^(6-k)+mark k=c := by
  interval_cases k <;> simp [mark] at hl hu ⊢ <;> omega

lemma length_continued (uv k : ℕ) : (continued uv k).length=k := by
  induction k with
  | zero => rfl
  | succ k ih => rw [continued,length_cons,ih]

lemma utf8ToUv_eq_ok {bytes rest : List UInt8} :
    utf8ToUv bytes=.ok (uv,rest) ↔ ∃ b, Shortest uv b ∧ bytes=b++rest := by
  constructor
  · intro h
    cases bytes with
    | nil => cases h
    | cons c tail =>
      rw [utf8ToUv] at h
      split at h
      · cases h
      · next n hn =>
        obtain ⟨rfl,hc⟩ | ⟨k,h0,hk,rfl,hl,hu⟩ := utf8Length_eq_some.mp hn
        · cases h
          exact ⟨[c],⟨0,by omega,zero_le,hc,by simp [encoding,mark,continued]⟩,rfl⟩
        · rw [if_neg (by omega),show 7-(k+1)=6-k by omega,Nat.add_sub_cancel] at h
          split_ifs at h
          split at h
          · cases h
          · next hcon =>
            split_ifs at h with hlim
            cases h
            obtain ⟨hacc,rfl⟩ := continuation_eq_ok.mp hcon
            have hm := mark_mod h0 hk hl hu
            have hr := room_eq h0 hk
            have hlt : c.toNat%2^(6-k) < 2^(6-k) := mod_lt _ (by positivity)
            rw [hacc] at hm hlt
            refine ⟨c::continued uv k,⟨k,hk,by omega,?_,?_⟩,rfl⟩
            · rw [hr.2]
              exact (div_lt_iff_lt_mul (by positivity)).mp hlt
            · rw [encoding,hm,UInt8.ofNat_toNat]
  · rintro ⟨b,⟨k,hk,hl,hu,rfl⟩,rfl⟩
    obtain rfl | h0 := Nat.eq_zero_or_pos k
    · have hc : (UInt8.ofNat uv).toNat=uv := UInt8.toNat_ofNat_of_lt' (hu.trans (by decide))
      have hn : utf8Length (UInt8.ofNat uv)=some 1 :=
        utf8Length_eq_some.mpr (.inl ⟨rfl,hc.trans_lt hu⟩)
      simp [encoding,mark,continued,utf8ToUv,hn,hc]
    · have hr := room_eq h0 hk
      have hq : uv/64^k < 2^(6-k) := (div_lt_iff_lt_mul (by positivity)).mpr (hr.2 ▸ hu)
      have hb : mark k+2^(6-k) ≤ 256 := by interval_cases k <;> decide
      have hlt : uv/64^k+mark k < mark k+2^(6-k) := by
        rw [add_comm]
        exact Nat.add_lt_add_left hq _
      have hc : (UInt8.ofNat (uv/64^k+mark k)).toNat=uv/64^k+mark k :=
        UInt8.toNat_ofNat_of_lt' (hlt.trans_le hb)
      have hm := mark_mod h0 hk (le_add_left _ _) hlt
      have hn := utf8Length_eq_some.mpr (.inr ⟨k,h0,hk,rfl,(le_add_left _ _).trans_eq hc.symm,
        hc.trans_lt hlt⟩)
      rw [encoding,cons_append,utf8ToUv,hn]
      dsimp only
      rw [if_neg (by omega),if_neg (by rw [length_append,length_continued]; omega),hc,
        show 7-(k+1)=6-k by omega,Nat.add_sub_cancel,
        continuation_eq_ok.mpr ⟨add_right_cancel hm,rfl⟩]
      exact if_neg (by omega)

lemma utf8ToUv_ne_outside (c : UInt8) (rest : List UInt8) :
    utf8ToUv (c::rest) ≠ .error .outside := by
  rw [utf8ToUv]
  split
  · exact fun h => by cases h
  · next n _ =>
    have hs : n ≤ rest.length+1 → continuation (n-1) (c.toNat%2^(7-n)) rest ≠ .error .outside :=
      fun h => (UnpackBounds.continuation_stays _ (by omega)).1
    split_ifs with h1 h2
    · exact fun h => by cases h
    · exact fun h => by cases h
    · split
      · next h => exact h ▸ hs (by omega)
      · split_ifs <;> exact fun h => by cases h

lemma packUtf8_isSome (uvs : List ℕ) : (packUtf8 uvs).isSome ↔ ∀ uv ∈ uvs, uv < 2^31 := by
  have hu : ∀ uv, (uvToUtf8 uv).isSome ↔ uv < 2^31 := fun uv => by
    unfold uvToUtf8
    split_ifs <;> simp <;> omega
  induction uvs with
  | nil => simp [packUtf8]
  | cons uv uvs ih =>
    rw [forall_mem_cons,← hu,← propext ih,packUtf8]
    cases uvToUtf8 uv <;> simp

lemma packUtf8_of_utf8Loop {len : ℕ} {bytes : List UInt8} {uvs : List ℕ}
    (hl : bytes.length ≤ len) (h : utf8Loop len bytes=.ok uvs) : packUtf8 uvs=some bytes := by
  induction len generalizing bytes uvs with
  | zero =>
    cases h
    rw [length_eq_zero_iff.mp (le_zero.mp hl),packUtf8]
  | succ len ih =>
    cases bytes with
    | nil =>
      cases h
      rfl
    | cons c rest =>
      rw [utf8Loop] at h
      split at h
      · cases h
      · next uv rest' hu =>
        obtain ⟨b,hb,he⟩ := utf8ToUv_eq_ok.mp hu
        have hlen : rest'.length ≤ len := by
          obtain ⟨k,-,-,-,rfl⟩ := hb
          have he := congrArg length he
          simp [encoding] at he hl
          omega
        cases hr : utf8Loop len rest' with
        | error e =>
          rw [hr] at h
          cases h
        | ok us =>
          rw [hr] at h
          cases h
          rw [packUtf8,uvToUtf8_eq_some.mpr hb,Option.bind_some,ih hlen hr,he,Option.map_some]

lemma utf8Loop_of_packUtf8 {len : ℕ} {bytes : List UInt8} {uvs : List ℕ}
    (hl : bytes.length ≤ len) (h : packUtf8 uvs=some bytes) : utf8Loop len bytes=.ok uvs := by
  induction uvs generalizing len bytes with
  | nil =>
    cases h
    cases len <;> rfl
  | cons uv uvs ih =>
    obtain ⟨b,hb,hm⟩ := Option.bind_eq_some_iff.mp h
    obtain ⟨rest,hr,rfl⟩ := Option.map_eq_some_iff.mp hm
    have hb := uvToUtf8_eq_some.mp hb
    have hu : utf8ToUv (b++rest)=.ok (uv,rest) := utf8ToUv_eq_ok.mpr ⟨b,hb,rfl⟩
    obtain ⟨k,-,-,-,rfl⟩ := hb
    obtain ⟨len,rfl⟩ := Nat.exists_eq_add_of_le' (show 1 ≤ len by simp [encoding] at hl; omega)
    rw [encoding,cons_append] at hu hl ⊢
    rw [utf8Loop,hu]
    dsimp only
    rw [ih (by simp at hl; omega) hr]
    rfl

lemma utf8Loop_ne_outside (len : ℕ) (bytes : List UInt8) :
    utf8Loop len bytes ≠ .error .outside := by
  induction len generalizing bytes with
  | zero => nofun
  | succ len ih =>
    cases bytes with
    | nil => nofun
    | cons c rest =>
      have hc := utf8ToUv_ne_outside c rest
      rw [utf8Loop]
      split
      · next e h =>
        rw [h] at hc
        exact fun h => hc (congrArg _ (Except.error.inj h))
      · next rest _ =>
        have hr := ih rest
        cases h : utf8Loop len rest with
        | ok uvs => nofun
        | error e =>
          rw [h] at hr
          exact fun h => hr (congrArg _ (Except.error.inj h))

/-- Unpacking is the inverse of packing: a text is unpacked to the characters that it is
packed from, and raises if it is packed from none, that is, if it is not put together from
characters in their shortest form. -/
theorem utf8_inverse (bytes : List UInt8) :
    (∀ uvs, unpackUtf8 bytes=.ok uvs ↔ packUtf8 uvs=some bytes) ∧
      ((¬∃ uvs, packUtf8 uvs=some bytes) → unpackUtf8 bytes=.error .raised) ∧
      (∀ uvs, (packUtf8 uvs).isSome ↔ ∀ uv ∈ uvs, uv < 2^31) ∧
      ∀ uv b, uvToUtf8 uv=some b ↔ Shortest uv b := by
  refine ⟨fun _ => ⟨packUtf8_of_utf8Loop le_rfl,utf8Loop_of_packUtf8 le_rfl⟩,fun hn => ?_,packUtf8_isSome,fun _ _ => uvToUtf8_eq_some⟩
  have ho := utf8Loop_ne_outside bytes.length bytes
  cases h : unpackUtf8 bytes with
  | ok uvs => exact absurd ⟨uvs,packUtf8_of_utf8Loop le_rfl h⟩ hn
  | error e =>
    cases e with
    | raised => rfl
    | outside => exact absurd h ho
end MacRuby.Utf8Text
