import Mathlib.Algebra.Ring.Nat
import Mathlib.Data.Fintype.Basic

/-!
# Bit strings and hex strings

The directives `b`, `B`, `h` and `H` of `Array#pack` and of `String#unpack`. Digits are
shifted into a byte and out of it, each directive in its own order, and a last byte that is
not complete is aligned in its own way.
-/
namespace MacRuby.BitStrings
open List Nat

inductive Directive
  | ascending
  | descending
  | lowFirst
  | highFirst
deriving DecidableEq

def per : Directive → ℕ
  | .ascending | .descending => 8
  | .lowFirst | .highFirst => 2

def isAlpha (c : UInt8) : Bool := 65 ≤ c && c ≤ 90 || 97 ≤ c && c ≤ 122

/-- `*ptr & 1`, or the value of a hex digit. -/
def digit (dir : Directive) (c : UInt8) : ℕ :=
  match dir with
  | .ascending | .descending => c.toNat%2
  | .lowFirst | .highFirst => if isAlpha c then (c.toNat%16+9)%16 else c.toNat%16

def enter (dir : Directive) (byte d : ℕ) : ℕ :=
  match dir with
  | .ascending => byte ||| 128*d
  | .descending => byte ||| d
  | .lowFirst => byte ||| 16*d
  | .highFirst => byte ||| d

def shift : Directive → ℕ → ℕ
  | .ascending,byte => byte/2
  | .descending,byte => byte*2
  | .lowFirst,byte => byte/16
  | .highFirst,byte => byte*16

def align : Directive → ℕ → ℕ → ℕ
  | .ascending,place,byte => byte/2^(7-place)
  | .descending,place,byte => byte*2^(7-place)
  | .lowFirst,_,byte => byte
  | .highFirst,_,byte => byte

/-- The loop of `pack` with `*`; `place` is `i & 7` or `i & 1`. -/
def packLoop (dir : Directive) : ℕ → ℕ → List UInt8 → List UInt8
  | place,byte,[] => if place=0 then [] else [UInt8.ofNat (align dir place byte)]
  | place,byte,c::t =>
    if place+1 < per dir then packLoop dir (place+1) (shift dir (enter dir byte (digit dir c))) t
    else UInt8.ofNat (enter dir byte (digit dir c))::packLoop dir 0 0 t

def pack (dir : Directive) (t : List UInt8) : List UInt8 := packLoop dir 0 0 t

/-- A `char` as an `int`. -/
def extend (c : UInt8) : ℤ := if c.toNat < 128 then c.toNat else (c.toNat : ℤ)-256

def shiftOut : Directive → ℤ → ℤ
  | .ascending,bits => bits/2
  | .descending,bits => bits*2
  | .lowFirst,bits => bits/16
  | .highFirst,bits => bits*16

def hexdigits (d : ℕ) : UInt8 := UInt8.ofNat (if d < 10 then 48+d else 87+d)

def out : Directive → ℤ → UInt8
  | .ascending,bits => if bits%2=0 then 48 else 49
  | .descending,bits => if bits/128%2=0 then 48 else 49
  | .lowFirst,bits => hexdigits (bits%16).toNat
  | .highFirst,bits => hexdigits (bits/16%16).toNat

/-- The loop of `unpack`: `left` digits are still to come. -/
def unpackLoop (dir : Directive) : ℕ → ℕ → ℤ → List UInt8 → List UInt8
  | 0,_,_,_ => []
  | left+1,place+1,bits,s =>
    let bits := shiftOut dir bits
    out dir bits::unpackLoop dir left ((place+2)%per dir) bits s
  | _+1,0,_,[] => []
  | left+1,0,_,c::s => out dir (extend c)::unpackLoop dir left (1%per dir) (extend c) s

def unpack (dir : Directive) (count : Option ℕ) (s : List UInt8) : List UInt8 :=
  let all := s.length*per dir
  unpackLoop dir (match count with
    | none => all
    | some len => if len > all then all else len) 0 0 s

def alphabet : Directive → List UInt8
  | .ascending | .descending => [48,49]
  | .lowFirst | .highFirst => (range' 48 10++range' 97 6++range' 65 6).map UInt8.ofNat

def lower (c : UInt8) : UInt8 := if 65 ≤ c ∧ c ≤ 90 then c+32 else c

def texts (cs : List UInt8) : ℕ → List (List UInt8)
  | 0 => [[]]
  | n+1 => (texts cs n).flatMap fun l => cs.map (·::l)

lemma mem_texts {cs l : List UInt8} (h : ∀ c ∈ l, c ∈ cs) : l ∈ texts cs l.length := by
  induction l with
  | nil => exact mem_singleton_self _
  | cons c l ih =>
    obtain ⟨hc,hl⟩ := forall_mem_cons.mp h
    exact mem_flatMap.mpr ⟨l,ih hl,mem_map_of_mem hc⟩

lemma unpack_pack_texts (dir : Directive) : ∀ n ≤ per dir, ∀ l ∈ texts (alphabet dir) n,
    unpackLoop dir n 0 0 (pack dir l)=l.map lower ∧ n ≤ (pack dir l).length*per dir ∧
      (n=per dir → (pack dir l).length=1) := by
  cases dir <;> decide +kernel

lemma pack_unpack_byte (dir : Directive) (c : Fin 256) :
    (unpackLoop dir (per dir) 0 0 [UInt8.ofNat c]).length=per dir ∧
      pack dir (unpackLoop dir (per dir) 0 0 [UInt8.ofNat c])=[UInt8.ofNat c] := by
  revert c
  cases dir <;> decide +kernel

variable (dir : Directive)

lemma unpackLoop_cons (n : ℕ) (c : UInt8) (s : List UInt8) :
    unpackLoop dir (n+per dir) 0 0 (c::s)=
      unpackLoop dir (per dir) 0 0 [c]++unpackLoop dir n 0 0 s := by
  -- a byte that is fetched replaces what is left of the one before
  cases n with
  | zero => cases dir <;> rfl
  | succ n => cases s <;> cases dir <;> rfl

lemma pack_append {l : List UInt8} (hl : l.length=per dir) (t : List UInt8) :
    pack dir (l++t)=pack dir l++pack dir t := by
  cases dir with
  | ascending | descending =>
    match l,hl with
    | [_,_,_,_,_,_,_,_],_ => rfl
  | lowFirst | highFirst =>
    match l,hl with
    | [_,_],_ => rfl

lemma pack_unpack (s : List UInt8) : pack dir (unpack dir none s)=s := by
  induction s with
  | nil => simp [unpack,unpackLoop,pack,packLoop]
  | cons c s ih =>
    obtain ⟨hl,hc⟩ := pack_unpack_byte dir ⟨c.toNat,c.toNat_lt⟩
    rw [UInt8.ofNat_toNat] at hl hc
    calc pack dir (unpack dir none (c::s))
      _ = pack dir (unpackLoop dir (per dir) 0 0 [c]++unpack dir none s) := by
        rw [unpack,length_cons,succ_mul,unpackLoop_cons]
        rfl
      _ = c::s := by
        rw [pack_append dir hl,hc,ih]
        rfl

lemma unpackLoop_pack {t : List UInt8} (ht : ∀ c ∈ t, c ∈ alphabet dir) :
    unpackLoop dir t.length 0 0 (pack dir t)=t.map lower ∧
      t.length ≤ (pack dir t).length*per dir := by
  obtain ⟨n,hn⟩ : ∃ n, t.length=n := ⟨_,rfl⟩
  -- the induction is on the length: a text of more than one byte loses its first
  induction n using Nat.strong_induction_on generalizing t with
  | _ n ih =>
    by_cases h : t.length ≤ per dir
    · obtain ⟨h1,h2,-⟩ := unpack_pack_texts dir _ h t (mem_texts ht)
      exact ⟨h1,h2⟩
    · have hl : (t.take (per dir)).length=per dir := by
        rw [length_take]
        omega
      obtain ⟨h1,h2,h3⟩ := unpack_pack_texts dir _ le_rfl (t.take (per dir)) (by
          simpa only [hl] using mem_texts fun c (hc : c ∈ t.take (per dir)) =>
            ht c (mem_of_mem_take hc))
      obtain ⟨c,hc⟩ := length_eq_one_iff.mp (h3 rfl)
      have hp : 0 < per dir := by cases dir <;> decide
      obtain ⟨i1,i2⟩ := ih (n-per dir) (by omega)
        (fun c hc => ht c (mem_of_mem_drop hc)) (by rw [length_drop,hn])
      rw [length_drop] at i1 i2
      have e : pack dir t=c::pack dir (t.drop (per dir)) := by
        rw [← take_append_drop (per dir) t,pack_append dir hl,hc,take_append_drop]
        rfl
      constructor
      · rw [e,show t.length=t.length-per dir+per dir by omega,unpackLoop_cons,← hc,h1,i1,
          ← map_append,take_append_drop]
      · rw [e,length_cons,succ_mul]
        omega

/-- A string goes through its digits, and a text of digits through its bytes, in lower
case. -/
theorem digit_strings_inverse (s t : List UInt8) : pack dir (unpack dir none s) = s ∧
      ((∀ c ∈ t, c ∈ alphabet dir) → unpack dir (some t.length) (pack dir t) = t.map lower) := by
  refine ⟨pack_unpack dir s,fun ht => ?_⟩
  obtain ⟨h1,h2⟩ := unpackLoop_pack dir ht
  show unpackLoop dir (if t.length > _ then _ else _) 0 0 _=_
  rw [if_neg (not_lt.mpr h2),h1]

end MacRuby.BitStrings
