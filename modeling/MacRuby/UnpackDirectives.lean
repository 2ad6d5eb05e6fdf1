import Mathlib.Algebra.Order.Group.Nat
import Mathlib.Algebra.Order.Ring.Int
import Mathlib.Data.List.Basic

/-!
# The directives of `String#unpack`

`pack_unpack` walks through a template and a byte string. A directive has a type, a
modifier and a count, which is parsed as `unsigned long` and used as `long`. The
model keeps the cursor and what is read; the values that are pushed play no part in
where the next byte is read.

A decoder gets the bytes from the cursor on and returns those that it leaves. It
stops when it raises, and when it looks at a byte that is not there.
-/
namespace MacRuby.UnpackDirectives
open List

/-- The types by what they do; the sizes are those of the 64-bit build. -/
inductive Kind
  | blanks
  | nulEnded
  | plain
  | bits (per : ℕ)
  | items (size : ℕ)
  | quads
  | utf8
  | uu
  | base64
  | quoted
  | absolute
  | back
  | forward
  | pointer
  | pointers
  | ber
  | percent
  | other
deriving DecidableEq, Repr

/-- The switch on the type; `natint` is set by a modifier. -/
def kind (type : Char) (natint : Bool) : Kind :=
  match type with
  | 'A' => .blanks
  | 'Z' => .nulEnded
  | 'a' => .plain
  | 'b' | 'B' => .bits 8
  | 'h' | 'H' => .bits 2
  | 'c' | 'C' => .items 1
  | 's' | 'S' | 'n' | 'v' => .items 2
  | 'i' | 'I' | 'N' | 'V' | 'f' | 'F' | 'e' | 'g' => .items 4
  | 'l' | 'L' => .items (if natint then 8 else 4)
  | 'd' | 'D' | 'E' | 'G' => .items 8
  | 'q' | 'Q' => .quads
  | 'U' => .utf8
  | 'u' => .uu
  | 'm' => .base64
  | 'M' => .quoted
  | '@' => .absolute
  | 'X' => .back
  | 'x' => .forward
  | 'P' => .pointer
  | 'p' => .pointers
  | 'w' => .ber
  | '%' => .percent
  | _ => .other

inductive Count
  | star
  | length (len : ℤ)
deriving DecidableEq, Repr

/-- A directive, or the error that the template makes it raise. -/
inductive Item
  | directive (k : Kind) (count : Count)
  | invalid
deriving DecidableEq, Repr

def isSpace (c : Char) : Bool := c == ' ' || decide (9 ≤ c.toNat && c.toNat ≤ 13)

/-- `strchr(natstr, type)`, which finds the end of the string too. -/
def isNative (type : Char) : Bool :=
  type == 's' || type == 'S' || type == 'i' || type == 'I' || type == 'l' || type == 'L' ||
    type.toNat == 0

/-- `STRTOUL` of decimal digits. -/
def strtoul (ds : List Char) : ℕ := ds.foldl (fun n c => 10*n+(c.toNat-48)) 0

/-- An `unsigned long` as a `long`. -/
def asLong (n : ℕ) : ℤ := if n < 2^63 then n else (n : ℤ)-2^64

/-- The count and what follows it; there is none for a number that is too large. -/
def count (type : Char) (p : List Char) : Option Count × List Char :=
  match p with
  | [] => (some (.length 1),[])
  | c::rest =>
    if c = '*' then (some .star,rest)
    else if c.isDigit then
      let n := strtoul (p.takeWhile Char.isDigit)
      (if n < 2^64 then some (.length (asLong n)) else none,p.dropWhile Char.isDigit)
    else (some (.length (if type = '@' then 0 else 1)),p)

/-- The directive of a type and the template after it; `_` and `!` are modifiers. -/
def item (type : Char) (p : List Char) : Item × List Char :=
  let parsed (natint : Bool) (p : List Char) :=
    match count type p with
    | (some n,rest) => (Item.directive (kind type natint) n,rest)
    | (none,rest) => (Item.invalid,rest)
  match p with
  | '_'::rest | '!'::rest => if isNative type then parsed true rest else (.invalid,rest)
  | p => parsed false p

def itemsLoop : ℕ → List Char → List Item
  | 0,_ => []
  | _,[] => []
  | fuel+1,type::p =>
    if isSpace type then itemsLoop fuel p
    else if type = '#' then itemsLoop fuel (p.dropWhile (· ≠ '\n'))
    else (item type p).1::itemsLoop fuel (item type p).2

def directives (fmt : List Char) : List Item := itemsLoop fmt.length fmt

inductive Stop
  | raised
  | outside
deriving DecidableEq, Repr

/-- `strlen` and the copy of a C string, which read up to a zero byte. -/
def cString : List UInt8 → Except Stop Unit
  | [] => .error .outside
  | c::rest => if c=0 then .ok () else cString rest

/-- `infected_str_new`, which is `str_new`: both of its ways to copy start with the C string
at the address. -/
def infectedStrNew (rest : List UInt8) (len : ℤ) : Except Stop Unit :=
  if len < 0 then .error .raised
  else if len=0 then .ok ()
  else cString rest

/-- `if (len > send - s) len = send - s`. -/
def clamp (len : ℤ) (rest : List UInt8) : ℤ := if len > rest.length then rest.length else len

def trimmed (bytes : List UInt8) : ℕ :=
  (bytes.reverse.dropWhile (fun c => c == 32 || c == 0)).length

def unpackA (len : ℤ) (rest : List UInt8) : Except Stop (List UInt8) := do
  let len := clamp len rest
  let shorter : ℤ := if len < 0 then len else trimmed (rest.take len.toNat)
  infectedStrNew rest shorter
  .ok (rest.drop len.toNat)

def unpackPlain (len : ℤ) (rest : List UInt8) : Except Stop (List UInt8) := do
  let len := clamp len rest
  infectedStrNew rest len
  .ok (rest.drop len.toNat)

/-- The bytes before the first zero byte among the first `len`. -/
def beforeNul (len : ℤ) (rest : List UInt8) : ℕ :=
  ((rest.take len.toNat).takeWhile (· ≠ 0)).length

/-- `Z`: how far the cursor moves. -/
def unpackZ (star : Bool) (len : ℤ) (rest : List UInt8) : Except Stop ℤ := do
  let len := clamp len rest
  let t := beforeNul len rest
  infectedStrNew rest t
  .ok (if star then (if t < rest.length then t+1 else t) else len)

/-- The loop of `b`, `B`, `h` and `H`: a byte is read for every `per` digits. -/
def bitLoop (per : ℕ) : ℕ → ℕ → List UInt8 → Except Stop (List UInt8)
  | 0,_,rest => .ok rest
  | left+1,i,rest =>
    if i%per ≠ 0 then bitLoop per left (i+1) rest
    else match rest with
      | [] => .error .outside
      | _::rest => bitLoop per left (i+1) rest

def unpackBits (per : ℕ) (star : Bool) (len : ℤ) (rest : List UInt8) : Except Stop (List UInt8) :=
  let len := if star || len > rest.length*per then (rest.length*per : ℤ) else len
  bitLoop per len.toNat 0 rest

/-- The loop of the numbers: `memcpy` of each. -/
def itemLoop (size : ℕ) : ℕ → List UInt8 → Except Stop (List UInt8)
  | 0,rest => .ok rest
  | left+1,rest =>
    if rest.length < size then .error .outside else itemLoop size left (rest.drop size)

/-- `PACK_LENGTH_ADJUST`. -/
def unpackItems (size : ℕ) (len : ℤ) (rest : List UInt8) : Except Stop (List UInt8) :=
  let len := if len > rest.length/size then (rest.length/size : ℤ) else len
  itemLoop size len.toNat rest

/-- The comparison with an unsigned quotient, which takes a negative count for a large one. -/
def clampUnsigned (size : ℕ) (len : ℤ) (rest : List UInt8) : ℕ :=
  if len < 0 ∨ len > rest.length/size then rest.length/size else len.toNat

/-- `q` and `Q`. -/
def unpackQuads (len : ℤ) (rest : List UInt8) : Except Stop (List UInt8) :=
  itemLoop 8 (clampUnsigned 8 len rest) rest

/-- A pointer is read; no string has associated ones, so that only a null pointer does not
raise. -/
def readPointer (rest : List UInt8) : Except Stop (List UInt8) :=
  if rest.length < 8 then .error .outside
  else if (rest.take 8).all (· == 0) then .ok (rest.drop 8)
  else .error .raised

def unpackPointer (rest : List UInt8) : Except Stop (List UInt8) :=
  if 8 ≤ rest.length then readPointer rest else .ok rest

def pointerLoop : ℕ → List UInt8 → Except Stop (List UInt8)
  | 0,rest => .ok rest
  | left+1,rest =>
    if rest.length < 8 then .ok rest
    else match readPointer rest with
      | .error e => .error e
      | .ok rest => pointerLoop left rest

def unpackPointers (len : ℤ) (rest : List UInt8) : Except Stop (List UInt8) :=
  pointerLoop (clampUnsigned 8 len rest) rest

/-- The loops of `w`, with the inner one for numbers of more than a word. -/
def berLoop : Bool → ℕ → ℕ → List UInt8 → List UInt8
  | _,_,_,[] => []
  | big,len,ul,c::rest =>
    if !big && len == 0 then c::rest
    else
      let ul := (ul*128)%2^64+(c.toNat%128)
      if c.toNat < 128 then berLoop false (len-1) 0 rest
      else berLoop (big || decide (2^57 ≤ ul)) len ul rest

def unpackBer (len : ℤ) (rest : List UInt8) : List UInt8 := berLoop false len.toNat 0 rest

def utf8Length (c : UInt8) : Option ℕ :=
  if c.toNat < 0x80 then some 1
  else if c.toNat < 0xc0 then none
  else if c.toNat < 0xe0 then some 2
  else if c.toNat < 0xf0 then some 3
  else if c.toNat < 0xf8 then some 4
  else if c.toNat < 0xfc then some 5
  else if c.toNat < 0xfe then some 6
  else none

/-- `utf8_limits`. -/
def utf8Limit : ℕ → ℕ
  | 2 => 0x80
  | 3 => 0x800
  | 4 => 0x10000
  | 5 => 0x200000
  | 6 => 0x4000000
  | _ => 0

def continuation : ℕ → ℕ → List UInt8 → Except Stop (ℕ × List UInt8)
  | 0,uv,rest => .ok (uv,rest)
  | _+1,_,[] => .error .outside
  | n+1,uv,c::rest =>
    if c.toNat/64 ≠ 2 then .error .raised else continuation n (uv*64+c.toNat%64) rest

def utf8ToUv (rest : List UInt8) : Except Stop (List UInt8) :=
  match rest with
  | [] => .error .outside
  | c::tail => match utf8Length c with
      | none => .error .raised
      | some n =>
        if n=1 then .ok tail
        else if n > rest.length then .error .raised
        else match continuation (n-1) (c.toNat%2^(7-n)) tail with
          | .error e => .error e
          | .ok (uv,rest) => if uv < utf8Limit n then .error .raised else .ok rest

def utf8Loop : ℕ → List UInt8 → Except Stop (List UInt8)
  | 0,rest => .ok rest
  | _+1,[] => .ok []
  | len+1,c::rest => match utf8ToUv (c::rest) with
      | .error e => .error e
      | .ok rest => utf8Loop len rest

def unpackUtf8 (len : ℤ) (rest : List UInt8) : Except Stop (List UInt8) :=
  utf8Loop (clamp len rest).toNat rest

/-- `if (s < send && *s >= ' ') s++`; `char` is signed. -/
def uuChar : List UInt8 → List UInt8
  | [] => []
  | c::rest => if 32 ≤ c.toNat ∧ c.toNat < 128 then rest else c::rest

/-- The groups of four characters of a line of `len` bytes. -/
def uuGroups : ℕ → List UInt8 → List UInt8
  | 0,rest => rest
  | groups+1,rest => uuGroups groups (uuChar (uuChar (uuChar (uuChar rest))))

inductive LineEnd
  | at (rest : List UInt8)
  | outside
  /-- One byte beyond the end. -/
  | beyond
deriving DecidableEq, Repr

/-- The newline, or a checksum byte and a newline; the test for the newline is made
without a test for the end. -/
def lineFeed : List UInt8 → LineEnd
  | [] => .outside
  | [c] => if c=10 then .at [] else .beyond
  | c::d::rest => if c=10 then .at (d::rest) else if d=10 then .at rest else .at (c::d::rest)

def lineEnd : List UInt8 → LineEnd
  | [] => .outside
  | c::rest => if c=13 then lineFeed rest else lineFeed (c::rest)

/-- The first character of a line: more than a blank and less than `a`. -/
def startsLine (c : UInt8) : Bool := decide (32 < c.toNat ∧ c.toNat < 97)

def lineBytes (room : ℕ) (c : UInt8) : ℕ := min ((c.toNat-32)%64) room

def afterLine (room : ℕ) (c : UInt8) (rest : List UInt8) : List UInt8 :=
  uuGroups ((lineBytes room c+2)/3) rest

lemma uuChar_suffix (rest : List UInt8) : uuChar rest <:+ rest := by
  unfold uuChar
  split
  · exact suffix_refl _
  · split_ifs
    · exact suffix_cons _ _
    · exact suffix_refl _

lemma uuGroups_suffix (groups : ℕ) (rest : List UInt8) : uuGroups groups rest <:+ rest := by
  induction groups generalizing rest with
  | zero => exact suffix_refl _
  | succ groups ih =>
    refine (ih _).trans ?_
    refine (uuChar_suffix _).trans ?_
    refine (uuChar_suffix _).trans ?_
    exact (uuChar_suffix _).trans (uuChar_suffix _)

lemma lineFeed_suffix {rest rest' : List UInt8} (h : lineFeed rest=.at rest') :
    rest' <:+ rest := by
  unfold lineFeed at h
  split at h
  · cases h
  · split_ifs at h
    cases h
    exact nil_suffix
  · split_ifs at h
    · cases h
      exact suffix_cons _ _
    · cases h
      exact (suffix_cons _ _).trans (suffix_cons _ _)
    · cases h
      exact suffix_refl _

lemma lineEnd_suffix {rest rest' : List UInt8} (h : lineEnd rest=.at rest') : rest' <:+ rest := by
  unfold lineEnd at h
  split at h
  · cases h
  · split_ifs at h
    · exact (lineFeed_suffix h).trans (suffix_cons _ _)
    · exact lineFeed_suffix h

/-- The loop of `u` over the lines. -/
def uuLoop (room : ℕ) (rest : List UInt8) : LineEnd :=
  match rest with
  | [] => .at []
  | c::tail =>
    if startsLine c then
      match _h : lineEnd (afterLine room c tail) with
      | .at rest' => uuLoop (room-lineBytes room c) rest'
      | .outside => .outside
      | .beyond => .beyond
    else .at (c::tail)
termination_by rest.length
decreasing_by
  have h1 := (lineEnd_suffix _h).length_le
  have h2 : (afterLine room c tail).length ≤ tail.length := (uuGroups_suffix _ _).length_le
  rw [length_cons]
  omega

/-- The alphabet of `b64_xtable`. -/
def isBase64 (c : UInt8) : Bool :=
  decide (65 ≤ c.toNat ∧ c.toNat ≤ 90 ∨ 97 ≤ c.toNat ∧ c.toNat ≤ 122 ∨
    48 ≤ c.toNat ∧ c.toNat ≤ 57 ∨ c.toNat=43 ∨ c.toNat=47)

/-- The loops of `m`, in the search for the character at this place of a group of four.
Each looks at a byte before it tests for the end, and after a group that is complete the
byte at the end is looked at too. -/
def base64Loop : ℕ → List UInt8 → Except Stop (List UInt8)
  | _,[] => .error .outside
  | place,c::rest =>
    if isBase64 c then base64Loop ((place+1)%4) rest
    else if 2 ≤ place ∧ c=61 then .ok (c::rest)
    else base64Loop place rest

def unpackBase64 : List UInt8 → Except Stop (List UInt8)
  | [] => .ok []
  | c::rest => base64Loop 0 (c::rest)

/-- `hex2num` is not `-1`. -/
def isHex (c : UInt8) : Bool :=
  decide (48 ≤ c.toNat ∧ c.toNat ≤ 57 ∨ 65 ≤ c.toNat ∧ c.toNat ≤ 70 ∨
    97 ≤ c.toNat ∧ c.toNat ≤ 102)

/-- The loop of `M`. -/
def quotedLoop : List UInt8 → List UInt8
  | [] => []
  | c::rest =>
    if c ≠ 61 then quotedLoop rest
    else match rest with
      | [] => []
      | d::rest' =>
        match rest' with
        | [] => if d=10 then [] else if isHex d then [] else [d]
        | e::tail =>
          if d=13 ∧ e=10 then quotedLoop tail
          else if d=10 then quotedLoop (e::tail)
          else if ¬isHex d then d::e::tail
          else if ¬isHex e then e::tail
          else quotedLoop tail

structure Cursor where
  bytes : List UInt8
  s : ℕ
  inside : s ≤ bytes.length

namespace Cursor

def rest (c : Cursor) : List UInt8 := c.bytes.drop c.s

/-- `send - s`. -/
def left (c : Cursor) : ℕ := c.bytes.length-c.s

def len (c : Cursor) : Count → ℤ
  | .star => c.left
  | .length len => len

end Cursor

def moved (c : Cursor) (r : Except Stop (List UInt8)) : Except Stop ℤ :=
  r.map fun rest => (c.bytes.length : ℤ)-rest.length

def exec (c : Cursor) (k : Kind) (n : Count) : Except Stop ℤ :=
  let len := c.len n
  let star := n == .star
  match k with
  | .blanks => moved c (unpackA len c.rest)
  | .nulEnded => (unpackZ star len c.rest).map fun d => (c.s : ℤ)+d
  | .plain => moved c (unpackPlain len c.rest)
  | .bits per => moved c (unpackBits per star len c.rest)
  | .items size => moved c (unpackItems size len c.rest)
  | .quads => moved c (unpackQuads len c.rest)
  | .utf8 => moved c (unpackUtf8 len c.rest)
  | .uu => match uuLoop (c.left*3/4) c.rest with
      | .at rest => moved c (.ok rest)
      | .outside => .error .outside
      | .beyond => .ok ((c.bytes.length : ℤ)+1)
  | .base64 => moved c (unpackBase64 c.rest)
  | .quoted => moved c (.ok (quotedLoop c.rest))
  | .absolute => if len > c.bytes.length then .error .raised else .ok len
  | .back => if len > c.s then .error .raised else .ok (c.s-len)
  | .forward => if len > c.left then .error .raised else .ok (c.s+len)
  | .pointer => moved c (unpackPointer c.rest)
  | .pointers => moved c (unpackPointers len c.rest)
  | .ber => moved c (.ok (unpackBer len c.rest))
  | .percent => .error .raised
  | .other => .ok c.s

/-- How a call ends; `left` is a cursor outside of the input after a directive. -/
inductive End
  | returned
  | raised
  | outside
  | left
deriving DecidableEq, Repr

def run (c : Cursor) : List Item → End
  | [] => .returned
  | .invalid::_ => .raised
  | .directive k n::items => match exec c k n with
      | .error .raised => .raised
      | .error .outside => .outside
      | .ok s => if h : 0 ≤ s ∧ s.toNat ≤ c.bytes.length then run ⟨c.bytes,s.toNat,h.2⟩ items
          else .left

def packUnpack (fmt : List Char) (bytes : List UInt8) : End :=
  run ⟨bytes,0,Nat.zero_le _⟩ (directives fmt)

end MacRuby.UnpackDirectives
