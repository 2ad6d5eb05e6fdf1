import Mathlib.Algebra.Order.Group.Nat
import Mathlib.Algebra.Order.Ring.Int
import Mathlib.Data.List.Basic

/-!
# File handles

A handle that is open for reading has a descriptor and a buffer. The first read of a
regular file fills the buffer with the whole file, as far as `read` gives it; later
reads copy from the buffer until it is used up, and then go to the descriptor. Bytes
are pushed back into the buffer, and a seek sets both the descriptor and the offset
in the buffer.

The file does not change. How many bytes `read` gives is up to the system: an action
comes with the numbers that are given to its calls of `read`. A copy that reads or
writes outside of the buffer has no result.
-/
namespace MacRuby.FileHandles
open List

/-- `pos` is the offset of the descriptor, `off` is `buf_offset`. -/
structure Handle where
  file : List UInt8
  pos : ℕ
  buf : Option (List UInt8)
  off : ℕ
deriving DecidableEq, Repr

namespace Handle

def opened (file : List UInt8) : Handle := ⟨file,0,none,0⟩

def data (h : Handle) : List UInt8 := h.buf.getD []

/-- `read`: at most as many bytes as are asked for and at least one unless the end is
reached. -/
def read (h : Handle) (amount len : ℕ) : List UInt8 × Handle :=
  let bytes := (h.file.drop h.pos).take (min (max 1 amount) len)
  (bytes,{h with pos := h.pos+bytes.length})

end Handle

/-- A difference of `unsigned long`. -/
def unsignedSub (a b : ℕ) : ℕ := if b ≤ a then a-b else a+2^64-b

/-- The copy from the buffer, after which the descriptor follows; a buffer that is used up
is emptied. -/
def copyOut (h : Handle) (len : ℕ) : Option (List UInt8 × Handle) :=
  let s := h.data.length
  if s=0 ∨ len=0 then some ([],h)
  else
    let n := if len > unsignedSub s h.off then unsignedSub s h.off else len
    if h.off+n ≤ s then
      let bytes := (h.data.drop h.off).take n
      if h.off+n=s then some (bytes,{h with pos := s, buf := some [], off := 0})
      else some (bytes,{h with pos := h.off+n, off := h.off+n})
    else none

/-- `rb_io_read_internal`. -/
def readInternal (h : Handle) (amount len : ℕ) : Option (List UInt8 × Handle) :=
  if h.data.length=0 then
    if h.file.length=0 ∨ h.pos > 0 then some (h.read amount len)
    else
      let r := h.read amount h.file.length
      copyOut {r.2 with buf := some r.1} len
  else copyOut h len

/-- The loop of `rb_io_read_all`, in pieces of 512 bytes until there is none. -/
def readAllLoop : ℕ → Handle → (ℕ → ℕ) → Option (List UInt8 × Handle)
  | 0,h,_ => some ([],h)
  | fuel+1,h,amounts => match readInternal h (amounts 0) 512 with
      | none => none
      | some ([],h) => some ([],h)
      | some (bytes,h) =>
        (readAllLoop fuel h fun i => amounts (i+1)).map fun r => (bytes++r.1,r.2)

/-- `rb_io_read_all`. -/
def readAll (h : Handle) (amounts : ℕ → ℕ) : Option (List UInt8 × Handle) :=
  readAllLoop (h.data.length+h.file.length+1) h amounts

/-- `rb_io_read_pending`. -/
def readPending (h : Handle) : Bool := decide (0 < h.data.length)

inductive Whence
  | set
  | cur
  | «end»
deriving DecidableEq, Repr

/-- The argument of `ungetc`. -/
inductive Pushed
  | nil
  | fixnum (n : ℤ)
  | string (bytes : List UInt8)
deriving DecidableEq, Repr

inductive Action
  | read (size : ℤ)
  | readAll
  | getbyte
  | eof
  | ungetc (c : Pushed)
  | seek (offset : ℤ) (whence : Whence)
  | rewind
  | pos
deriving DecidableEq, Repr

inductive Result
  | string (bytes : List UInt8)
  | byte (c : UInt8)
  | nil
  | boolean (b : Bool)
  | zero
  | position (n : ℕ)
  | negativeLength (size : ℤ)
  | sizeTooBig (size : ℤ)
  | lseekFailed
deriving DecidableEq, Repr

/-- Where `lseek` goes, unless that is no `off_t`. -/
def lseek (pos size : ℕ) (offset : ℤ) (whence : Whence) : Option ℕ :=
  let target : ℤ := match whence with
    | .set => offset
    | .cur => pos+offset
    | .end => size+offset
  if 0 ≤ target ∧ target < 2^63 then some target.toNat else none

/-- `rb_io_seek`. -/
def seek (h : Handle) (offset : ℤ) (whence : Whence) : Result × Handle :=
  match lseek h.pos h.file.length offset whence with
  | none => (.lseekFailed,h)
  | some code => (.zero,{h with pos := code, off := if h.buf.isSome then code else h.off})

/-- The bytes that are pushed back for an argument that is not `nil`. -/
def Pushed.bytes : Pushed → List UInt8
  | .nil => []
  | .fixnum n => [UInt8.ofNat (n%256).toNat]
  | .string bytes => bytes

/-- The part of `rb_io_ungetc` after the argument is converted: the bytes are copied over
those before the offset if there are enough, otherwise the buffer grows and the offset stays
as it is. -/
def pushBack (h : Handle) (bytes : List UInt8) : Option Handle :=
  if bytes.length ≤ h.off then
    if bytes.length=0 ∨ h.off ≤ h.data.length then
      some {h with
        buf := some (h.data.take (h.off-bytes.length)++bytes++h.data.drop h.off)
        off := h.off-bytes.length}
    else none
  else if h.off ≤ h.data.length then some {h with buf := some (bytes++h.data.drop h.off)}
  else none

/-- `rb_io_ungetc`. -/
def ungetc (h : Handle) (c : Pushed) : Option Handle :=
  if c=.nil then some h else pushBack h c.bytes

/-- `rb_io_eof`. -/
def eof (h : Handle) (amount : ℕ) : Option (Bool × Handle) :=
  if readPending h then some (false,h)
  else match readInternal h amount 1 with
    | none => none
    | some ([],h) => some (true,h)
    | some (_::_,h) =>
      some (false,if h.buf.isSome then {h with off := unsignedSub h.off 1} else h)

/-- `io_read` with a length. -/
def ioRead (h : Handle) (amount : ℕ) (size : ℤ) : Option (Result × Handle) :=
  if size < 0 then some (.negativeLength size,h)
  else if size=0 then some (.string [],h)
  else if size > 1000000000 then some (.sizeTooBig size,h)
  else (readInternal h amount size.toNat).map fun r =>
    (if r.1.length=0 then .nil else .string r.1,r.2)

/-- `rb_io_getbyte`. -/
def getbyte (h : Handle) (amount : ℕ) : Option (Result × Handle) :=
  (readInternal h amount 1).map fun r => (match r.1 with
    | [c] => .byte c
    | _ => .nil,r.2)

def Handle.exec (h : Handle) (amounts : ℕ → ℕ) : Action → Option (Result × Handle)
  | .read size => ioRead h (amounts 0) size
  | .readAll => (readAll h amounts).map fun r => (.string r.1,r.2)
  | .getbyte => getbyte h (amounts 0)
  | .eof => (eof h (amounts 0)).map fun r => (.boolean r.1,r.2)
  | .ungetc c => (ungetc h c).map fun h => (.nil,h)
  | .seek offset whence => some (seek h offset whence)
  | .rewind => some (seek h 0 .set)
  | .pos => some (.position h.pos,h)

variable {h : Handle} {len : ℕ}

/-- The bytes that the handle still has: those of the buffer from the offset on and those of
the file behind the buffer, or those behind the descriptor. -/
def Handle.view (h : Handle) : List UInt8 :=
  if h.data.length=0 then h.file.drop h.pos
  else h.data.drop h.off++h.file.drop h.data.length

/-- `0 <= buf_offset <= length of buf`. -/
def Handle.Bounded (h : Handle) : Prop := h.off ≤ h.data.length

instance (h : Handle) : Decidable h.Bounded := inferInstanceAs (Decidable (_ ≤ _))

/-- How many bytes a read of `len` bytes gives. -/
def given (h : Handle) (amount len : ℕ) : ℕ :=
  if h.data.length=0 then min (min (max 1 amount) len) (h.file.length-h.pos)
  else min len (h.data.length-h.off)

lemma view_of_empty (hd : h.data.length=0) : h.view=h.file.drop h.pos :=
  if_pos hd

lemma view_of_data (hd : h.data.length ≠ 0) :
    h.view=h.data.drop h.off++h.file.drop h.data.length :=
  if_neg hd

/-- A read of a handle in its bounds: the bytes come from the front of what the handle has,
and the rest stays. A buffer that is used up has been emptied. -/
structure Reads (h : Handle) (n : ℕ) (r : List UInt8 × Handle) : Prop where
  file : r.2.file=h.file
  bounded : r.2.Bounded
  unspent : r.2.data.length=0 ∨ r.2.off < r.2.data.length
  bytes : r.1=h.view.take n
  view : r.2.view=h.view.drop n

lemma copyOut_spec (hd : h.data.length ≠ 0) (hb : h.Bounded) (hlen : 0 < len) :
    ∃ r, copyOut h len=some r ∧ Reads h (min len (h.data.length-h.off)) r := by
  unfold Handle.Bounded at hb
  have hn : (if len > unsignedSub h.data.length h.off then unsignedSub h.data.length h.off
      else len)=min len (h.data.length-h.off) := by
    rw [unsignedSub]
    split_ifs <;> omega
  have hl : min len (h.data.length-h.off) ≤ (h.data.drop h.off).length := by
    rw [length_drop]
    omega
  have hby : (h.data.drop h.off).take (min len (h.data.length-h.off)) =
      h.view.take (min len (h.data.length-h.off)) := by
    rw [view_of_data hd,take_append_of_le_length hl]
  have hv : h.view.drop (min len (h.data.length-h.off)) =
      h.data.drop (h.off+min len (h.data.length-h.off))++h.file.drop h.data.length := by
    rw [view_of_data hd,drop_append_of_le_length hl,drop_drop]
  unfold copyOut
  rw [if_neg (by omega),hn,if_pos (by omega)]
  split_ifs with he
  · refine ⟨_,rfl,rfl,Nat.zero_le _,.inl rfl,hby,?_⟩
    rw [hv,he,drop_length]
    exact view_of_empty rfl
  · have hlt : h.off+min len (h.data.length-h.off) < h.data.length := by omega
    refine ⟨_,rfl,rfl,le_of_lt hlt,.inr hlt,hby,?_⟩
    rw [hv]
    exact view_of_data hd

lemma read_spec (hd : h.data.length=0) (hb : h.Bounded) (amount len : ℕ) :
    Reads h (min (min (max 1 amount) len) (h.file.length-h.pos)) (h.read amount len) := by
  have hby : (h.file.drop h.pos).take (min (max 1 amount) len) =
      (h.file.drop h.pos).take (min (min (max 1 amount) len) (h.file.length-h.pos)) := by
    rw [take_eq_take_iff,length_drop]
    omega
  refine ⟨rfl,hb,.inl hd,?_,?_⟩
  · rw [view_of_empty hd]
    exact hby
  · have hl : ((h.file.drop h.pos).take (min (max 1 amount) len)).length =
        min (min (max 1 amount) len) (h.file.length-h.pos) := by
      rw [length_take,length_drop]
    have hv : (h.read amount len).2.view=h.file.drop (h.read amount len).2.pos :=
      view_of_empty hd
    rw [hv,view_of_empty hd,drop_drop]
    change h.file.drop (h.pos+((h.file.drop h.pos).take (min (max 1 amount) len)).length)=_
    rw [hl]

/-- The buffer is filled with the front of the file; the handle still has the whole file. -/
lemma filled_spec (hpo : h.pos=0) (ho : h.off=0) (hf : h.file ≠ [])
    (amount : ℕ) :
    let r := h.read amount h.file.length
    let filled : Handle := {r.2 with buf := some r.1}
    filled.data.length=min (max 1 amount) h.file.length ∧ filled.data.length ≠ 0 ∧
      filled.off=0 ∧ filled.view=h.file := by
  intro r filled
  have hp : 0 < h.file.length := length_pos_iff.mpr hf
  have hd : filled.data=h.file.take (min (max 1 amount) h.file.length) := by
    change (h.file.drop h.pos).take _=_
    rw [hpo,drop_zero]
  have hl : filled.data.length=min (max 1 amount) h.file.length := by
    rw [hd,length_take]
    omega
  refine ⟨hl,by omega,ho,?_⟩
  rw [view_of_data (by omega),hl,hd]
  change (h.file.take _).drop h.off++h.file.drop _=h.file
  rw [ho,drop_zero,take_append_drop]

lemma readInternal_spec (hb : h.Bounded) (amount : ℕ) (hle : 0 < len) :
    ∃ r, readInternal h amount len=some r ∧ Reads h (given h amount len) r := by
  unfold readInternal given
  split_ifs with hd hdi
  · exact ⟨_,rfl,read_spec hd hb amount len⟩
  · have hp : h.pos=0 := by omega
    have ho : h.off=0 := Nat.le_zero.mp (hd ▸ hb)
    have hfi : h.file ≠ [] := fun hn => hdi (.inl (by rw [hn]; rfl))
    obtain ⟨hl,hne,hf,hv⟩ := filled_spec hp ho hfi amount
    obtain ⟨r,hr,hre⟩ := copyOut_spec hne (by rw [Handle.Bounded]; omega) hle
    have hg : min len (min (max 1 amount) h.file.length-0) =
        min (min (max 1 amount) len) (h.file.length-h.pos) := by omega
    refine ⟨r,hr,hre.file,hre.bounded,hre.unspent,?_,?_⟩
    · rw [hre.bytes,hf,hl,hv,hg,view_of_empty hd,hp,drop_zero]
    · rw [hre.view,hf,hl,hv,hg,view_of_empty hd,hp,drop_zero]
  · exact copyOut_spec hd hb hle

lemma length_view_of_empty (hd : h.data.length=0) : h.view.length=h.file.length-h.pos := by
  rw [view_of_empty hd,length_drop]

lemma length_view_of_data (hd : h.data.length ≠ 0) :
    h.view.length=(h.data.length-h.off)+(h.file.length-h.data.length) := by
  rw [view_of_data hd,length_append,length_drop,length_drop]

/-- Nothing cuts a read of `len` bytes short: neither the end of a buffer that does not
reach to the end of the file, nor `read`. -/
def Uncut (h : Handle) (amount len : ℕ) : Prop :=
  (h.data.length=0 ∧ min len (h.file.length-h.pos) ≤ max 1 amount) ∨
    (h.data.length ≠ 0 ∧ (len ≤ h.data.length-h.off ∨ h.file.length ≤ h.data.length))

instance (h : Handle) (amount len : ℕ) : Decidable (Uncut h amount len) :=
  inferInstanceAs (Decidable (_ ∨ _))

lemma given_spec (h : Handle) (amount len : ℕ) : given h amount len ≤ min len h.view.length ∧
    (Uncut h amount len ↔ given h amount len=min len h.view.length) := by
  unfold Uncut given
  split_ifs with hd
  · rw [length_view_of_empty hd]
    omega
  · rw [length_view_of_data hd]
    omega

lemma Reads.uncut {amount : ℕ} {r : List UInt8 × Handle}
    (hr : Reads h (given h amount len) r) (h1 : Uncut h amount len) : Reads h len r := by
  have ht : ∀ l : List UInt8, l.take (min len l.length)=l.take len := fun l => by
    rw [take_eq_take_iff]
    omega
  have hd : h.view.drop (min len h.view.length)=h.view.drop len := by
    rw [drop_eq_drop_iff]
    omega
  rw [(given_spec h amount len).2.mp h1] at hr
  exact ⟨hr.file,hr.bounded,hr.unspent,hr.bytes.trans (ht _),hr.view.trans hd⟩

end MacRuby.FileHandles
