import MacRuby.ArrayStorage
import MacRuby.Integers
import MacRuby.LockedState

/-!
# Replacing elements of an array

`rb_ary_splice` replaces a range of the elements of a RubyArray by the elements
of another one, which may be the same. Behind the end it fills up with nil and
concatenates, for a range of the same length it writes the elements over the old
ones, and otherwise it erases the range and inserts one element after the other.
All of this goes through the primitives of the storage.

An array of `2^60` elements has no buffer: the request ends in `rb_memerror`.
-/
namespace MacRuby.ArraySplice
open Cells ArrayStorage LockedState Function List Nat
open Integers (long)

section Splice

inductive Error
  /-- `IndexError`: "negative length (%ld)". -/
  | negativeLength (len : ℤ)
  /-- `IndexError`: "index %ld out of array". -/
  | indexOutOfArray (idx : ℤ)
  /-- `RuntimeError`: "can't modify frozen/immutable array". -/
  | frozenArray
  /-- `SecurityError`: "Insecure: can't modify array". -/
  | insecure
  /-- `RangeError`, for an integer beyond `long`. -/
  | bignumTooBig
  | noMemory
  /-- An access beyond a buffer, after which anything can happen. -/
  | outOfBounds
  deriving DecidableEq

/-- A RubyArray: its storage, and the flags that `rb_ary_modify` looks at. It is
insecure to modify a tainted array at a safe level of 4. -/
structure RubyArray (α : Type) where
  ary : Ary α
  frozen : Bool
  insecure : Bool

variable {α : Type}

abbrev M (α : Type) : Type → Type := Prog Error (RubyArray α)

def rbAryModify : M α Unit := fun s =>
  if s.frozen then (.error .frozenArray,s)
  else if s.insecure then (.error .insecure,s)
  else (.ok (),s)

def storage (f : Ary α → Option (Ary α)) : M α Unit := fun s =>
  match f s.ary with
  | some a => (.ok (),{s with ary := a})
  | none => (.error .outOfBounds,s)

/-- The last argument of `rb_ary_splice`: nothing (`Qundef`), the array itself or another one. -/
inductive Replacement (α : Type)
  | undef
  | self
  | array (r : Ary α)

def Replacement.len (a : Ary α) : Replacement α → ℕ
  | undef => 0
  | self => a.len
  | array r => r.len

def pair (a r : Ary α) : Heap α := fun i => if i=0 then a else r

/-- `rary_concat` of elements of another array. -/
def concatOther (a r : Ary α) (beg len : ℕ) : Option (Ary α) :=
  (raryConcat (pair a r) 0 1 beg len).map (fun h => h 0)

def newAry (memory : ℕ → α) : Ary α := ⟨0,0,0,memory⟩

def rbAryDup (memory : ℕ → α) (a : Ary α) : Option (Ary α) := concatOther (newAry memory) a 0 a.len

def Replacement.source (memory : ℕ → α) (a : Ary α) : Replacement α → Option (Ary α)
  | undef => some (newAry memory)
  | self => rbAryDup memory a
  | array r => some r

/-- The part of `rb_ary_splice` that changes the array. -/
def replaceRange (nil : α) (r : Ary α) (rlen beg len : ℕ) (a : Ary α) : Option (Ary α) :=
  if beg ≥ a.len then do
    let a ← forUp (fun _ a => raryAppend a nil) a.len (beg-a.len) a
    if rlen > 0 then concatOther a r 0 rlen else some a
  else if len=rlen then forUp (fun i a => do raryReplace a (beg+i) (← raryElt r i)) 0 len a
  else do
    let (_,a) ← raryErase nil a beg len
    forUp (fun i a => do raryInsert a (beg+i) (← raryElt r i)) 0 rlen a

def lengthAfter (n beg len rlen : ℕ) : ℕ := if beg ≥ n then beg+rlen else n-len+rlen

def rbArySplice (nil : α) (memory : ℕ → α) (beg len : ℤ) (rpl : Replacement α) : M α Unit := do
  let n ← read (fun s => s.ary.len)
  if len < 0 then raise (.negativeLength len)
  else
    let beg' := if beg < 0 then beg+n else beg
    if beg' < 0 then raise (.indexOutOfArray (beg'-n))
    else do
      let len' := if n < len ∨ n < long (beg'+len) then n-beg' else len
      let rlen ← read (fun s => rpl.len s.ary)
      rbAryModify
      if 2^60 ≤ lengthAfter n beg'.toNat len'.toNat rlen then raise .noMemory
      else storage (fun a => do
        let r ← rpl.source memory a
        replaceRange nil r rlen beg'.toNat len'.toNat a)

variable {l : List α} {start : ℕ}

/-- The elements before the start, filled up with nil, the replacement and the
elements behind the range. -/
def spliced (nil : α) (l r : List α) (start len : ℕ) : List α :=
  l.take start++List.replicate (start-l.length) nil++r++l.drop (start+len)

lemma spliced_of_le (nil : α) (r : List α) (len : ℕ) (h : l.length ≤ start) :
    spliced nil l r start len=l++List.replicate (start-l.length) nil++r := by
  rw [spliced,take_of_length_le h,drop_eq_nil_of_le (by omega),append_nil]

lemma spliced_of_lt (nil : α) (r : List α) (len : ℕ) (h : start < l.length) :
    spliced nil l r start len=l.take start++r++l.drop (start+len) := by
  have hz : start-l.length=0 := by omega
  rw [spliced,hz,replicate_zero,append_nil]

lemma spliced_min (nil : α) (l r : List α) (start len : ℕ) :
    spliced nil l r start (min len (l.length-start))=spliced nil l r start len := by
  rw [spliced]
  congr 1
  by_cases h : len ≤ l.length-start
  · rw [min_eq_left h]
  · rw [drop_eq_nil_of_le (by omega),drop_eq_nil_of_le (by omega)]

lemma take_succ_of_getElem? {k : ℕ} {x : α} (h : l[k]? = some x) :
    l.take (k+1)=l.take k++[x] := by
  rw [take_add_one,h]
  rfl

lemma insertIdx_length_append (p q : List α) (x : α) : (p++q).insertIdx p.length x=p++x::q := by
  induction p with
  | nil => rfl
  | cons y p ih => exact congrArg (y::·) ih

variable {a r : Ary α}

@[simp] lemma length_contents (a : Ary α) : a.contents.length=a.len := length_slice _ _ _

lemma raryElt_spec (hr : r.Sound) {i : ℕ} (hi : i < r.len) :
    ∃ x,raryElt r i=some x ∧ r.contents[i]? = some x := by
  have hw := hr.within
  refine ⟨r.elements (r.beg+i),raryElt_over hr.small (by omega),?_⟩
  rw [Ary.contents,getElem?_slice,if_pos hi]

lemma take_contents (r : Ary α) : r.contents.take r.len=r.contents :=
  take_of_length_le (by simp)

lemma overwrite_spec (ha : a.Sound) (hr : r.Sound) {beg : ℕ} (hle : beg+r.len ≤ a.len) :
    Yields (forUp (fun i a => do raryReplace a (beg+i) (← raryElt r i)) 0 r.len a)
      (a.contents.take beg++r.contents++a.contents.drop (beg+r.len)) := by
  let P : ℕ → Ary α → Prop := fun k b => b.Sound ∧
    b.contents=a.contents.take beg++r.contents.take k++a.contents.drop (beg+k)
  have hro : ∀ k b,0 ≤ k → k < 0+r.len → P k b →
      ∃ b',(do raryReplace b (beg+k) (← raryElt r k))=some b' ∧ P (k+1) b' := by
    intro k b _ hk ⟨hb,hc⟩
    obtain ⟨x,hx,hx'⟩ := raryElt_spec hr (show k < r.len by omega)
    have hf : (a.contents.take beg++r.contents.take k).length=beg+k := by
      simp
      omega
    have hbl : b.len=a.len := by
      rw [← length_contents b,hc,length_append,length_drop,length_contents]
      omega
    have hd : a.contents.drop (beg+k) =
        a.contents.get ⟨beg+k,by simp; omega⟩::a.contents.drop (beg+(k+1)) :=
      drop_eq_getElem_cons _
    obtain ⟨b',hb',hs,hse⟩ := raryReplace_spec hb.small hb.within (show beg+k < b.len by omega) x
    refine ⟨b',by rw [hx]; exact hb',hs,?_⟩
    rw [hse,hc,take_succ_of_getElem? hx',hd,set_append_right _ _ (by omega),hf]
    simp
  obtain ⟨b,hl,hb,hc⟩ := forUp_invariant ⟨ha,by simp⟩ hro
  refine ⟨b,hl,hb,?_⟩
  rw [hc,zero_add,take_contents]

lemma insert_spec {p q : List α} (ha : a.Sound) (hc : a.contents=p++q) (hr : r.Sound)
    (hli : a.len+r.len < 2^60) :
    Yields (forUp (fun i a => do raryInsert a (p.length+i) (← raryElt r i)) 0 r.len a)
      (p++r.contents++q) := by
  let P : ℕ → Ary α → Prop := fun k b => b.Sound ∧ b.contents=p++r.contents.take k++q
  have hal : a.len=p.length+q.length := by
    rw [← length_contents,hc,length_append]
  have hro : ∀ k b,0 ≤ k → k < 0+r.len → P k b →
      ∃ b',(do raryInsert b (p.length+k) (← raryElt r k))=some b' ∧ P (k+1) b' := by
    intro k b _ hk ⟨hb,hc'⟩
    obtain ⟨x,hx,hx'⟩ := raryElt_spec hr (show k < r.len by omega)
    have hf : (p++r.contents.take k).length=p.length+k := by
      simp
      omega
    have hbl : b.len=a.len+k := by
      rw [← length_contents b,hc',length_append]
      omega
    obtain ⟨b',hb',hs,hi⟩ := raryInsert_spec hb (by omega) (show p.length+k ≤ b.len by omega) x
    refine ⟨b',by rw [hx]; exact hb',hs,?_⟩
    rw [hi,hc',take_succ_of_getElem? hx',← hf,insertIdx_length_append]
    simp
  obtain ⟨b,hl,hb,hc'⟩ := forUp_invariant ⟨ha,by simp [hc]⟩ hro
  refine ⟨b,hl,hb,?_⟩
  rw [hc',zero_add,take_contents]

variable {b : Ary α} {item : α}

lemma grow_beg (a : Ary α) (newlen : ℕ) : (grow a newlen).beg=a.beg := by
  rw [grow]
  split_ifs <;> rfl

lemma raryReserve_cases (ha : a.Sound) {newlen : ℕ} (hn : newlen < 2^60)
    (h : raryReserve a newlen=some b) : (a.beg+newlen ≤ a.cap ∧ b=a) ∨
      (a.cap < a.beg+newlen ∧ b=grow a.slid (newlen-a.beg)) := by
  have hw := ha.within
  have hs := ha.small
  rw [raryReserve,sz_eq (by omega),slideDown_eq ha] at h
  split_ifs at h with hr
  · exact .inr ⟨hr,Option.some.inj h.symm⟩
  · exact .inl ⟨not_lt.mp hr,Option.some.inj h.symm⟩

lemma raryReplace_some {i : ℕ} (h : raryReplace a i item=some b) :
    sz (a.beg+i) < a.cap ∧ b.beg=a.beg ∧ b.len=a.len ∧ b.cap=a.cap := by
  rw [raryReplace,Ary.set] at h
  split_ifs at h with hr
  rw [← Option.some.inj h]
  exact ⟨hr,rfl,rfl,rfl⟩

lemma raryAppend_place (ha : a.Sound) (hl : a.len+1 < 2^60) (h : raryAppend a item=some b) :
    (a.beg+(a.len+1) ≤ a.cap ∧ b.beg=a.beg ∧ b.cap=a.cap) ∨
      (a.cap < a.beg+(a.len+1) ∧ b.beg=0) := by
  rw [raryAppend,sz_eq (by omega)] at h
  obtain ⟨c,hc,h⟩ := Option.bind_eq_some_iff.mp h
  obtain ⟨d,hd,h⟩ := Option.bind_eq_some_iff.mp h
  obtain ⟨-,hb,-,hca⟩ := raryReplace_some hd
  rw [← Option.some.inj h]
  rcases raryReserve_cases ha hl hc with ⟨hr,rfl⟩ | ⟨hr,rfl⟩
  · exact .inl ⟨hr,hb,hca⟩
  · refine .inr ⟨hr,?_⟩
    rw [hb,grow_beg]
    rfl

lemma pad_spec (nil : α) (ha : a.Sound) {k : ℕ} (hli : a.len+k < 2^60) (i : ℕ) :
    ∃ b,forUp (fun _ a => raryAppend a nil) i k a=some b ∧ b.Sound ∧
      b.contents=a.contents++List.replicate k nil ∧
      ((a.beg+(a.len+k) ≤ a.cap ∧ b.beg=a.beg ∧ b.cap=a.cap) ∨
        (a.cap < a.beg+(a.len+k) ∧ b.beg=0)) := by
  let P : ℕ → Ary α → Prop := fun j b => b.Sound ∧ b.contents=a.contents++replicate (j-i) nil ∧
    (a.beg+(a.len+(j-i)) ≤ a.cap ∧ b.beg=a.beg ∧ b.cap=a.cap ∨
      a.cap < a.beg+(a.len+(j-i)) ∧ b.beg=0)
  have hst : P i a := by
    have hw := ha.within
    exact ⟨ha,by simp,.inl ⟨by omega,rfl,rfl⟩⟩
  have hr : ∀ j b,i ≤ j → j < i+k → P j b → ∃ b',raryAppend b nil=some b' ∧ P (j+1) b' := by
    intro j b hj hj' ⟨hb,hc,hp⟩
    have hbl : b.len=a.len+(j-i) := by
      rw [← length_contents b,hc]
      simp
    have hsu : j+1-i=j-i+1 := by omega
    obtain ⟨b',hb',hs,hc'⟩ := raryAppend_spec hb (by omega) nil
    refine ⟨b',hb',hs,?_,?_⟩
    · rw [hc',hc,hsu,replicate_succ',append_assoc]
    · have hp' := raryAppend_place hb (by omega) hb'
      omega
  obtain ⟨b,hl,hb⟩ := forUp_invariant hst hr
  have hk : i+k-i=k := by omega
  change b.Sound ∧ b.contents=_ ∧ _ at hb
  rw [hk] at hb
  exact ⟨b,hl,hb⟩

lemma concatOther_spec (ha : a.Sound) (hr : r.Sound) {beg len : ℕ} (hra : beg+len ≤ r.len)
    (hl : a.len+len < 2^60) (hf : a.Fits (a.len+len)) :
    Yields (concatOther a r beg len) (a.contents++(r.contents.drop beg).take len) := by
  have hre : Related (pair a r) fun i => if i=0 then a.contents else r.contents := by
    intro i
    by_cases hi : i=0
    · simp only [pair,if_pos hi]
      exact ⟨ha,trivial⟩
    · simp only [pair,if_neg hi]
      exact ⟨hr,trivial⟩
  have hra' : beg+len ≤ (pair a r 1).len := hra
  have hl' : (pair a r 0).len+len < 2^60 := hl
  obtain ⟨h,hco,hre'⟩ := raryConcat_spec hre hra' hl' hf
  obtain ⟨hs,hc⟩ := hre' 0
  refine ⟨h 0,by rw [concatOther,hco]; rfl,hs,?_⟩
  rw [hc]
  rfl

lemma concatOther_all (ha : a.Sound) (hr : r.Sound) (hl : a.len+r.len < 2^60)
    (hf : a.Fits (a.len+r.len)) : Yields (concatOther a r 0 r.len) (a.contents++r.contents) := by
  have hy := concatOther_spec ha hr (zero_add r.len).le hl hf
  rwa [drop_zero,take_contents] at hy

lemma copyLoop_room {h h' : Heap α} {beg i n : ℕ} (hl : forUp (fun i h => do
      let item ← raryElt (h 1) (sz (beg+i))
      onAry h 0 (fun a => raryReplace a (sz (i+a.len)) item)) i n h=some h') {k : ℕ} (hk : i ≤ k)
    (hk' : k < i+n) : sz ((h 0).beg+sz (k+(h 0).len)) < (h 0).cap := by
  induction n generalizing i h with
  | zero => omega
  | succ n ih =>
    obtain ⟨h₁,hr,hre⟩ := Option.bind_eq_some_iff.mp hl
    obtain ⟨item,-,hw⟩ := Option.bind_eq_some_iff.mp hr
    obtain ⟨b,hb,hh₁⟩ := Option.map_eq_some_iff.mp hw
    obtain ⟨hro,hbe,hle,hc⟩ := raryReplace_some hb
    have hs : h₁ 0=b := by rw [← hh₁,update_self]
    by_cases hki : k=i
    · rw [hki]
      exact hro
    · have hn := ih hre (by omega) (by omega)
      rwa [hs,hbe,hle,hc] at hn

lemma concatOther_none (ha : a.Sound) (hp : 0 < r.len) (hli : a.len+r.len < 2^60)
    (hf : ¬a.Fits (a.len+r.len)) : concatOther a r 0 r.len=none := by
  by_contra hsome
  obtain ⟨c,hc⟩ := Option.ne_none_iff_exists'.mp hsome
  obtain ⟨h,hco,-⟩ := Option.map_eq_some_iff.mp hc
  obtain ⟨h₁,hr,hco⟩ := Option.bind_eq_some_iff.mp hco
  obtain ⟨h₂,hlo,-⟩ := Option.bind_eq_some_iff.mp hco
  obtain ⟨b,hb,hh₁⟩ := Option.map_eq_some_iff.mp hr
  have hs : h₁ 0=b := by rw [← hh₁,update_self]
  have hb' : raryReserve a (a.len+r.len)=some b := by
    rw [← hb]
    change _=raryReserve a (sz (a.len+r.len))
    rw [sz_eq (by omega)]
  have hl := copyLoop_room hlo (k := r.len-1) (by omega) (by omega)
  rw [hs] at hl
  unfold Ary.Fits at hf
  rcases raryReserve_cases ha hli hb' with ⟨hro,-⟩ | ⟨-,hsl⟩
  · omega
  · have hk : grow a.slid (a.len+r.len-a.beg)=a.slid := by
      have hca : a.slid.cap=a.cap := rfl
      rw [grow,if_neg (by rw [hca]; omega)]
    rw [hsl,hk] at hl
    have hce : sz (r.len-1+a.len)=r.len-1+a.len := sz_eq (by omega)
    change sz (0+sz (r.len-1+a.len)) < a.cap at hl
    rw [zero_add,hce] at hl
    omega

variable {start : ℕ}

/-- The elements fit behind the start: there are none, they begin inside the array,
the array begins at its first cell, if need be once it is filled up, or the
request is not taken for smaller than it is. -/
def Roomy (a : Ary α) (start rlen : ℕ) : Prop :=
  start < a.len ∨ rlen=0 ∨ a.beg=0 ∨ a.cap < a.beg+start ∨ start+rlen ≤ a.cap ∨
    a.cap+a.beg < start+rlen

instance (a : Ary α) (start rlen : ℕ) : Decidable (Roomy a start rlen) :=
  inferInstanceAs (Decidable (_ ∨ _ ∨ _ ∨ _ ∨ _ ∨ _))

lemma replaceRange_append (nil : α) (ha : a.Sound) (hr : r.Sound) (len : ℕ)
    (hs : a.len ≤ start) (hli : start+r.len < 2^60) (hro : Roomy a start r.len) :
    Yields (replaceRange nil r r.len start len a)
      (spliced nil a.contents r.contents start len) := by
  obtain ⟨b,hl,hb,hc,hpl⟩ := pad_spec nil ha (k := start-a.len) (by omega) a.len
  have hbl : b.len=start := by
    rw [← length_contents b,hc]
    simp
    omega
  rw [replaceRange,if_pos hs,bind_of_eq hl,spliced_of_le nil r.contents len (by simpa using hs),
    length_contents,← hc]
  split_ifs with hp
  · have hf : b.Fits (b.len+r.len) := by
      unfold Roomy at hro
      unfold Ary.Fits
      omega
    exact concatOther_all hb hr (by omega) hf
  · have hn : r.contents=[] := by
      rw [← length_eq_zero_iff,length_contents]
      omega
    rw [hn,append_nil]
    exact ⟨b,rfl,hb,rfl⟩

lemma replaceRange_inside (nil : α) (ha : a.Sound) (hr : r.Sound) {len : ℕ}
    (hs : start < a.len) (hl : start+len ≤ a.len) (hli : a.len-len+r.len < 2^60) :
    Yields (replaceRange nil r r.len start len a)
      (spliced nil a.contents r.contents start len) := by
  have hw := ha.within
  rw [replaceRange,if_neg (not_le.mpr hs),spliced_of_lt nil r.contents len (by simpa using hs)]
  by_cases hsa : len=r.len
  · subst hsa
    rw [if_pos rfl]
    exact overwrite_spec ha hr hl
  · rw [if_neg hsa]
    obtain ⟨b,he,hb,hc⟩ := raryErase_spec nil ha hl (by omega)
    obtain ⟨⟨item,b'⟩,hp,rfl⟩ := Option.map_eq_some_iff.mp he
    rw [bind_of_eq hp]
    have hf : (a.contents.take start).length=start := by
      simp
      omega
    have hbl : b'.len=a.len-len := by
      rw [← length_contents b',hc,length_append,length_drop,length_contents]
      omega
    have hi := insert_spec (a := b') hb hc hr (by omega)
    rw [hf] at hi
    exact hi

lemma replaceRange_none (nil : α) (ha : a.Sound) (len : ℕ)
    (hli : start+r.len < 2^60) (hr : ¬Roomy a start r.len) :
    replaceRange nil r r.len start len a=none := by
  unfold Roomy at hr
  have hs : a.len ≤ start := by omega
  obtain ⟨b,hl,hb,hc,hp⟩ := pad_spec nil ha (k := start-a.len) (by omega) a.len
  have hbl : b.len=start := by
    rw [← length_contents b,hc]
    simp
    omega
  have hf : ¬b.Fits (b.len+r.len) := by
    unfold Ary.Fits
    omega
  rw [replaceRange,if_pos hs,bind_of_eq hl,if_pos (by omega)]
  exact concatOther_none hb (by omega) (by omega) hf

def Replacement.contents (a : Ary α) : Replacement α → List α
  | undef => []
  | self => a.contents
  | array r => r.contents

def Replacement.Sound : Replacement α → Prop
  | array r => r.Sound
  | _ => True

lemma source_spec (memory : ℕ → α) (ha : a.Sound) {rpl : Replacement α}
    (hl : rpl.len a < 2^60) (hrp : rpl.Sound) :
    ∃ r,rpl.source memory a=some r ∧ r.Sound ∧ r.contents=rpl.contents a ∧ r.len=rpl.len a := by
  have hn : (newAry memory).Sound := ⟨le_rfl,Nat.two_pow_pos 61⟩
  cases rpl with
  | undef => exact ⟨newAry memory,rfl,hn,rfl,rfl⟩
  | array r => exact ⟨r,rfl,hrp,rfl,rfl⟩
  | self =>
    obtain ⟨r,hr,hs,hc⟩ := concatOther_all hn ha
      (by change 0+a.len < 2^60; rw [zero_add]; exact hl) (.inr (.inr rfl))
    refine ⟨r,hr,hs,hc,?_⟩
    rw [← length_contents r,hc,length_append,length_contents,length_contents]
    exact zero_add _

end Splice

variable {α : Type} (nil : α) (memory : ℕ → α) (s : RubyArray α) (beg len : ℤ) (rpl : Replacement α)
variable {f : Ary α → Option (Ary α)}

def start : ℕ := (if beg < 0 then beg+s.ary.len else beg).toNat

def count : ℕ := (if s.ary.len < len ∨ s.ary.len < long (start s beg+len) then s.ary.len-start s beg
  else len : ℤ).toNat

def Error.IsIndexError : Error → Prop
  | .negativeLength _ | .indexOutOfArray _ => True
  | _ => False

/-- The arguments for which an `IndexError` is to be raised. -/
def Refused : Prop := len < 0 ∨ beg < -(s.ary.len : ℤ)

/-- The array is spliced like a list, or the arguments are refused and it stays as it is. -/
def SplicesList : Prop :=
  match rbArySplice nil memory beg len rpl s with
  | (.ok _,s') => ¬Refused s beg len ∧ s'.ary.Sound ∧
      s'.ary.contents=spliced nil s.ary.contents (rpl.contents s.ary) (start s beg) len.toNat
  | (.error e,s') => Refused s beg len ∧ e.IsIndexError ∧ s'=s

/-- The array may be modified, the result has a buffer, and the elements fit in it. -/
def Spliceable : Prop :=
  s.frozen=false ∧ s.insecure=false ∧
    lengthAfter s.ary.len (start s beg) (count s beg len) (rpl.len s.ary) < 2^60 ∧
    Roomy s.ary (start s beg) (rpl.len s.ary)

instance : Decidable (Spliceable s beg len rpl) := inferInstanceAs (Decidable (_ ∧ _ ∧ _ ∧ _))

variable {s beg len}

lemma rbArySplice_refused (h : Refused s beg len) :
    ∃ e,rbArySplice nil memory beg len rpl s=(.error e,s) ∧ e.IsIndexError := by
  by_cases hl : len < 0
  · refine ⟨.negativeLength len,?_,trivial⟩
    change (if len < 0 then _ else _ : M α Unit) s=_
    rw [if_pos hl]
    rfl
  · have hb : beg < -s.ary.len := h.resolve_left hl
    have hn : (if beg < 0 then beg+s.ary.len else beg) < 0 := by
      omega
    refine ⟨.indexOutOfArray ((if beg < 0 then beg+s.ary.len else beg)-s.ary.len),?_,trivial⟩
    change (if len < 0 then _ else _ : M α Unit) s=_
    rw [if_neg hl]
    rw [if_pos hn]
    rfl

lemma rbArySplice_accepted (h : ¬Refused s beg len) : rbArySplice nil memory beg len rpl s =
      (rbAryModify >>= fun _ =>
        if 2^60 ≤ lengthAfter s.ary.len (start s beg) (count s beg len) (rpl.len s.ary) then
          raise .noMemory
        else storage (fun a => do
          let r ← rpl.source memory a
          replaceRange nil r (rpl.len s.ary) (start s beg) (count s beg len) a) : M α Unit) s := by
  unfold Refused at h
  have hp : ¬(if beg < 0 then beg+s.ary.len else beg) < 0 := by
    split_ifs <;> omega
  have hs : (start s beg : ℤ)=if beg < 0 then beg+s.ary.len else beg :=
    Int.toNat_of_nonneg (not_lt.mp hp)
  change (if len < 0 then _ else _ : M α Unit) s=_
  rw [if_neg (by omega)]
  rw [if_neg hp,count,hs]
  rfl

lemma count_inside (hs : s.ary.Sound) (hle : 0 ≤ len) (hst : start s beg < s.ary.len) :
    count s beg len=min len.toNat (s.ary.len-start s beg) := by
  have hw := hs.within
  have hsm := hs.small
  rw [count]
  by_cases hl : s.ary.len < len
  · omega
  · rw [Integers.long_eq (by omega) (by omega)]
    split_ifs with hc <;> omega

lemma rpl_le_lengthAfter (n beg len rlen : ℕ) : rlen ≤ lengthAfter n beg len rlen := by
  rw [lengthAfter]
  split_ifs <;> omega

lemma replaceRange_spec (hs : s.ary.Sound) {r : Ary α} (hr : r.Sound) (hlen : 0 ≤ len)
    (hl : lengthAfter s.ary.len (start s beg) (count s beg len) r.len < 2^60)
    (hro : Roomy s.ary (start s beg) r.len) :
    Yields (replaceRange nil r r.len (start s beg) (count s beg len) s.ary)
      (spliced nil s.ary.contents r.contents (start s beg) len.toNat) := by
  have hle := length_contents s.ary
  by_cases hst : start s beg < s.ary.len
  · have hc := count_inside hs hlen hst
    have hi : start s beg+count s beg len ≤ s.ary.len := by omega
    rw [lengthAfter,if_neg (not_le.mpr hst)] at hl
    have hy := replaceRange_inside nil hs hr hst hi hl
    rw [← spliced_min,hle,← hc]
    exact hy
  · have he : s.ary.len ≤ start s beg := not_lt.mp hst
    rw [lengthAfter,if_pos he] at hl
    have hy := replaceRange_append nil hs hr (count s beg len) he hl hro
    rw [← hle] at he
    rw [spliced_of_le nil _ _ he] at hy ⊢
    exact hy

lemma rbAryModify_bind {β : Type} (f : Unit → M α β) (s : RubyArray α) : (rbAryModify >>= f) s =
      if s.frozen then (.error .frozenArray,s)
      else if s.insecure then (.error .insecure,s) else f () s := by
  change Prog.bind rbAryModify f s=_
  unfold Prog.bind rbAryModify
  split_ifs <;> rfl

lemma storage_some {b : Ary α} (h : f s.ary=some b) : storage f s=(.ok (),{s with ary := b}) := by
  rw [storage,h]

lemma storage_none (h : f s.ary=none) : storage f s=(.error .outOfBounds,s) := by
  rw [storage,h]

lemma rbArySplice_spliceable (hs : s.ary.Sound) (hrp : rpl.Sound) (hre : ¬Refused s beg len)
    (h : Spliceable s beg len rpl) :
    ∃ b : Ary α,rbArySplice nil memory beg len rpl s=(.ok (),{s with ary := b}) ∧ b.Sound ∧
      b.contents = spliced nil s.ary.contents (rpl.contents s.ary) (start s beg) len.toNat := by
  obtain ⟨hf,hi,hl,hro⟩ := h
  have hle : 0 ≤ len := not_lt.mp fun h => hre (.inl h)
  obtain ⟨r,hr,hso,hc,hrl⟩ := source_spec memory hs ((rpl_le_lengthAfter _ _ _ _).trans_lt hl) hrp
  rw [← hrl] at hl hro
  obtain ⟨b,hb,hbs,hbc⟩ := replaceRange_spec nil hs hso hle hl hro
  refine ⟨b,?_,hbs,by rw [hbc,hc]⟩
  rw [rbArySplice_accepted nil memory rpl hre,rbAryModify_bind,if_neg (by simp [hf]),
    if_neg (by simp [hi]),← hrl,if_neg (not_le.mpr hl)]
  refine storage_some ?_
  rw [bind_of_eq hr]
  exact hb

lemma rbArySplice_not_spliceable (hs : s.ary.Sound) (hrp : rpl.Sound)
    (hre : ¬Refused s beg len) (h : ¬Spliceable s beg len rpl) :
    ∃ e,rbArySplice nil memory beg len rpl s=(.error e,s) := by
  rw [rbArySplice_accepted nil memory rpl hre,rbAryModify_bind]
  by_cases hf : s.frozen=true
  · exact ⟨_,if_pos hf⟩
  rw [if_neg hf]
  by_cases hi : s.insecure=true
  · exact ⟨_,if_pos hi⟩
  split_ifs with hl
  · exact ⟨.noMemory,rfl⟩
  have hl : lengthAfter s.ary.len (start s beg) (count s beg len) (rpl.len s.ary) < 2^60 :=
    not_le.mp hl
  have hro : ¬Roomy s.ary (start s beg) (rpl.len s.ary) := fun hro =>
    h ⟨Bool.not_eq_true _ ▸ hf,Bool.not_eq_true _ ▸ hi,hl,hro⟩
  obtain ⟨r,hr,-,-,hrl⟩ := source_spec memory hs ((rpl_le_lengthAfter _ _ _ _).trans_lt hl) hrp
  rw [← hrl] at hl hro ⊢
  have he : s.ary.len ≤ start s beg := not_lt.mp fun h => hro (.inl h)
  rw [lengthAfter,if_pos he] at hl
  refine ⟨.outOfBounds,storage_none ?_⟩
  rw [bind_of_eq hr]
  exact replaceRange_none nil hs _ hl hro

/-- `rb_ary_splice` splices like a list or refuses its arguments, exactly if the
array may be modified and the storage has room for the replacement. -/
theorem splicesList_iff (hs : s.ary.Sound) (hrpl : rpl.Sound) :
    SplicesList nil memory s beg len rpl ↔ Refused s beg len ∨ Spliceable s beg len rpl := by
  rw [SplicesList]
  by_cases hr : Refused s beg len
  · obtain ⟨e,hru,he⟩ := rbArySplice_refused nil memory rpl hr
    rw [hru]
    simp only [hr,he,true_and,true_or]
  by_cases hsp : Spliceable s beg len rpl
  · obtain ⟨b,hru,hb⟩ := rbArySplice_spliceable nil memory rpl hs hrpl hr hsp
    rw [hru]
    simp only [hr,hb,hsp,not_false_eq_true,true_and,or_true]
  · obtain ⟨e,hru⟩ := rbArySplice_not_spliceable nil memory rpl hs hrpl hr hsp
    rw [hru]
    simp only [hr,hsp,false_and,or_self]

/-- Four elements in a buffer of four, three of them taken from the front. -/
def shifted : RubyArray ℕ := ⟨⟨3,1,4,fun i => i+1⟩,false,false⟩

/-- Three elements behind the last one have room, and the array in place of its last element. -/
theorem splicesList_shifted : SplicesList 0 (fun _ => 0) shifted 1 0 (.array ⟨0,3,3,fun i => i⟩) ∧
      SplicesList 0 (fun _ => 0) shifted (-1) 5 .self :=
  ⟨(splicesList_iff 0 (fun _ => 0) (.array ⟨0,3,3,fun i => i⟩) ⟨by decide,by decide⟩
      ⟨by decide,by decide⟩).mpr (.inr (by decide)),
    (splicesList_iff 0 (fun _ => 0) .self ⟨by decide,by decide⟩ trivial).mpr (.inr (by decide))⟩

/-- Four elements behind the last one are written beyond the buffer. -/
theorem splice_behind_shift_overflows :
    rbArySplice 0 (fun _ => 0) 1 0 (.array ⟨0,4,4,fun i => i⟩) shifted =
        (.error .outOfBounds,shifted) ∧
      ¬SplicesList 0 (fun _ => 0) shifted 1 0 (.array ⟨0,4,4,fun i => i⟩) := by
  have hr : rbArySplice 0 (fun _ => 0) 1 0 (.array ⟨0,4,4,fun i => i⟩) shifted =
      (.error .outOfBounds,shifted) := rfl
  refine ⟨hr,fun h => ?_⟩
  exact h.2.1

end MacRuby.ArraySplice
