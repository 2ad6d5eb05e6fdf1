import Mathlib.Algebra.Order.Group.Nat
import MacRuby.Cells
import MacRuby.Runs

/-!
# Storage of arrays

A RubyArray keeps its elements in `elements[beg..beg+len)` of a buffer of `cap`
cells. Taking elements from the front only moves `beg`, and a request for more
room slides the elements down before it looks at the capacity. The primitives
are modelled on a heap of arrays, since one of them reads a second array that
may be the same one. Reading or writing a cell at `cap` or beyond has no
result; cells that were never written hold anything.

`size_t` is reduced modulo `2^64`.
-/
namespace MacRuby.ArrayStorage
open Cells Runs Function List Nat

variable {α : Type*}

/-- `size_t` arithmetic. -/
def sz (n : ℕ) : ℕ := n%2^64

/-- `rb_ary_t`. -/
structure Ary (α : Type*) where
  beg : ℕ
  len : ℕ
  cap : ℕ
  elements : ℕ → α

def Ary.contents (a : Ary α) : List α := slice a.elements a.beg a.len

/-- `elements[i]`. -/
def Ary.get (a : Ary α) (i : ℕ) : Option α := if i < a.cap then some (a.elements i) else none

/-- `elements[i] = item`. -/
def Ary.set (a : Ary α) (i : ℕ) (item : α) : Option (Ary α) :=
  if i < a.cap then some {a with elements := update a.elements i item} else none

def raryElt (a : Ary α) (idx : ℕ) : Option α := a.get (sz (a.beg+idx))

def raryReplace (a : Ary α) (idx : ℕ) (item : α) : Option (Ary α) := a.set (sz (a.beg+idx)) item

/-- The part of `rary_reserve` that makes `beg` zero, and the length that is
asked for after it. -/
def slideDown (a : Ary α) (newlen : ℕ) : Option (Ary α × ℕ) :=
  if a.beg > 0 then do
    let newlen := if a.beg > newlen then 0 else newlen-a.beg
    let a ← forUp (fun i a => do a.set i (← a.get (sz (a.beg+i)))) 0 a.len a
    some ({a with beg := 0},newlen)
  else some (a,newlen)

/-- The part of `rary_reserve` that reallocates. -/
def grow (a : Ary α) (newlen : ℕ) : Ary α :=
  if newlen > a.cap then
    if a.cap > 0 then {a with cap := sz (newlen*2)} else {a with cap := newlen}
  else a

def raryReserve (a : Ary α) (newlen : ℕ) : Option (Ary α) :=
  if sz (a.beg+newlen) > a.cap then do
    let (a,newlen) ← slideDown a newlen
    some (grow a newlen)
  else some a

def raryAppend (a : Ary α) (item : α) : Option (Ary α) := do
  let a ← raryReserve a (sz (a.len+1))
  let a ← raryReplace a a.len item
  some {a with len := sz (a.len+1)}

def raryInsert (a : Ary α) (idx : ℕ) (item : α) : Option (Ary α) :=
  if idx < a.len then do
    let a ← raryReserve a (sz (a.len+1))
    let a ← forDown (fun i a => do raryReplace a i (← raryElt a (i-1))) a.len (a.len-idx) a
    let a ← raryReplace a idx item
    some {a with len := sz (a.len+1)}
  else raryAppend a item

/-- The loops that write `item` to a range of positions. -/
def fill (a : Ary α) (item : α) (i n : ℕ) : Option (Ary α) :=
  forUp (fun i a => raryReplace a i item) i n a

/-- The branch of `rary_erase` for the first elements, which moves `beg`. -/
def eraseFront (nil : α) (a : Ary α) (len : ℕ) : Option (Ary α) := do
  let a ← fill a nil 0 len
  some {a with beg := if len < a.len then sz (a.beg+len) else 0}

/-- The other branch of `rary_erase`, which moves the elements behind the range. -/
def eraseInner (nil : α) (a : Ary α) (idx len : ℕ) : Option (Ary α) := do
  let a ← forUp (fun i a => do raryReplace a i (← raryElt a (sz (i+len)))) idx (a.len-len-idx) a
  forUp (fun i a => raryReplace a (a.len-i-1) nil) 0 len a

/-- `rary_erase`, with the element that it returns. -/
def raryErase (nil : α) (a : Ary α) (idx len : ℕ) : Option (α × Ary α) := do
  let item ← raryElt a idx
  let a ← if idx=0 then eraseFront nil a len else eraseInner nil a idx len
  some (item,{a with len := a.len-len})

def raryStore (nil : α) (a : Ary α) (idx : ℕ) (item : α) : Option (Ary α) := do
  let a ←
    if idx ≥ a.len then do
      let a ← raryReserve a (sz (idx+1))
      let a ← fill a nil a.len (sz (idx+1)-a.len)
      some {a with len := sz (idx+1)}
    else some a
  raryReplace a idx item

def raryResize (nil : α) (a : Ary α) (newlen : ℕ) : Option (Ary α) := do
  let a ← if newlen > a.cap then raryReserve a newlen else some a
  let a ← fill a nil a.len (newlen-a.len)
  some {a with len := newlen}

def raryReverse (a : Ary α) : Option (Ary α) :=
  if a.len > 1 then
    forUp (fun i a => do
      let j := a.len-i-1
      let elem ← raryElt a i
      let a ← raryReplace a i (← raryElt a j)
      raryReplace a j elem) 0 (a.len/2) a
  else some a

/-- `rary_clear`; `memset` starts at the first cell of the buffer. -/
def raryClear (zero : α) (a : Ary α) : Option (Ary α) := do
  let a ← forUp (fun i a => a.set i zero) 0 a.len a
  some {a with len := 0}

abbrev Heap (α : Type*) := ℕ → Ary α

def onAry (h : Heap α) (ary : ℕ) (f : Ary α → Option (Ary α)) : Option (Heap α) :=
  (f (h ary)).map (update h ary)

/-- `rary_concat`; both addresses may be the same. -/
def raryConcat (h : Heap α) (ary other beg len : ℕ) : Option (Heap α) := do
  let h ← onAry h ary (fun a => raryReserve a (sz (a.len+len)))
  let h ← forUp (fun i h => do
    let item ← raryElt (h other) (sz (beg+i))
    onAry h ary (fun a => raryReplace a (sz (i+a.len)) item)) 0 len h
  onAry h ary (fun a => some {a with len := sz (a.len+len)})

inductive Op (α : Type*)
  | reserve (ary newlen : ℕ)
  | append (ary : ℕ) (item : α)
  | insert (ary idx : ℕ) (item : α)
  | erase (ary idx len : ℕ)
  | store (ary idx : ℕ) (item : α)
  | resize (ary newlen : ℕ)
  | concat (ary other beg len : ℕ)
  | reverse (ary : ℕ)
  | clear (ary : ℕ)

def perform (nil zero : α) (h : Heap α) : Op α → Option (Heap α)
  | .reserve ary newlen => onAry h ary (fun a => raryReserve a newlen)
  | .append ary item => onAry h ary (fun a => raryAppend a item)
  | .insert ary idx item => onAry h ary (fun a => raryInsert a idx item)
  | .erase ary idx len => onAry h ary (fun a => (raryErase nil a idx len).map Prod.snd)
  | .store ary idx item => onAry h ary (fun a => raryStore nil a idx item)
  | .resize ary newlen => onAry h ary (fun a => raryResize nil a newlen)
  | .concat ary other beg len => raryConcat h ary other beg len
  | .reverse ary => onAry h ary raryReverse
  | .clear ary => onAry h ary (raryClear zero)

/-- A heap that has made no access beyond a buffer, and one more operation. -/
def step (nil zero : α) (h : Option (Heap α)) (op : Op α) : Option (Heap α) :=
  h.bind (fun h => perform nil zero h op)

def fresh (memory : ℕ → ℕ → α) : Heap α := fun ary => ⟨0,0,0,memory ary⟩

def listStep (nil : α) (l : ℕ → List α) : Op α → ℕ → List α
  | .reserve _ _ => l
  | .append ary item => update l ary (l ary++[item])
  | .insert ary idx item => update l ary ((l ary).insertIdx idx item)
  | .erase ary idx len => update l ary ((l ary).take idx++(l ary).drop (idx+len))
  | .store ary idx item =>
    update l ary
      (((l ary)++List.replicate (idx+1-(l ary).length) nil).set idx item)
  | .resize ary newlen =>
    update l ary
      ((l ary).take newlen++List.replicate (newlen-(l ary).length) nil)
  | .concat ary other beg len => update l ary (l ary++((l other).drop beg).take len)
  | .reverse ary => update l ary (l ary).reverse
  | .clear ary => update l ary []

variable {n i : ℕ} {f : ℕ → Ary α → Option (Ary α)}

/-- The elements lie in the buffer, and the buffer is far from the limits of
`size_t`. -/
structure Ary.Sound (a : Ary α) : Prop where
  within : a.beg+a.len ≤ a.cap
  small : a.cap < 2^61

/-- The array that an operation leaves is sound and holds the list. -/
def Yields (r : Option (Ary α)) (l : List α) : Prop := ∃ a, r=some a ∧ a.Sound ∧ a.contents=l

lemma bind_of_eq {β γ : Type _} {x : Option β} {b : β} (h : x=some b) (f : β → Option γ) :
    x >>= f=f b := by
  rw [h]
  rfl

lemma sz_eq (h : n < 2^64) : sz n=n := mod_eq_of_lt h

variable {a : Ary α}

def Ary.over (a : Ary α) (e : ℕ → α) : Ary α := {a with elements := e}

lemma over_elements (a : Ary α) : a.over a.elements=a := rfl

lemma over_beg (a : Ary α) (e : ℕ → α) : (a.over e).beg=a.beg := rfl

lemma over_len (a : Ary α) (e : ℕ → α) : (a.over e).len=a.len := rfl

variable {i idx : ℕ} {item : α} {e e' : ℕ → α}

lemma get_over (h : i < a.cap) : (a.over e).get i=some (e i) := if_pos h

lemma set_over (h : i < a.cap) (he : ∀ c, e' c=if c=i then item else e c) :
    (a.over e).set i item=some (a.over e') := by
  have hf : update e i item=e' := by
    funext c
    rw [he,update_apply]
  exact (if_pos h).trans (by rw [← hf]; rfl)

lemma raryElt_over (hsm : a.cap < 2^61) (h : a.beg+i < a.cap) :
    raryElt (a.over e) i=some (e (a.beg+i)) := by
  have hs : sz ((a.over e).beg+i)=a.beg+i := sz_eq (by change a.beg+i < 2^64; omega)
  rw [raryElt,hs]
  exact get_over h

lemma raryReplace_over {v : α} (hsm : a.cap < 2^61) (h : a.beg+i < a.cap)
    (he : ∀ c, e' c=if c=a.beg+i then v else e c) :
    raryReplace (a.over e) i v=some (a.over e') := by
  have hs : sz ((a.over e).beg+i)=a.beg+i := sz_eq (by change a.beg+i < 2^64; omega)
  rw [raryReplace,hs]
  exact set_over h he

lemma forUp_over (e : ℕ → ℕ → α) (hs : ∀ c, e i c=a.elements c)
    (hr : ∀ k, i ≤ k → k < i+n → f k (a.over (e k))=some (a.over (e (k+1)))) :
    forUp f i n a=some (a.over (e (i+n))) := by
  have hl := forUp_eq (fun k => a.over (e k)) hr
  rwa [funext hs] at hl

lemma forDown_over (e : ℕ → ℕ → α) (hs : ∀ c, e i c=a.elements c)
    (hr : ∀ k, k ≤ i → i < k+n → f k (a.over (e k))=some (a.over (e (k-1)))) :
    forDown f i n a=some (a.over (e (i-n))) := by
  have hl := forDown_eq (fun k => a.over (e k)) hr
  rwa [funext hs] at hl

def filled (e : ℕ → α) (item : α) (b b' : ℕ) : ℕ → α := fun c => if b ≤ c ∧ c < b' then item else e c

lemma fill_eq (hs : a.cap < 2^61) (item : α) (h : a.beg+(i+n) ≤ a.cap) :
    fill a item i n=some (a.over (filled a.elements item (a.beg+i) (a.beg+(i+n)))) := by
  refine forUp_over (fun k => filled a.elements item (a.beg+i) (a.beg+k)) ?_ ?_
  · intro c
    exact if_neg (by omega)
  · intro k hk hk'
    refine raryReplace_over hs (by omega) ?_
    intro c
    unfold filled
    split_ifs <;> first | rfl | omega

/-- The request is not one for which the elements are slid down and the buffer
is then too short: the length that is compared with the capacity is smaller by
`beg` than the one that was asked for. -/
def Ary.Fits (a : Ary α) (newlen : ℕ) : Prop := newlen ≤ a.cap ∨ a.cap+a.beg < newlen ∨ a.beg=0

instance (newlen : ℕ) : Decidable (a.Fits newlen) := inferInstanceAs (Decidable (_ ∨ _ ∨ _))

lemma Ary.Sound.fits_succ (ha : a.Sound) : a.Fits (a.len+1) := by
  have hw := ha.within
  unfold Ary.Fits
  omega

/-- The memory after the first `k` cells were copied from `b` on. -/
def moved (e : ℕ → α) (b k : ℕ) : ℕ → α := fun c => if c < k then e (b+c) else e c

def Ary.slid (a : Ary α) : Ary α := ⟨0,a.len,a.cap,moved a.elements a.beg a.len⟩

lemma slid_of_beg_zero (h : a.beg=0) : a.slid=a := by
  have hm : a.slid.elements=a.elements := by
    funext c
    simp only [Ary.slid,moved,h,zero_add,ite_self]
  cases a with
  | mk beg len cap elements =>
    obtain rfl : beg=0 := h
    simp only [Ary.slid,Ary.mk.injEq,true_and]
    exact hm

@[simp] lemma contents_slid (a : Ary α) : a.slid.contents=a.contents := by
  apply slice_congr
  intro i hi
  simp only [Ary.slid,zero_add] at hi ⊢
  exact if_pos hi

lemma slideDown_eq (ha : a.Sound) (newlen : ℕ) :
    slideDown a newlen=some (a.slid,newlen-a.beg) := by
  have hw := ha.within
  have hs := ha.small
  unfold slideDown
  by_cases hb : a.beg > 0
  · have hl : forUp (fun i a => do a.set i (← a.get (sz (a.beg+i)))) 0 a.len a =
        some (a.over (moved a.elements a.beg (0+a.len))) := by
      refine forUp_over (moved a.elements a.beg) (fun c => if_neg (by omega)) ?_
      intro k _ hk
      -- the cell that is read lies above the cells written so far
      have hr : moved a.elements a.beg k (a.beg+k)=a.elements (a.beg+k) := if_neg (by omega)
      have he := raryElt_over (e := moved a.elements a.beg k) hs (i := k) (by omega)
      rw [raryElt,hr] at he
      rw [he]
      refine set_over (by omega) ?_
      intro c
      unfold moved
      split_ifs with h₁ h₂ h₃ h₄
      · rw [h₂]
      · rfl
      · omega
      · omega
      · omega
      · rfl
    have hle : (if a.beg > newlen then 0 else newlen-a.beg)=newlen-a.beg := by
      split_ifs <;> omega
    rw [if_pos hb,hle,hl,zero_add]
    rfl
  · have hz : a.beg=0 := by omega
    rw [if_neg hb,slid_of_beg_zero hz,hz,Nat.sub_zero]

/-- What a request does: the elements stay, and unless the request is one that
the slide takes for smaller than it is, they have room for it. -/
lemma raryReserve_spec (ha : a.Sound) {newlen : ℕ} (hn : newlen < 2^60) :
    ∃ a', raryReserve a newlen=some a' ∧ a'.Sound ∧ a'.len=a.len ∧ a'.contents=a.contents ∧
      (a.Fits newlen → a'.beg+newlen ≤ a'.cap) := by
  have hw := ha.within
  have hs := ha.small
  rw [raryReserve,sz_eq (by omega),slideDown_eq ha]
  split_ifs with hr
  · refine ⟨grow a.slid (newlen-a.beg),rfl,?_⟩
    have hc : a.slid.cap=a.cap := rfl
    unfold grow
    split_ifs with hm hp
    · rw [sz_eq (by omega)]
      refine ⟨⟨?_,?_⟩,rfl,contents_slid a,?_⟩
      · simp only [Ary.slid]
        omega
      · dsimp only
        omega
      · intro
        simp only [Ary.slid]
        omega
    · refine ⟨⟨?_,?_⟩,rfl,contents_slid a,?_⟩
      · simp only [Ary.slid]
        omega
      · dsimp only
        omega
      · intro
        simp only [Ary.slid]
        omega
    · refine ⟨⟨?_,hs⟩,rfl,contents_slid a,?_⟩
      · simp only [Ary.slid]
        omega
      · intro hf
        unfold Ary.Fits at hf
        simp only [Ary.slid]
        omega
  · exact ⟨a,rfl,ha,rfl,rfl,fun _ => by omega⟩

variable {idx len n newlen : ℕ}

lemma yields_over {e : ℕ → α} {m : ℕ} {l : List α} (hs : a.cap < 2^61) (hn : n=m)
    (h : a.beg+m ≤ a.cap) (hl : slice e a.beg m=l) : Yields (some {a.over e with len := n}) l := by
  subst hn
  exact ⟨_,rfl,⟨h,hs⟩,hl⟩

lemma raryAppend_spec (ha : a.Sound) (hl : a.len+1 < 2^60) (item : α) :
    Yields (raryAppend a item) (a.contents++[item]) := by
  obtain ⟨b,hb,hso,hsa,hc,hr⟩ := raryReserve_spec ha hl
  have hf := hr ha.fits_succ
  have hs := hso.small
  have hw := raryReplace_over (e := b.elements) (i := b.len) (v := item) hs
    (by omega) fun _ => rfl
  rw [over_elements] at hw
  rw [raryAppend,sz_eq (by omega),bind_of_eq hb,bind_of_eq hw]
  refine yields_over hs (sz_eq (by change b.len+1 < 2^64; omega))
    (by change b.beg+b.len+1 ≤ b.cap; omega) ?_
  change slice _ b.beg (b.len+1)=_
  rw [slice_add,slice_one,if_pos rfl,← hc]
  congr 1
  apply slice_congr
  intro i hi
  exact if_neg (by omega)

/-- The memory after positions `idx` to `len` moved up by one, from the top
down to `k`. -/
def shiftedUp (e : ℕ → α) (b len k : ℕ) : ℕ → α :=
  fun c => if b+k < c ∧ c ≤ b+len then e (c-1) else e c

lemma raryInsert_spec (ha : a.Sound) (hlen : a.len+1 < 2^60) (hid : idx ≤ a.len)
    (item : α) : Yields (raryInsert a idx item) (a.contents.insertIdx idx item) := by
  unfold raryInsert
  split_ifs with hlt
  · obtain ⟨b,hb,hso,hsa,hco,hro⟩ := raryReserve_spec ha hlen
    have hf := hro ha.fits_succ
    have hs := hso.small
    have hl : forDown (fun i a => do raryReplace a i (← raryElt a (i-1))) b.len (b.len-idx) b =
        some (b.over (shiftedUp b.elements b.beg b.len (b.len-(b.len-idx)))) := by
      refine forDown_over (shiftedUp b.elements b.beg b.len) (fun c => if_neg (by omega)) ?_
      intro k hk hk'
      have hr : shiftedUp b.elements b.beg b.len k (b.beg+(k-1))=b.elements (b.beg+(k-1)) :=
        if_neg (by omega)
      rw [raryElt_over hs (by omega),hr]
      refine raryReplace_over hs (by omega) ?_
      intro c
      unfold shiftedUp
      split_ifs with h₁ h₂ h₃ h₄
      · have hc : c-1=b.beg+(k-1) := by omega
        rw [hc]
      · rfl
      · omega
      · omega
      · omega
      · rfl
    have hst : b.len-(b.len-idx)=idx := by omega
    rw [hst] at hl
    have hw := raryReplace_over (e := shiftedUp b.elements b.beg b.len idx) (i := idx)
      (v := item) hs (by omega) fun _ => rfl
    rw [sz_eq (by omega),bind_of_eq hb,bind_of_eq hl,bind_of_eq hw]
    refine yields_over hs (sz_eq (by change b.len+1 < 2^64; omega))
      (by change b.beg+b.len+1 ≤ b.cap; omega) ?_
    change slice _ b.beg (b.len+1)=_
    rw [← hco]
    have hle : b.contents.length=b.len := length_slice _ _ _
    refine slice_eq (by rw [length_insertIdx,if_pos (by omega),hle]) ?_
    intro i hi
    rw [getElem?_insertIdx,Ary.contents,getElem?_slice,getElem?_slice,length_slice]
    rcases lt_trichotomy i idx with hlo | rfl | hh
    · rw [if_pos hlo,if_pos (by omega),if_neg (by omega),shiftedUp,if_neg (by omega)]
    · rw [if_neg (by omega),if_pos rfl,if_pos (by omega),if_pos rfl]
    · have hp : b.beg+(i-1)=b.beg+i-1 := by omega
      rw [if_neg (by omega),if_neg (by omega),if_pos (by omega),if_neg (by omega),shiftedUp,
        if_pos (by omega),hp]
  · have he : idx=a.contents.length := by
      rw [Ary.contents,length_slice]
      omega
    rw [he,insertIdx_length_self]
    exact raryAppend_spec ha hlen item

lemma eraseFront_eq (nil : α) (ha : a.Sound) (hl : len ≤ a.len) :
    eraseFront nil a len=some ⟨if len < a.len then a.beg+len else 0,a.len,a.cap,
      filled a.elements nil (a.beg+0) (a.beg+(0+len))⟩ := by
  have hw := ha.within
  have hs := ha.small
  have hf := fill_eq hs nil (i := 0) (n := len) (by omega)
  rw [eraseFront,bind_of_eq hf,over_beg,sz_eq (by omega)]
  rfl

/-- The memory after positions from `idx` to `k` took the elements `n` further on. -/
def shiftedDown (e : ℕ → α) (b idx n k : ℕ) : ℕ → α :=
  fun c => if b+idx ≤ c ∧ c < b+k then e (c+n) else e c

lemma eraseInner_eq (nil : α) (ha : a.Sound) (hl : idx+len ≤ a.len) : eraseInner nil a idx len =
      some (a.over (filled (shiftedDown a.elements a.beg idx len (a.len-len)) nil
        (a.beg+(a.len-len)) (a.beg+a.len))) := by
  have hw := ha.within
  have hs := ha.small
  have hm : forUp (fun i a => do raryReplace a i (← raryElt a (sz (i+len)))) idx (a.len-len-idx) a =
      some (a.over (shiftedDown a.elements a.beg idx len (idx+(a.len-len-idx)))) := by
    refine forUp_over (shiftedDown a.elements a.beg idx len) (fun c => if_neg (by omega)) ?_
    intro k hk hk'
    -- what is read lies above the positions written so far
    have hce : shiftedDown a.elements a.beg idx len k (a.beg+(k+len)) =
        a.elements (a.beg+(k+len)) := if_neg (by omega)
    rw [sz_eq (by omega),raryElt_over hs (by omega),hce]
    refine raryReplace_over hs (by omega) ?_
    intro c
    unfold shiftedDown
    split_ifs with h₁ h₂ h₃ h₄
    · rw [h₂,add_assoc]
    · rfl
    · omega
    · omega
    · omega
    · rfl
  have hst : idx+(a.len-len-idx)=a.len-len := by omega
  rw [hst] at hm
  rw [eraseInner,bind_of_eq hm]
  have hc := forUp_over (a := a.over (shiftedDown a.elements a.beg idx len (a.len-len)))
    (f := fun i a => raryReplace a (a.len-i-1) nil) (i := 0) (n := len)
    (fun k => filled (shiftedDown a.elements a.beg idx len (a.len-len)) nil (a.beg+(a.len-k))
      (a.beg+a.len)) ?_ ?_
  · rw [hc,zero_add]
    rfl
  · intro c
    exact if_neg (by omega)
  · intro k _ hk
    change raryReplace (a.over _) (a.len-k-1) nil=some (a.over _)
    refine raryReplace_over hs (by omega) ?_
    intro c
    unfold filled
    split_ifs <;> first | rfl | omega

lemma raryErase_spec (nil : α) (ha : a.Sound) (hl : idx+len ≤ a.len) (hre : a.beg+idx < a.cap) :
    Yields ((raryErase nil a idx len).map Prod.snd)
      (a.contents.take idx++a.contents.drop (idx+len)) := by
  have hw := ha.within
  have hs := ha.small
  have hcu : a.contents.take idx++a.contents.drop (idx+len) =
      slice a.elements a.beg idx++slice a.elements (a.beg+(idx+len)) (a.len-(idx+len)) := by
    have hm : min idx a.len=idx := by omega
    rw [Ary.contents,slice_take,slice_drop,hm]
  have hit := raryElt_over (e := a.elements) hs hre
  rw [over_elements] at hit
  rw [hcu,raryErase,bind_of_eq hit]
  split_ifs with hz
  · subst hz
    rw [slice_zero,nil_append,zero_add] at *
    rw [bind_of_eq (eraseFront_eq nil ha hl)]
    split_ifs with hr
    · refine ⟨_,rfl,⟨by dsimp only; omega,hs⟩,?_⟩
      change slice _ (a.beg+len) (a.len-len)=_
      apply slice_congr
      intro i hi
      exact if_neg (by omega)
    · refine ⟨_,rfl,⟨by dsimp only; omega,hs⟩,?_⟩
      have hn : a.len-len=0 := by omega
      rw [Ary.contents,hn,slice_zero,slice_zero]
  · rw [bind_of_eq (eraseInner_eq nil ha hl)]
    refine yields_over hs rfl (by rw [over_len]; omega) ?_
    have hp : a.len-len=idx+(a.len-(idx+len)) := by omega
    rw [over_len,hp,slice_add]
    congr 1
    · apply slice_congr
      intro i hi
      rw [filled,if_neg (by omega),shiftedDown,if_neg (by omega)]
    · apply slice_congr
      intro i hi
      have hc : a.beg+idx+i+len=a.beg+(idx+len)+i := by omega
      rw [filled,if_neg (by omega),shiftedDown,if_pos (by omega),hc]

lemma slice_filled (nil : α) (hl : len ≤ n) :
    slice (filled a.elements nil (a.beg+len) (a.beg+n)) a.beg n =
      slice a.elements a.beg len++List.replicate (n-len) nil := by
  have hp : n=len+(n-len) := by omega
  conv_lhs => rw [hp,slice_add]
  congr 1
  · apply slice_congr
    intro i hi
    exact if_neg (by omega)
  · apply slice_eq_replicate
    intro i hi
    exact if_pos (by omega)

lemma raryReplace_spec (hs : a.cap < 2^61) (hw : a.beg+a.len ≤ a.cap)
    (hid : idx < a.len) (item : α) : Yields (raryReplace a idx item) (a.contents.set idx item) := by
  have hwr := raryReplace_over (e := a.elements) (i := idx) (v := item) hs
    (by omega) fun _ => rfl
  refine ⟨_,hwr,⟨hw,hs⟩,?_⟩
  apply slice_eq (by rw [length_set]; exact length_slice _ _ _)
  intro i hi
  rw [getElem?_set,Ary.contents,length_slice,getElem?_slice]
  rw [over_len] at hi
  by_cases he : idx=i
  · rw [if_pos he,if_pos hid,he]
    exact congrArg some (if_pos rfl).symm
  · rw [if_neg he,if_pos hi]
    exact congrArg some (if_neg (by rw [over_beg]; omega)).symm

lemma raryStore_spec (nil : α) (ha : a.Sound) (item : α)
    (hi : idx < a.len ∨ idx+1 < 2^60 ∧ a.Fits (idx+1)) : Yields (raryStore nil a idx item)
      ((a.contents++List.replicate (idx+1-a.contents.length) nil).set idx item) := by
  have hl : a.contents.length=a.len := length_slice _ _ _
  rw [hl,raryStore]
  split_ifs with hbe
  · obtain hlt | ⟨hli,hfi⟩ := hi
    · omega
    obtain ⟨b,hb,hso,hsa,hc,hr⟩ := raryReserve_spec ha hli
    have hfit := hr hfi
    have hs := hso.small
    have hsu : b.len+(idx+1-b.len)=idx+1 := by omega
    have hf := fill_eq hs nil (i := b.len) (n := idx+1-b.len) (by omega)
    rw [hsu] at hf
    rw [sz_eq (by omega),bind_of_eq hb,bind_of_eq hf]
    have hlis : slice (filled b.elements nil (b.beg+b.len) (b.beg+(idx+1))) b.beg (idx+1) =
        a.contents++replicate (idx+1-a.len) nil := by
      rw [slice_filled nil (by omega),← hc,← hsa]
      rfl
    rw [← hlis]
    exact raryReplace_spec
      (a := ⟨b.beg,idx+1,b.cap,filled b.elements nil (b.beg+b.len) (b.beg+idx+1)⟩)
      hs hfit (lt_succ_self idx) item
  · have hn : idx+1-a.len=0 := by omega
    rw [hn,replicate_zero,append_nil]
    exact raryReplace_spec ha.small ha.within (by omega) item

lemma resize_tail (nil : α) (ha : a.Sound) (hr : a.len < newlen → a.beg+newlen ≤ a.cap) :
    Yields (do
        let a ← fill a nil a.len (newlen-a.len)
        some {a with len := newlen})
      (a.contents.take newlen++List.replicate (newlen-a.len) nil) := by
  have hw := ha.within
  have hs := ha.small
  have hf := fill_eq hs nil (i := a.len) (n := newlen-a.len) (by omega)
  rw [bind_of_eq hf,Ary.contents,slice_take]
  by_cases hmo : a.len < newlen
  · have hm : min newlen a.len=a.len := by omega
    have hsu : a.len+(newlen-a.len)=newlen := by omega
    rw [hm,hsu]
    exact yields_over hs rfl (hr hmo) (slice_filled nil hmo.le)
  · have hm : min newlen a.len=newlen := by omega
    have hn : newlen-a.len=0 := by omega
    rw [hm,hn,replicate_zero,append_nil]
    refine yields_over hs rfl (by omega) (slice_congr ?_)
    intro i hi
    exact if_neg (by omega)

lemma raryResize_spec (nil : α) (ha : a.Sound)
    (hn : newlen ≤ a.len ∨ newlen < 2^60 ∧ a.Fits newlen ∧ (newlen ≤ a.cap → a.beg+newlen ≤ a.cap)) :
    Yields (raryResize nil a newlen)
      (a.contents.take newlen++List.replicate (newlen-a.contents.length) nil) := by
  have hw := ha.within
  have hl : a.contents.length=a.len := length_slice _ _ _
  rw [hl,raryResize]
  split_ifs with hg
  · obtain hle | ⟨hli,hf,-⟩ := hn
    · omega
    obtain ⟨b,hb,hs,hsa,hc,hr⟩ := raryReserve_spec ha hli
    rw [bind_of_eq hb,← hc,← hsa]
    exact resize_tail nil hs fun _ => hr hf
  · refine resize_tail nil ha ?_
    intro hm
    obtain hle | ⟨-,-,hca⟩ := hn
    · omega
    · exact hca (by omega)

/-- The memory after the `k` outermost elements of both ends changed places. -/
def swapped (e : ℕ → α) (b len k : ℕ) : ℕ → α :=
  fun c => if b ≤ c ∧ c < b+len ∧ (c < b+k ∨ b+len ≤ c+k) then e (b+(b+len-1-c)) else e c

lemma raryReverse_spec (ha : a.Sound) : Yields (raryReverse a) a.contents.reverse := by
  have hw := ha.within
  have hs := ha.small
  have hl : a.contents.length=a.len := length_slice _ _ _
  unfold raryReverse
  split_ifs with hlon
  · have hloo := forUp_over (a := a) (i := 0) (n := a.len/2) (f := fun i a => do
      let j := a.len-i-1
      let elem ← raryElt a i
      let a ← raryReplace a i (← raryElt a j)
      raryReplace a j elem) (swapped a.elements a.beg a.len) ?_ ?_
    · rw [hloo]
      refine ⟨_,rfl,⟨hw,hs⟩,slice_eq (by rw [length_reverse,hl]; rfl) ?_⟩
      intro i hi
      rw [over_len] at hi
      rw [getElem?_reverse (by rw [hl]; exact hi),hl,Ary.contents,getElem?_slice,
        if_pos (by omega)]
      change some _=some (swapped a.elements a.beg a.len (0+a.len/2) (a.beg+i))
      unfold swapped
      split_ifs with hsw
      · have hc : a.beg+(a.len-1-i)=a.beg+(a.beg+a.len-1-(a.beg+i)) := by omega
        rw [hc]
      · -- the element in the middle stays
        have hc : a.len-1-i=i := by omega
        rw [hc]
    · intro c
      exact if_neg (by omega)
    · intro k _ hk
      have hlow : swapped a.elements a.beg a.len k (a.beg+k)=a.elements (a.beg+k) :=
        if_neg (by omega)
      have hhi : swapped a.elements a.beg a.len k (a.beg+(a.len-k-1)) =
          a.elements (a.beg+(a.len-k-1)) := if_neg (by omega)
      have hf := raryReplace_over (e := swapped a.elements a.beg a.len k) (i := k)
        (v := a.elements (a.beg+(a.len-k-1))) hs (by omega) fun _ => rfl
      rw [over_len,bind_of_eq (raryElt_over hs (by omega)),
        bind_of_eq (raryElt_over hs (by omega)),hlow,hhi,bind_of_eq hf]
      refine raryReplace_over hs (by omega) ?_
      intro c
      unfold swapped
      rcases eq_or_ne c (a.beg+(a.len-k-1)) with rfl | hh
      · have hc : a.beg+(a.beg+a.len-1-(a.beg+(a.len-k-1)))=a.beg+k := by omega
        rw [if_pos rfl,if_pos (by omega),hc]
      · rw [if_neg hh]
        rcases eq_or_ne c (a.beg+k) with rfl | hlo
        · have hc : a.beg+(a.beg+a.len-1-(a.beg+k))=a.beg+(a.len-k-1) := by omega
          rw [if_pos rfl,if_pos (by omega),hc]
        · rw [if_neg hlo]
          exact if_congr (by omega) rfl rfl
  · have hsa : a.contents.reverse=a.contents := by
      match hli : a.contents with
      | [] => rfl
      | [x] => rfl
      | x::y::l =>
        rw [hli] at hl
        simp only [length_cons] at hl
        omega
    exact ⟨a,rfl,ha,hsa.symm⟩

lemma raryClear_spec (zero : α) (ha : a.Sound) : Yields (raryClear zero a) [] := by
  have hw := ha.within
  have hs := ha.small
  have hl := forUp_over (a := a) (i := 0) (n := a.len) (f := fun i a => a.set i zero)
    (filled a.elements zero 0) ?_ ?_
  · rw [raryClear,bind_of_eq hl]
    exact yields_over hs rfl (by omega) rfl
  · intro c
    exact if_neg (by omega)
  · intro k _ hk
    refine set_over (by omega) ?_
    intro c
    unfold filled
    split_ifs <;> first | rfl | omega

variable {h : Heap α} {l : ℕ → List α}

def Related (h : Heap α) (l : ℕ → List α) : Prop := ∀ ary, (h ary).Sound ∧ (h ary).contents=l ary

lemma Related.onAry (hr : Related h l) {ary : ℕ} (f : Ary α → Option (Ary α)) {l' : List α}
    (hf : Yields (f (h ary)) l') : ∃ h', onAry h ary f=some h' ∧ Related h' (update l ary l') := by
  obtain ⟨a,ha,hs,hc⟩ := hf
  refine ⟨update h ary a,by rw [ArrayStorage.onAry,ha]; rfl,?_⟩
  intro other
  by_cases he : other=ary
  · subst he
    rw [update_self,update_self]
    exact ⟨hs,hc⟩
  · rw [update_of_ne he,update_of_ne he]
    exact hr other

/-- The memory after `k` elements from `first` on were copied behind the last one. -/
def extended (e src : ℕ → α) (last first k : ℕ) : ℕ → α :=
  fun c => if last ≤ c ∧ c < last+k then src (first+(c-last)) else e c

lemma raryConcat_spec (hr : Related h l) {ary other beg len : ℕ}
    (hra : beg+len ≤ (h other).len) (hl : (h ary).len+len < 2^60)
    (hf : (h ary).Fits ((h ary).len+len)) : ∃ h', raryConcat h ary other beg len=some h' ∧
      Related h' (update l ary (l ary++((l other).drop beg).take len)) := by
  obtain ⟨b,hb,hso,hsa,hco,hro⟩ := raryReserve_spec (hr ary).1 hl
  have hfi := hro hf
  have hsm := hso.small
  -- the array that is read, as it is after the request
  obtain ⟨src,hs⟩ : ∃ src, src=update h ary b other := ⟨_,rfl⟩
  have hrea : src.Sound ∧ src.contents=l other ∧ beg+len ≤ src.len := by
    by_cases he : other=ary
    · subst he
      rw [update_self] at hs
      subst hs
      exact ⟨hso,hco.trans (hr other).2,by omega⟩
    · rw [update_of_ne he] at hs
      subst hs
      exact ⟨(hr other).1,(hr other).2,hra⟩
  obtain ⟨hsr,hsrcC,hsrcL⟩ := hrea
  have hsrcW := hsr.within
  have hsrcS := hsr.small
  let e : ℕ → ℕ → α := extended b.elements src.elements (b.beg+b.len) (src.beg+beg)
  have hre : onAry h ary (fun a => raryReserve a (sz (a.len+len))) = some (update h ary b) := by
    rw [onAry,sz_eq (by omega),hb]
    rfl
  have hlo : forUp (fun i h => do
      let item ← raryElt (h other) (sz (beg+i))
      onAry h ary fun a => raryReplace a (sz (i+a.len)) item) 0 len (update h ary b) =
      some (update h ary (b.over (e (0+len)))) := by
    have hst : update h ary b=update h ary (b.over (e 0)) := by
      have hm : e 0=b.elements := funext fun c => if_neg (by omega)
      rw [hm,over_elements]
    rw [hst]
    refine forUp_eq (fun k => update h ary (b.over (e k))) ?_
    intro k _ hk
    have hel : raryElt (update h ary (b.over (e k)) other) (sz (beg+k)) =
        some (src.elements (src.beg+(beg+k))) := by
      rw [sz_eq (by omega)]
      by_cases he : other=ary
      · subst he
        rw [update_self] at hs ⊢
        subst hs
        rw [raryElt_over hsm (by omega)]
        exact congrArg some (if_neg (by omega))
      · rw [update_of_ne he] at hs ⊢
        subst hs
        exact raryElt_over hsrcS (by omega)
    have hw : raryReplace (b.over (e k)) (sz (k+b.len)) (src.elements (src.beg+(beg+k))) =
        some (b.over (e (k+1))) := by
      rw [sz_eq (by omega)]
      refine raryReplace_over hsm (by omega) ?_
      intro c
      change extended _ _ _ _ _ c=if _ then _ else extended _ _ _ _ _ c
      unfold extended
      by_cases hc : c=b.beg+(k+b.len)
      · have hce : src.beg+beg+(c-(b.beg+b.len))=src.beg+(beg+k) := by omega
        rw [if_pos (by omega),if_pos hc,hce]
      · rw [if_neg hc]
        exact if_congr (by omega) rfl rfl
    rw [bind_of_eq hel,onAry,update_self,over_len,hw,Option.map_some, update_idem]
  rw [raryConcat,bind_of_eq hre,bind_of_eq hlo,zero_add]
  have hli : slice (e len) b.beg (b.len+len)=l ary++((l other).drop beg).take len := by
    have hmi : min len (src.len-beg)=len := by omega
    rw [← hsrcC,← (hr ary).2,← hco,slice_add,Ary.contents,Ary.contents,slice_drop, slice_take,hmi]
    congr 1
    · apply slice_congr
      intro i hi
      exact if_neg (by omega)
    · apply slice_congr
      intro i hi
      have hce : b.beg+b.len+i-(b.beg+b.len)=i := by omega
      change extended _ _ _ _ _ _=_
      rw [extended,if_pos (by omega),hce]
  have hy : Yields (some {b.over (e len) with len := sz (b.len+len)})
      (l ary++((l other).drop beg).take len) :=
    yields_over hsm (sz_eq (by omega)) (by omega) hli
  obtain ⟨h',hh',hr'⟩ := hr.onAry (fun _ => some {b.over (e len) with len := sz (b.len+len)}) hy
  refine ⟨h',?_,hr'⟩
  rw [← hh',onAry,onAry,update_self,over_len]
  simp only [Option.map_some,update_idem]

def Within (h : Heap α) : Op α → Prop
  | .insert ary idx _ => idx ≤ (h ary).len
  | .erase ary idx len => idx+len ≤ (h ary).len
  | _ => True

/-- No request is taken for smaller than it is, a resize within the capacity
leaves room for `beg`, nothing is read behind a full buffer, a concatenation
reads a range of the other array, and no size comes near the limits of `size_t`. -/
def Harmless (h : Heap α) : Op α → Prop
  | .reserve _ newlen => newlen < 2^60
  | .append ary _ => (h ary).len+1 < 2^60
  | .insert ary _ _ => (h ary).len+1 < 2^60
  | .erase ary idx _ => (h ary).beg+idx < (h ary).cap
  | .store ary idx _ => idx < (h ary).len ∨ idx+1 < 2^60 ∧ (h ary).Fits (idx+1)
  | .resize ary newlen =>
    newlen ≤ (h ary).len ∨ newlen < 2^60 ∧ (h ary).Fits newlen ∧
      (newlen ≤ (h ary).cap → (h ary).beg+newlen ≤ (h ary).cap)
  | .concat ary other beg len =>
    beg+len ≤ (h other).len ∧ (h ary).len+len < 2^60 ∧ (h ary).Fits ((h ary).len+len)
  | .reverse _ => True
  | .clear _ => True

instance (h : Heap α) : (op : Op α) → Decidable (Within h op)
  | .insert ary idx _ => inferInstanceAs (Decidable (idx ≤ (h ary).len))
  | .erase ary idx len => inferInstanceAs (Decidable (idx+len ≤ (h ary).len))
  | .reserve _ _ | .append _ _ | .store _ _ _ | .resize _ _ | .concat _ _ _ _ | .reverse _
  | .clear _ => isTrue trivial

instance (h : Heap α) : (op : Op α) → Decidable (Harmless h op)
  | .reserve _ newlen => inferInstanceAs (Decidable (newlen < 2^60))
  | .append ary _ | .insert ary _ _ => inferInstanceAs (Decidable ((h ary).len+1 < 2^60))
  | .erase ary idx _ => inferInstanceAs (Decidable ((h ary).beg+idx < (h ary).cap))
  | .store _ _ _ => inferInstanceAs (Decidable (_ ∨ _ ∧ _))
  | .resize _ _ => inferInstanceAs (Decidable (_ ∨ _ ∧ _ ∧ (_ → _)))
  | .concat _ _ _ _ => inferInstanceAs (Decidable (_ ∧ _ ∧ _))
  | .reverse _ | .clear _ => isTrue trivial

def Meets (h : Option (Heap α)) (op : Op α) : Prop :=
  match h with
  | none => True
  | some h => Within h op ∧ Harmless h op

instance (h : Option (Heap α)) (op : Op α) : Decidable (Meets h op) :=
  match h with
  | none => isTrue trivial
  | some h => inferInstanceAs (Decidable (Within h op ∧ Harmless h op))

lemma perform_related (nil zero : α) (hr : Related h l) {op : Op α} (hw : Within h op)
    (hh : Harmless h op) :
    ∃ h', perform nil zero h op=some h' ∧ Related h' (listStep nil l op) := by
  cases op with
  | reserve ary newlen =>
    obtain ⟨b,hb,hs,-,hc,-⟩ := raryReserve_spec (hr ary).1 hh
    have hst := hr.onAry (fun a => raryReserve a newlen) ⟨b,hb,hs,hc.trans (hr ary).2⟩
    rwa [update_eq_self] at hst
  | append ary item =>
    have hy := raryAppend_spec (hr ary).1 hh item
    rw [(hr ary).2] at hy
    exact hr.onAry (fun a => raryAppend a item) hy
  | insert ary idx item =>
    have hy := raryInsert_spec (hr ary).1 hh hw item
    rw [(hr ary).2] at hy
    exact hr.onAry (fun a => raryInsert a idx item) hy
  | erase ary idx len =>
    have hy := raryErase_spec nil (hr ary).1 hw hh
    rw [(hr ary).2] at hy
    exact hr.onAry (fun a => (raryErase nil a idx len).map Prod.snd) hy
  | store ary idx item =>
    have hy := raryStore_spec nil (hr ary).1 item hh
    rw [(hr ary).2] at hy
    exact hr.onAry (fun a => raryStore nil a idx item) hy
  | resize ary newlen =>
    have hy := raryResize_spec nil (hr ary).1 hh
    rw [(hr ary).2] at hy
    exact hr.onAry (fun a => raryResize nil a newlen) hy
  | concat ary other beg len =>
    exact raryConcat_spec hr hh.1 hh.2.1 hh.2.2
  | reverse ary =>
    have hy := raryReverse_spec (hr ary).1
    rw [(hr ary).2] at hy
    exact hr.onAry raryReverse hy
  | clear ary => exact hr.onAry (raryClear zero) (raryClear_spec zero (hr ary).1)

lemma fresh_related (memory : ℕ → ℕ → α) : Related (fresh memory) (fun _ => []) :=
  fun _ => ⟨⟨le_rfl,Nat.two_pow_pos 61⟩,rfl⟩

/-- In every run whose steps meet the condition, after every operation: no cell
outside a buffer was accessed, the elements lie in the buffers, and the arrays
hold what the same operations make of lists. -/
theorem storage_refines_lists (nil zero : α) (memory : ℕ → ℕ → α) (ops : List (Op α))
    (hops : Along (step nil zero) Meets (some (fresh memory)) ops) (before : List (Op α))
    (hbefore : before <+: ops) : ∃ h, run (step nil zero) (some (fresh memory)) before = some h ∧
      ∀ ary, (h ary).beg+(h ary).len ≤ (h ary).cap ∧
        (h ary).contents = run (listStep nil) (fun _ => []) before ary := by
  obtain ⟨rest,rfl⟩ := hbefore
  rw [along_append] at hops
  have hk : ∀ s l op, (∃ h, s=some h ∧ Related h l) → Meets s op →
      ∃ h, step nil zero s op=some h ∧ Related h (listStep nil l op) := by
    intro s l op hs hm
    obtain ⟨h,rfl,hr⟩ := hs
    exact perform_related nil zero hr hm.1 hm.2
  obtain ⟨h,hru,hr⟩ := run_simulation hk
    ⟨fresh memory,rfl,fresh_related memory⟩ hops.1
  exact ⟨h,hru,fun ary => ⟨(hr ary).1.within,(hr ary).2⟩⟩

/-- Four elements in a buffer of four, three of them taken from the front. -/
def shiftedThrice : List (Op ℕ) :=
  [.reserve 0 4,.append 0 1,.append 0 2,.append 0 3,.append 0 4,.erase 0 0 3]

/-- A store at 6 then asks for seven cells, is granted four and writes beyond
them. A resize to four cells writes beyond them without a request. -/
theorem store_behind_shift_overflows :
    Along (step 0 0) Meets (some (fresh (fun _ _ => 0))) shiftedThrice ∧
      run (step 0 0) (some (fresh (fun _ _ => 0))) (shiftedThrice++[.store 0 6 9]) = none ∧
      run (step 0 0) (some (fresh (fun _ _ => 0))) (shiftedThrice++[.resize 0 4]) = none := by
  refine ⟨by decide,?_,?_⟩ <;> exact Option.isNone_iff_eq_none.mp (by decide)

/-- Stores, resizes and a concatenation of an array with itself that find room. -/
theorem storage_refines_lists_shifted :
    let ops : List (Op ℕ) := shiftedThrice++[.concat 0 0 0 1,.store 0 2 7,.resize 0 12,.reverse 0]
    Along (step 0 0) Meets (some (fresh (fun _ _ => 0))) ops ∧
      ∃ h, run (step 0 0) (some (fresh (fun _ _ => 0))) ops=some h ∧
        ∀ ary, (h ary).beg+(h ary).len ≤ (h ary).cap ∧
          (h ary).contents=run (listStep 0) (fun _ => []) ops ary := by
  intro ops
  have ho : Along (step 0 0) Meets (some (fresh fun _ _ => 0)) ops := by decide
  exact ⟨ho,storage_refines_lists 0 0 _ ops ho ops (prefix_refl ops)⟩

end MacRuby.ArrayStorage
