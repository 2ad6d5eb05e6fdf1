import MacRuby.LockedState
import Mathlib.Data.List.Basic
import Mathlib.Algebra.Order.Ring.Int

/-!
# Frozen arrays

The operations that change an array, as programs on its contents and its flags. Each
has to call `rb_ary_modify` before its first write. Comparisons, conversions of
arguments and blocks run other code; what they return is given, and a block or a
comparison can be any program.

All operations check the flags before they write, except for the assignment of an
element by its index: `rb_ary_store` makes no check, and neither do its callers
`rb_ary_aset` and `rb_vm_fast_aset`.
-/
namespace MacRuby.FrozenArrays
open LockedState

inductive Error
  | frozenArray
  | insecure
  | indexOutOfArray (idx : ℤ)
  | negativeLength (len : ℤ)
  | negativeArraySize
  | wrongNumberOfArguments
  | argumentTooBig
  | outOfRange (b e : ℤ) (excl : Bool)
  /-- An error of other code. -/
  | other (n : ℕ)
deriving DecidableEq, Repr

/-- A `RubyArray`. It is insecure to modify a tainted array at a safe level of 4. -/
structure Ary (α : Type) where
  contents : List α
  frozen : Bool
  insecure : Bool
deriving DecidableEq, Repr

abbrev M (α : Type) : Type → Type := Prog Error (Ary α)

inductive Res (α : Type)
  | self
  | nil
  | value (v : α)
  | items (l : List α)
  | enumerator
deriving DecidableEq, Repr

/-- What a block returns, or the value of a `break`. -/
inductive Yielded (α : Type)
  | value (v : α)
  | broken (v : α)

abbrev Block (α : Type) := α → M α (Yielded α)

structure World (α : Type) where
  nil : α
  long2num : ℤ → α
  rtest : α → Bool
  rbEqualFast : α → α → Bool
  rbAryToAry : α → Except Error (List α)
  toAry : α → Except Error (List α)
  /-- `qsort_r` by `sort_2`. -/
  sorted : List α → M α (List α)
  /-- `qsort_r` by a block, and the value of a `break` if there was one. -/
  sortedBy : (α → α → M α (Yielded α)) → List α → M α (Except α (List α))
  /-- `rb_genrand_real() * i`. -/
  genrand : ℕ → ℕ
  /-- `flatten`, and whether it found an array. -/
  flatten : List α → ℤ → M α (List α × Bool)

variable {α : Type}

def length : M α ℕ := read fun a => a.contents.length

def change (f : List α → List α) : M α Unit := write fun a => {a with contents := f a.contents}

def rbAryModify : M α Unit := fun a =>
  if a.frozen then (.error .frozenArray,a)
  else if a.insecure then (.error .insecure,a)
  else (.ok (),a)

/-- `rary_store`: positions between the end and the index are filled. -/
def raryStore (nil : α) (idx : ℕ) (item : α) (l : List α) : List α :=
  if idx < l.length then l.set idx item
  else l++List.replicate (idx-l.length) nil++[item]

def raryErase (idx len : ℕ) (l : List α) : List α := l.take idx++l.drop (idx+len)

def raryInsert (idx : ℕ) (item : α) (l : List α) : List α := l.take idx++item::l.drop idx

def rbAryStore (nil : α) (idx : ℤ) (val : α) : M α Unit := do
  let len ← length
  let idx' := if idx < 0 then idx+len else idx
  if idx' < 0 then raise (.indexOutOfArray (idx'-len))
  else change (raryStore nil idx'.toNat val)

def rbAryErase (nil : α) (offset : ℕ) : M α α := do
  let item ← read fun a => a.contents.getD offset nil
  change (raryErase offset 1)
  pure item

def rbAryInsert (nil : α) (idx : ℤ) (val : α) : M α Unit := do
  let len ← length
  let idx' := if idx < 0 then idx+len else idx
  if idx' < 0 then raise (.indexOutOfArray (idx'-len))
  else if len < idx' then change (raryStore nil idx'.toNat val)
  else change (raryInsert idx'.toNat val)

/-- The change that `rb_ary_splice` makes. -/
def spliced (nil : α) (beg len : ℕ) (rpl l : List α) : List α :=
  if l.length ≤ beg then l++List.replicate (beg-l.length) nil++rpl
  else l.take beg++rpl++l.drop (beg+len)

/-- `rb_ary_splice`; without a replacement (`Qundef`) the elements are removed. -/
def rbArySplice (nil : α) (beg len : ℤ) (rpl : Except Error (List α)) : M α Unit := do
  let n ← length
  if len < 0 then raise (.negativeLength len)
  else
    let beg' := if beg < 0 then beg+n else beg
    if beg' < 0 then raise (.indexOutOfArray (beg'-n))
    else
      let len' := if n < len ∨ n < beg'+len then n-beg' else len
      let r ← lift rpl
      rbAryModify
      change (spliced nil beg'.toNat len'.toNat r)

structure Range where
  b : Except Error ℤ
  e : Except Error ℤ
  excl : Bool

/-- `rb_range_beg_len`; without a result outside the array. -/
def rbRangeBegLen (r : Range) (len : ℕ) (err : ℕ) : Except Error (Option (ℤ × ℤ)) := do
  let b ← r.b
  let e ← r.e
  let beg := if b < 0 then b+len else b
  if beg < 0 ∨ (err=0 ∨ err=2) ∧ len < beg then
    if err ≠ 0 then .error (.outOfRange b e r.excl) else .ok none
  else
    let e₁ := if (err=0 ∨ err=2) ∧ len < e then (len : ℤ) else e
    let e₂ := if e₁ < 0 then e₁+len else e₁
    let e₃ := if r.excl then e₂ else e₂+1
    .ok (some (beg,max (e₃-beg) 0))

/-- An argument that is an index: a fixnum, a range, or an object that is converted. -/
inductive Index
  | fixnum (i : ℤ)
  | range (r : Range)
  | object (i : Except Error ℤ)

variable (W : World α)

/-- `rb_ary_aset` with a start and a length. -/
def rbAryAset3 (beg len : Except Error ℤ) (val : α) : M α (Res α) := do
  let b ← lift beg
  let n ← lift len
  rbArySplice W.nil b n (W.rbAryToAry val)
  pure (.value val)

/-- `rb_ary_aset` with an index. -/
def rbAryAset : Index → α → M α (Res α)
  | .fixnum i,val => do
    rbAryStore W.nil i val
    pure (.value val)
  | .range r,val => do
    let len ← length
    let found ← lift (rbRangeBegLen r len 1)
    match found with
    | some (beg,n) =>
      rbArySplice W.nil beg n (W.rbAryToAry val)
      pure (.value val)
    | none => pure .nil
  | .object i,val => do
    let offset ← lift i
    rbAryStore W.nil offset val
    pure (.value val)

/-- `rb_vm_fast_aset`, as long as `[]=` is not redefined. -/
def rbVmFastAset : Index → α → M α (Res α)
  | .fixnum i,val => do
    rbAryStore W.nil i val
    pure (.value val)
  | index,val => rbAryAset W index val

def rbAryPush (item : α) : M α Unit := do
  rbAryModify
  change (·++[item])

def pushAll : List α → M α Unit
  | [] => pure ()
  | item::items => do
    rbAryPush item
    pushAll items

def rbAryPushM (argv : List α) : M α (Res α) :=
  if argv.isEmpty then do
    rbAryModify
    pure .self
  else do
    pushAll argv
    pure .self

/-- `ary_shared_first` with removal. -/
def arySharedFirst (nv : Except Error ℤ) (last : Bool) : M α (Res α) := do
  let n ← lift nv
  let len ← length
  if n < 0 then raise .negativeArraySize
  else
    let count := min n.toNat len
    let offset := if last then len-count else 0
    let result ← read fun a => (a.contents.drop offset).take count
    change (raryErase offset count)
    pure (.items result)

/-- `rb_ary_pop` and `rb_ary_shift`, with the position of the element. -/
def rbAryTake (position : ℕ → ℕ) : M α (Res α) := do
  rbAryModify
  let n ← length
  if n=0 then pure .nil
  else do
    let item ← rbAryErase W.nil (position n)
    pure (.value item)

def rbAryPopM : Option (Except Error ℤ) → M α (Res α)
  | none => rbAryTake W (·-1)
  | some nv => do
    rbAryModify
    arySharedFirst nv true

def rbAryShiftM : Option (Except Error ℤ) → M α (Res α)
  | none => rbAryTake W fun _ => 0
  | some nv => do
    rbAryModify
    arySharedFirst nv false

def insertAll : List α → M α Unit
  | [] => pure ()
  | item::items => do
    rbAryInsert W.nil 0 item
    insertAll items

def rbAryUnshiftM (argv : List α) : M α (Res α) := do
  rbAryModify
  insertAll W argv.reverse
  pure .self

def rbAryInsertM : Option (Except Error ℤ) → List α → M α (Res α)
  | none,_ => raise .wrongNumberOfArguments
  | some _,[] => do
    rbAryModify
    pure .self
  | some pos,obj::objs => do
    let p ← lift pos
    let len ← length
    let p' := if p = -1 then (len : ℤ) else if p < 0 then p+1 else p
    rbAryModify
    if objs.isEmpty then rbAryInsert W.nil p' obj
    else rbArySplice W.nil p' 0 (.ok (obj::objs))
    pure .self

def deleteItem (item : α) (l : List α) : List α := l.filter fun x => !W.rbEqualFast item x

/-- `rb_ary_delete_imp`. -/
def rbAryDelete (item : α) (block : Option (Block α)) : M α (Res α) := do
  rbAryModify
  let before ← length
  change (deleteItem W item)
  let after ← length
  if after=before then
    match block with
    | none => pure .nil
    | some f => do
      let y ← f item
      match y with
      | .value v => pure (.value v)
      | .broken v => pure (.value v)
  else pure (.value item)

def rbAryDeleteAt (pos : ℤ) : M α (Res α) := do
  let len ← length
  let pos' := if pos < 0 then pos+len else pos
  if (len : ℤ) ≤ pos then pure .nil
  else if pos' < 0 then pure .nil
  else do
    rbAryModify
    let item ← rbAryErase W.nil pos'.toNat
    pure (.value item)

/-- The label `delete_pos_len` of `rb_ary_slice_bang`. -/
def deletePosLen (pos len : ℤ) : M α (Res α) := do
  let alen ← length
  let pos' := if pos < 0 then alen+pos else pos
  if pos' < 0 then pure .nil
  else do
    let len' := if alen < len ∨ alen < pos'+len then alen-pos' else len
    let result ← read fun a => (a.contents.drop pos'.toNat).take len'.toNat
    rbArySplice W.nil pos' len' (.ok [])
    pure (.items result)

/-- `rb_ary_slice_bang` with a start and a length. -/
def rbArySliceBang2 (pos len : Except Error ℤ) : M α (Res α) := do
  rbAryModify
  let p ← lift pos
  let n ← lift len
  deletePosLen W p n

/-- `rb_ary_slice_bang` with an index. -/
def rbArySliceBang (index : Index) : M α (Res α) := do
  rbAryModify
  let alen ← length
  match index with
  | .fixnum i => rbAryDeleteAt W i
  | .range r => do
    let found ← lift (rbRangeBegLen r alen 0)
    match found with
    | some (pos,len) => deletePosLen W pos len
    | none => pure .nil
  | .object i => do
    let pos ← lift i
    rbAryDeleteAt W pos

/-- The loop of `rb_ary_reject_bang`, with the number of rounds left. -/
def rejectLoop (block : Block α) : ℕ → ℕ → Bool → M α (Res α)
  | 0,_,erased => pure (if erased then .self else .nil)
  | rounds+1,i,erased => do
    let v ← read fun a => a.contents.getD i W.nil
    let y ← block v
    match y with
    | .broken b => pure (.value b)
    | .value v₂ =>
      if W.rtest v₂ then do
        let _ ← rbAryErase W.nil i
        rejectLoop block rounds i true
      else rejectLoop block rounds (i+1) erased

def rbAryRejectBang : Option (Block α) → M α (Res α)
  | none => pure .enumerator
  | some block => do
    rbAryModify
    let n ← length
    rejectLoop W block n 0 false

/-- The positions that `rb_ary_fill` is given. -/
inductive Extent
  | all
  | range (r : Range)
  | from (start len : Option (Except Error ℤ))

/-- The start and the length in `rb_ary_fill`. -/
def Extent.resolve (n : ℕ) : Extent → Except Error (ℤ × ℤ)
  | all => .ok (0,n)
  | range r => do
    let found ← rbRangeBegLen r n 1
    .ok (found.getD (0,0))
  | .from start len => do
    let s ← start.getD (.ok 0)
    let beg := if s < 0 then max (n+s) 0 else s
    let l ← len.getD (.ok (n-beg))
    .ok (beg,l)

def fillLoop (item : ℤ → M α (Yielded α)) : ℕ → ℤ → M α (Res α)
  | 0,_ => pure .self
  | rounds+1,i => do
    let y ← item i
    match y with
    | .broken b => pure (.value b)
    | .value v => do
      rbAryStore W.nil i v
      fillLoop item rounds (i+1)

/-- `rb_ary_fill`, with what gives the items: a block or a fixed value. -/
def rbAryFill (item : ℤ → M α (Yielded α)) (extent : Extent) : M α (Res α) := do
  let n ← length
  let found ← lift (extent.resolve n)
  rbAryModify
  if found.2 < 0 then pure .self
  else if 2^63 ≤ found.1+found.2 then raise .argumentTooBig
  else fillLoop W item found.2.toNat found.1

def rbAryReplace (orig : Except Error (List α)) : M α (Res α) := do
  let l ← lift orig
  rbAryModify
  change fun _ => l
  pure .self

/-- `rb_ary_clear_imp`. -/
def rbAryClear : M α (Res α) := do
  rbAryModify
  change fun _ => []
  pure .self

/-- `rb_ary_concat_imp`. -/
def rbAryConcat (y : α) : M α (Res α) := do
  rbAryModify
  let l ← lift (W.toAry y)
  change (·++l)
  pure .self

def rbAryReverseBang : M α (Res α) := do
  rbAryModify
  change List.reverse
  pure .self

/-- `rb_ary_sort_bang_imp`; with a block a copy is sorted. -/
def rbArySortBang (block : Option (α → α → M α (Yielded α))) : M α (Res α) := do
  rbAryModify
  let l ← read Ary.contents
  if 1 < l.length then
    match block with
    | none => do
      let sorted ← W.sorted l
      change fun _ => sorted
      pure .self
    | some f => do
      let sorted ← W.sortedBy f l
      match sorted with
      | .error broken => pure (.value broken)
      | .ok sorted => rbAryReplace (.ok sorted)
  else pure .self

/-- The elements that are not equal to an earlier one, for at least as many rounds as elements. -/
def uniqItems : ℕ → List α → List α
  | 0,l => l
  | _,[] => []
  | rounds+1,x::xs => x::uniqItems rounds (deleteItem W x xs)

def rbAryUniqBang : M α (Res α) := do
  rbAryModify
  let n ← length
  change (uniqItems W n)
  let n' ← length
  pure (if n'=n then .nil else .self)

def rbAryFlattenBang (lv : Option (Except Error ℤ)) : M α (Res α) := do
  rbAryModify
  let level ← lift (lv.getD (.ok (-1)))
  if level=0 then pure .self
  else do
    let l ← read Ary.contents
    let result ← W.flatten l level
    if result.2 then rbAryReplace (.ok result.1) else pure .nil

def rbAryCompactBang : M α (Res α) := do
  let n ← length
  let _ ← rbAryDelete W W.nil none
  let n' ← length
  pure (if n'=n then .nil else .self)

def shuffleLoop : ℕ → M α Unit
  | 0 => pure ()
  | i+1 => do
    let j := W.genrand (i+1)
    let elem ← read fun a => a.contents.getD i W.nil
    let other ← read fun a => a.contents.getD j W.nil
    rbAryStore W.nil i other
    rbAryStore W.nil j elem
    shuffleLoop i

def rbAryShuffleBang : M α (Res α) := do
  let i ← length
  rbAryModify
  shuffleLoop W i
  pure .self

/-- The operations that Ruby code can reach, with their arguments. -/
inductive Op (α : Type)
  | aset (index : Index) (val : α)
  | aset3 (beg len : Except Error ℤ) (val : α)
  | fastAset (index : Index) (val : α)
  | push (argv : List α)
  | pop (n : Option (Except Error ℤ))
  | shift (n : Option (Except Error ℤ))
  | unshift (argv : List α)
  | insert (pos : Option (Except Error ℤ)) (objs : List α)
  | delete (item : α) (block : Option (Block α))
  | deleteAt (pos : Except Error ℤ)
  | sliceBang (index : Index)
  | sliceBang2 (pos len : Except Error ℤ)
  | rejectBang (block : Option (Block α))
  | fill (item : ℤ → M α (Yielded α)) (extent : Extent)
  | replace (orig : α)
  | clear
  | concat (y : α)
  | reverseBang
  | sortBang (block : Option (α → α → M α (Yielded α)))
  | uniqBang
  | flattenBang (level : Option (Except Error ℤ))
  | compactBang
  | shuffleBang

def perform : Op α → M α (Res α)
  | .aset index val => rbAryAset W index val
  | .aset3 beg len val => rbAryAset3 W beg len val
  | .fastAset index val => rbVmFastAset W index val
  | .push argv => rbAryPushM argv
  | .pop n => rbAryPopM W n
  | .shift n => rbAryShiftM W n
  | .unshift argv => rbAryUnshiftM W argv
  | .insert pos objs => rbAryInsertM W pos objs
  | .delete item block => rbAryDelete W item block
  | .deleteAt pos => do
    let p ← lift pos
    rbAryDeleteAt W p
  | .sliceBang index => rbArySliceBang W index
  | .sliceBang2 pos len => rbArySliceBang2 W pos len
  | .rejectBang block => rbAryRejectBang W block
  | .fill item extent => rbAryFill W item extent
  | .replace orig => rbAryReplace (W.toAry orig)
  | .clear => rbAryClear
  | .concat y => rbAryConcat W y
  | .reverseBang => rbAryReverseBang
  | .sortBang block => rbArySortBang W block
  | .uniqBang => rbAryUniqBang W
  | .flattenBang level => rbAryFlattenBang W level
  | .compactBang => rbAryCompactBang W
  | .shuffleBang => rbAryShuffleBang W

def lock : Lock (Ary α) := ⟨Ary.frozen,fun a => {a with frozen := false}⟩

/-- The program raises if it would change the contents of the array without the freeze flag, and
the contents stay as they were. -/
structure Kept (x : M α (Res α)) (a : Ary α) : Prop where
  raises : (x (lock.unlocked a)).2.contents ≠ a.contents → ∃ e, (x a).1=.error e
  contents : (x a).2.contents=a.contents

def position (i : ℤ) (len : ℕ) : Option ℕ :=
  let i' := if i < 0 then i+len else i
  if i' < 0 then none else some i'.toNat

def Op.assigns (len : ℕ) : Op α → Option (ℕ × α)
  | .aset (.fixnum i) val | .fastAset (.fixnum i) val => (position i len).map (·,val)
  | .aset (.object (.ok i)) val | .fastAset (.object (.ok i)) val => (position i len).map (·,val)
  | _ => none

lemma refuses_modify : Refuses lock (rbAryModify : M α Unit) := by
  intro a ha
  refine ⟨.frozenArray,?_⟩
  have hf : a.frozen=true := ha
  unfold rbAryModify
  rw [if_pos hf]

lemma guarded_modify_bind {β : Type} (f : Unit → M α β) : Guarded lock (rbAryModify >>= f) :=
  (refuses_modify.bind f).guarded

lemma guarded_length : Guarded lock (length : M α ℕ) := guarded_read fun _ => rfl

lemma guarded_splice (nil : α) (beg len : ℤ) (rpl : Except Error (List α)) :
    Guarded lock (rbArySplice nil beg len rpl) := by
  refine guarded_length.bind fun n => guarded_ite (guarded_raise _) ?_
  refine guarded_ite (guarded_raise _) ?_
  exact (guarded_lift rpl).bind fun r => guarded_modify_bind _

lemma guarded_aset3 (beg len : Except Error ℤ) (val : α) :
    Guarded lock (rbAryAset3 W beg len val) := by
  refine (guarded_lift beg).bind fun b => (guarded_lift len).bind fun n => ?_
  exact (guarded_splice _ _ _ _).bind fun _ => guarded_pure _

lemma guarded_aset_range (r : Range) (val : α) : Guarded lock (rbAryAset W (.range r) val) := by
  refine guarded_length.bind fun len => (guarded_lift _).bind fun found => ?_
  cases found with
  | none => exact guarded_pure _
  | some p => exact (guarded_splice _ _ _ _).bind fun _ => guarded_pure _

lemma guarded_push (argv : List α) : Guarded lock (rbAryPushM argv) := by
  cases argv with
  | nil => exact guarded_modify_bind _
  | cons item items =>
    have hp : Refuses lock (pushAll (item::items)) := (refuses_modify.bind _).bind _
    exact (hp.bind _).guarded

lemma guarded_pop (n : Option (Except Error ℤ)) : Guarded lock (rbAryPopM W n) := by
  cases n <;> exact guarded_modify_bind _

lemma guarded_shift (n : Option (Except Error ℤ)) : Guarded lock (rbAryShiftM W n) := by
  cases n <;> exact guarded_modify_bind _

lemma guarded_insert (pos : Option (Except Error ℤ)) (objs : List α) :
    Guarded lock (rbAryInsertM W pos objs) := by
  cases pos with
  | none => exact guarded_raise _
  | some pos =>
    cases objs with
    | nil => exact guarded_modify_bind _
    | cons obj objs =>
      refine (guarded_lift pos).bind fun p => guarded_length.bind fun len => ?_
      exact guarded_modify_bind _

lemma guarded_deleteAt (pos : ℤ) : Guarded lock (rbAryDeleteAt W pos) := by
  refine guarded_length.bind fun len => guarded_ite (guarded_pure _) ?_
  exact guarded_ite (guarded_pure _) (guarded_modify_bind _)

lemma guarded_reject (block : Option (Block α)) : Guarded lock (rbAryRejectBang W block) := by
  cases block with
  | none => exact guarded_pure _
  | some block => exact guarded_modify_bind _

lemma guarded_fill (item : ℤ → M α (Yielded α)) (extent : Extent) :
    Guarded lock (rbAryFill W item extent) := by
  refine guarded_length.bind fun n => (guarded_lift _).bind fun found => ?_
  exact guarded_modify_bind _

lemma guarded_replace (orig : Except Error (List α)) : Guarded lock (rbAryReplace orig) :=
  (guarded_lift orig).bind fun _ => guarded_modify_bind _

lemma guarded_compact : Guarded lock (rbAryCompactBang W) := by
  refine guarded_length.bind fun n => ?_
  have hd : Refuses lock (rbAryDelete W W.nil none) := refuses_modify.bind _
  exact (hd.bind _).guarded

lemma guarded_shuffle : Guarded lock (rbAryShuffleBang W) :=
  guarded_length.bind fun _ => guarded_modify_bind _

lemma kept_of_guarded {x : M α (Res α)} (h : Guarded lock x) {a : Ary α} (ha : a.frozen=true) :
    Kept x a := by
  obtain ⟨e,he⟩ | ⟨r,hr,hr'⟩ := h a ha
  · refine ⟨fun _ => ⟨e,?_⟩,?_⟩
    · rw [he]
    · rw [he]
  · refine ⟨fun hc => ?_,?_⟩
    · rw [hr'] at hc
      exact (hc rfl).elim
    · rw [hr]

variable {a : Ary α} {i : ℤ} {p : ℕ}

/-- An element is assigned by an index that is a `long`. -/
def assign (i : ℤ) (val : α) : M α (Res α) := do
  rbAryStore W.nil i val
  pure (.value val)

lemma rbAryStore_eq (nil : α) (i : ℤ) (val : α) (a : Ary α) :
    rbAryStore nil i val a=match position i a.contents.length with
      | none => (.error (.indexOutOfArray ((if i < 0 then i+a.contents.length else i)-
          a.contents.length)),a)
      | some p => (.ok (),{a with contents := raryStore nil p val a.contents}) := by
  have hl : (length : M α ℕ) a=(.ok a.contents.length,a) := rfl
  unfold rbAryStore position
  rw [bind_of_ok hl]
  generalize (if i < 0 then i+a.contents.length else i)=i'
  by_cases ho : i' < 0
  · rw [if_pos ho,if_pos ho]
    rfl
  · rw [if_neg ho,if_neg ho]
    rfl

lemma assign_of_none (h : position i a.contents.length=none) (val : α) :
    ∃ e, assign W i val a=(.error e,a) := by
  have hs := rbAryStore_eq W.nil i val a
  rw [h] at hs
  exact ⟨_,bind_of_error _ hs⟩

lemma assign_of_some (h : position i a.contents.length=some p) (val : α) :
    assign W i val a=(.ok (.value val),{a with contents := raryStore W.nil p val a.contents}) := by
  have hs := rbAryStore_eq W.nil i val a
  rw [h] at hs
  exact bind_of_ok hs

lemma raryStore_eq_self_iff {nil val : α} {l : List α} :
    raryStore nil p val l=l ↔ l[p]? = some val := by
  unfold raryStore
  split_ifs with hp
  · rw [List.getElem?_eq_getElem hp,Option.some.injEq]
    constructor
    · intro h
      have hg : (l.set p val)[p]? = some val := List.getElem?_set_self hp
      rw [h,List.getElem?_eq_getElem hp] at hg
      exact Option.some.inj hg
    · rintro rfl
      exact List.set_getElem_self hp
  · have hn : l[p]? = none := List.getElem?_eq_none (Nat.le_of_not_lt hp)
    refine ⟨fun h => ?_,fun h => ?_⟩
    · have hl := congrArg List.length h
      simp only [List.length_append,List.length_singleton] at hl
      omega
    · rw [hn] at h
      cases h

lemma kept_assign_iff (i : ℤ) (val : α) (a : Ary α) :
    Kept (assign W i val) a ↔ ∀ p, position i a.contents.length=some p →
      a.contents[p]? = some val := by
  cases hp : position i a.contents.length with
  | none =>
    obtain ⟨e,he⟩ := assign_of_none W hp val
    refine ⟨fun _ => nofun,fun _ => ⟨fun _ => ⟨e,?_⟩,?_⟩⟩ <;> rw [he]
  | some p =>
    have hf := assign_of_some W hp val
    have ht := assign_of_some W (a := lock.unlocked a) hp val
    have hi : Kept (assign W i val) a ↔ raryStore W.nil p val a.contents=a.contents := by
      constructor
      · intro h
        have hs := h.contents
        rw [hf] at hs
        exact hs
      · intro h
        refine ⟨fun hc => ?_,?_⟩
        · rw [ht] at hc
          exact (hc h).elim
        · rw [hf]
          exact h
    rw [hi,raryStore_eq_self_iff]
    refine ⟨?_,fun h => h p rfl⟩
    rintro h _ ⟨⟩
    exact h

lemma kept_aset_iff (index : Index) (val : α) (ha : a.frozen=true) :
    Kept (rbAryAset W index val) a ↔
      ∀ p v, (Op.aset index val).assigns a.contents.length=some (p,v) →
        a.contents[p]? = some v := by
  have hpo : ∀ i, Kept (assign W i val) a ↔
      ∀ p v, (position i a.contents.length).map (·,val)=some (p,v) → a.contents[p]? = some v := by
    intro i
    rw [kept_assign_iff]
    constructor
    · intro h p v hpv
      obtain ⟨_,hq,he⟩ := Option.map_eq_some_iff.mp hpv
      cases he
      exact h p hq
    · intro h p hp
      exact h p val (by rw [hp]; rfl)
  cases index with
  | fixnum i => exact hpo i
  | range r => exact ⟨fun _ _ _ => nofun,fun _ => kept_of_guarded (guarded_aset_range W r val) ha⟩
  | object i =>
    cases i with
    | ok i => exact hpo i
    | error e =>
      refine ⟨fun _ _ _ => nofun,fun _ => ⟨fun _ => ⟨e,rfl⟩,rfl⟩⟩

lemma guarded_perform {op : Op α} (ha : ∀ index val, op ≠ .aset index val)
    (hf : ∀ index val, op ≠ .fastAset index val) : Guarded lock (perform W op) := by
  cases op with
  | aset index val => exact (ha index val rfl).elim
  | fastAset index val => exact (hf index val rfl).elim
  | aset3 beg len val => exact guarded_aset3 W beg len val
  | push argv => exact guarded_push argv
  | pop n => exact guarded_pop W n
  | shift n => exact guarded_shift W n
  | insert pos objs => exact guarded_insert W pos objs
  | deleteAt pos => exact (guarded_lift pos).bind (guarded_deleteAt W)
  | rejectBang block => exact guarded_reject W block
  | fill item extent => exact guarded_fill W item extent
  | replace orig => exact guarded_replace _
  | compactBang => exact guarded_compact W
  | shuffleBang => exact guarded_shuffle W
  | unshift argv => exact guarded_modify_bind _
  | delete item block => exact guarded_modify_bind _
  | sliceBang index => exact guarded_modify_bind _
  | sliceBang2 pos len => exact guarded_modify_bind _
  | clear | reverseBang | uniqBang => exact guarded_modify_bind _
  | concat y => exact guarded_modify_bind _
  | sortBang block => exact guarded_modify_bind _
  | flattenBang level => exact guarded_modify_bind _

lemma rbVmFastAset_eq (index : Index) (val : α) :
    rbVmFastAset W index val=rbAryAset W index val := by
  cases index <;> rfl

lemma assigns_fastAset (len : ℕ) (index : Index) (val : α) :
    (Op.fastAset index val).assigns len=(Op.aset index val).assigns len := by
  cases index with
  | fixnum | range => rfl
  | object i => cases i <;> rfl

/-- An operation on a frozen array raises if it would change the contents, and leaves the contents as
they were, exactly when it does not assign an element by its index that is another one than before. -/
theorem frozen_kept_iff (op : Op α) (l : List α) (insecure : Bool) :
    Kept (perform W op) ⟨l,true,insecure⟩ ↔
      ∀ p v, op.assigns l.length = some (p,v) → l[p]? = some v := by
  by_cases ha : ∃ index val, op=.aset index val
  · obtain ⟨index,val,rfl⟩ := ha
    exact kept_aset_iff W index val rfl
  · by_cases hf : ∃ index val, op=.fastAset index val
    · obtain ⟨index,val,rfl⟩ := hf
      change Kept (rbVmFastAset W index val) _ ↔ _
      rw [rbVmFastAset_eq,assigns_fastAset]
      exact kept_aset_iff W index val rfl
    · have hg := guarded_perform W (fun index val h => ha ⟨index,val,h⟩)
        fun index val h => hf ⟨index,val,h⟩
      refine ⟨fun _ p v has => ?_,fun _ => kept_of_guarded hg rfl⟩
      cases op with
      | aset index val => exact (ha ⟨index,val,rfl⟩).elim
      | fastAset index val => exact (hf ⟨index,val,rfl⟩).elim
      | _ => cases has

/-- Numbers as values, with 0 for `nil`. -/
def numbers : World ℕ where
  nil := 0
  long2num i := i.toNat
  rtest n := n != 0
  rbEqualFast m n := m == n
  rbAryToAry n := .ok [n]
  toAry n := .ok [n]
  sorted l := pure l
  sortedBy _ l := pure (.ok l)
  genrand _ := 0
  flatten l _ := pure (l,false)

/-- The assignment of an element to a frozen array does not raise and changes it. -/
theorem frozen_array_is_assigned : perform numbers (.aset (.fixnum 0) 5) ⟨[1,2],true,false⟩ =
        (.ok (.value 5),⟨[5,2],true,false⟩) ∧
      ¬Kept (perform numbers (.aset (.fixnum 0) 5)) ⟨[1,2],true,false⟩ := by
  refine ⟨rfl,fun h => ?_⟩
  have hs : [5,2]=[1,2] := h.contents
  exact absurd hs (by decide)

end MacRuby.FrozenArrays
