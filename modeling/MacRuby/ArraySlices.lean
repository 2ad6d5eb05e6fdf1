import MacRuby.ArraySplice
import MacRuby.FrozenArrays

/-!
# Taking elements out of an array

`rb_ary_slice_bang` is to remove what `rb_ary_aref` returns. For a start and a
length it cuts the range at the end of the array, takes the subsequence and hands
the same range to `rb_ary_splice`. Where there is no subsequence the range has a
negative length by then, which `rb_ary_splice` refuses.
-/
namespace MacRuby.ArraySlices
open ArrayStorage ArraySplice LockedState List
open FrozenArrays (rbRangeBegLen)
open Integers (long)

/-- An element, nil among them, or a new array with the elements. -/
inductive Result (α : Type)
  | value (x : α)
  | items (l : List α)

/-- The arguments: an index, a start and a length, or a range. -/
inductive Args
  | index (i : ℤ)
  | sub (beg len : ℤ)
  | range (b e : ℤ) (excl : Bool)

/-- The integers that `NUM2LONG` converts. -/
def IsLong (i : ℤ) : Prop := -2^63 ≤ i ∧ i < 2^63

instance (i : ℤ) : Decidable (IsLong i) := inferInstanceAs (Decidable (_ ∧ _))

variable {α : Type} (nil : α) (memory : ℕ → α)

def num2long (i : ℤ) : M α ℤ := if IsLong i then pure i else raise .bignumTooBig

def fetch {β : Type} (f : Ary α → Option β) : M α β := fun s =>
  match f s.ary with
  | some x => (.ok x,s)
  | none => (.error .outOfBounds,s)

def rbAryEntry (offset : ℤ) : M α (Result α) := do
  let n ← read (fun s => s.ary.len)
  let offset' := if offset < 0 then offset+n else offset
  if n=0 ∨ offset' < 0 ∨ n ≤ offset' then pure (.value nil)
  else do
    let x ← fetch (fun a => raryElt a offset'.toNat)
    pure (.value x)

/-- The new array of `rb_ary_subseq`. -/
def newSubseq (beg len : ℕ) (a : Ary α) : Option (Ary α) :=
  if len > 0 then concatOther (newAry memory) a beg len else some (newAry memory)

def rbArySubseq (beg len : ℤ) : M α (Result α) :=
  if beg < 0 ∨ len < 0 then pure (.value nil)
  else do
    let n ← read (fun s => s.ary.len)
    if beg > n then pure (.value nil)
    else do
      let len' := if n < len ∨ n < long (beg+len) then n-beg else len
      let newary ← fetch (newSubseq memory beg.toNat len'.toNat)
      pure (.items newary.contents)

/-- `rb_range_beg_len` with 0 for `err`, once the ends are converted. -/
def rangeBegLen (b e : ℤ) (excl : Bool) (len : ℕ) : Option (ℤ × ℤ) :=
  match rbRangeBegLen ⟨.ok b,.ok e,excl⟩ len 0 with
  | .ok found => found
  | .error _ => none

def rbAryAref : Args → M α (Result α)
  | .sub beg len => do
    let beg ← num2long beg
    let len ← num2long len
    let n ← read (fun s => s.ary.len)
    rbArySubseq nil memory (if beg < 0 then beg+n else beg) len
  | .range b e excl => do
    let b ← num2long b
    let e ← num2long e
    let n ← read (fun s => s.ary.len)
    match rangeBegLen b e excl n with
    | some (beg,len) => rbArySubseq nil memory beg len
    | none => pure (.value nil)
  | .index i => do
    let offset ← num2long i
    rbAryEntry nil offset

def rbAryDeleteAt (pos : ℤ) : M α (Result α) := do
  let len ← read (fun s => s.ary.len)
  if pos ≥ len then pure (.value nil)
  else
    let pos' := if pos < 0 then pos+len else pos
    if pos' < 0 then pure (.value nil)
    else do
      rbAryModify
      let item ← fetch (fun a => (raryErase nil a pos'.toNat 1).map Prod.fst)
      storage (fun a => (raryErase nil a pos'.toNat 1).map Prod.snd)
      pure (.value item)

/-- The label `delete_pos_len` of `rb_ary_slice_bang`. -/
def deletePosLen (pos len : ℤ) : M α (Result α) := do
  let alen ← read (fun s => s.ary.len)
  let pos' := if pos < 0 then alen+pos else pos
  if pos' < 0 then pure (.value nil)
  else do
    let len' := if alen < len ∨ alen < long (pos'+len) then alen-pos' else len
    let arg2 ← rbArySubseq nil memory pos' len'
    rbArySplice nil memory pos' len' .undef
    pure arg2

def rbArySliceBang (args : Args) : M α (Result α) := do
  rbAryModify
  match args with
  | .sub pos len => do
    let pos ← num2long pos
    let len ← num2long len
    deletePosLen nil memory pos len
  | .range b e excl => do
    let b ← num2long b
    let e ← num2long e
    let n ← read (fun s => s.ary.len)
    match rangeBegLen b e excl n with
    | some (pos,len) => deletePosLen nil memory pos len
    | none => pure (.value nil)
  | .index i => do
    let pos ← num2long i
    rbAryDeleteAt nil pos

def counted (n : ℕ) (i : ℤ) : ℤ := if i < 0 then i+n else i

/-- The positions that the arguments select: the first of them and their number. -/
def positions (n : ℕ) : Args → Option (ℕ × ℕ)
  | .index i => if 0 ≤ counted n i ∧ counted n i < n then some ((counted n i).toNat,1) else none
  | .sub beg len =>
    if 0 ≤ counted n beg ∧ counted n beg ≤ n ∧ 0 ≤ len then
      some ((counted n beg).toNat,min len.toNat (n-(counted n beg).toNat))
    else none
  | .range b e excl =>
    if 0 ≤ counted n b ∧ counted n b ≤ n then
      let stop := if excl then counted n (min e n) else counted n (min e n)+1
      some ((counted n b).toNat,min (stop-counted n b).toNat (n-(counted n b).toNat))
    else none

def picked (l : List α) (p k : ℕ) : Args → Result α
  | .index _ => .value (l.getD p nil)
  | _ => .items ((l.drop p).take k)

/-- `slice!` returns what `[]` returns and raises nothing; when that is nil the
array stays as it is, and otherwise it loses the positions. -/
def Removes (args : Args) (s : RubyArray α) : Prop :=
  ∃ v s',rbAryAref nil memory args s=(.ok v,s) ∧ rbArySliceBang nil memory args s=(.ok v,s') ∧
    (v=.value nil → s'.ary.contents=s.ary.contents) ∧
    (v ≠ .value nil → ∃ p k,positions s.ary.len args=some (p,k) ∧
      v=picked nil s.ary.contents p k args ∧
      s'.ary.contents=s.ary.contents.take p++s.ary.contents.drop (p+k))

/-- The integers fit in a `long`; there is no nil at the index; a start and a
length lie within the array or the start lies before it. -/
def Sliceable (s : RubyArray α) : Args → Prop
  | .index i => IsLong i ∧
      ∀ p k,positions s.ary.len (.index i)=some (p,k) → s.ary.contents.getD p nil ≠ nil
  | .sub beg len => IsLong beg ∧ IsLong len ∧
      (beg < -(s.ary.len : ℤ) ∨ 0 ≤ len ∧ beg ≤ s.ary.len)
  | .range b e _ => IsLong b ∧ IsLong e

variable {s : RubyArray α} {len beg pos i : ℤ} {β γ : Type}
variable {x : M α β} {s' : RubyArray α} {n : ℕ}

lemma num2long_bind (h : IsLong i) (f : ℤ → M α β) : (num2long i >>= f)=f i := by
  rw [num2long,if_pos h]
  rfl

lemma num2long_error (h : ¬IsLong i) (f : ℤ → M α β) (s : RubyArray α) :
    (num2long i >>= f) s=(.error .bignumTooBig,s) := by
  rw [num2long,if_neg h]
  rfl

lemma fetch_bind {f : Ary α → Option β} {x : β} (h : f s.ary=some x)
    (g : β → M α γ) : (fetch f >>= g) s=g x s := by
  change Prog.bind (fetch f) g s=_
  rw [Prog.bind,fetch,h]

lemma bind_ok {v : β} (h : x s=(.ok v,s')) (f : β → M α γ) : (x >>= f) s=f v s' := by
  change Prog.bind x f s=_
  rw [Prog.bind,h]

lemma bind_error {e : Error}
    (h : x s=(.error e,s')) (f : β → M α γ) : (x >>= f) s=(.error e,s') := by
  change Prog.bind x f s=_
  rw [Prog.bind,h]

lemma newSubseq_spec (hs : s.ary.Sound) (hli : s.ary.len < 2^60) {beg len : ℕ}
    (hr : beg+len ≤ s.ary.len) : ∃ b,newSubseq memory beg len s.ary=some b ∧
      b.contents=(s.ary.contents.drop beg).take len := by
  have hne : (newAry memory).Sound := ⟨le_rfl,Nat.two_pow_pos 61⟩
  have hn : (newAry memory).contents=[] := rfl
  rw [newSubseq]
  by_cases hl : len > 0
  · obtain ⟨b,hb,-,hc⟩ := concatOther_spec hne hs hr
      (show 0+len < 2^60 by omega) (.inr (.inr rfl))
    exact ⟨b,by rw [if_pos hl,hb],by rw [hc,hn,nil_append]⟩
  · obtain rfl : len=0 := by omega
    exact ⟨newAry memory,if_neg hl,by rw [hn,take_zero]⟩

def cut (n : ℕ) (beg len : ℤ) : ℤ := if n < len ∨ n < long (beg+len) then n-beg else len

lemma cut_inside (hn : n < 2^60) (hb : 0 ≤ beg) (hb' : beg ≤ n)
    (hle : 0 ≤ len) : cut n beg len=min len (n-beg) := by
  rw [cut]
  by_cases hl : (n : ℤ) < len
  · omega
  · rw [Integers.long_eq (by omega) (by omega)]
    split_ifs with hc <;> omega

lemma cut_outside (hn : n < 2^60) (hb : 0 ≤ beg) (hb' : beg < 2^63)
    (hl : IsLong len) (ho : len < 0 ∨ n < beg) : cut n beg len < 0 ∨ 2^60 ≤ beg ∧ n < beg := by
  unfold IsLong at hl
  rw [cut]
  by_cases hne : len < 0
  · left
    split_ifs with hc
    · rw [Integers.long_eq (by omega) (by omega)] at hc
      omega
    · exact hne
  · by_cases hs : beg+len < 2^63
    · rw [Integers.long_eq (by omega) hs]
      omega
    · by_cases hlo : (n : ℤ) < len
      · omega
      · right
        omega

lemma rbArySubseq_nil (h : beg < 0 ∨ len < 0 ∨ s.ary.len < beg) :
    rbArySubseq nil memory beg len s=(.ok (.value nil),s) := by
  rw [rbArySubseq]
  split_ifs with hn
  · rfl
  · change (if beg > s.ary.len then _ else _ : M α (Result α)) s=_
    rw [if_pos (by omega)]
    rfl

lemma rbArySubseq_items (hs : s.ary.Sound) (hl : s.ary.len < 2^60)
    (hbe : 0 ≤ beg) (hbe' : beg ≤ s.ary.len) (hle : 0 ≤ len) : rbArySubseq nil memory beg len s =
      (.ok (.items ((s.ary.contents.drop beg.toNat).take
        (min len.toNat (s.ary.len-beg.toNat)))),s) := by
  have hcu := cut_inside hl hbe hbe' hle
  have hco : (cut s.ary.len beg len).toNat=min len.toNat (s.ary.len-beg.toNat) := by omega
  rw [rbArySubseq,if_neg (by omega)]
  change (if beg > s.ary.len then _ else _ : M α (Result α)) s=_
  rw [if_neg (by omega),← hco]
  obtain ⟨b,hb,hc⟩ := newSubseq_spec memory hs hl
    (show beg.toNat+(cut s.ary.len beg len).toNat ≤ s.ary.len by omega)
  rw [← hc]
  exact fetch_bind hb _

lemma deletePosLen_nil (len : ℤ) (h : counted s.ary.len pos < 0) :
    deletePosLen nil memory pos len s=(.ok (.value nil),s) := by
  have hc : (if pos < 0 then s.ary.len+pos else pos)=counted s.ary.len pos := by
    rw [counted,add_comm]
  change (if (if pos < 0 then s.ary.len+pos else pos) < 0 then _ else _ : M α (Result α)) s=_
  rw [hc,if_pos h]
  rfl

lemma deletePosLen_eq (len : ℤ) (h : 0 ≤ counted s.ary.len pos) :
    deletePosLen nil memory pos len s = (rbArySubseq nil memory (counted s.ary.len pos)
          (cut s.ary.len (counted s.ary.len pos) len) >>= fun arg2 =>
        rbArySplice nil memory (counted s.ary.len pos)
          (cut s.ary.len (counted s.ary.len pos) len) .undef >>= fun _ => pure arg2 :
          M α (Result α)) s := by
  have hc : (if pos < 0 then s.ary.len+pos else pos)=counted s.ary.len pos := by
    rw [counted,add_comm]
  change (if (if pos < 0 then s.ary.len+pos else pos) < 0 then _ else _ : M α (Result α)) s=_
  rw [hc,if_neg (not_lt.mpr h)]
  rfl

lemma deletePosLen_items (hs : s.ary.Sound) (hl : s.ary.len < 2^60)
    (hf : s.frozen=false) (hi : s.insecure=false) {p k : ℕ}
    (hp : counted s.ary.len pos=p) (hp' : p ≤ s.ary.len) (hle : 0 ≤ len)
    (hk : k=min len.toNat (s.ary.len-p)) : ∃ s',deletePosLen nil memory pos len s =
        (.ok (.items ((s.ary.contents.drop p).take k)),s') ∧
      s'.ary.contents=s.ary.contents.take p++s.ary.contents.drop (p+k) := by
  have hcu : cut s.ary.len p len=k := by
    rw [cut_inside hl (by omega) (by omega) hle]
    omega
  have hkm : min k (s.ary.len-p)=k := by omega
  have hsu : rbArySubseq nil memory p k s=(.ok (.items ((s.ary.contents.drop p).take k)),s) := by
    have hit := rbArySubseq_items nil memory hs hl
      (by omega) (show (p : ℤ) ≤ s.ary.len by omega) (show 0 ≤ (k : ℤ) by omega)
    rwa [Int.toNat_natCast,Int.toNat_natCast,hkm] at hit
  have ha : ¬Refused s p k := by
    unfold Refused
    omega
  have hst : start s p=p := by
    rw [start,if_neg (by omega),Int.toNat_natCast]
  have hsp : Spliceable s p k .undef := by
    refine ⟨hf,hi,?_,.inr (.inl rfl)⟩
    change (if p ≥ s.ary.len then p+0 else s.ary.len-_+0) < 2^60
    split_ifs <;> omega
  obtain ⟨b,hr,-,hc⟩ := rbArySplice_spliceable nil memory .undef hs trivial ha hsp
  refine ⟨{s with ary := b},?_,?_⟩
  · rw [deletePosLen_eq nil memory len (by omega),hp,hcu,bind_ok hsu,bind_ok hr]
    rfl
  · have hz : p-s.ary.contents.length=0 := by
      rw [length_contents]
      omega
    rw [hc,hst,spliced,hz]
    simp [Replacement.contents]

lemma deletePosLen_error (hs : s.ary.Sound) (hl : s.ary.len < 2^60)
    (hp : IsLong pos) (hle : IsLong len) (h : 0 ≤ counted s.ary.len pos)
    (ho : len < 0 ∨ s.ary.len < counted s.ary.len pos) :
    ∃ e s',deletePosLen nil memory pos len s=(.error e,s') := by
  have hb : counted s.ary.len pos < 2^63 := by
    unfold counted
    unfold IsLong at hp
    split_ifs <;> omega
  rw [deletePosLen_eq nil memory len h]
  have hc := cut_outside hl h hb hle ho
  generalize counted s.ary.len pos=beg at h ho hc ⊢
  generalize cut s.ary.len beg len=len' at hc ⊢
  have hsu : rbArySubseq nil memory beg len' s=(.ok (.value nil),s) :=
    rbArySubseq_nil nil memory (by omega)
  rw [bind_ok hsu]
  by_cases hn : len' < 0
  · have hr : Refused s beg len' := .inl hn
    obtain ⟨e,hru,-⟩ := rbArySplice_refused nil memory .undef hr
    exact ⟨e,s,bind_error hru _⟩
  · have ha : ¬Refused s beg len' := by
      unfold Refused
      omega
    have hst : start s beg=beg.toNat := by rw [start,if_neg (not_lt.mpr h)]
    have hno : ¬Spliceable s beg len' .undef := by
      rintro ⟨-,-,hf,-⟩
      rw [lengthAfter,if_pos (by omega)] at hf
      omega
    obtain ⟨e,hru⟩ := rbArySplice_not_spliceable nil memory .undef hs trivial ha hno
    exact ⟨e,s,bind_error hru _⟩

variable {args : Args} {p : ℕ}
variable {e : Error}

lemma rbArySliceBang_eq (hf : s.frozen=false) (hi : s.insecure=false) (args : Args) :
    rbArySliceBang nil memory args s=(match args with
      | .sub pos len => num2long pos >>= fun pos => num2long len >>= fun len =>
        deletePosLen nil memory pos len
      | .range b e excl => num2long b >>= fun b => num2long e >>= fun e =>
        read (fun s => s.ary.len) >>= fun n =>
        match rangeBegLen b e excl n with
        | some (pos,len) => deletePosLen nil memory pos len
        | none => pure (.value nil)
      | .index i => num2long i >>= fun pos => rbAryDeleteAt nil pos : M α (Result α)) s := by
  unfold rbArySliceBang
  rw [rbAryModify_bind,if_neg (by simp [hf]),if_neg (by simp [hi])]

lemma removes_nil (ha : rbAryAref nil memory args s=(.ok (.value nil),s))
    (hs : rbArySliceBang nil memory args s=(.ok (.value nil),s)) : Removes nil memory args s :=
  ⟨.value nil,s,ha,hs,fun _ => rfl,absurd rfl⟩

lemma removes_items {k : ℕ} (hp : positions s.ary.len args=some (p,k))
    (hpi : picked nil s.ary.contents p k args=.items ((s.ary.contents.drop p).take k))
    (ha : rbAryAref nil memory args s=(.ok (.items ((s.ary.contents.drop p).take k)),s))
    (hs : rbArySliceBang nil memory args s = (.ok (.items ((s.ary.contents.drop p).take k)),s'))
    (hc : s'.ary.contents=s.ary.contents.take p++s.ary.contents.drop (p+k)) :
    Removes nil memory args s :=
  ⟨_,s',ha,hs,fun h => (by cases h),fun _ => ⟨p,k,hp,hpi.symm,hc⟩⟩

lemma not_removes_of_aref
    (h : rbAryAref nil memory args s=(.error e,s')) : ¬Removes nil memory args s := by
  rintro ⟨v,s'',ha,-⟩
  rw [h] at ha
  cases ha

lemma not_removes_of_slice
    (h : rbArySliceBang nil memory args s=(.error e,s')) : ¬Removes nil memory args s := by
  rintro ⟨v,s'',-,hs,-⟩
  rw [h] at hs
  cases hs

lemma removes_sub_iff (hs : s.ary.Sound) (hli : s.ary.len < 2^60) (hf : s.frozen=false)
    (hins : s.insecure=false) (beg len : ℤ) :
    Removes nil memory (.sub beg len) s ↔ Sliceable nil s (.sub beg len) := by
  have hsl := rbArySliceBang_eq nil memory hf hins (.sub beg len)
  dsimp only at hsl
  by_cases hbe : IsLong beg
  swap
  · rw [iff_false_right fun h => hbe h.1]
    exact not_removes_of_aref nil memory (num2long_error hbe _ s)
  by_cases hl : IsLong len
  swap
  · rw [iff_false_right fun h => hl h.2.1]
    have ha : rbAryAref nil memory (.sub beg len) s=(.error .bignumTooBig,s) := by
      rw [rbAryAref,num2long_bind hbe]
      exact num2long_error hl _ s
    exact not_removes_of_aref nil memory ha
  have ha : rbAryAref nil memory (.sub beg len) s =
      rbArySubseq nil memory (counted s.ary.len beg) len s := by
    rw [rbAryAref,num2long_bind hbe,num2long_bind hl]
    rfl
  rw [num2long_bind hbe,num2long_bind hl] at hsl
  by_cases hb : counted s.ary.len beg < 0
  · have ho : Sliceable nil s (.sub beg len) := by
      refine ⟨hbe,hl,.inl ?_⟩
      unfold counted at hb
      split_ifs at hb <;> omega
    rw [iff_true_right ho]
    rw [rbArySubseq_nil nil memory (.inl hb)] at ha
    rw [deletePosLen_nil nil memory len hb] at hsl
    exact removes_nil nil memory ha hsl
  have hc : 0 ≤ counted s.ary.len beg := not_lt.mp hb
  have hw : ¬beg < -s.ary.len ∧ (counted s.ary.len beg ≤ s.ary.len ↔ beg ≤ s.ary.len) := by
    unfold counted at hc ⊢
    split_ifs at hc ⊢ <;> omega
  by_cases hi : 0 ≤ len ∧ counted s.ary.len beg ≤ s.ary.len
  · rw [iff_true_right ⟨hbe,hl,.inr ⟨hi.1,hw.2.mp hi.2⟩⟩]
    obtain ⟨p,hp⟩ := Int.eq_ofNat_of_zero_le hc
    have hpo : positions s.ary.len (.sub beg len) = some (p,min len.toNat (s.ary.len-p)) := by
      rw [positions,if_pos ⟨hc,hi.2,hi.1⟩,hp]
      rfl
    rw [rbArySubseq_items nil memory hs hli hc hi.2 hi.1,hp] at ha
    obtain ⟨s',hd,hco⟩ := deletePosLen_items nil memory hs hli hf hins hp (by omega) hi.1 rfl
    rw [hd] at hsl
    exact removes_items nil memory hpo rfl ha hsl hco
  · have hn : ¬Sliceable nil s (.sub beg len) := by
      rintro ⟨-,-,h | h⟩
      · exact hw.1 h
      · exact hi ⟨h.1,hw.2.mpr h.2⟩
    rw [iff_false_right hn]
    obtain ⟨e,s',hd⟩ := deletePosLen_error nil memory hs hli hbe hl hc
      (by omega)
    rw [hd] at hsl
    exact not_removes_of_slice nil memory hsl

lemma rangeBegLen_eq (b e : ℤ) (excl : Bool) (n : ℕ) : rangeBegLen b e excl n =
      if 0 ≤ counted n b ∧ counted n b ≤ n then
        some (counted n b,max ((if excl then counted n (min e n) else counted n (min e n)+1)-
          counted n b) 0)
      else none := by
  have hm : (if (n : ℤ) < e then (n : ℤ) else e)=min e n := by
    split_ifs <;> omega
  rw [rangeBegLen,rbRangeBegLen]
  simp only [bind,Except.bind,true_or,true_and,ne_eq,not_true_eq_false,if_false,hm]
  by_cases hi : 0 ≤ counted n b ∧ counted n b ≤ n
  · have ho : ¬((if b < 0 then b+(n : ℤ) else b) < 0 ∨ (n : ℤ) < if b < 0 then b+n else b) := by
      change ¬(counted n b < 0 ∨ (n : ℤ) < counted n b)
      omega
    rw [if_neg ho,if_pos hi]
    rfl
  · have ho : (if b < 0 then b+(n : ℤ) else b) < 0 ∨ (n : ℤ) < if b < 0 then b+n else b := by
      change counted n b < 0 ∨ (n : ℤ) < counted n b
      omega
    rw [if_pos ho,if_neg hi]

lemma removes_range_iff (hs : s.ary.Sound) (hl : s.ary.len < 2^60)
    (hf : s.frozen=false) (hi : s.insecure=false) (b e : ℤ) (excl : Bool) :
    Removes nil memory (.range b e excl) s ↔ Sliceable nil s (.range b e excl) := by
  have hsl := rbArySliceBang_eq nil memory hf hi (.range b e excl)
  dsimp only at hsl
  by_cases hb : IsLong b
  swap
  · rw [iff_false_right fun h => hb h.1]
    exact not_removes_of_aref nil memory (num2long_error hb _ s)
  by_cases he : IsLong e
  swap
  · rw [iff_false_right fun h => he h.2]
    have ha : rbAryAref nil memory (.range b e excl) s=(.error .bignumTooBig,s) := by
      rw [rbAryAref,num2long_bind hb]
      exact num2long_error he _ s
    exact not_removes_of_aref nil memory ha
  rw [iff_true_right ⟨hb,he⟩]
  have ha : rbAryAref nil memory (.range b e excl) s = (match rangeBegLen b e excl s.ary.len with
        | some (beg,len) => rbArySubseq nil memory beg len
        | none => pure (.value nil) : M α (Result α)) s := by
    rw [rbAryAref,num2long_bind hb,num2long_bind he]
    rfl
  rw [num2long_bind hb,num2long_bind he] at hsl
  change _=(match rangeBegLen b e excl s.ary.len with
    | some (pos,len) => deletePosLen nil memory pos len
    | none => pure (.value nil) : M α (Result α)) s at hsl
  rw [rangeBegLen_eq] at ha hsl
  by_cases hin : 0 ≤ counted s.ary.len b ∧ counted s.ary.len b ≤ s.ary.len
  swap
  · rw [if_neg hin] at ha hsl
    exact removes_nil nil memory ha hsl
  rw [if_pos hin] at ha hsl
  obtain ⟨p,hp⟩ := Int.eq_ofNat_of_zero_le hin.1
  have hpo : positions s.ary.len (.range b e excl)=some (p,min (((if excl then
      counted s.ary.len (min e s.ary.len) else counted s.ary.len (min e s.ary.len)+1)-
        counted s.ary.len b).toNat) (s.ary.len-p)) := by
    rw [positions,if_pos hin,hp]
    rfl
  dsimp only at ha hsl
  generalize (if excl then counted s.ary.len (min e s.ary.len) else
    counted s.ary.len (min e s.ary.len)+1)-counted s.ary.len b=len at ha hsl hpo
  have hle : 0 ≤ max len 0 := le_max_right _ _
  have hn : (max len 0).toNat=len.toNat := by omega
  have hco : counted s.ary.len p=p := if_neg (by omega)
  rw [rbArySubseq_items nil memory hs hl hin.1 hin.2 hle,hp,hn] at ha
  obtain ⟨s',hd,hc⟩ := deletePosLen_items nil memory hs hl hf hi hco (by omega) hle (by rw [hn])
  rw [hp,hd] at hsl
  exact removes_items nil memory hpo rfl ha hsl hc

lemma rbAryEntry_value (hs : s.ary.Sound) (hp : counted s.ary.len i=p) (hp' : p < s.ary.len) :
    rbAryEntry nil i s=(.ok (.value (s.ary.contents.getD p nil)),s) := by
  obtain ⟨x,hx,hx'⟩ := raryElt_spec hs hp'
  change (if s.ary.len=0 ∨ counted s.ary.len i < 0 ∨ s.ary.len ≤ counted s.ary.len i then _
    else _ : M α (Result α)) s=_
  rw [if_neg (by omega),getD_eq_getElem?_getD,hx']
  have hr : raryElt s.ary (counted s.ary.len i).toNat=some x := by
    rw [hp,Int.toNat_natCast,hx]
  exact fetch_bind hr _

lemma raryErase_item {a b : Ary α} {idx len : ℕ} {item : α}
    (h : raryErase nil a idx len=some (item,b)) : raryElt a idx=some item := by
  obtain ⟨x,hx,h⟩ := Option.bind_eq_some_iff.mp h
  split_ifs at h with hi
  all_goals
    obtain ⟨c,-,hc⟩ := Option.bind_eq_some_iff.mp h
    rw [hx,(Prod.mk.inj (Option.some.inj hc)).1]

lemma rbAryDeleteAt_value (hs : s.ary.Sound) (hf : s.frozen=false)
    (hin : s.insecure=false) (hp : counted s.ary.len i=p) (hp' : p < s.ary.len) :
    ∃ s',rbAryDeleteAt nil i s=(.ok (.value (s.ary.contents.getD p nil)),s') ∧
      s'.ary.contents=s.ary.contents.take p++s.ary.contents.drop (p+1) := by
  have hw := hs.within
  obtain ⟨x,hx,hx'⟩ := raryElt_spec hs hp'
  obtain ⟨b,he,-,hc⟩ := raryErase_spec nil hs (show p+1 ≤ s.ary.len by omega) (by omega)
  obtain ⟨⟨item,b'⟩,hpa,rfl⟩ := Option.map_eq_some_iff.mp he
  have hit : item=x := by
    have hr := raryErase_item nil hpa
    rw [hx] at hr
    exact Option.some.inj hr.symm
  refine ⟨{s with ary := b'},?_,hc⟩
  have hi : ¬i ≥ s.ary.len := by
    unfold counted at hp
    split_ifs at hp <;> omega
  change (if i ≥ s.ary.len then _ else if counted s.ary.len i < 0 then _ else _ :
    M α (Result α)) s=_
  rw [if_neg hi,if_neg (by omega),rbAryModify_bind,if_neg (by simp [hf]),
    if_neg (by simp [hin]),getD_eq_getElem?_getD,hx',← hit]
  have hn : (counted s.ary.len i).toNat=p := by rw [hp,Int.toNat_natCast]
  have hfi : (raryErase nil s.ary (counted s.ary.len i).toNat 1).map Prod.fst=some item := by
    rw [hn,hpa]
    rfl
  have hse : (raryErase nil s.ary (counted s.ary.len i).toNat 1).map Prod.snd=some b' := by
    rw [hn]
    exact he
  refine (fetch_bind
    hfi _).trans ?_
  exact bind_ok (storage_some hse) _

lemma index_outside (h : ¬(0 ≤ counted s.ary.len i ∧ counted s.ary.len i < s.ary.len)) :
    rbAryEntry nil i s=(.ok (.value nil),s) ∧ rbAryDeleteAt nil i s=(.ok (.value nil),s) := by
  constructor
  · change (if s.ary.len=0 ∨ counted s.ary.len i < 0 ∨ s.ary.len ≤ counted s.ary.len i then _
      else _ : M α (Result α)) s=_
    rw [if_pos (by omega)]
    rfl
  · change (if i ≥ s.ary.len then _ else if counted s.ary.len i < 0 then _ else _ :
      M α (Result α)) s=_
    by_cases hi : i ≥ s.ary.len
    · rw [if_pos hi]
      rfl
    · have hn : counted s.ary.len i < 0 := by
        unfold counted at h ⊢
        split_ifs at h ⊢ <;> omega
      rw [if_neg hi,if_pos hn]
      rfl

lemma removes_index_iff (hs : s.ary.Sound) (hf : s.frozen=false)
    (hins : s.insecure=false) (i : ℤ) :
    Removes nil memory (.index i) s ↔ Sliceable nil s (.index i) := by
  have hsl := rbArySliceBang_eq nil memory hf hins (.index i)
  dsimp only at hsl
  by_cases hi : IsLong i
  swap
  · rw [iff_false_right fun h => hi h.1]
    exact not_removes_of_aref nil memory (num2long_error hi _ s)
  have ha : rbAryAref nil memory (.index i) s=rbAryEntry nil i s := by
    rw [rbAryAref,num2long_bind hi]
  rw [num2long_bind hi] at hsl
  by_cases hin : 0 ≤ counted s.ary.len i ∧ counted s.ary.len i < s.ary.len
  swap
  · have hpo : positions s.ary.len (.index i)=none := if_neg hin
    rw [iff_true_right ⟨hi,fun p k h => by rw [hpo] at h; cases h⟩]
    obtain ⟨he,hd⟩ := index_outside nil hin
    exact removes_nil nil memory (ha.trans he) (hsl.trans hd)
  obtain ⟨p,hp⟩ := Int.eq_ofNat_of_zero_le hin.1
  have hpo : positions s.ary.len (.index i)=some (p,1) := by
    rw [positions,if_pos hin,hp]
    rfl
  rw [rbAryEntry_value nil hs hp (by omega)] at ha
  obtain ⟨s',hd,hc⟩ := rbAryDeleteAt_value nil hs hf hins hp (by omega)
  rw [hd] at hsl
  constructor
  · rintro ⟨v,s'',ha',hsl',hn,-⟩
    refine ⟨hi,fun q k hq hva => ?_⟩
    rw [hpo] at hq
    obtain ⟨rfl,rfl⟩ := Prod.mk.inj (Option.some.inj hq)
    -- the element nil is returned, and the array is shorter all the same
    have hv : v=.value nil := by
      rw [ha'] at ha
      rw [← hva]
      exact Except.ok.inj (Prod.mk.inj ha).1
    have hs' : s''=s' := by
      rw [hsl'] at hsl
      exact (Prod.mk.inj hsl).2
    have hl := congrArg length (hn hv)
    rw [hs',hc] at hl
    simp only [length_append,length_take,length_drop,length_contents] at hl
    omega
  · rintro ⟨-,hva⟩
    refine ⟨_,s',ha,hsl,fun h => ?_,fun _ => ⟨p,1,hpo,rfl,hc⟩⟩
    exact absurd (Result.value.inj h) (hva p 1 hpo)

/-- `slice!` of an array that is not frozen removes what `[]` returns, exactly if
the array is not insecure and the arguments are such. -/
theorem removes_iff (hs : s.ary.Sound) (hlimit : s.ary.len < 2^60) (hfrozen : s.frozen = false)
    (args : Args) : Removes nil memory args s ↔ s.insecure = false ∧ Sliceable nil s args := by
  by_cases hi : s.insecure=true
  · have hn : ¬(s.insecure=false ∧ Sliceable nil s args) := by simp [hi]
    rw [iff_false_right hn]
    have hsl : rbArySliceBang nil memory args s=(.error .insecure,s) := by
      unfold rbArySliceBang
      rw [rbAryModify_bind,if_neg (by simp [hfrozen]),if_pos hi]
    exact not_removes_of_slice nil memory hsl
  have hi : s.insecure=false := Bool.not_eq_true _ ▸ hi
  simp only [hi,true_and]
  cases args with
  | index i => exact removes_index_iff nil memory hs hfrozen hi i
  | sub beg len => exact removes_sub_iff nil memory hs hlimit hfrozen hi beg len
  | range b e excl => exact removes_range_iff nil memory hs hlimit hfrozen hi b e excl

def three : RubyArray ℕ := ⟨⟨0,3,4,fun i => i+1⟩,false,false⟩

theorem removes_three :
    Removes 0 (fun _ => 0) (.sub (-2) 7) three ∧ Removes 0 (fun _ => 0) (.range 1 (-1) false) three :=
  ⟨(removes_iff 0 (fun _ => 0) ⟨by decide,by decide⟩ (by decide) rfl (.sub (-2) 7)).mpr
      ⟨rfl,by decide,by decide,.inr (by decide)⟩,
    (removes_iff 0 (fun _ => 0) ⟨by decide,by decide⟩ (by decide) rfl (.range 1 (-1) false)).mpr
      ⟨rfl,by decide,by decide⟩⟩

/-- A start behind the array and a negative length raise. -/
theorem slice_outside_raises :
    (rbArySliceBang 0 (fun _ => 0) (.sub 5 1) three).1 = .error (.negativeLength (-2)) ∧
      (rbArySliceBang 0 (fun _ => 0) (.sub 0 (-1)) three).1 = .error (.negativeLength (-1)) ∧
      ¬Removes 0 (fun _ => 0) (.sub 5 1) three := by
  have hr : rbArySliceBang 0 (fun _ => 0) (.sub 5 1) three=(.error (.negativeLength (-2)),three) :=
    rfl
  exact ⟨by rw [hr],rfl,not_removes_of_slice 0 _ hr⟩

end MacRuby.ArraySlices
