import MacRuby.Integers

/-!
# Difference of arrays

`rb_ary_diff` looks every element of the first array up in the second one. Two
short RubyArrays are searched with `rb_equal_fast`, which takes immediates of one
type for equal only if they are identical. Otherwise the elements of the second
array become the keys of a CFDictionary. That is other code: it is assumed to
find a key of the same class and value, as long as the key equals itself, and to
find nothing but keys that answer `==` with true. What it does with equal keys
of different hashes is open.

A Float is an immediate, a double without its two lowest bits. The conversion of
integers to doubles is a parameter. Strings that are `CFEqual` are one value.
-/
namespace MacRuby.ArrayDifference
open List
open Integers (fix2long Fixable)

def isnan (d : BitVec 64) : Bool := d.extractLsb' 52 11 == 2047#11 && d.extractLsb' 0 52 != 0#52

/-- `==` of doubles: zeros of both signs are equal, and no NaN is. -/
def doubleEq (a b : BitVec 64) : Bool :=
  !isnan a && !isnan b && (a == b || a.extractLsb' 0 63 == 0#63 && b.extractLsb' 0 63 == 0#63)

def fixfloat2dbl (f : BitVec 62) : BitVec 64 := f++0#2

inductive Elem (σ : Type)
  | fixnum (n : BitVec 62)
  | bignum (m : {m : ℤ // ¬Fixable m})
  | float (f : BitVec 62)
  | string (s : σ)
  deriving DecidableEq

variable {σ : Type} [DecidableEq σ] (toDouble : ℤ → BitVec 64)

def rbBigEq (m : {m : ℤ // ¬Fixable m}) : Elem σ → Bool
  | .fixnum n => m.val == fix2long n
  | .bignum m' => m == m'
  | .float f => !isnan (fixfloat2dbl f) && doubleEq (fixfloat2dbl f) (toDouble m.val)
  | .string _ => false

def fixEqual (n : BitVec 62) : Elem σ → Bool
  | .fixnum n' => n == n'
  | .bignum m => rbBigEq toDouble m (.fixnum n : Elem σ)
  | .float f => doubleEq (toDouble (fix2long n)) (fixfloat2dbl f)
  | .string _ => false

def floEq (f : BitVec 62) : Elem σ → Bool
  | .fixnum n => !isnan (fixfloat2dbl f) && doubleEq (fixfloat2dbl f) (toDouble (fix2long n))
  | .bignum m => !isnan (fixfloat2dbl f) && doubleEq (fixfloat2dbl f) (toDouble m.val)
  | .float g => !isnan (fixfloat2dbl g) && !isnan (fixfloat2dbl f) &&
      doubleEq (fixfloat2dbl f) (fixfloat2dbl g)
  | .string _ => false

def rbStrEqual (s : σ) : Elem σ → Bool
  | .string t => s == t
  | _ => false

/-- The method `==` of the first element. -/
def opEq : Elem σ → Elem σ → Bool
  | .fixnum n => fixEqual toDouble n
  | .bignum m => rbBigEq toDouble m
  | .float f => floEq toDouble f
  | .string s => rbStrEqual s

def rbEqual (x y : Elem σ) : Bool := x == y || opEq toDouble x y

def sameImmediate : Elem σ → Elem σ → Bool
  | .fixnum _,.fixnum _ => true
  | .float _,.float _ => true
  | _,_ => false

def rbEqualFast (x y : Elem σ) : Bool :=
  if x=y then true else if sameImmediate x y then false else rbEqual toDouble x y

def Elem.isNaN : Elem σ → Bool
  | .float f => isnan (fixfloat2dbl f)
  | _ => false

/-- `ary_make_hash` and `rb_hash_has_key`: which keys a dictionary contains. -/
structure Dictionary (σ : Type) [DecidableEq σ] (toDouble : ℤ → BitVec 64) where
  contains : List (Elem σ) → Elem σ → Bool
  finds : ∀ keys x,x ∈ keys → x.isNaN=false → contains keys x=true
  only : ∀ keys x,contains keys x=true → ∃ y ∈ keys,opEq toDouble y x=true

structure Arr (σ : Type) where
  items : List (Elem σ)
  rary : Bool

/-- `rary_index_of_item` from 0 on; `NOT_FOUND` is `none`. -/
def raryIndexOfItem (ary : List (Elem σ)) (item : Elem σ) : Option ℕ :=
  ary.findIdx? (rbEqualFast toDouble item)

def Searched (ary1 ary2 : Arr σ) : Prop :=
  ary1.items.length < 100 ∧ ary2.items.length < 100 ∧ ary1.rary=true ∧ ary2.rary=true

instance (ary1 ary2 : Arr σ) : Decidable (Searched ary1 ary2) :=
  inferInstanceAs (Decidable (_ ∧ _ ∧ _ ∧ _))

variable {toDouble} in
def rbAryDiff (D : Dictionary σ toDouble) (ary1 ary2 : Arr σ) : Arr σ :=
  if ary2.items.length=0 then ⟨ary1.items,true⟩
  else if Searched ary1 ary2 then
    ⟨ary1.items.filter (fun elem => (raryIndexOfItem toDouble ary2.items elem).isNone),true⟩
  else ⟨ary1.items.filter (fun v => !D.contains ary2.items v),true⟩

def rbAryPlus (x y : Arr σ) : Arr σ := ⟨x.items++y.items,true⟩

def Distributes (a b c : Arr σ) : Prop :=
  ∀ D : Dictionary σ toDouble,
    rbAryDiff D (rbAryPlus a c) b=rbAryPlus (rbAryDiff D a b) (rbAryDiff D c b)

/-- The search and a dictionary agree on the element: no NaN is in the array, and
an element that equals one of the array is itself in it. -/
def Plain (b : Arr σ) (x : Elem σ) : Prop :=
  (x ∈ b.items → x.isNaN=false) ∧ (x ∉ b.items → ∀ y ∈ b.items,opEq toDouble y x=false)

instance (b : Arr σ) (x : Elem σ) : Decidable (Plain toDouble b x) :=
  inferInstanceAs (Decidable (_ ∧ _))

variable {toDouble} {x : Elem σ}

lemma doubleEq_comm (a b : BitVec 64) : doubleEq a b=doubleEq b a := by
  have he : (a == b)=(b == a) := Bool.beq_comm
  rw [doubleEq,doubleEq,he,Bool.and_comm !isnan a,Bool.and_comm (a.extractLsb' 0 63 == 0#63)]

lemma doubleEq_nan {a : BitVec 64} (h : isnan a=true) (b : BitVec 64) : doubleEq a b=false := by
  rw [doubleEq,h]
  rfl

lemma opEq_self (h : x.isNaN=false) : opEq toDouble x x=true := by
  cases x with
  | fixnum n => exact beq_self_eq_true n
  | bignum m => exact beq_self_eq_true m
  | string s => exact beq_self_eq_true s
  | float f =>
    have hn : isnan (fixfloat2dbl f)=false := h
    change (!isnan (fixfloat2dbl f) && !isnan (fixfloat2dbl f) &&
      doubleEq (fixfloat2dbl f) (fixfloat2dbl f))=true
    rw [doubleEq,hn,beq_self_eq_true]
    rfl

lemma doubleEq_nan_right {b : BitVec 64} (h : isnan b=true) (a : BitVec 64) :
    doubleEq a b=false := by
  rw [doubleEq_comm,doubleEq_nan h]

lemma not_nan_and_doubleEq (a b : BitVec 64) : (!isnan a && doubleEq a b)=doubleEq a b := by
  cases h : isnan a with
  | true => rw [doubleEq_nan h]; rfl
  | false => rfl

omit [DecidableEq σ] in
lemma floEq_float (f g : BitVec 62) :
    floEq toDouble f (.float g : Elem σ)=doubleEq (fixfloat2dbl f) (fixfloat2dbl g) := by
  rw [floEq,Bool.and_assoc,not_nan_and_doubleEq]
  cases h : isnan (fixfloat2dbl g) with
  | true => rw [doubleEq_nan_right h]; rfl
  | false => rfl

lemma opEq_comm (x y : Elem σ) : opEq toDouble x y=opEq toDouble y x := by
  cases x with
  | fixnum n =>
    cases y with
    | fixnum n' => exact Bool.beq_comm
    | bignum | string => rfl
    | float f => simp only [opEq,fixEqual,floEq,not_nan_and_doubleEq,doubleEq_comm]
  | bignum m =>
    cases y with
    | fixnum | float | string => rfl
    | bignum m' => exact Bool.beq_comm
  | float f =>
    cases y with
    | fixnum n => simp only [opEq,fixEqual,floEq,not_nan_and_doubleEq,doubleEq_comm]
    | bignum | string => rfl
    | float g => simp only [opEq,floEq_float,doubleEq_comm]
  | string s =>
    cases y with
    | string t => exact Bool.beq_comm
    | fixnum | bignum | float => rfl

lemma opEq_nan (h : x.isNaN=true) (y : Elem σ) : opEq toDouble x y=false := by
  cases x with
  | fixnum | bignum | string => cases h
  | float f =>
    have hn : isnan (fixfloat2dbl f)=true := h
    cases y with
    | fixnum | bignum => simp only [opEq,floEq,doubleEq_nan hn,Bool.and_false]
    | float g => simp only [opEq,floEq_float,doubleEq_nan hn]
    | string s => rfl

lemma eq_or_opEq {y : Elem σ} (h : rbEqualFast toDouble x y=true) :
    x=y ∨ opEq toDouble y x=true := by
  rw [rbEqualFast] at h
  split_ifs at h with he
  · exact .inl he
  · rw [rbEqual,Bool.or_eq_true,beq_iff_eq] at h
    exact .inr (by rw [opEq_comm]; exact h.resolve_left he)

variable {b : Arr σ}

def Found (toDouble : ℤ → BitVec 64) (b : List (Elem σ)) (x : Elem σ) : Prop :=
  ∃ y ∈ b,rbEqualFast toDouble x y=true

lemma isNone_raryIndexOfItem (b : List (Elem σ)) (x : Elem σ) :
    (raryIndexOfItem toDouble b x).isNone=true ↔ ¬Found toDouble b x := by
  rw [raryIndexOfItem,Found]
  simp

lemma found_of_mem {b : List (Elem σ)} (h : x ∈ b) : Found toDouble b x :=
  ⟨x,h,if_pos rfl⟩

lemma agree_of_plain (D : Dictionary σ toDouble)
    (h : Plain toDouble b x) : Found toDouble b.items x ↔ D.contains b.items x=true := by
  by_cases hx : x ∈ b.items
  · exact iff_of_true (found_of_mem hx) (D.finds _ _ hx (h.1 hx))
  · refine iff_of_false ?_ ?_
    · rintro ⟨y,hy,he⟩
      rcases eq_or_opEq he with rfl | ho
      · exact hx hy
      · rw [h.2 hx y hy] at ho
        cases ho
    · intro hc
      obtain ⟨y,hy,ho⟩ := D.only _ _ hc
      rw [h.2 hx y hy] at ho
      cases ho

def strict (σ : Type) [DecidableEq σ] (toDouble : ℤ → BitVec 64) : Dictionary σ toDouble where
  contains keys x := decide (x ∈ keys) && !x.isNaN
  finds keys x hmem hnan := by rw [decide_eq_true hmem,hnan]; rfl
  only keys x h := by
    rw [Bool.and_eq_true,decide_eq_true_eq,Bool.not_eq_true'] at h
    exact ⟨x,h.1,opEq_self h.2⟩

def lax (σ : Type) [DecidableEq σ] (toDouble : ℤ → BitVec 64) : Dictionary σ toDouble where
  contains keys x := keys.any (fun y => opEq toDouble y x)
  finds _ x hmem hnan := any_eq_true.mpr ⟨x,hmem,opEq_self hnan⟩
  only _ _ h := any_eq_true.mp h

lemma differ_of_not_plain (h : ¬Plain toDouble b x) :
    ∃ D : Dictionary σ toDouble,¬(Found toDouble b.items x ↔ D.contains b.items x=true) := by
  by_cases hx : x ∈ b.items
  · have hn : x.isNaN=true := by
      by_contra hnot
      exact h ⟨fun _ => Bool.not_eq_true _ ▸ hnot,absurd hx⟩
    refine ⟨strict σ toDouble,fun hi => ?_⟩
    obtain ⟨y,-,ho⟩ := (strict σ toDouble).only _ _ (hi.mp (found_of_mem hx))
    rw [opEq_comm,opEq_nan hn] at ho
    cases ho
  · obtain ⟨y,hy,ho⟩ : ∃ y ∈ b.items,opEq toDouble y x=true := by
      by_contra hnone
      refine h ⟨fun hm => absurd hm hx,fun _ y hy => ?_⟩
      exact Bool.not_eq_true _ ▸ fun ho => hnone ⟨y,hy,ho⟩
    by_cases hf : Found toDouble b.items x
    · refine ⟨strict σ toDouble,fun hi => hx ?_⟩
      have hc : (decide (x ∈ b.items) && !x.isNaN)=true := hi.mp hf
      rw [Bool.and_eq_true,decide_eq_true_eq] at hc
      exact hc.1
    · exact ⟨lax σ toDouble,fun hi => hf (hi.mpr (any_eq_true.mpr ⟨y,hy,ho⟩))⟩

variable {α : Type}

lemma filter_agree {p q : α → Bool} {l : List α} (h : ∀ x ∈ l,q x=true → p x=true)
    (hl : (l.filter p).length ≤ (l.filter q).length) : ∀ x ∈ l,p x=q x := by
  have hs : (l.filter q).Sublist (l.filter p) := by
    have hb : l.filter q=(l.filter p).filter q := by
      rw [filter_filter]
      refine filter_congr fun x hx => ?_
      cases hq : q x with
      | true => rw [h x hx hq]; rfl
      | false => rfl
    rw [hb]
    exact filter_sublist
  have he := hs.eq_of_length_le hl
  intro x hx
  rw [Bool.eq_iff_iff]
  refine ⟨fun hp => ?_,h x hx⟩
  have hm := mem_filter.mpr ⟨hx,hp⟩
  rw [← he] at hm
  exact (mem_filter.mp hm).2

lemma filter_append_eq_iff {p q r : α → Bool} {l m : List α} :
    (l++m).filter p=l.filter q++m.filter r ↔ (∀ x ∈ l,p x=q x) ∧ ∀ x ∈ m,p x=r x := by
  constructor
  · intro h
    have hp {x : α} (hx : x ∈ l.filter q++m.filter r) : p x=true := by
      rw [← h] at hx
      exact (mem_filter.mp hx).2
    have hq : ∀ x ∈ l,q x=true → p x=true := fun x hx hqx =>
      hp (mem_append_left _ (mem_filter.mpr ⟨hx,hqx⟩))
    have hr : ∀ x ∈ m,r x=true → p x=true := fun x hx hrx =>
      hp (mem_append_right _ (mem_filter.mpr ⟨hx,hrx⟩))
    have hle := congrArg length h
    rw [filter_append,length_append,length_append] at hle
    have hl : (l.filter q).length ≤ (l.filter p).length := by
      rw [← countP_eq_length_filter,← countP_eq_length_filter]
      exact countP_mono_left hq
    have hm : (m.filter r).length ≤ (m.filter p).length := by
      rw [← countP_eq_length_filter,← countP_eq_length_filter]
      exact countP_mono_left hr
    exact ⟨filter_agree hq (by omega),filter_agree hr (by omega)⟩
  · rintro ⟨hl,hm⟩
    rw [filter_append,filter_congr hl,filter_congr hm]

variable {σ : Type} [DecidableEq σ] {toDouble : ℤ → BitVec 64}

def keeps (D : Dictionary σ toDouble) (ary1 ary2 : Arr σ) (x : Elem σ) : Bool :=
  if Searched ary1 ary2 then (raryIndexOfItem toDouble ary2.items x).isNone
  else !D.contains ary2.items x

lemma rbAryDiff_items (D : Dictionary σ toDouble) (a : Arr σ) {b : Arr σ} (hb : b.items ≠ []) :
    rbAryDiff D a b=⟨a.items.filter (keeps D a b),true⟩ := by
  rw [rbAryDiff,if_neg (by rwa [length_eq_zero_iff])]
  by_cases h : Searched a b
  · have hk : keeps D a b=fun x => (raryIndexOfItem toDouble b.items x).isNone :=
      funext fun x => if_pos h
    rw [if_pos h,hk]
  · have hk : keeps D a b=fun x => !D.contains b.items x := funext fun x => if_neg h
    rw [if_neg h,hk]

lemma keeps_eq_iff (D : Dictionary σ toDouble) (a a' b : Arr σ) (x : Elem σ) :
    keeps D a b x=keeps D a' b x ↔ (Searched a b ↔ Searched a' b) ∨
      (Found toDouble b.items x ↔ D.contains b.items x=true) := by
  have hs : (raryIndexOfItem toDouble b.items x).isNone=!D.contains b.items x ↔
      (Found toDouble b.items x ↔ D.contains b.items x=true) := by
    rw [Bool.eq_iff_iff,isNone_raryIndexOfItem,Bool.not_eq_true',← Bool.not_eq_true]
    exact not_iff_not
  unfold keeps
  by_cases h : Searched a b
  · by_cases h' : Searched a' b
    · simp [h,h']
    · simp only [h,h',if_true,if_false,hs,iff_false,not_true_eq_false,false_or]
  · by_cases h' : Searched a' b
    · rw [eq_comm]
      simp only [h,h',if_true,if_false,hs,iff_true,false_or]
    · simp [h,h']

lemma distributes_at_iff (D : Dictionary σ toDouble) (a c : Arr σ) {b : Arr σ}
    (hb : b.items ≠ []) :
    rbAryDiff D (rbAryPlus a c) b=rbAryPlus (rbAryDiff D a b) (rbAryDiff D c b) ↔
      (∀ x ∈ a.items,keeps D (rbAryPlus a c) b x=keeps D a b x) ∧
        ∀ x ∈ c.items,keeps D (rbAryPlus a c) b x=keeps D c b x := by
  rw [rbAryDiff_items D _ hb,rbAryDiff_items D _ hb,rbAryDiff_items D _ hb,← filter_append_eq_iff]
  simp only [rbAryPlus,Arr.mk.injEq,and_true]

/-- Difference distributes over concatenation exactly if there is nothing to
remove, or every element that is searched for in one of the differences and not
in the other is plain. -/
theorem distributes_iff (a b c : Arr σ) : Distributes toDouble a b c ↔ b.items = [] ∨
      ((Searched (rbAryPlus a c) b ↔ Searched a b) ∨ ∀ x ∈ a.items,Plain toDouble b x) ∧
      ((Searched (rbAryPlus a c) b ↔ Searched c b) ∨ ∀ x ∈ c.items,Plain toDouble b x) := by
  by_cases hb : b.items=[]
  · have hd (D : Dictionary σ toDouble) (a : Arr σ) : rbAryDiff D a b=⟨a.items,true⟩ := by
      rw [rbAryDiff,if_pos (by rw [hb]; rfl)]
    refine iff_of_true (fun D => ?_) (.inl hb)
    rw [hd,hd,hd]
    rfl
  simp only [hb,false_or]
  have hp (l : List (Elem σ)) (a' : Arr σ) :
      (∀ D : Dictionary σ toDouble,∀ x ∈ l,keeps D (rbAryPlus a c) b x=keeps D a' b x) ↔
        (Searched (rbAryPlus a c) b ↔ Searched a' b) ∨ ∀ x ∈ l,Plain toDouble b x := by
    constructor
    · intro h
      by_contra hn
      rw [not_or] at hn
      obtain ⟨hs,hpl⟩ := hn
      obtain ⟨x,hx,hx'⟩ : ∃ x ∈ l,¬Plain toDouble b x := by
        by_contra hnone
        exact hpl fun x hx => by_contra fun h => hnone ⟨x,hx,h⟩
      obtain ⟨D,hD⟩ := differ_of_not_plain hx'
      exact ((keeps_eq_iff D _ _ b x).mp (h D x hx)).elim hs hD
    · rintro (h | h) D x hx
      · exact (keeps_eq_iff D _ _ b x).mpr (.inl h)
      · exact (keeps_eq_iff D _ _ b x).mpr (.inr (agree_of_plain D (h x hx)))
  rw [← hp a.items a,← hp c.items c,← forall_and]
  exact forall_congr' fun D => distributes_at_iff D a c hb

def nan : BitVec 62 := 0x1FFE000000000000#62

/-- A NaN is removed from a short array, and kept in one with ninety-nine more elements. -/
theorem nan_not_distributes : ¬∃ D : Dictionary ℕ (fun _ => 0#64),
      rbAryDiff D (rbAryPlus ⟨[.float nan],true⟩ ⟨List.replicate 99 (.fixnum 0#62),true⟩)
          ⟨[.float nan],true⟩ = rbAryPlus (rbAryDiff D ⟨[.float nan],true⟩ ⟨[.float nan],true⟩)
          (rbAryDiff D ⟨List.replicate 99 (.fixnum 0#62),true⟩ ⟨[.float nan],true⟩) := by
  rintro ⟨D,h⟩
  have hk := ((distributes_at_iff D _ _ (by simp)).mp h).1 (.float nan) (by simp)
  rw [keeps_eq_iff] at hk
  have hs : ¬(Searched (rbAryPlus ⟨[.float nan],true⟩
      ⟨replicate 99 (.fixnum 0#62),true⟩ : Arr ℕ) ⟨[.float nan],true⟩ ↔
      Searched (⟨[.float nan],true⟩ : Arr ℕ) ⟨[.float nan],true⟩) := by decide
  have hc := (hk.resolve_left hs).mp (found_of_mem (by simp))
  obtain ⟨y,hy,ho⟩ := D.only _ _ hc
  rw [opEq_comm,opEq_nan (by decide)] at ho
  cases ho

end MacRuby.ArrayDifference
