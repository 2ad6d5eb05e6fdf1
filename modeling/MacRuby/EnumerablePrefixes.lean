import Mathlib.Algebra.Order.Ring.Int
import Mathlib.Data.Nat.Find

/-!
# Prefixes of an enumerable

take, first and take_while stop each by `rb_iter_break`, which stores a value in the
register and returns to the function that called it. The functions of take, of take_while
and of Range#first then go on and push the element that should have been left out.
-/
namespace MacRuby.EnumerablePrefixes
open Nat

/-- What each yields, one element after the other, perhaps without end. -/
structure Enumerable (α : Type) where
  get : ℕ → Option α
  ends : ∀ i, get i=none → get (i+1)=none

section Model
variable {α σ : Type} (e : Enumerable α)

/-- each calls a function of C, which gets a memo and may leave a value in the register;
`none` is a call that has not come to its end. -/
def each (f : σ → α → σ × Bool) : ℕ → ℕ → σ → Option σ
  | 0,_,_ => none
  | fuel+1,i,memo =>
    match e.get i with
    | none => some memo
    | some x =>
      match f memo x with
      | (memo,true) => some memo
      | (memo,false) => each f fuel (i+1) memo

inductive Outcome (α : Type) where
  | array (elements : List α)
  | rangeError
  | argumentError

def num2long (n : ℤ) : Option ℤ := if -2^63 ≤ n ∧ n < 2^63 then some n else none

def withLong (len : Option ℤ) (k : ℤ → Option (Outcome α)) : Option (Outcome α) :=
  match len with
  | none => some .rangeError
  | some len => k len

/-- `rb_ary_new2` takes no more than `LONG_MAX / sizeof(VALUE)` elements. -/
def aryNew2 (len : ℤ) : Bool := 0 ≤ len ∧ len ≤ (2^63-1)/8

def takeI (arg : ℤ × List α) (x : α) : (ℤ × List α) × Bool := ((arg.1-1,arg.2 ++ [x]),arg.1=0)

def enumTake (n : ℤ) (fuel : ℕ) : Option (Outcome α) :=
  withLong (num2long n) fun len =>
    if len < 0 then some .argumentError
    else (each e takeI fuel 0 (len,[])).map (.array ·.2)

def firstWith (f : ℤ × List α → α → (ℤ × List α) × Bool) (n : ℤ) (fuel : ℕ) : Option (Outcome α) :=
  withLong (num2long n) fun len =>
    if aryNew2 len then (each e f fuel 0 (len,[])).map (.array ·.2) else some .argumentError

def enumFirstI (ary : ℤ × List α) (x : α) : (ℤ × List α) × Bool :=
  if ary.1 ≤ 0 then (ary,true) else ((ary.1-1,ary.2 ++ [x]),false)

def enumFirst : ℤ → ℕ → Option (Outcome α) := firstWith e enumFirstI

def rangeFirstI (ary : ℤ × List α) (x : α) : (ℤ × List α) × Bool :=
  ((ary.1-1,ary.2 ++ [x]),ary.1 ≤ 0)

def rangeFirst : ℤ → ℕ → Option (Outcome α) := firstWith e rangeFirstI

def takeWhileI (p : α → Bool) (ary : List α) (x : α) : List α × Bool := (ary ++ [x],!p x)

def enumTakeWhile (p : α → Bool) (fuel : ℕ) : Option (Outcome α) :=
  (each e (takeWhileI p) fuel 0 []).map .array

def Enumerable.first (n : ℕ) : List α := (List.range n).filterMap e.get

/-- The longest prefix whose elements satisfy the block has `k` of them. -/
def LongestPrefix (p : α → Bool) (k : ℕ) : Prop :=
  (∀ i < k, ∃ x, e.get i=some x ∧ p x=true) ∧ ∀ x, e.get k=some x → p x=false

variable {e} {f : σ → α → σ × Bool} {n i k : ℕ}

lemma Enumerable.none_of_le {j : ℕ} (hi : i ≤ j) (h : e.get i=none) : e.get j=none := by
  induction j, hi using le_induction with
  | base => exact h
  | succ j _ ih => exact e.ends j ih

lemma first_succ {x : α} (h : e.get n=some x) : e.first (n+1)=e.first n ++ [x] := by
  simp [Enumerable.first,List.range_succ,h]

lemma first_stable (hk : k ≤ n) (h : e.get k=none) : e.first n=e.first k := by
  induction n, hk using le_induction with
  | base => rfl
  | succ n hk ih =>
    rw [← ih]
    simp [Enumerable.first,List.range_succ,Enumerable.none_of_le hk h]

lemma each_unique {m : ℕ} {memo r r' : σ} (h : each e f m i memo=some r)
    (h' : each e f n i memo=some r') : r=r' := by
  induction m generalizing n i memo with
  | zero => cases h
  | succ m ih =>
    cases n with
    | zero => cases h'
    | succ n =>
      simp only [each] at h h'
      split at h
      · simp_all
      · next x hx =>
        simp only [hx] at h'
        split at h
        · simp_all
        · next hf =>
          simp only [hf] at h'
          exact ih h h'

lemma each_pass {s : ℕ → σ}
    (h : ∀ i < k, ∃ x, e.get i=some x ∧ f (s i) x=(s (i+1),false)) (fuel : ℕ) :
    each e f (k+fuel) 0 (s 0)=each e f fuel k (s k) := by
  induction k generalizing fuel with
  | zero => rw [zero_add]
  | succ k ih =>
    obtain ⟨x,hx,hf⟩ := h k (lt_succ_self k)
    rw [add_right_comm,add_assoc,ih fun i hi => h i (lt_succ_of_lt hi)]
    simp only [each,hx,hf]

lemma exists_end (h : e.get n=none) : ∃ k ≤ n, e.get k=none ∧ ∀ i < k, ∃ x, e.get i=some x := by
  have hex : ∃ k, e.get k=none := ⟨n,h⟩
  refine ⟨Nat.find hex,Nat.find_min' hex h,Nat.find_spec hex,fun i hi => ?_⟩
  exact Option.ne_none_iff_exists'.mp (Nat.find_min hex hi)

end Model

section Counted
variable {α : Type} {e : Enumerable α} {f : ℤ × List α → α → (ℤ × List α) × Bool} {n : ℕ}
variable (hf : ∀ m ary x, 0 < m → f (m,ary) x=((m-1,ary ++ [x]),false))
include hf

lemma each_counted {k : ℕ} (hk : k ≤ n) (h : ∀ i < k, ∃ x, e.get i=some x) (fuel : ℕ) :
    each e f (k+fuel) 0 (n,[])=each e f fuel k (n-k,e.first k) := by
  have hp := each_pass (s := fun i => ((n : ℤ)-i,e.first i)) (f := f) (e := e) (k := k)
    (fun i hi => ?_) fuel
  · simpa [Enumerable.first] using hp
  · obtain ⟨x,hx⟩ := h i hi
    refine ⟨x,hx,?_⟩
    simp only [first_succ hx,hf ((n : ℤ)-i) _ x (by omega)]
    congr 2
    omega

lemma each_within (h : e.get n=none) : ∃ fuel m, each e f fuel 0 (n,[])=some (m,e.first n) := by
  obtain ⟨k,hk,hn,hs⟩ := exists_end h
  refine ⟨k+1,n-k,?_⟩
  rw [each_counted hf hk hs,first_stable hk hn]
  simp only [each,hn]

lemma each_beyond {x : α} (hx : e.get n=some x) {memo : ℤ × List α}
    (hst : f (0,e.first n) x=(memo,true)) : each e f (n+1) 0 (n,[])=some memo := by
  have hs : ∀ i < n, ∃ x, e.get i=some x := by
    intro i hi
    apply Option.ne_none_iff_exists'.mp
    intro hn
    rw [Enumerable.none_of_le hi.le hn] at hx
    cases hx
  rw [each_counted hf (le_refl n) hs,sub_self]
  simp only [each,hx,hst]

/-- A function that pushes the element at which it stops gives the right prefix only if
there is no such element. -/
lemma pushed_iff (hs : ∀ ary x, f (0,ary) x=((-1,ary ++ [x]),true)) :
    (∃ fuel, (each e f fuel 0 (n,[])).map (Outcome.array ·.2)=some (.array (e.first n))) ↔
      e.get n=none := by
  constructor
  · rintro ⟨fuel,h⟩
    obtain ⟨r,hr,he⟩ := Option.map_eq_some_iff.mp h
    apply Option.eq_none_iff_forall_ne_some.mpr
    intro x hx
    rw [each_unique hr (each_beyond hf hx (hs _ x))] at he
    simp at he
  · intro h
    obtain ⟨fuel,m,hfu⟩ := each_within hf h
    exact ⟨fuel,by rw [hfu]; rfl⟩

end Counted

variable {α : Type} (e : Enumerable α)

lemma takeWhile_iff (p : α → Bool) {k : ℕ} (hk : LongestPrefix e p k) :
    (∃ fuel, enumTakeWhile e p fuel=some (.array (e.first k))) ↔ e.get k=none := by
  have hp := each_pass (s := e.first) (f := takeWhileI p) fun i hi => by
    obtain ⟨x,hx,hpx⟩ := hk.1 i hi
    exact ⟨x,hx,by rw [takeWhileI,hpx,first_succ hx]; rfl⟩
  constructor
  · rintro ⟨fuel,h⟩
    obtain ⟨r,hr,he⟩ := Option.map_eq_some_iff.mp h
    apply Option.eq_none_iff_forall_ne_some.mpr
    intro x hx
    have ho : each e (takeWhileI p) (k+1) 0 []=some (e.first k ++ [x]) := by
      refine (hp 1).trans ?_
      simp only [each,hx,takeWhileI,hk.2 x hx]
      rfl
    rw [each_unique hr ho] at he
    simp at he
  · intro h
    refine ⟨k+1,?_⟩
    have ho : each e (takeWhileI p) (k+1) 0 []=some (e.first k) := by
      refine (hp 1).trans ?_
      simp only [each,h]
    rw [enumTakeWhile,ho]
    rfl

lemma num2long_natCast (n : ℕ) : num2long n=if (n : ℤ) < 2^63 then some (n : ℤ) else none := by
  unfold num2long
  congr 1
  rw [eq_iff_iff]
  omega

lemma aryNew2_natCast (n : ℕ) : aryNew2 n=decide ((n : ℤ) < 2^60) := by
  rw [aryNew2,decide_eq_decide]
  omega

lemma firstWith_iff (f : ℤ × List α → α → (ℤ × List α) × Bool) (n : ℕ) {P : Prop}
    (h : (∃ fuel, (each e f fuel 0 (n,[])).map (Outcome.array ·.2)=some (.array (e.first n))) ↔ P) :
    (∃ fuel, firstWith e f n fuel=some (.array (e.first n))) ↔ (n : ℤ) < 2^60 ∧ P := by
  simp only [firstWith,num2long_natCast]
  split_ifs with hl
  · simp only [withLong,aryNew2_natCast]
    by_cases hs : (n : ℤ) < 2^60
    · simp only [hs,decide_true,if_true,true_and,h]
    · simp only [hs,false_and,iff_false]
      rintro ⟨fuel,⟨⟩⟩
  · refine iff_of_false ?_ (by omega)
    rintro ⟨fuel,⟨⟩⟩

/-- Enumerable#first returns the prefix for every number that an array can be made for.
The others return it only if there is nothing to leave out. -/
theorem prefixes_iff (n : ℕ) (p : α → Bool) :
    ((∃ fuel, enumTake e n fuel = some (.array (e.first n))) ↔
      (n : ℤ) < 2^63 ∧ e.get n = none) ∧
    ((∃ fuel, enumFirst e n fuel = some (.array (e.first n))) ↔ (n : ℤ) < 2^60) ∧
    ((∃ fuel, rangeFirst e n fuel = some (.array (e.first n))) ↔
      (n : ℤ) < 2^60 ∧ e.get n = none) ∧ ∀ k, LongestPrefix e p k →
      ((∃ fuel, enumTakeWhile e p fuel = some (.array (e.first k))) ↔ e.get k = none) := by
  have ht : ∀ m ary (x : α), 0 < m → takeI (m,ary) x=((m-1,ary ++ [x]),false) := by
    intro m ary x hm
    simp [takeI,hm.ne']
  have hfi : ∀ m ary (x : α), 0 < m → enumFirstI (m,ary) x=((m-1,ary ++ [x]),false) := by
    intro m ary x hm
    simp [enumFirstI,hm]
  have hr : ∀ m ary (x : α), 0 < m → rangeFirstI (m,ary) x=((m-1,ary ++ [x]),false) := by
    intro m ary x hm
    simp [rangeFirstI,hm]
  refine ⟨?_,?_,?_,fun k => takeWhile_iff e p⟩
  · simp only [enumTake,num2long_natCast]
    split_ifs with hn
    · simp only [hn,true_and]
      exact pushed_iff ht fun ary x => rfl
    · refine iff_of_false ?_ fun h => hn h.1
      rintro ⟨fuel,⟨⟩⟩
  · have ha : ∃ fuel, (each e enumFirstI fuel 0 (n,[])).map (Outcome.array ·.2) =
        some (.array (e.first n)) := by
      cases hx : e.get n with
      | none =>
        obtain ⟨fuel,m,hfu⟩ := each_within hfi hx
        exact ⟨fuel,by rw [hfu]; rfl⟩
      | some x => exact ⟨n+1,by rw [each_beyond hfi hx rfl]; rfl⟩
    exact (firstWith_iff e _ n (iff_true_intro ha)).trans (and_iff_left trivial)
  · exact firstWith_iff e _ n (pushed_iff hr fun ary x => rfl)

def abc : Enumerable ℕ where
  get i := [7,8,9][i]?
  ends i := by simp; omega

/-- take(1) returns two elements, and take_while the element that the block refuses. -/
theorem prefixes_too_long : enumTake abc 1 9 = some (.array [7,8]) ∧
    rangeFirst abc 1 9 = some (.array [7,8]) ∧ enumTakeWhile abc (· < 8) 9 = some (.array [7,8]) :=
  ⟨rfl,rfl,rfl⟩

end MacRuby.EnumerablePrefixes
