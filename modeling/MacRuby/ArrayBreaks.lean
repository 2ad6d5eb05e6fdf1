import Mathlib.Data.Finset.Card
import MacRuby.ArrayIterators

/-!
# Which iterators of Array a break leaves
-/
namespace MacRuby.ArrayBreaks
open PolledBreaks ArrayIterators Finset

/-- The methods of Array that take a block, with their arguments. -/
inductive ArrayIterator where
  | new (len : ℤ)
  | fetch (pos : ℤ)
  | index
  | rindex
  | each
  | eachIndex
  | reverseEach
  | sort
  | sortBang
  | collect
  | collectBang
  | select
  | delete (item : Value)
  | rejectBang
  | reject
  | deleteIf
  | zip (args : List (List Value))
  | fill (args : FillArgs)
  | count
  | cycle (rounds : Option ℤ)
  | permutation (num : Option ℤ)
  | combination (num : ℤ)
  | takeWhile
  | dropWhile

def ArrayIterator.code (E : Methods) : ArrayIterator → ℕ → Body Value
  | .new len,n => rbClassNewInstance E len n
  | .fetch pos,_ => rbAryFetch pos
  | .index,n => rbAryIndex n
  | .rindex,n => rbAryRindex n
  | .each,n => rbAryEach n
  | .eachIndex,n => rbAryEachIndex n
  | .reverseEach,n => rbAryReverseEach n
  | .sort,_ => rbArySort E
  | .sortBang,_ => rbArySortBang E
  | .collect,n => rbAryCollect n
  | .collectBang,n => rbAryCollectBang n
  | .select,n => rbArySelect n
  | .delete item,_ => rbAryDelete E item
  | .rejectBang,n => rbAryRejectBang .receiver n
  | .reject,n => rbAryReject n
  | .deleteIf,n => rbAryDeleteIf n
  | .zip args,n => rbAryZip args n
  | .fill args,n => rbAryFill args n
  | .count,n => rbAryCount n
  | .cycle rounds,n => rbAryCycle rounds n
  | .permutation num,n => rbAryPermutation num n
  | .combination num,n => rbAryCombination num n
  | .takeWhile,n => rbAryTakeWhile n
  | .dropWhile,n => rbAryDropWhile n

/-- The iterators that lose a break lose it unless they have nothing to pass to the block. -/
def ArrayIterator.Safe (xs : List Value) : ArrayIterator → Prop
  | .new len => len ≤ 0 ∨ 2^60 ≤ len
  | .sort => xs.length ≤ 1
  | .sortBang => xs.length ≤ 1
  | .reject => xs=[]
  | .deleteIf => xs=[]
  | .permutation num =>
    let r := num.getD xs.length
    r < 0 ∨ r=1 ∨ (xs.length : ℤ) < r
  | .combination num => num ≠ 0
  | _ => True

variable (n : ℕ)

lemma leaves_arrayLen {β : Type} {f : ℕ → Body β} (hf : ∀ len, Leaves (f len)) :
    Leaves (arrayLen >>= f) := (leaves_read _).bind hf

lemma returns_fetch (pos : ℤ) : Returns (rbAryFetch pos) :=
  (leaves_read _).bind_returns fun _ => returns_ite (returns_yield _) (leaves_read _).returns

lemma leaves_index : Leaves (rbAryIndex n) := by
  refine leaves_arrayLen fun len => ?_
  refine leaves_polledLoop (fun _ => leaves_read _) (fun i v => ?_) (fun _ => leaves_pure _) n 0
  exact leaves_ite (leaves_ends _) (leaves_pure _)

lemma leaves_rindex : Leaves (rbAryRindex n) := by
  refine leaves_arrayLen fun len => ?_
  refine leaves_polledLoop (fun _ => leaves_read _) (fun i v => ?_) (fun _ => leaves_pure _) n len
  exact leaves_ite (leaves_ends _) (leaves_pure _)

lemma leaves_each : Leaves (rbAryEach n) :=
  leaves_polledLoop (fun _ => leaves_read _) (fun _ _ => leaves_pure _) (fun _ => leaves_pure _) n 0

lemma leaves_eachIndex : Leaves (rbAryEachIndex n) :=
  leaves_arrayLen fun _ => leaves_polledLoop (fun _ => leaves_pure _)
    (fun _ _ => leaves_pure _) (fun _ => leaves_pure _) n 0

lemma leaves_reverseEach : Leaves (rbAryReverseEach n) := by
  refine leaves_arrayLen fun len => ?_
  refine leaves_polledLoop (fun _ => leaves_read _) (fun i v => ?_) (fun _ => leaves_pure _) n len
  exact leaves_arrayLen fun _ => leaves_pure _

lemma leaves_collect : Leaves (rbAryCollect n) :=
  leaves_polledLoop (fun _ => (leaves_read _).bind leaves_pure)
    (fun _ _ => leaves_pure _) (fun _ => leaves_pure _) n (0,[])

lemma leaves_collectBang : Leaves (rbAryCollectBang n) :=
  leaves_polledLoop (fun _ => leaves_read _)
    (fun _ _ => (leaves_write _).bind fun _ => leaves_pure _) (fun _ => leaves_pure _) n 0

lemma leaves_select : Leaves (rbArySelect n) :=
  leaves_arrayLen fun _ => leaves_polledLoop
    (fun _ => (leaves_read _).bind leaves_pure) (fun _ _ => leaves_pure _)
    (fun _ => leaves_pure _) n (0,[])

lemma returns_delete (E : Methods) (item : Value) : Returns (rbAryDelete E item) := by
  refine (leaves_read _).bind_returns fun xs => (leaves_dispatch _).bind_returns fun ys => ?_
  refine (leaves_write _).bind_returns fun _ => ?_
  exact returns_ite (returns_yield _) (leaves_pure _).returns

lemma leaves_rejectBang (a : Which) : Leaves (rbAryRejectBang a n) := by
  refine (leaves_read _).bind fun orign => ?_
  refine leaves_polledLoop (fun _ => leaves_read _) (fun t v => ?_) (fun t => ?_) n (0,orign)
  · exact leaves_ite ((leaves_write _).bind fun _ => leaves_pure _) (leaves_pure _)
  · refine leaves_ite (leaves_pure _) ?_
    cases a with
    | receiver => exact leaves_pure _
    | copy => exact leaves_read _

lemma leaves_zip (args : List (List Value)) : Leaves (rbAryZip args n) :=
  leaves_polledLoop (fun _ => leaves_read _) (fun _ _ => leaves_pure _) (fun _ => leaves_pure _) n 0

lemma leaves_fill (args : FillArgs) : Leaves (rbAryFill args n) := by
  refine leaves_arrayLen fun len => ?_
  cases fillSpan len args with
  | none => exact leaves_ends _
  | some span =>
    refine leaves_ite (leaves_pure _) (leaves_ite (leaves_ends _) ?_)
    exact leaves_polledLoop (fun _ => leaves_pure _)
      (fun _ _ => (leaves_write _).bind fun _ => leaves_pure _) (fun _ => leaves_pure _) n _

lemma leaves_count : Leaves (rbAryCount n) :=
  leaves_arrayLen fun _ => leaves_polledLoop
    (fun _ => (leaves_read _).bind leaves_pure) (fun _ _ => leaves_pure _)
    (fun _ => leaves_pure _) n (0,0)

lemma leaves_cycle (rounds : Option ℤ) : Leaves (rbAryCycle rounds n) := by
  refine leaves_loop (fun left => leaves_arrayLen fun len => ?_) n _
  refine leaves_ite ?_ (leaves_pure _)
  refine (leaves_polledLoop (fun _ => leaves_read _) (fun _ _ => leaves_pure _)
    (fun _ => leaves_pure _) n 0).bind fun _ => leaves_pure _

lemma leaves_singletons (len : ℕ) : Leaves (singletons len n) :=
  leaves_polledLoop (fun _ => leaves_read _) (fun _ _ => leaves_pure _) (fun _ => leaves_pure _) n 0

lemma leaves_combination {num : ℤ} (hn : num ≠ 0) : Leaves (rbAryCombination num n) := by
  refine leaves_arrayLen fun len => ?_
  unfold combinationsOf
  rw [if_neg hn]
  refine leaves_ite (leaves_pure _) ?_
  refine leaves_ite (leaves_singletons n len) ?_
  cases combiLen len num with
  | none => exact leaves_ends _
  | some nlen =>
    exact leaves_polledLoop (fun _ => leaves_read _) (fun _ _ => leaves_pure _)
      (fun _ => leaves_pure _) n _

lemma leaves_whileTrue (result : ℕ → List Value → List Value) : Leaves (whileTrue result n) := by
  refine leaves_polledLoop (fun _ => leaves_read _) (fun i v => ?_) (fun _ => leaves_read _) n 0
  exact leaves_ite (leaves_pure _) ((leaves_read _).bind fun _ => leaves_pure _)

lemma leaves_permutations {len : ℕ} {r : ℤ} (h : r < 0 ∨ r=1 ∨ (len : ℤ) < r) :
    Leaves (permutations len r n) := by
  by_cases hr : r < 0 ∨ (len : ℤ) < r
  · unfold permutations
    rw [if_pos hr]
    exact leaves_pure _
  · have ho : r=1 := by omega
    unfold permutations
    rw [if_neg hr,if_neg (by omega),if_pos ho]
    exact leaves_singletons n len

variable (E : Methods)

lemma silent_new {len : ℤ} (h : len ≤ 0 ∨ 2^60 ≤ len) (s : Arrays) :
    Silent (rbClassNewInstance E len) s := by
  intro n
  by_cases hl : len < 0 ∨ 2^60 ≤ len
  · unfold rbClassNewInstance rbAryInitialize
    rw [if_pos hl]
    exact not_false
  · obtain rfl : len=0 := by omega
    cases n <;> exact not_false

lemma silent_reject : Silent rbAryReject ⟨[],[]⟩ := by
  intro n
  cases n <;> exact not_false

lemma silent_deleteIf : Silent rbAryDeleteIf ⟨[],[]⟩ := by
  intro n
  cases n <;> exact not_false

lemma silent_sort {xs : List Value} (h : xs.length ≤ 1) (isDup : Bool) (s : Arrays) :
    Silent (fun _ => rbArySortBang1 E isDup xs) s := by
  intro n
  unfold rbArySortBang1
  rw [if_neg (not_lt.mpr h)]
  exact not_false

variable (xs : List Value) (blk : Block Arrays Value)

lemma left_of_safe (it : ArrayIterator) (h : it.Safe xs) : Left blk (it.code E) ⟨xs,[]⟩ := by
  cases it with
  | new len => exact left_of_silent (silent_new E h _) blk
  | fetch pos => exact left_of_returns (fun _ => returns_fetch pos) blk _
  | index => exact left_of_leaves leaves_index blk _
  | rindex => exact left_of_leaves leaves_rindex blk _
  | each => exact left_of_leaves leaves_each blk _
  | eachIndex => exact left_of_leaves leaves_eachIndex blk _
  | reverseEach => exact left_of_leaves leaves_reverseEach blk _
  | sort => exact left_congr (fun _ => rfl) (left_of_silent (silent_sort E h true _) blk)
  | sortBang => exact left_congr (fun _ => rfl) (left_of_silent (silent_sort E h false _) blk)
  | collect => exact left_of_leaves leaves_collect blk _
  | collectBang => exact left_of_leaves leaves_collectBang blk _
  | select => exact left_of_leaves leaves_select blk _
  | delete item => exact left_of_returns (fun _ => returns_delete E item) blk _
  | rejectBang => exact left_of_leaves (fun n => leaves_rejectBang n .receiver) blk _
  | reject =>
    cases h
    exact left_of_silent silent_reject blk
  | deleteIf =>
    cases h
    exact left_of_silent silent_deleteIf blk
  | zip args => exact left_of_leaves (fun n => leaves_zip n args) blk _
  | fill args => exact left_of_leaves (fun n => leaves_fill n args) blk _
  | count => exact left_of_leaves leaves_count blk _
  | cycle rounds => exact left_of_leaves (fun n => leaves_cycle n rounds) blk _
  | permutation num =>
    exact left_congr (fun _ => rfl) (left_of_leaves (fun n => leaves_permutations n h) blk _)
  | combination num => exact left_of_leaves (fun n => leaves_combination n h) blk _
  | takeWhile => exact left_of_leaves (fun n => leaves_whileTrue n List.take) blk _
  | dropWhile => exact left_of_leaves (fun n => leaves_whileTrue n List.drop) blk _

variable {xs} {len : ℕ} {r : ℤ}

lemma avoids_receiver : Avoids .false (· ≠ .false) (pure .receiver : Body Value) :=
  fun h => by cases h

lemma avoids_new (len : ℤ) (n : ℕ) : Avoids .false (· ≠ .false) (rbClassNewInstance E len n) := by
  refine (avoids_function _ _).bind fun initObj _ => ?_
  refine (avoids_dispatch fun _ _ => trivial).bind fun _ _ => ?_
  cases initObj with
  | object id =>
    split <;> exact fun h => by cases h
  | _ => exact fun h => by cases h

lemma not_left_new {len : ℤ} (h : ¬(len ≤ 0 ∨ 2^60 ≤ len)) (s : Arrays) :
    ¬Left (breaking .false) (rbClassNewInstance E len) s := by
  refine not_left (fun hs => hs 1 ?_) fun n => (avoids_new E len n).misses _ _
  have hc : ((0 : ℕ)) < len := by omega
  unfold rbClassNewInstance rbAryInitialize
  rw [if_neg (by omega),pause_bind]
  refine Pause.Asks.bind ?_ _
  simp only [polledLoop,loop,if_pos hc]
  trivial

lemma avoids_rbCmpint (v w : Value) : Avoids w (fun _ => True) (rbCmpint E v) :=
  avoids_ite (avoids_answer fun _ _ => trivial) (avoids_answer fun _ _ => trivial)

lemma avoids_sort1 (dummy a b : Value) : Avoids .false (fun _ => True) (sort1 E dummy a b) := by
  unfold sort1
  split
  · refine (avoids_yield _ _).bind fun retval _ => (avoids_popBroken _).bind fun v _ => ?_
    cases v with
    | none => exact (avoids_rbCmpint E retval _).bind fun _ _ => avoids_pure trivial
    | some v => exact avoids_pure trivial
  · exact avoids_pure trivial

lemma avoids_qsortR (t : Sorting) (dummy : Value) :
    Avoids .false (fun _ => True) (qsortR E t dummy) := by
  induction t generalizing dummy with
  | sorted xs => trivial
  | compare a b next ih => exact (avoids_sort1 E dummy a b).bind fun r _ => ih r.2 r.1

lemma avoids_sortResult (isDup : Bool) (breakVal : Value) (tmp : List Value) :
    Avoids .false (· ≠ .false) (sortResult isDup breakVal tmp) := by
  unfold sortResult
  split
  · cases isDup <;> exact fun h => by cases h
  · next h => exact h

lemma avoids_sort (isDup : Bool) (xs : List Value) :
    Avoids .false (· ≠ .false) (rbArySortBang1 E isDup xs) := by
  refine avoids_ite ?_ ?_
  · exact (avoids_qsortR E _ _).bind fun r _ => avoids_sortResult isDup r.1 r.2
  · cases isDup <;> exact fun h => by cases h

lemma asking_sort (h : 1 < xs.length) (isDup : Bool) : Asking (rbArySortBang1 E isDup xs) := by
  obtain ⟨a,b,next,hq⟩ := E.qsort_compares xs h
  unfold rbArySortBang1
  rw [if_pos h,hq]
  refine Asking.bind ?_ _
  refine Asking.bind ?_ _
  exact (asking_yield _).bind _

/-- A break with false is not seen: the word that it is stored in says that there was none. -/
lemma not_left_sort (h : 1 < xs.length) (isDup : Bool) (s : Arrays) :
    ¬Left (breaking .false) (fun _ => rbArySortBang1 E isDup xs) s :=
  not_left (fun hs => hs 0 (asking_sort E h isDup s none)) fun _ => (avoids_sort E isDup xs).misses _ _

lemma not_left_reject (x : Value) (xs : List Value) :
    ¬Left (breaking .false) rbAryReject ⟨x::xs,[]⟩ := by
  refine not_left (fun hs => hs 1 trivial) fun n => Avoids.misses ?_ _ _
  refine (avoids_write _ _).bind fun _ _ => (avoids_function _ _).bind fun _ _ => ?_
  exact avoids_read fun s h => by cases h

lemma not_left_deleteIf (x : Value) (xs : List Value) :
    ¬Left (breaking .false) rbAryDeleteIf ⟨x::xs,[]⟩ :=
  not_left (fun hs => hs 1 trivial) fun _ => ((avoids_function _ _).bind
    fun _ _ => avoids_receiver).misses _ _

section Permutations
variable (len : ℕ) (values : List Value)

def unused (used : ℕ → Bool) : Finset ℕ := (Finset.range len).filter fun i => used i=Bool.false

lemma unused_update (used : ℕ → Bool) (i : ℕ) :
    unused len (Function.update used i Bool.true)=(unused len used).erase i := by
  ext j
  by_cases hj : j=i
  · subst hj
    simp [unused]
  · simp [unused,hj]

lemma asking_unused {used : ℕ → Bool} {f : ℕ → Body Unit} (hn : (unused len used).Nonempty)
    (hf : ∀ i ∈ unused len used, Asking (f i)) :
    Asking (forEach (fun i => if used i then pure () else f i) (List.range len)) := by
  refine asking_forEach (fun i hi => ?_) ?_
  · cases hu : used i with
    | true => exact .inl rfl
    | false =>
      refine .inr (hf i (mem_filter.mpr ⟨?_,hu⟩))
      exact mem_range.mpr (mem_range.mp hi)
  · obtain ⟨i,hi⟩ := hn
    obtain ⟨hl,hus⟩ := mem_filter.mp hi
    refine ⟨i,mem_range.mpr (mem_range.mp hl),?_⟩
    rw [hus]
    exact hf i hi

lemma avoids_permute0 (d : ℕ) (p : List ℕ) (used : ℕ → Bool) :
    Avoids .false (fun _ => True) (permute0 len values d p used) := by
  induction d generalizing p used with
  | zero =>
    refine avoids_forEach (fun i => avoids_ite (avoids_pure trivial) ?_) _
    exact (avoids_yield _ _).bind fun _ _ => avoids_pure trivial
  | succ d ih => exact avoids_forEach (fun i => avoids_ite (avoids_pure trivial) (ih _ _)) _

lemma asking_permute0 (d : ℕ) (p : List ℕ) (used : ℕ → Bool) (h : d < (unused len used).card) :
    Asking (permute0 len values d p used) := by
  have hn : (unused len used).Nonempty := card_pos.mp (Nat.zero_lt_of_lt h)
  induction d generalizing p used with
  | zero => exact asking_unused len hn fun i _ => (asking_yield _).bind _
  | succ d ih =>
    refine asking_unused len hn fun i hi => ?_
    have hc : d < (unused len (Function.update used i true)).card := by
      rw [unused_update,card_erase_of_mem hi]
      omega
    exact ih _ _ hc (card_pos.mp (Nat.zero_lt_of_lt hc))

end Permutations

lemma asking_permutations (h : r=0 ∨ 1 < r ∧ r ≤ len) (n : ℕ) :
    Asking (permutations len r n) := by
  have hi : ¬(r < 0 ∨ (len : ℤ) < r) := by omega
  unfold permutations
  rw [if_neg hi]
  by_cases hr : r=0
  · rw [if_pos hr]
    exact (asking_yield _).bind _
  · rw [if_neg hr,if_neg (by omega)]
    have hc : (r-1).toNat < (unused len fun _ => false).card := by
      rw [unused,filter_true_of_mem fun _ _ => rfl,card_range]
      omega
    exact fun s r => (asking_permute0 len s.receiver _ [] _ hc).bind _ s r

lemma avoids_permutations (h : r ≠ 1) (n : ℕ) :
    Avoids .false (· ≠ .false) (permutations len r n) := by
  unfold permutations
  rw [if_neg h]
  refine avoids_ite avoids_receiver (avoids_ite ?_ ?_)
  · exact (avoids_yield _ _).bind fun _ _ => avoids_receiver
  · exact fun s => (avoids_permute0 len s.receiver _ _ _).bind fun _ _ => avoids_receiver

lemma not_left_permutation {num : Option ℤ} (h : ¬(ArrayIterator.permutation num).Safe xs) :
    ¬Left (breaking .false) (rbAryPermutation num) ⟨xs,[]⟩ := by
  have hr : ¬(num.getD xs.length < 0 ∨ num.getD xs.length=1 ∨
      xs.length < num.getD xs.length) := h
  have ha : num.getD xs.length=0 ∨ 1 < num.getD xs.length ∧ num.getD xs.length ≤ xs.length := by
    omega
  have ho : num.getD xs.length ≠ 1 := by omega
  exact not_left (fun hs => hs 0 (asking_permutations ha 0 ⟨xs,[]⟩ none))
    fun n => (avoids_permutations ho n).misses ⟨xs,[]⟩ none

lemma not_left_combination (xs : List Value) :
    ¬Left (breaking .false) (rbAryCombination 0) ⟨xs,[]⟩ := by
  refine not_left (fun hs => hs 0 ?_) fun n => ?_
  · trivial
  · exact fun h => by cases h

lemma not_left_of_not_safe (it : ArrayIterator) (h : ¬it.Safe xs) :
    ¬Left (breaking .false) (it.code E) ⟨xs,[]⟩ := by
  cases it with
  | new len => exact not_left_new E h _
  | sort =>
    intro hl
    exact not_left_sort E (Nat.lt_of_not_le h) true _ (left_congr (fun _ => rfl) hl)
  | sortBang =>
    intro hl
    exact not_left_sort E (Nat.lt_of_not_le h) false _ (left_congr (fun _ => rfl) hl)
  | reject =>
    cases xs with
    | nil => exact absurd rfl h
    | cons x xs => exact not_left_reject x xs
  | deleteIf =>
    cases xs with
    | nil => exact absurd rfl h
    | cons x xs => exact not_left_deleteIf x xs
  | permutation num => exact not_left_permutation h
  | combination num =>
    obtain rfl : num=0 := not_not.mp h
    exact not_left_combination xs
  | _ => exact absurd trivial h

end MacRuby.ArrayBreaks
