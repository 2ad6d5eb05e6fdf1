import MacRuby.InjectBreaks

/-!
# A break leaves the call it belongs to

All iterators of Array, Range and Enumerable in one place. The receiver of a method of
Enumerable is given by the walk that its each makes; Array#each and Range#each are such
walks.
-/
namespace MacRuby.IteratorBreaks
open PolledBreaks ArrayIterators ArrayBreaks BlockCalls RangeIterators EnumerableIterators

/-- A call of an iterator: the method, and the receiver as far as it is not an array. -/
inductive Call where
  | array (it : ArrayIterator)
  | range (it : RangeIterator) (r : Range)
  | enumerable (it : EnumIterator) (m : Walk)

/-- What a method returns that passes everything on to its own block. -/
def eachResult (r : Unit × Option Value) : Body Value :=
  match r.2 with
  | some v => returns v
  | none => pure .receiver

lemma run_walk (m : Walk) (item : m.Pos → List Value → Option (List Value))
    (next : m.Pos → m.Pos) (hs : ∀ p xs, m.step p xs=(match item p xs with
      | some args => .pass args Bool.true fun _ => next p
      | none => .stop,xs))
    {more : m.Pos → Body (Option (m.Pos × List Value))} (blk : Block Arrays Value)
    (hm : ∀ p w, run blk (more p) w=(.ok ((item p w.data.receiver).map fun a => (p,a)),w))
    (n : ℕ) (p : m.Pos) (w : World Arrays Value) :
    run blk (polledLoop more (fun p _ => pure (.inl (next p))) (fun _ => pure .receiver) n p) w =
      run blk (eachLoop m eachI n p () >>= eachResult) w := by
  induction n generalizing p w with
  | zero => rfl
  | succ n ih =>
    rw [run_bind,InjectBreaks.run_eachLoop,hs]
    change run blk (_ >>= _) w=_
    rw [run_bind,run_bind,hm]
    cases item p w.data.receiver with
    | none => rfl
    | some args =>
      change follow blk _ (run blk (.ask args _) w)=follow blk _ (run blk (.ask args _) w)
      simp only [run]
      cases invoke blk args w with
      | mk o w' =>
        cases o with
        | none => rfl
        | some v =>
          obtain ⟨d,broken,h⟩ := w'
          cases broken with
          | some u => rfl
          | none =>
            have hn := ih (next p) ⟨d,none,h⟩
            rw [run_bind] at hn
            exact hn

lemma run_rbAryEach (blk : Block Arrays Value) (n : ℕ) (w : World Arrays Value) :
    run blk (rbAryEach n) w=run blk (eachLoop arrayWalk eachI n arrayWalk.first () >>= eachResult) w := by
  refine run_walk arrayWalk (fun (i : ℕ) xs => if i < xs.length then some [xs.getD i .nil] else none)
    (fun i : ℕ => i+1) ?_ blk ?_ n _ w
  · intro (i : ℕ) xs
    simp only [arrayWalk]
    split <;> rfl
  · intro (i : ℕ) w
    simp only [element,PolledBreaks.read,run]
    split <;> rfl

lemma run_eachFixnum (blk : Block Arrays Value) (b lim : ℤ) (n : ℕ) (w : World Arrays Value) :
    run blk (eachFixnum b lim n) w =
      run blk (eachLoop (fixnumWalk b lim) eachI n (fixnumWalk b lim).first () >>= eachResult) w := by
  refine run_walk (fixnumWalk b lim) (fun (i : ℤ) _ => if i < lim then some [.fixnum i] else none)
    (fun i : ℤ => i+1) ?_ blk ?_ n _ w
  · intro (i : ℤ) xs
    simp only [fixnumWalk]
    split <;> rfl
  · intro (i : ℤ) w
    split <;> rfl

variable (E : Methods) (R : RangeMethods) {m : Walk} {xs : List Value}

def Call.code : Call → ℕ → Body Value
  | .array it,n => it.code E n
  | .range it r,n => it.code E R r n
  | .enumerable it m,n => it.code E m n

/-- For Enumerable a break reaches the caller of reverse_each, of inject where each leaves,
and of the iterators that have nothing to pass to the block. -/
def EnumSafe (m : Walk) (xs : List Value) : EnumIterator → Prop
  | .reverseEach => True
  | .inject init => ¬InjectBreaks.Loses m init.isSome m.first xs
  | it => Silent (it.code E m) (⟨xs,[]⟩ : Arrays)

def Call.Safe (xs : List Value) : Call → Prop
  | .array it => it.Safe xs
  | .range it r => it.Safe E R r xs
  | .enumerable it m => EnumSafe E m xs it

/-- Whatever the block does, a break in it leaves the call, which returns its value. -/
def BreakLeaves (c : Call) (xs : List Value) : Prop :=
  ∀ b : Block (List Value) Value, Left (onReceiver b) (c.code E R) ⟨xs,[]⟩

lemma leaves_reverseEach (m : Walk) (n : ℕ) : Leaves (EnumIterator.code E m .reverseEach n) := by
  refine (leaves_blockCall (fun _ _ => leaves_pure _) _ n).bind fun r => ?_
  exact leaves_polledLoop (fun _ => leaves_pure _) (fun _ _ => leaves_pure _)
    (fun _ => leaves_pure _) n _

lemma enumSafe_eq_silent {it : EnumIterator}
    (hr : it ≠ .reverseEach) (hi : ∀ init, it ≠ .inject init) :
    EnumSafe E m xs it=Silent (it.code E m) (⟨xs,[]⟩ : Arrays) := by
  cases it with
  | reverseEach => exact absurd rfl hr
  | inject init => exact absurd rfl (hi init)
  | _ => rfl

lemma enum_left (it : EnumIterator) (h : EnumSafe E m xs it)
    (blk : Block Arrays Value) : Left blk (it.code E m) ⟨xs,[]⟩ := by
  by_cases hr : it=.reverseEach
  · subst hr
    exact left_of_leaves (leaves_reverseEach E m) blk _
  · by_cases hi : ∃ init, it=.inject init
    · obtain ⟨init,rfl⟩ := hi
      exact InjectBreaks.left_inject blk E h
    · rw [enumSafe_eq_silent E hr (not_exists.mp hi)] at h
      exact left_of_silent h blk

lemma enum_not_left (it : EnumIterator) (h : ¬EnumSafe E m xs it) :
    ∃ b, ¬Left (onReceiver b) (it.code E m) ⟨xs,[]⟩ := by
  by_cases hr : it=.reverseEach
  · subst hr
    exact absurd trivial h
  · by_cases hi : ∃ init, it=.inject init
    · obtain ⟨init,rfl⟩ := hi
      exact InjectBreaks.not_left_inject E (not_not.mp h)
    · rw [enumSafe_eq_silent E hr (not_exists.mp hi)] at h
      obtain ⟨v,hv⟩ := EnumerableBreaks.not_left_of_asks E m it hr (not_exists.mp hi) h
      exact ⟨breaking v,hv⟩

/-- A break leaves the call it belongs to exactly if the iterator polls for it, or if the
iterator has nothing to pass to the block. -/
theorem breakLeaves_iff_safe (c : Call) (xs : List Value) :
    BreakLeaves E R c xs ↔ c.Safe E R xs := by
  cases c with
  | array it =>
    refine ⟨fun h => ?_,fun h b => ArrayBreaks.left_of_safe E xs (onReceiver b) it h⟩
    by_contra hs
    exact ArrayBreaks.not_left_of_not_safe E it hs (h (breaking .false))
  | range it r =>
    refine ⟨fun h => ?_,fun h b => RangeBreaks.left_of_safe E R r xs it h (onReceiver b)⟩
    by_contra hs
    exact RangeBreaks.not_left_of_not_safe E R r xs it hs (h (breaking .false))
  | enumerable it m =>
    refine ⟨fun h => ?_,fun h b => enum_left E it h (onReceiver b)⟩
    by_contra hs
    obtain ⟨b,hb⟩ := enum_not_left E it hs
    exact hb (h b)

/-- The block of `[1,2,3].permutation(2) { break 5 }` is invoked six times, and the call
returns the array. -/
theorem permutation_goes_on : (run (breaking (.fixnum 5)) (rbAryPermutation (some 2) 0)
        (start ⟨[.fixnum 1,.fixnum 2,.fixnum 3],[]⟩)).1 = .ok .receiver ∧
      (run (breaking (.fixnum 5)) (rbAryPermutation (some 2) 0)
        (start ⟨[.fixnum 1,.fixnum 2,.fixnum 3],[]⟩)).2.history =
        List.replicate 6 (.brk (.fixnum 5)) := by
  exact ⟨rfl,rfl⟩

end MacRuby.IteratorBreaks
