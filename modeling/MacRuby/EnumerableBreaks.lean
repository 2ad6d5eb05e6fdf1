import MacRuby.EnumerableIterators

/-!
# Which iterators of Enumerable a break leaves

A break leaves reverse_each, which polls in a loop of its own, and inject, whose memo is
the value of the break, when each leaves. Every other iterator loses the value of the
break unless it has nothing to pass to its block.
-/
namespace MacRuby.EnumerableBreaks
open PolledBreaks ArrayIterators ArrayBreaks BlockCalls EnumerableIterators

variable (E : Methods) {v : Value} {τ : Type}

lemma avoids_yield_pure (args : List Value) (f : Value → τ × Value) :
    Avoids v (fun _ => True) (do let u ← yield args; pure (f u) : Body (τ × Value)) :=
  fun _ => trivial

lemma avoids_rbIterBreak (r : τ) :
    Avoids v (fun _ => True) (do rbIterBreak; pure r : Body τ) := trivial

lemma avoids_rbObjsCmp (a b : Value) : Avoids v (fun _ => True) (rbObjsCmp E a b) :=
  (avoids_dispatch fun _ _ => trivial).bind fun cmp _ => avoids_rbCmpint E cmp v

lemma avoids_grepIterI (pat : Value) (ary args : List Value) :
    Avoids v (fun _ => True) (grepIterI E pat ary args) := by
  refine (avoids_dispatch fun _ _ => trivial).bind fun matched _ => ?_
  exact avoids_ite (avoids_yield_pure _ _) (avoids_pure trivial)

lemma avoids_findIndexIterI (memo : Option ℕ × ℕ) (args : List Value) :
    Avoids v (fun _ => True) (findIndexIterI memo args) :=
  (avoids_yield _ _).bind fun _ _ => avoids_ite (avoids_rbIterBreak _) (avoids_pure trivial)

lemma avoids_groupByI (hash : List (Value × List Value)) (args : List Value) :
    Avoids v (fun _ => True) (groupByI E hash args) :=
  (avoids_yield _ _).bind fun _ _ =>
    avoids_ite (avoids_dispatch fun _ _ => trivial) (avoids_pure trivial)

lemma avoids_testI (ending memo : Bool) (args : List Value) (result : Bool) :
    Avoids v (fun _ => True) (testI ending memo args result) :=
  (avoids_yield _ _).bind fun _ _ => avoids_ite (avoids_rbIterBreak _) (avoids_pure trivial)

lemma avoids_oneIterI (memo : Option Bool) (args : List Value) :
    Avoids v (fun _ => True) (oneIterI memo args) := by
  refine (avoids_yield _ _).bind fun _ _ => avoids_ite ?_ (avoids_pure trivial)
  split
  · exact avoids_pure trivial
  · exact avoids_rbIterBreak _
  · exact avoids_pure trivial

lemma avoids_minmaxII (memo : Option (Value × Value)) (args : List Value) :
    Avoids v (fun _ => True) (minmaxII E memo args) := by
  cases memo with
  | none => exact avoids_pure trivial
  | some b =>
    refine (avoids_yield _ _).bind fun _ _ => (avoids_rbCmpint E _ _).bind fun _ _ => ?_
    refine (avoids_yield _ _).bind fun _ _ => (avoids_rbCmpint E _ _).bind fun _ _ => ?_
    exact avoids_pure trivial

lemma avoids_minmaxByI (memo : Option ((Value × Value) × (Value × Value))) (args : List Value) :
    Avoids v (fun _ => True) (minmaxByI E memo args) := by
  refine (avoids_yield _ _).bind fun _ _ => ?_
  cases memo with
  | none => exact avoids_pure trivial
  | some b =>
    refine (avoids_rbObjsCmp E _ _).bind fun _ _ => (avoids_rbObjsCmp E _ _).bind fun _ _ => ?_
    exact avoids_pure trivial

lemma avoids_nextAll (next : ℕ → ℕ → Option (Option Value)) (k j : ℕ) (alive : List Bool) :
    Avoids v (fun _ => True) (nextAll next k j alive) := by
  induction alive generalizing j with
  | nil => exact avoids_pure trivial
  | cons a alive ih =>
    cases a with
    | false => exact (ih _).bind fun _ _ => avoids_pure trivial
    | true =>
      refine (avoids_dispatch fun _ _ => trivial).bind fun _ _ => ?_
      exact (ih _).bind fun _ _ => avoids_pure trivial

lemma avoids_takeWhileI (ary args : List Value) :
    Avoids v (fun _ => True) (takeWhileI ary args) :=
  (avoids_yield _ _).bind fun _ _ => avoids_ite (avoids_pure trivial) (avoids_rbIterBreak _)

lemma avoids_dropWhileI (memo : List Value × Bool) (args : List Value) :
    Avoids v (fun _ => True) (dropWhileI memo args) :=
  avoids_ite (avoids_pure trivial) (avoids_yield_pure _ _)

lemma avoids_eachSliceI (size : ℤ) (ary args : List Value) :
    Avoids v (fun _ => True) (eachSliceI size ary args) :=
  avoids_ite (avoids_yield_pure _ _) (avoids_pure trivial)

lemma avoids_eachConsI (size : ℤ) (ary args : List Value) :
    Avoids v (fun _ => True) (eachConsI size ary args) :=
  avoids_ite (avoids_yield_pure _ _) (avoids_pure trivial)

lemma avoids_qsortBy (t : Sorting) : Avoids v (fun _ => True) (qsortBy E t) := by
  induction t with
  | sorted xs => exact avoids_pure trivial
  | compare a b next ih =>
    refine Avoids.bind (P := fun _ => True) ?_ fun c _ => ih c
    unfold sortByCmp
    split
    · exact avoids_rbObjsCmp E _ _
    · trivial

lemma avoids_sortByResult (ary : List Value) :
    Avoids .false (· ≠ .false) (sortByResult E ary) := by
  refine Avoids.bind (P := fun _ => True) ?_ fun sorted _ => ?_
  · exact avoids_ite (avoids_qsortBy E _) (avoids_pure trivial)
  · exact avoids_pure fun h => by cases h

variable (m : Walk) {cb : τ → List Value → Body (τ × Value)}
variable (better : ℤ → Bool)
variable {xs : List Value} {result : τ → Body Value} {s : Arrays}

lemma avoids_enumWith (hc : ∀ t args, Avoids v (fun _ => True) (cb t args))
    (hr : ∀ t, Avoids v (· ≠ v) (result t)) (t : τ) (n : ℕ) :
    Avoids v (· ≠ v) (enumWith m cb t result n) :=
  (avoids_blockCall hc t n).bind fun r _ => hr r.1

lemma misses_enumWith {J P : τ → Prop}
    (hc : ∀ t args, J t → Misses v (fun r => P r.1) (cb t args))
    (hc₀ : ∀ t args, J t → Ends v (fun r => J r.1) (cb t args))
    (hc₁ : ∀ t args, P t → Ends v (fun r => P r.1) (cb t args))
    (hr : ∀ t, P t → Ends v (· ≠ v) (result t))
    (hr₀ : ∀ t, J t → Misses v (· ≠ v) (result t)) {t : τ} (ht : J t) (n : ℕ) :
    Misses v (· ≠ v) (enumWith m cb t result n) :=
  (misses_blockCall hc hc₀ hc₁ n t ht).bind (ends_blockCall hc₀ n t ht)
    (fun r hP => hr r.1 hP) fun r hP => hr₀ r.1 hP

lemma misses_findI (hv : rtest v=Bool.false) (memo : Option Value)
    (args : List Value) (hm : memo=none) : Misses v (fun r => r.1=none) (findI memo args) := by
  intro s r
  change (pause (if rtest v then _ else _ : Body (Option Value × Value)) s (some v)).Ends v _
  rw [hv]
  exact hm

lemma findResult_avoids (ifNone : Value) :
    ∃ v, rtest v=Bool.false ∧ Avoids v (· ≠ v) (findResult E ifNone none) := by
  by_cases hn : ifNone=.nil
  · subst hn
    exact ⟨.false,rfl,fun h => by cases h⟩
  · have hc : findResult E ifNone none=dispatch (E.call ifNone) := by
      cases ifNone with
      | nil => exact absurd rfl hn
      | _ => rfl
    rw [hc]
    by_cases hf : E.call ifNone=some .false
    · refine ⟨.nil,rfl,avoids_dispatch fun u hu hu' => ?_⟩
      rw [hf,hu'] at hu
      cases hu
    · refine ⟨.false,rfl,avoids_dispatch fun u hu hu' => ?_⟩
      rw [hu'] at hu
      exact hf hu

lemma not_left_find (ifNone : Value) (hs : ¬Silent (EnumIterator.code E m (.find ifNone)) s) :
    ∃ v, ¬Left (breaking v) (EnumIterator.code E m (.find ifNone)) s := by
  obtain ⟨v,hv,hr⟩ := findResult_avoids E ifNone
  refine ⟨v,not_left hs fun n => ?_⟩
  refine misses_enumWith m (P := fun t => t=none) (misses_findI hv)
    (fun _ _ _ _ _ => trivial) (fun _ _ _ _ _ => trivial) ?_ ?_ rfl n _ _
  · rintro _ rfl
    exact hr.ends
  · rintro _ rfl
    exact hr.misses

lemma misses_extremeII (memo : Option Value) (args : List Value) :
    Misses .nil (fun _ => False) (extremeII E better memo args) := by
  cases memo <;> exact fun _ _ => trivial

lemma misses_extreme (n : ℕ) : Misses .nil (· ≠ .nil)
      (enumWith m (extremeII E better) none (fun memo => pure (memo.getD .nil)) n) := by
  refine misses_enumWith m (J := fun _ => True) (P := fun _ => False)
    (fun t args _ => misses_extremeII E better t args) (fun t args _ => ?_)
    (fun _ _ h => h.elim) (fun _ h => h.elim) ?_ trivial n
  · cases t <;> exact fun _ _ => trivial
  · exact fun _ _ _ _ => trivial

lemma ends_extremeByI (memo : Option (Value × Value))
    (args : List Value) (P : Option (Value × Value) × Value → Prop) :
    Ends v P (extremeByI E better memo args) := fun _ _ => trivial

lemma misses_extremeBy (hv : ∀ args polls next, (m.step m.first xs).1=.pass args polls next →
      enumValuesPack args ≠ v) (n : ℕ) :
    (pause (enumWith m (extremeByI E better) none (fun memo => pure (bestOf memo)) n)
      ⟨xs,[]⟩ none).Misses v (· ≠ v) := by
  unfold enumWith rbObjcBlockCall
  rw [pause_bind,pause_bind]
  cases n with
  | zero => trivial
  | succ n =>
    rw [pause_eachLoop]
    cases hs : (m.step m.first xs).1 with
    | stop | raises | hangs => trivial
    | pass args polls next =>
      have hro : Misses v (fun r => bestOf r.1 ≠ v) (eachRound m (extremeByI E better)
          (eachLoop m (extremeByI E better) n) none (.pass args polls next)) := by
        refine misses_round (J := fun _ => False) (P := fun memo => bestOf memo ≠ v)
          ?_ (ends_extremeByI E better _ _ _) ?_ (fun _ _ h => h.elim) _ _
        · exact fun _ _ => hv args polls next hs
        · exact ends_eachLoop (fun t args _ => ends_extremeByI E better t args _) n
      have hc : (Pause.bind (fun r => dispatch (some r)) (pause (eachRound m
          (extremeByI E better) (eachLoop m (extremeByI E better) n) none
          (.pass args polls next)) ⟨(m.step m.first xs).2,[]⟩ none)).Misses v
          fun r => bestOf r.1 ≠ v :=
        (hro _ _).bind (J := fun _ => False) trivial (fun r hr _ _ => hr) fun _ h => h.elim
      exact hc.bind (J := fun _ => False) trivial (fun r hr _ _ => hr) fun _ h => h.elim

lemma not_left_extremeBy
    (hs : ¬Silent (enumWith m (extremeByI E better) none fun memo => pure (bestOf memo)) ⟨xs,[]⟩) :
    ∃ v, ¬Left (breaking v)
      (enumWith m (extremeByI E better) none fun memo => pure (bestOf memo)) ⟨xs,[]⟩ := by
  by_cases hv : ∀ args polls next, (m.step m.first xs).1=.pass args polls next →
      enumValuesPack args ≠ .true
  · exact ⟨.true,not_left hs (misses_extremeBy E m better hv)⟩
  · refine ⟨.false,not_left hs (misses_extremeBy E m better fun args polls next h => ?_)⟩
    -- the first element is true
    push Not at hv
    obtain ⟨args',polls',next',h',ht⟩ := hv
    rw [h] at h'
    cases h'
    rw [ht]
    exact fun h => by cases h

lemma ends_cycleRest (rounds : Option ℕ) (n : ℕ) (ary : List Value) :
    Ends .false (· ≠ .false) (cycleRest rounds n ary) := by
  have hn : Ends .false (· ≠ .false) (pure .nil : Body Value) := fun _ _ h => by cases h
  unfold cycleRest
  split
  · exact hn
  · next ha =>
    cases n with
    | zero => exact fun _ _ => trivial
    | succ n =>
      unfold loop
      refine Ends.bind (P := fun r => r=.inr .nil) ?_ ?_
      · split
        · exact fun _ _ => rfl
        · have hl : 0 < ary.length := List.length_pos_iff.mpr ha
          refine Ends.bind (P := fun _ => False) ?_ fun _ h => h.elim
          simp only [polledLoop,loop,if_pos hl]
          exact fun _ _ => trivial
      · rintro _ rfl
        exact hn

lemma misses_cycle (rounds : Option ℤ) (n : ℕ) :
    Misses .false (· ≠ .false) (enumCycle m rounds n) := by
  unfold enumCycle
  split
  · exact fun _ _ => trivial
  · refine misses_enumWith m (P := fun _ => True)
      (fun _ _ _ => (avoids_yield_pure _ _).misses) (fun _ _ _ _ _ => trivial)
      (fun _ _ _ => (avoids_yield_pure _ _).ends) (fun _ _ => ends_cycleRest _ n _) ?_ rfl n
    rintro _ rfl
    exact fun _ _ => trivial

lemma lost_of_avoids {c : ℕ → Body Value} (hs : ¬Silent c s)
    (h : ∀ n, Avoids v (· ≠ v) (c n)) : ∃ v, ¬Left (breaking v) c s :=
  ⟨v,not_left hs fun n => (h n).misses _ _⟩

lemma avoids_result (f : τ → Value) (hf : ∀ t, f t ≠ .false) (t : τ) :
    Avoids .false (· ≠ .false) (pure (f t) : Body Value) := hf t

lemma avoids_array (f : τ → List Value) (t : τ) :
    Avoids .false (· ≠ .false) (pure (.array (f t)) : Body Value) := fun h => by cases h

lemma findIndexResult_ne (memo : Option ℕ × ℕ) : findIndexResult memo ≠ .false := by
  unfold findIndexResult
  cases memo.1 <;> exact fun h => by cases h

lemma assoc_ne (memo : Option (Value × Value)) : assoc memo ≠ .false := by
  cases memo <;> exact fun h => by cases h

lemma avoids_truth (f : τ → Bool) (t : τ) :
    Avoids .nil (· ≠ .nil) (pure (truth (f t)) : Body Value) := by
  cases h : f t <;> exact fun h => by cases h

lemma avoids_zip (args : ZipArgs) (n : ℕ) : Avoids .false (· ≠ .false) (enumZip m args n) := by
  have hn : ∀ {τ : Type} (_ : τ), Avoids .false (· ≠ .false) (pure .nil : Body Value) :=
    fun _ h => by cases h
  cases args with
  | arrays arys => exact avoids_enumWith m (fun _ _ => avoids_yield_pure _ _) hn _ n
  | enums count next =>
    refine avoids_enumWith m (fun memo args => ?_) hn _ n
    exact (avoids_nextAll next _ _ _).bind fun _ _ => avoids_yield_pure _ _

lemma avoids_eachSlice (size : ℤ) (n : ℕ) :
    Avoids .false (· ≠ .false) (enumEachSlice m size n) := by
  refine avoids_ite trivial (avoids_enumWith m (avoids_eachSliceI size) (fun ary => ?_) _ n)
  exact avoids_ite (fun h => by cases h) ((avoids_yield _ _).bind fun _ _ h => by cases h)

lemma not_left_of_asks (it : EnumIterator) (hr : it ≠ .reverseEach)
    (hi : ∀ init, it ≠ .inject init) (hs : ¬Silent (it.code E m) ⟨xs,[]⟩) :
    ∃ v, ¬Left (breaking v) (it.code E m) ⟨xs,[]⟩ := by
  cases it with
  | grep pat =>
    exact lost_of_avoids hs (avoids_enumWith m (avoids_grepIterI E pat) (avoids_array id) _)
  | count =>
    exact lost_of_avoids hs (avoids_enumWith m (fun _ _ => avoids_yield_pure _ _)
      (avoids_result (fun k : ℕ => .fixnum k) fun _ h => by cases h) _)
  | find ifNone => exact not_left_find E m ifNone hs
  | findIndex =>
    exact lost_of_avoids hs (avoids_enumWith m avoids_findIndexIterI
      (avoids_result findIndexResult findIndexResult_ne) _)
  | findAll | reject | collect =>
    exact lost_of_avoids hs (avoids_enumWith m (fun _ _ => avoids_yield_pure _ _) (avoids_array id) _)
  | inject init => exact absurd rfl (hi init)
  | partition =>
    exact lost_of_avoids hs (avoids_enumWith m (fun _ _ => avoids_yield_pure _ _)
      (avoids_array fun ary : List Value × List Value => [.array ary.1,.array ary.2]) _)
  | groupBy =>
    exact lost_of_avoids hs (avoids_enumWith m (avoids_groupByI E)
      (avoids_result hashResult fun _ h => by cases h) _)
  | sort =>
    exact lost_of_avoids hs (avoids_enumWith m (fun _ _ => avoids_pure trivial)
      (avoids_sort E true) _)
  | sortBy =>
    exact lost_of_avoids hs (avoids_enumWith m (fun _ _ => avoids_yield_pure _ _)
      (avoids_sortByResult E) _)
  | allP | anyP | noneP =>
    exact lost_of_avoids hs (avoids_enumWith m (fun _ _ => avoids_testI _ _ _ _) (avoids_truth id) _)
  | oneP =>
    exact lost_of_avoids hs (avoids_enumWith m avoids_oneIterI
      (avoids_truth fun memo => memo.getD false) _)
  | min => exact ⟨.nil,not_left hs fun n => misses_extreme E m below n _ _⟩
  | max => exact ⟨.nil,not_left hs fun n => misses_extreme E m above n _ _⟩
  | minmax =>
    exact lost_of_avoids hs (avoids_enumWith m (avoids_minmaxII E) (avoids_result assoc assoc_ne) _)
  | minBy => exact not_left_extremeBy E m below hs
  | maxBy => exact not_left_extremeBy E m above hs
  | minmaxBy =>
    exact lost_of_avoids hs (avoids_enumWith m (avoids_minmaxByI E)
      (avoids_result (fun memo => assoc (memo.map fun b => (b.1.2,b.2.2))) fun _ => assoc_ne _) _)
  | eachWithIndex =>
    exact lost_of_avoids hs (avoids_enumWith m (fun _ _ => avoids_yield_pure _ _)
      (fun _ => avoids_receiver) _)
  | reverseEach => exact absurd rfl hr
  | zip args => exact lost_of_avoids hs (avoids_zip m args)
  | takeWhile => exact lost_of_avoids hs (avoids_enumWith m avoids_takeWhileI (avoids_array id) _)
  | dropWhile =>
    exact lost_of_avoids hs (avoids_enumWith m avoids_dropWhileI (avoids_array Prod.fst) _)
  | cycle rounds => exact ⟨.false,not_left hs fun n => misses_cycle m rounds n _ _⟩
  | eachSlice size => exact lost_of_avoids hs (avoids_eachSlice m size)
  | eachCons size =>
    refine lost_of_avoids (v := .false) hs fun n => avoids_ite trivial ?_
    exact avoids_enumWith m (avoids_eachConsI size)
      (avoids_result (fun _ => .nil) fun _ h => by cases h) _ n

end MacRuby.EnumerableBreaks
