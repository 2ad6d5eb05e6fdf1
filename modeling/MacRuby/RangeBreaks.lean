import MacRuby.RangeIterators

/-!
# Which iterators of Range a break leaves
-/
namespace MacRuby.RangeBreaks
open PolledBreaks ArrayIterators ArrayBreaks BlockCalls RangeIterators

variable {E : Methods} {R : RangeMethods} {r : Range} {τ : Type}
variable {cb : τ → List Value → Body (τ × Value)} {t : τ} {s : Arrays} {b : Value}

lemma silent_overStrings (h : ¬(rbStrUpto R b r.fin r.excl).Passes s.receiver) :
    Silent (overStrings R r cb b t) s := by
  intro n
  unfold overStrings rbObjcBlockCall
  rw [pause_bind,pause_bind]
  refine Pause.not_asks_bind (Pause.not_asks_bind (not_asks_eachLoop h n t none) fun _ => ?_) fun _ => ?_ <;>
    exact fun _ _ h => h

lemma silent_overSuccessors (h : ¬(rangeEachFunc E R r).Passes s.receiver) :
    Silent (overSuccessors E R r cb t) s := by
  intro n
  unfold overSuccessors
  rw [pause_bind]
  exact Pause.not_asks_bind (not_asks_eachLoop h n t none)
    fun _ _ _ h => h

lemma not_left_overStrings (hc : ∀ t args, Avoids .false (fun _ => True) (cb t args))
    (ha : ∀ args, Asking (cb t args)) (h : (rbStrUpto R b r.fin r.excl).Passes s.receiver) :
    ¬Left (breaking .false) (overStrings R r cb b t) s := by
  refine not_left (fun hs => hs 1 ?_) fun n => ?_
  · unfold overStrings rbObjcBlockCall
    rw [pause_bind,pause_bind]
    exact ((asks_eachLoop h ha 0 none).bind _).bind _
  · exact ((avoids_blockCall hc t n).bind fun _ _ => avoids_receiver).misses _ _

lemma not_left_overSuccessors (hc : ∀ t args, Avoids .false (fun _ => True) (cb t args))
    (ha : ∀ args, Asking (cb t args)) (h : (rangeEachFunc E R r).Passes s.receiver) :
    ¬Left (breaking .false) (overSuccessors E R r cb t) s := by
  refine not_left (fun hs => hs 1 ?_) fun n => ?_
  · unfold overSuccessors
    rw [pause_bind]
    exact (asks_eachLoop h ha 0 none).bind _
  · exact ((avoids_eachLoop hc n _ t).bind fun _ _ => avoids_receiver).misses _ _

variable {v : Value}

lemma avoids_eachI (t : Unit) (args : List Value) : Avoids v (fun _ => True) (eachI t args) :=
  (avoids_yield _ _).bind fun _ _ => avoids_pure trivial

lemma avoids_countDown (iter : Value) : Avoids v (fun _ => True) (countDown R iter) := by
  cases iter with
  | fixnum k => trivial
  | _ => exact avoids_dispatch fun _ _ => trivial

lemma avoids_stepI (step iter : Value) (args : List Value) :
    Avoids v (fun _ => True) (stepI R step iter args) := by
  refine (avoids_countDown iter).bind fun iter _ => ?_
  split
  · exact (avoids_yield _ _).bind fun _ _ => avoids_pure trivial
  · exact avoids_pure trivial

lemma asking_stepI (step : Value) (args : List Value) : Asking (stepI R step (.fixnum 1) args) :=
  (asking_yield args).bind _

variable (E) (R) (r) (xs : List Value) {step : Value}

lemma leaves_stepNumeric (step : Value) (n : ℕ) : Leaves (stepNumeric R r step n) :=
  leaves_polledLoop (fun _ => (leaves_dispatch _).bind fun _ => leaves_pure _)
    (fun _ _ => (leaves_dispatch _).bind fun _ => leaves_pure _) (fun _ => leaves_pure _) n _

lemma leaves_fixnums {act : ℤ → Value → Body (ℤ ⊕ Value)} (ha : ∀ i v, Leaves (act i v))
    (lim : ℤ) (n : ℕ) (b : ℤ) :
    Leaves (polledLoop (fun i : ℤ => pure (if i < lim then some (i,[.fixnum i]) else none)) act
      (fun _ => pure .receiver) n b : Body Value) :=
  leaves_polledLoop (fun _ => leaves_pure _) ha (fun _ => leaves_pure _) n b

lemma left_each (h : EachSafe E R r xs) (blk : Block Arrays Value) :
    Left blk (rangeEach E R r) ⟨xs,[]⟩ := by
  unfold rangeEach
  cases hr : R.respondsSucc r.beg with
  | false => exact left_of_leaves (fun _ => leaves_ends _) blk _
  | true =>
    cases hf : r.fixnums with
    | some f => exact left_of_leaves (fun n => leaves_fixnums (fun _ _ => leaves_pure _) _ n _) blk _
    | none =>
      have hs := h hf hr
      cases hst : R.isString r.beg with
      | true =>
        rw [hst] at hs
        exact left_of_silent (silent_overStrings hs) blk
      | false =>
        rw [hst] at hs
        exact left_of_silent (silent_overSuccessors hs) blk

lemma not_left_each (h : ¬EachSafe E R r xs) :
    ¬Left (breaking .false) (rangeEach E R r) ⟨xs,[]⟩ := by
  unfold EachSafe at h
  push Not at h
  obtain ⟨hf,hr,h⟩ := h
  unfold rangeEach
  rw [hr,hf]
  cases hs : R.isString r.beg with
  | true =>
    rw [hs] at h
    exact not_left_overStrings avoids_eachI (fun args => (asking_yield args).bind _) (not_not.mp h)
  | false =>
    rw [hs] at h
    exact not_left_overSuccessors avoids_eachI (fun args => (asking_yield args).bind _) (not_not.mp h)

lemma left_stepBy (h : StepSafe E R r xs step) (blk : Block Arrays Value) :
    Left blk (stepBy E R r step) ⟨xs,[]⟩ := by
  unfold stepBy
  cases hf : r.fixnumSteps step with
  | some f => exact left_of_leaves (fun n => leaves_fixnums (fun _ _ => leaves_pure _) _ n _) blk _
  | none =>
    unfold stepOther
    cases hn : R.numeric r.beg r.fin with
    | true => exact left_of_leaves (leaves_stepNumeric R r step) blk _
    | false =>
      have hs := h hf hn
      cases hst : R.checkString r.beg with
      | some b =>
        rw [hst] at hs
        exact left_of_silent (silent_overStrings hs) blk
      | none =>
        rw [hst] at hs
        cases hr : R.respondsSucc r.beg with
        | true => exact left_of_silent (silent_overSuccessors (hs hr)) blk
        | false => exact left_of_leaves (fun _ => leaves_ends _) blk _

lemma not_left_stepBy (h : ¬StepSafe E R r xs step) :
    ¬Left (breaking .false) (stepBy E R r step) ⟨xs,[]⟩ := by
  unfold StepSafe at h
  push Not at h
  obtain ⟨hf,hn,h⟩ := h
  unfold stepBy stepOther
  rw [hf,hn]
  cases hs : R.checkString r.beg with
  | some b =>
    rw [hs] at h
    exact not_left_overStrings (avoids_stepI step) (asking_stepI step) (not_not.mp h)
  | none =>
    rw [hs] at h
    obtain ⟨hr,h⟩ := Classical.not_imp.mp h
    rw [hr]
    exact not_left_overSuccessors (avoids_stepI step) (asking_stepI step) (not_not.mp h)

lemma run_rangeStep (unit : Option Value) (blk : Block Arrays Value) (n : ℕ) :
    run blk (rangeStep E R r unit n) (start ⟨xs,[]⟩) = run blk (match stepOf R unit with
        | some step => stepBy E R r step n
        | none => raise) (start ⟨xs,[]⟩) := by
  unfold rangeStep
  cases stepOf R unit <;> rfl

lemma left_of_safe (it : RangeIterator) (h : it.Safe E R r xs) (blk : Block Arrays Value) :
    Left blk (it.code E R r) ⟨xs,[]⟩ := by
  cases it with
  | each => exact left_each E R r xs h blk
  | step unit =>
    refine left_congr (run_rangeStep E R r xs unit blk) ?_
    cases hs : stepOf R unit with
    | some step => exact left_stepBy E R r xs (h step hs) blk
    | none => exact left_of_leaves (fun _ => leaves_ends _) blk _

lemma not_left_of_not_safe (it : RangeIterator) (h : ¬it.Safe E R r xs) :
    ¬Left (breaking .false) (it.code E R r) ⟨xs,[]⟩ := by
  cases it with
  | each => exact not_left_each E R r xs h
  | step unit =>
    obtain ⟨step,hs⟩ := not_forall.mp h
    obtain ⟨hs,hlo⟩ := Classical.not_imp.mp hs
    intro hl
    refine not_left_stepBy E R r xs hlo (left_congr (fun n => ?_) hl)
    have hr := run_rangeStep E R r xs unit (breaking .false) n
    rw [hs] at hr
    exact hr.symm

end MacRuby.RangeBreaks
