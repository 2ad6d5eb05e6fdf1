import MacRuby.EnumerableBreaks

/-!
# A break in the block of inject

The memo of inject is what the block returned last, so the value of a break is the
result as soon as each leaves. It is lost when each does not read the register after the
invocation that broke and does not stop of its own accord either.
-/
namespace MacRuby.InjectBreaks
open PolledBreaks ArrayIterators BlockCalls EnumerableIterators

/-- A break can get lost in a walk from this position, with or without a memo: the block
may change the data as it likes, but before there is a memo it is not invoked. -/
inductive Loses (m : Walk) : Bool → m.Pos → List Value → Prop where
  | here {p : m.Pos} {xs xs' : List Value} {args : List Value} {next : Value → m.Pos}
      (hpass : (m.step p xs).1=.pass args Bool.false next)
      (hon : (m.step (next .nil) xs').1 ≠ .stop) : Loses m Bool.true p xs
  | first {p : m.Pos} {xs : List Value} {args : List Value} {polls : Bool}
      {next : Value → m.Pos} (hpass : (m.step p xs).1=.pass args polls next)
      (hrest : Loses m Bool.true (next .nil) (m.step p xs).2) : Loses m Bool.false p xs
  | later {p : m.Pos} {xs xs' : List Value} {args : List Value} {polls : Bool}
      {next : Value → m.Pos} (hpass : (m.step p xs).1=.pass args polls next)
      (hrest : Loses m Bool.true (next .nil) xs') : Loses m Bool.true p xs

variable {m : Walk} (blk : Block Arrays Value) (n : ℕ) (p : m.Pos) (w : World Arrays Value)
variable {polls : Bool} {next : Value → m.Pos} {args : List Value}

lemma run_eachLoop {τ : Type} {cb : τ → List Value → Body (τ × Value)} (t : τ) :
    run blk (eachLoop m cb (n+1) p t) w =
      run blk (eachRound m cb (eachLoop m cb n) t (m.step p w.data.receiver).1)
        {w with data := {w.data with receiver := (m.step p w.data.receiver).2}} := rfl

lemma run_first (hp : (m.step p w.data.receiver).1=.pass args polls next) (hw : w.broken=none) :
    run blk (eachLoop m injectI (n+1) p none) w =
      run blk (eachLoop m injectI n (next .nil) (some (enumValuesPack args)))
        {w with data := {w.data with receiver := (m.step p w.data.receiver).2}} := by
  rw [run_eachLoop,hp]
  obtain ⟨d,b,h⟩ := w
  cases hw
  cases polls <;> rfl

/-- The walk after an invocation of the block that has left this world. -/
def afterBlock (polls : Bool) (next : Value → m.Pos) (v : Value) : Body (Option Value × Option Value) := do
  match ← seen polls with
  | some u => pure (some v,some u)
  | none => eachLoop m injectI n (next .nil) (some v)

lemma run_later (hp : (m.step p w.data.receiver).1=.pass args polls next) (a : Value) :
    run blk (eachLoop m injectI (n+1) p (some a)) w =
      follow blk (afterBlock n polls next) (run blk (yield [a,enumValuesPack args])
        {w with data := {w.data with receiver := (m.step p w.data.receiver).2}}) := by
  rw [run_eachLoop,hp,← run_bind]
  rfl

lemma run_afterBlock (v : Value) (hw : w.broken=none) :
    run blk (afterBlock n polls next v) w=run blk (eachLoop m injectI n (next .nil) (some v)) w := by
  obtain ⟨d,b,h⟩ := w
  cases hw
  cases polls <;> rfl

variable {p w n}

/-- A walk in which nothing was broken, or which has the value of the break as its memo
when it is given time to stop. -/
def Memorised (n : ℕ) (p : m.Pos) (t : Option Value) (w : World Arrays Value) : Prop :=
  Kept (run blk (eachLoop m injectI n p t) w).2 ∨
    ∃ v, BrokeWith v (run blk (eachLoop m injectI n p t) w).2 ∧
      (run blk (eachLoop m injectI (n+1) p t) w).2.history =
        (run blk (eachLoop m injectI n p t) w).2.history ∧
      ∃ u, (run blk (eachLoop m injectI (n+1) p t) w).1=.ok (some v,u)

lemma run_stop (h : (m.step p w.data.receiver).1=.stop) (n : ℕ) (t : Option Value) :
    run blk (eachLoop m injectI (n+1) p t) w=(.ok (t,none),
      {w with data := {w.data with receiver := (m.step p w.data.receiver).2}}) := by
  rw [run_eachLoop,h]
  rfl

lemma memorised_break {s : Arrays} {v : Value}
    {h : List (Reply Value)} (ho : polls=Bool.false → (m.step (next .nil) s.receiver).1=.stop) :
    (run blk (afterBlock n polls next v) ⟨s,some v,h⟩).2.history=h ∧
      (run blk (afterBlock (n+1) polls next v) ⟨s,some v,h⟩).2.history=h ∧
      ∃ u, (run blk (afterBlock (n+1) polls next v) ⟨s,some v,h⟩).1=.ok (some v,u) := by
  cases polls with
  | true => exact ⟨rfl,rfl,some v,rfl⟩
  | false =>
    have hg : ∀ k, run blk (afterBlock k false next v) ⟨s,some v,h⟩ =
        run blk (eachLoop m injectI k (next .nil) (some v)) ⟨s,none,h⟩ := fun _ => rfl
    rw [hg,hg,run_stop blk (ho rfl)]
    refine ⟨?_,rfl,none,rfl⟩
    cases n with
    | zero => rfl
    | succ n => rw [run_stop blk (ho rfl)]

lemma memorised_later {a : Value} (hw : Kept w) {args : List Value}
    (hs : (m.step p w.data.receiver).1=.pass args polls next)
    (ho : polls=Bool.false → ∀ xs, (m.step (next .nil) xs).1=.stop)
    (hr : ∀ v w', Kept w' → Memorised blk n (next .nil) (some v) w') :
    Memorised blk (n+1) p (some a) w := by
  unfold Memorised
  rw [run_later blk _ _ _ hs,run_later blk _ _ _ hs]
  obtain hk | ⟨v,s,hy⟩ := yield_kept blk [a,enumValuesPack args]
    (w := {w with data := {w.data with receiver := (m.step p w.data.receiver).2}}) hw
  · cases hru : run blk (yield [a,enumValuesPack args])
        {w with data := {w.data with receiver := (m.step p w.data.receiver).2}} with
    | mk o w' =>
      rw [hru] at hk
      cases o with
      | ok v =>
        have hv := hr v w' hk
        simp only [follow]
        rw [run_afterBlock blk _ _ v hk.1,run_afterBlock blk _ _ v hk.1]
        exact hv
      | done | raised | running => exact .inl hk
  · obtain ⟨h₁,h₂,h₃⟩ := memorised_break blk
      fun hp => ho hp s.receiver
    rw [hy]
    refine .inr ⟨v,⟨w.history,hw.2,h₁⟩,?_,h₃⟩
    exact h₂.trans h₁.symm

lemma memorised_of_safe (n : ℕ) (p : m.Pos) (t : Option Value) (w : World Arrays Value)
    (hw : Kept w) (hsa : ¬Loses m t.isSome p w.data.receiver) : Memorised blk n p t w := by
  induction n generalizing p t w with
  | zero => exact .inl hw
  | succ n ih =>
    cases hs : (m.step p w.data.receiver).1 with
    | pass args polls next =>
      cases t with
      | none =>
        unfold Memorised
        rw [run_first blk _ _ _ hs hw.1,run_first blk _ _ _ hs hw.1]
        exact ih _ _ _ hw fun h => hsa (.first hs h)
      | some a =>
        refine memorised_later blk hw hs (fun hp xs => ?_) fun v w' hw' => ?_
        · subst hp
          by_contra hon
          exact hsa (.here hs hon)
        · exact ih _ _ _ hw' fun h => hsa (.later hs h)
    | _ =>
      unfold Memorised
      rw [run_eachLoop,hs]
      exact .inl hw

def injectEnd : Outcome Value (Option Value × Option Value) → Outcome Value Value
  | .ok r => .ok (r.1.getD .nil)
  | .done v => .done v
  | .raised => .raised
  | .running => .running

lemma run_inject (E : Methods) (init : Option Value) (n : ℕ) (w : World Arrays Value) :
    (run blk (EnumIterator.code E m (.inject init) n) w).1 =
        injectEnd (run blk (eachLoop m injectI n m.first init) w).1 ∧
      (run blk (EnumIterator.code E m (.inject init) n) w).2.history =
        (run blk (eachLoop m injectI n m.first init) w).2.history := by
  unfold EnumIterator.code enumWith rbObjcBlockCall
  rw [run_bind,run_bind]
  cases run blk (eachLoop m injectI n m.first init) w with
  | mk o w' =>
    cases o <;> exact ⟨rfl,rfl⟩

lemma left_inject (E : Methods) {init : Option Value} {xs : List Value}
    (h : ¬Loses m init.isSome m.first xs) :
    Left blk (EnumIterator.code E m (.inject init)) ⟨xs,[]⟩ := by
  intro n pre v post hh hp
  rw [(run_inject blk E init n _).2] at hh
  obtain hk | ⟨u,⟨pre',hp',hh'⟩,hm,r,hr⟩ :=
    memorised_of_safe blk n m.first init (start ⟨xs,[]⟩) (kept_start _) h
  · refine absurd ?_ (hk.2 v)
    rw [hh]
    exact List.mem_append_right pre List.mem_cons_self
  · have hb := hh'
    rw [hh] at hb
    obtain ⟨rfl,rfl,rfl⟩ := first_break hp hp' hb
    refine ⟨rfl,n+1,?_,?_⟩
    · rw [(run_inject blk E init (n+1) _).1,hr]
      rfl
    · rw [(run_inject blk E init (n+1) _).2,hm]
      exact hh'

variable {blk} {xs : List Value} {v : Value}
variable {s : Arrays}

/-- From here on the block replies by a plan and leaves these data. -/
def Follows (blk : Block Arrays Value) (plan : ℕ → Reply Value × List Value)
    (h₀ : List (Reply Value)) : Prop :=
  ∀ h args s, h₀.length ≤ h.length → blk h args s =
    ((plan (h.length-h₀.length)).1,{s with receiver := (plan (h.length-h₀.length)).2})

/-- The walk comes to a break, and where the break was the last invocation the walk has
not ended in a regular way. -/
def Spoils (blk : Block Arrays Value) (p : m.Pos) (t : Option Value) (w : World Arrays Value) :
    Prop :=
  ∃ pre, Quiet pre ∧
    (∃ n post, (run blk (eachLoop m injectI n p t) w).2.history=pre ++ .brk .false::post) ∧
    ∀ n, (run blk (eachLoop m injectI n p t) w).2.history=pre ++ [.brk .false] →
      ∀ r, (run blk (eachLoop m injectI n p t) w).1 ≠ .ok r

lemma run_yield_brk (h : blk w.history args w.data=(.brk v,s)) :
    run blk (yield args) w=(.ok v,⟨s,some v,w.history ++ [.brk v]⟩) := by
  simp only [yield,run,invoke,h]
  rfl

lemma run_yield_next (h : blk w.history args w.data=(.next v Bool.false,s)) :
    run blk (yield args) w=(.ok v,⟨s,w.broken,w.history ++ [.next v Bool.false]⟩) := by
  simp only [yield,run,invoke,h]
  rfl

lemma history_later (blk : Block Arrays Value) {n : ℕ} {a : Value} {polls : Bool}
    (hs : (m.step p w.data.receiver).1=.pass args polls next) :
    w.history.length < (run blk (eachLoop m injectI (n+1) p (some a)) w).2.history.length := by
  rw [run_eachLoop,hs]
  exact run_ask_history blk [a,enumValuesPack args] _
    {w with data := {w.data with receiver := (m.step p w.data.receiver).2}}

lemma spoils_here {xs' : List Value} (hp : (m.step p xs).1=.pass args Bool.false next)
    (ho : (m.step (next .nil) xs').1 ≠ .stop) (a : Value)
    {h₀ : List (Reply Value)} (c : List Value) (hq : Quiet h₀)
    (hf : Follows blk (fun _ => (.brk .false,xs')) h₀) :
    Spoils blk p (some a) ⟨⟨xs,c⟩,none,h₀⟩ := by
  have hr : ∀ n, run blk (eachLoop m injectI (n+1) p (some a)) ⟨⟨xs,c⟩,none,h₀⟩ =
      run blk (eachLoop m injectI n (next .nil) (some .false))
        ⟨⟨xs',c⟩,none,h₀ ++ [.brk .false]⟩ := by
    intro n
    rw [run_later blk _ _ _ hp,run_yield_brk (hf h₀ _ _ le_rfl)]
    rfl
  refine ⟨h₀,hq,⟨1,[],?_⟩,fun k hk r => ?_⟩
  · rw [hr]
    rfl
  · cases k with
    | zero => exact fun h => by cases h
    | succ k =>
      rw [hr] at hk ⊢
      cases k with
      | zero => exact fun h => by cases h
      | succ k =>
        cases hs : (m.step (next .nil) xs').1 with
        | stop => exact absurd hs ho
        | raises | hangs =>
          rw [run_eachLoop,hs]
          exact fun h => by cases h
        | pass args' polls' next' =>
          have hl := history_later blk (n := k) (a := .false)
            (w := ⟨⟨xs',c⟩,none,h₀ ++ [.brk .false]⟩) hs
          rw [hk] at hl
          exact absurd hl (lt_irrefl _)

def before (xs : List Value) (plan : ℕ → Reply Value × List Value) : ℕ → Reply Value × List Value
  | 0 => (.next .nil Bool.false,xs)
  | i+1 => plan i

lemma Follows.before
    {plan : ℕ → Reply Value × List Value} {h₀ : List (Reply Value)} {r : Reply Value}
    (hf : Follows blk (before xs plan) h₀) : Follows blk plan (h₀ ++ [r]) := by
  intro h args s hl
  rw [List.length_append,List.length_singleton] at hl ⊢
  obtain ⟨k,hk⟩ := Nat.exists_eq_add_of_le hl
  have h₁ : h.length-h₀.length=k+1 := by omega
  have h₂ : h.length-(h₀.length+1)=k := by omega
  rw [hf h args s (by omega),h₁,h₂]
  rfl

lemma spoils_of_loses {defined : Bool}
    (hl : Loses m defined p xs) (t : Option Value) (ht : t.isSome=defined) :
    ∃ plan, ∀ blk h₀ c, Quiet h₀ → Follows blk plan h₀ → Spoils blk p t ⟨⟨xs,c⟩,none,h₀⟩ := by
  induction hl generalizing t with
  | here hp ho =>
    obtain ⟨a,rfl⟩ := Option.isSome_iff_exists.mp ht
    exact ⟨_,fun blk h₀ c hq hf => spoils_here hp ho a c hq hf⟩
  | @first p xs args polls next hp hre ih =>
    obtain rfl : t=none := Option.isNone_iff_eq_none.mp (by simpa using ht)
    obtain ⟨plan,hpl⟩ := ih (some (enumValuesPack args)) rfl
    refine ⟨plan,fun blk h₀ c hq hf => ?_⟩
    obtain ⟨pre,hpr,⟨n,post,hn⟩,ha⟩ := hpl blk h₀ c hq hf
    refine ⟨pre,hpr,⟨n+1,post,?_⟩,fun k hk => ?_⟩
    · rw [run_first blk _ _ _ hp rfl]
      exact hn
    · cases k with
      | zero => exact fun _ h => by cases h
      | succ k =>
        rw [run_first blk _ _ _ hp rfl] at hk ⊢
        exact ha k hk
  | @later p xs xs' args polls next hp hre ih =>
    obtain ⟨a,rfl⟩ := Option.isSome_iff_exists.mp ht
    obtain ⟨plan,hpl⟩ := ih (some .nil) rfl
    refine ⟨before xs' plan,fun blk h₀ c hq hf => ?_⟩
    have hro : ∀ n, run blk (eachLoop m injectI (n+1) p (some a)) ⟨⟨xs,c⟩,none,h₀⟩ =
        run blk (eachLoop m injectI n (next .nil) (some .nil))
          ⟨⟨xs',c⟩,none,h₀ ++ [.next .nil false]⟩ := by
      intro n
      have hr := hf h₀ [a,enumValuesPack args] ⟨(m.step p xs).2,c⟩ le_rfl
      rw [Nat.sub_self] at hr
      rw [run_later blk _ _ _ hp,run_yield_next hr]
      exact run_afterBlock blk n _ .nil rfl
    have hqu : Quiet (h₀ ++ [Reply.next Value.nil false]) := hq.snoc fun u hu => by cases hu
    obtain ⟨pre,hpr,⟨n,post,hn⟩,ha⟩ := hpl blk _ c hqu hf.before
    refine ⟨pre,hpr,⟨n+1,post,?_⟩,fun k hk => ?_⟩
    · rw [hro]
      exact hn
    · cases k with
      | zero => exact fun _ h => by cases h
      | succ k =>
        rw [hro] at hk ⊢
        exact ha k hk

lemma avoids_injectI (memo : Option Value) (args : List Value) :
    Avoids v (fun _ => True) (injectI memo args) := by
  cases memo with
  | none => exact avoids_pure trivial
  | some a => exact (avoids_yield _ _).bind fun _ _ => avoids_pure trivial

lemma ok_of_injectEnd {o : Outcome Value (Option Value × Option Value)}
    (ho : o.Holds .false fun _ => True) (h : (injectEnd o).value=.ok .false) : ∃ r, o=.ok r := by
  cases o with
  | ok r => exact ⟨r,rfl⟩
  | done v =>
    cases h
    exact absurd rfl ho
  | raised | running => cases h

lemma not_left_inject (E : Methods) {init : Option Value} (h : Loses m init.isSome m.first xs) :
    ∃ b, ¬Left (onReceiver b) (EnumIterator.code E m (.inject init)) ⟨xs,[]⟩ := by
  obtain ⟨plan,hp⟩ := spoils_of_loses h init rfl
  refine ⟨fun h _ _ => plan h.length,fun hl => ?_⟩
  obtain ⟨pre,hpr,⟨n,post,hn⟩,ha⟩ := hp (onReceiver fun h _ _ => plan h.length) [] []
    (fun _ hv => by cases hv) fun _ _ _ _ => rfl
  have hru := run_inject (m := m) (onReceiver fun h _ _ => plan h.length) E init
  obtain ⟨-,k,hk,hh⟩ := hl n pre .false post ((hru n (start ⟨xs,[]⟩)).2.trans hn) hpr
  rw [(hru k _).2] at hh
  rw [(hru k _).1] at hk
  obtain ⟨r,hr⟩ := ok_of_injectEnd
    ((avoids_eachLoop avoids_injectI k m.first init).run _ (start ⟨xs,[]⟩)) hk
  exact ha k hh r hr

end MacRuby.InjectBreaks
