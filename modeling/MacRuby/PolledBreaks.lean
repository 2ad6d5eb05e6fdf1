import Mathlib.Data.List.Basic

/-!
# Code that polls for a break

A block that wants to leave the call can only store a value in a register before it
returns; the code notices where it reads the register, and nowhere else. Every method
that the code calls in between empties the register.

Code is a tree of its actions, so that what it does before it first invokes the block
does not depend on the block. Code in which each invocation is followed by a reading
leaves at once, and the rules say so piece by piece. To show that a break is lost it is
enough to follow the code to its second invocation.
-/
namespace MacRuby.PolledBreaks
open List

/-- How an invocation of the block ends: it returns a value, and may have called methods
before that, it breaks with a value, or it raises. -/
inductive Reply (V : Type) where
  | next (v : V) (calls : Bool)
  | brk (v : V)
  | raise

/-- The data of the code, the register, and the replies of the block so far. -/
structure World (S V : Type) where
  data : S
  broken : Option V
  history : List (Reply V)

/-- What the block does may depend on everything that it did before. -/
def Block (S V : Type) : Type := List (Reply V) → List V → S → Reply V × S

/-- The code goes on with a value, has returned, has raised, or is still running. -/
inductive Outcome (V β : Type) where
  | ok (b : β)
  | done (v : V)
  | raised
  | running

/-- The actions: reading and writing the data, invoking the block, taking the value out
of the register, and storing one. -/
inductive Code (S V β : Type) where
  | ends (o : Outcome V β)
  | read (k : S → Code S V β)
  | write (f : S → S) (k : Code S V β)
  | ask (args : List V) (k : V → Code S V β)
  | pop (k : Option V → Code S V β)
  | put (r : Option V) (k : Code S V β)

section Operations
variable {S V β γ σ : Type}

namespace Code

protected def bind : Code S V β → (β → Code S V γ) → Code S V γ
  | .ends (.ok b),f => f b
  | .ends (.done v),_ => .ends (.done v)
  | .ends .raised,_ => .ends .raised
  | .ends .running,_ => .ends .running
  | .read k,f => .read fun s => (k s).bind f
  | .write g k,f => .write g (k.bind f)
  | .ask args k,f => .ask args fun v => (k v).bind f
  | .pop k,f => .pop fun r => (k r).bind f
  | .put r k,f => .put r (k.bind f)

instance : Monad (Code S V) where
  pure b := .ends (.ok b)
  bind := Code.bind

end Code

def read (f : S → β) : Code S V β := .read fun s => pure (f s)

def write (f : S → S) : Code S V Unit := .write f (pure ())

def raise : Code S V β := .ends .raised

def returns (v : V) : Code S V β := .ends (.done v)

def running : Code S V β := .ends .running

def yield (args : List V) : Code S V V := .ask args pure

def popBroken : Code S V (Option V) := .pop pure

def setBroken (v : V) : Code S V Unit := .put (some v) (pure ())

def returnIfBroken : Code S V Unit := .pop fun
  | some v => returns v
  | none => pure ()

def answer : Option β → Code S V β
  | some b => pure b
  | none => raise

def dispatch (a : Option β) : Code S V β := .put none (answer a)

/-- A call of the code as a function: what it returns is the value of the call. -/
def function : Code S V V → Code S V V
  | .ends (.done v) => .ends (.ok v)
  | .ends o => .ends o
  | .read k => .read fun s => function (k s)
  | .write f k => .write f (function k)
  | .ask args k => .ask args fun v => function (k v)
  | .pop k => .pop fun r => function (k r)
  | .put r k => .put r (function k)

/-- A loop: each round goes on with a new state or leaves with a result. -/
def loop (body : σ → Code S V (σ ⊕ β)) : ℕ → σ → Code S V β
  | 0,_ => running
  | n+1,s => do
    match ← body s with
    | .inl s => loop body n s
    | .inr b => pure b

/-- A loop that reads the register after each invocation of the block: `more` gives the
arguments of the next one, `act` uses its value, and `stop` comes after the last one. -/
def polledLoop (more : σ → Code S V (Option (γ × List V)))
    (act : γ → V → Code S V (σ ⊕ β)) (stop : σ → Code S V β) : ℕ → σ → Code S V β :=
  loop fun s => do
    match ← more s with
    | none => do
      let b ← stop s
      pure (.inr b)
    | some (t,args) => do
      let v ← yield args
      returnIfBroken
      act t v

def forEach (f : γ → Code S V Unit) : List γ → Code S V Unit
  | [] => pure ()
  | x::xs => do
    f x
    forEach f xs

def Outcome.value : Outcome V V → Outcome V V
  | .done v => .ok v
  | o => o

variable (blk : Block S V)

/-- The world after a reply: a break stores its value and the block returns it. -/
def settle (w : World S V) (s : S) : Reply V → Option V × World S V
  | .next v calls => (some v,⟨s,if calls then none else w.broken,w.history ++ [.next v calls]⟩)
  | .brk v => (some v,⟨s,some v,w.history ++ [.brk v]⟩)
  | .raise => (none,⟨s,w.broken,w.history ++ [.raise]⟩)

def invoke (args : List V) (w : World S V) : Option V × World S V :=
  settle w (blk w.history args w.data).2 (blk w.history args w.data).1

def run : Code S V β → World S V → Outcome V β × World S V
  | .ends o,w => (o,w)
  | .read k,w => run (k w.data) w
  | .write f k,w => run k {w with data := f w.data}
  | .ask args k,w =>
    match invoke blk args w with
    | (some v,w) => run (k v) w
    | (none,w) => (.raised,w)
  | .pop k,w => run (k w.broken) {w with broken := none}
  | .put r k,w => run k {w with broken := r}

def follow (f : β → Code S V γ) : Outcome V β × World S V → Outcome V γ × World S V
  | (.ok b,w) => run blk (f b) w
  | (.done v,w) => (.done v,w)
  | (.raised,w) => (.raised,w)
  | (.running,w) => (.running,w)

lemma run_bind (x : Code S V β) (f : β → Code S V γ) (w : World S V) :
    run blk (x >>= f) w=follow blk f (run blk x w) := by
  change run blk (x.bind f) w=_
  induction x generalizing w with
  | ends o =>
    cases o <;> rfl
  | read k ih | pop k ih => exact ih _ _
  | write g k ih | put r k ih => exact ih _
  | ask args k ih =>
    simp only [Code.bind,run]
    split
    · exact ih _ _
    · rfl

lemma invoke_history (args : List V) (w : World S V) :
    ∃ r, (invoke blk args w).2.history=w.history ++ [r] := by
  unfold invoke
  generalize (blk w.history args w.data).1=r
  cases r <;> exact ⟨_,rfl⟩

lemma run_history (c : Code S V β) (w : World S V) : w.history <+: (run blk c w).2.history := by
  induction c generalizing w with
  | ends o => exact prefix_rfl
  | read k ih => exact ih _ _
  | write f k ih => exact ih {w with data := f w.data}
  | ask args k ih =>
    obtain ⟨r,hr⟩ := invoke_history blk args w
    have hg : w.history <+: (invoke blk args w).2.history := by
      rw [hr]
      exact prefix_append _ _
    simp only [run]
    split
    · next v w' h =>
      rw [h] at hg
      exact hg.trans (ih v w')
    · next w' h =>
      rw [h] at hg
      exact hg
  | pop k ih => exact ih w.broken {w with broken := none}
  | put r k ih => exact ih {w with broken := r}

lemma run_ask_history (args : List V) (k : V → Code S V β) (w : World S V) :
    w.history.length < (run blk (.ask args k) w).2.history.length := by
  obtain ⟨r,hr⟩ := invoke_history blk args w
  have hg : w.history.length < (invoke blk args w).2.history.length := by
    rw [hr,length_append]
    exact Nat.lt_succ_self _
  simp only [run]
  split
  · next v w' h =>
    rw [h] at hg
    exact Nat.lt_of_lt_of_le hg (run_history blk (k v) w').length_le
  · next w' h =>
    rw [h] at hg
    exact hg

variable {σ : Type}
variable {x : Code S V β} {f : β → Code S V γ} {w : World S V} {c : Prop}

def Quiet (h : List (Reply V)) : Prop := ∀ v, Reply.brk v ∉ h

def Kept (w : World S V) : Prop := w.broken=none ∧ Quiet w.history

def BrokeWith (v : V) (w : World S V) : Prop := ∃ pre, Quiet pre ∧ w.history=pre ++ [.brk v]

/-- The code returns the value of a break right after the invocation that broke. -/
def Leaves (c : Code S V β) : Prop := ∀ blk w, Kept w →
  Kept (run blk c w).2 ∨ ∃ v, BrokeWith v (run blk c w).2 ∧ (run blk c w).1=.done v

/-- The same for a whole function, whose last value is also returned. -/
def Returns (c : Code S V V) : Prop := ∀ blk w, Kept w →
  Kept (run blk c w).2 ∨ ∃ v, BrokeWith v (run blk c w).2 ∧ (run blk c w).1.value=.ok v

lemma Quiet.snoc {h : List (Reply V)} (hh : Quiet h) {r : Reply V} (hr : ∀ v, r ≠ .brk v) :
    Quiet (h ++ [r]) := by
  intro v hv
  obtain hv | hv := mem_append.mp hv
  · exact hh v hv
  · exact hr v (mem_singleton.mp hv).symm

lemma leaves_ends (o : Outcome V β) : Leaves (.ends o : Code S V β) := fun _ _ hw => .inl hw

lemma leaves_pure (b : β) : Leaves (pure b : Code S V β) := leaves_ends _

lemma leaves_read (f : S → β) : Leaves (read f : Code S V β) := fun _ _ hw => .inl hw

lemma leaves_write (f : S → S) : Leaves (write f : Code S V Unit) := fun _ _ hw => .inl hw

lemma leaves_popBroken : Leaves (popBroken : Code S V (Option V)) :=
  fun _ _ hw => .inl ⟨rfl,hw.2⟩

lemma leaves_answer (a : Option β) : Leaves (answer a : Code S V β) := by
  cases a <;> exact leaves_ends _

lemma leaves_dispatch (a : Option β) : Leaves (dispatch a : Code S V β) :=
  fun blk _ hw => leaves_answer a blk _ ⟨rfl,hw.2⟩

lemma Leaves.after (hf : ∀ b, Leaves (f b)) {blk : Block S V} (hk : Kept (run blk x w).2) :
    Kept (run blk (x >>= f) w).2 ∨ ∃ v, BrokeWith v (run blk (x >>= f) w).2 ∧
      (run blk (x >>= f) w).1=.done v := by
  rw [run_bind]
  cases h : run blk x w with
  | mk o w' =>
    rw [h] at hk
    cases o with
    | ok b => exact hf b blk w' hk
    | done | raised | running => exact .inl hk

lemma Leaves.bind (hx : Leaves x) (hf : ∀ b, Leaves (f b)) : Leaves (x >>= f) := by
  intro blk w hw
  obtain hk | ⟨v,hv,hd⟩ := hx blk w hw
  · exact Leaves.after hf hk
  · have hx : run blk x w=(.done v,(run blk x w).2) := Prod.ext hd rfl
    rw [run_bind,hx]
    exact .inr ⟨v,hv,rfl⟩

lemma leaves_ite [Decidable c] {y : Code S V β} (hx : Leaves x) (hy : Leaves y) :
    Leaves (if c then x else y) := by
  split
  · exact hx
  · exact hy

lemma yield_kept (blk : Block S V) (args : List V) (hw : Kept w) :
    Kept (run blk (yield args) w).2 ∨
      ∃ v s, run blk (yield args) w=(.ok v,⟨s,some v,w.history ++ [.brk v]⟩) := by
  simp only [yield,run,invoke]
  generalize (blk w.history args w.data).1=r
  cases r with
  | next v calls =>
    refine .inl ⟨?_,hw.2.snoc fun u hu => by cases hu⟩
    simp only [settle,hw.1,ite_self]
    rfl
  | brk v => exact .inr ⟨v,_,rfl⟩
  | raise => exact .inl ⟨hw.1,hw.2.snoc fun u hu => by cases hu⟩

lemma leaves_returnIfBroken : Leaves (returnIfBroken : Code S V Unit) := by
  intro blk w hw
  obtain ⟨d,b,h⟩ := w
  cases hw.1
  exact .inl hw

lemma leaves_yield (args : List V) {f : V → Code S V β} (hf : ∀ v, Leaves (f v)) :
    Leaves (do let v ← yield args; returnIfBroken; f v) := by
  intro blk w hw
  obtain hk | ⟨v,s,hy⟩ := yield_kept blk args hw
  · exact Leaves.after (fun v => leaves_returnIfBroken.bind fun _ => hf v) hk
  · rw [run_bind,hy]
    exact .inr ⟨v,⟨w.history,hw.2,rfl⟩,rfl⟩

lemma leaves_loop {body : σ → Code S V (σ ⊕ β)} (hb : ∀ s, Leaves (body s)) (n : ℕ) (s : σ) :
    Leaves (loop body n s) := by
  induction n generalizing s with
  | zero => exact leaves_ends _
  | succ n ih =>
    refine (hb s).bind fun r => ?_
    cases r with
    | inl s => exact ih s
    | inr b => exact leaves_pure b

lemma leaves_polledLoop {more : σ → Code S V (Option (γ × List V))}
    {act : γ → V → Code S V (σ ⊕ β)} {stop : σ → Code S V β} (hm : ∀ s, Leaves (more s))
    (ha : ∀ t v, Leaves (act t v)) (hs : ∀ s, Leaves (stop s)) (n : ℕ) (s : σ) :
    Leaves (polledLoop more act stop n s) := by
  refine leaves_loop (fun s => (hm s).bind fun args => ?_) n s
  cases args with
  | none => exact (hs s).bind fun b => leaves_pure _
  | some args => exact leaves_yield args.2 (ha args.1)

lemma Leaves.returns {c : Code S V V} (h : Leaves c) : Returns c := by
  intro blk w hw
  obtain hk | ⟨v,hv,hd⟩ := h blk w hw
  · exact .inl hk
  · refine .inr ⟨v,hv,?_⟩
    rw [hd]
    rfl

lemma returns_yield (args : List V) : Returns (yield args : Code S V V) := by
  intro blk w hw
  obtain hk | ⟨v,s,hy⟩ := yield_kept blk args hw
  · exact .inl hk
  · rw [hy]
    exact .inr ⟨v,⟨w.history,hw.2,rfl⟩,rfl⟩

lemma Leaves.bind_returns {f : β → Code S V V} (hx : Leaves x)
    (hf : ∀ b, Returns (f b)) : Returns (x >>= f) := by
  intro blk w hw
  rw [run_bind]
  obtain hk | ⟨v,hv,hd⟩ := hx blk w hw
  · cases h : run blk x w with
    | mk o w' =>
      rw [h] at hk
      cases o with
      | ok b => exact hf b blk w' hk
      | done | raised | running => exact .inl hk
  · have hx : run blk x w=(.done v,(run blk x w).2) := Prod.ext hd rfl
    rw [hx]
    exact .inr ⟨v,hv,rfl⟩

lemma returns_ite [Decidable c] {x y : Code S V V} (hx : Returns x)
    (hy : Returns y) : Returns (if c then x else y) := by
  split
  · exact hx
  · exact hy

end Operations

section Calls
variable {S V : Type} {c : ℕ → Code S V V}

def start (s : S) : World S V := ⟨s,none,[]⟩

/-- A break leaves the call: if a run, however long, comes to a break, then the block is
not invoked after it, and the call returns its value. The number bounds the run. -/
def Left (blk : Block S V) (c : ℕ → Code S V V) (s : S) : Prop :=
  ∀ n pre v post, (run blk (c n) (start s)).2.history=pre ++ .brk v::post → Quiet pre →
    post=[] ∧ ∃ m, (run blk (c m) (start s)).1.value=.ok v ∧
      (run blk (c m) (start s)).2.history=pre ++ [.brk v]

lemma kept_start (s : S) : Kept (start s : World S V) := ⟨rfl,fun _ hv => by cases hv⟩

lemma first_break {pre pre' post post' : List (Reply V)} {v v' : V} (hp : Quiet pre)
    (hp' : Quiet pre') (h : pre ++ .brk v::post=pre' ++ .brk v'::post') :
    pre=pre' ∧ v=v' ∧ post=post' := by
  induction pre generalizing pre' with
  | nil =>
    cases pre' with
    | nil =>
      cases h
      exact ⟨rfl,rfl,rfl⟩
    | cons r pre' =>
      cases h
      exact absurd mem_cons_self (hp' v)
  | cons r pre ih =>
    cases pre' with
    | nil =>
      cases h
      exact absurd mem_cons_self (hp v')
    | cons r' pre' =>
      obtain ⟨hr,ht⟩ := cons.inj h
      obtain ⟨h₁,h₂⟩ := ih (fun u hu => hp u (mem_cons_of_mem _ hu))
        (fun u hu => hp' u (mem_cons_of_mem _ hu)) ht
      rw [hr,h₁]
      exact ⟨rfl,h₂⟩

lemma left_of_returns (h : ∀ n, Returns (c n)) (blk : Block S V) (s : S) : Left blk c s := by
  intro n pre v post hh hp
  obtain hk | ⟨u,⟨pre',hp',hh'⟩,hu⟩ := h n blk (start s) (kept_start s)
  · refine absurd ?_ (hk.2 v)
    rw [hh]
    exact mem_append_right pre mem_cons_self
  · have hb := hh'
    rw [hh] at hb
    obtain ⟨rfl,rfl,rfl⟩ := first_break hp hp' hb
    exact ⟨rfl,n,hu,hh'⟩

lemma left_of_leaves (h : ∀ n, Leaves (c n)) (blk : Block S V) (s : S) :
    Left blk c s := left_of_returns (fun n => (h n).returns) blk s

lemma left_congr {c' : ℕ → Code S V V} {s : S} {blk : Block S V}
    (h : ∀ n, run blk (c n) (start s)=run blk (c' n) (start s)) (hc : Left blk c' s) :
    Left blk c s := by
  intro n pre v post hh hpr
  rw [h n] at hh
  obtain ⟨hp,m,hm⟩ := hc n pre v post hh hpr
  refine ⟨hp,m,?_⟩
  rw [h m]
  exact hm

variable {β γ : Type}

/-- Where code stands when it first invokes the block, if it does. -/
inductive Pause (S V β : Type) where
  | ends (o : Outcome V β) (s : S) (r : Option V)
  | asks (args : List V) (k : V → Code S V β) (s : S) (r : Option V)

def pause : Code S V β → S → Option V → Pause S V β
  | .ends o,s,r => .ends o s r
  | .read k,s,r => pause (k s) s r
  | .write f k,s,r => pause k (f s) r
  | .ask args k,s,r => .asks args k s r
  | .pop k,s,r => pause (k r) s none
  | .put r k,s,_ => pause k s r

def Pause.bind (f : β → Code S V γ) : Pause S V β → Pause S V γ
  | .ends (.ok b) s r => pause (f b) s r
  | .ends (.done v) s r => .ends (.done v) s r
  | .ends .raised s r => .ends .raised s r
  | .ends .running s r => .ends .running s r
  | .asks args k s r => .asks args (fun v => k v >>= f) s r

lemma pause_bind (x : Code S V β) (f : β → Code S V γ) (s : S) (r : Option V) :
    pause (x >>= f) s r=(pause x s r).bind f := by
  induction x generalizing s r with
  | ends o =>
    cases o <;> rfl
  | read k ih | pop k ih => exact ih _ _ _
  | write g k ih | put r' k ih => exact ih _ _
  | ask args k ih => rfl

def Pause.resume (blk : Block S V) (h : List (Reply V)) : Pause S V β → Outcome V β × World S V
  | .ends o s r => (o,⟨s,r,h⟩)
  | .asks args k s r => run blk (.ask args k) ⟨s,r,h⟩

lemma run_eq_resume (blk : Block S V) (c : Code S V β) (s : S) (r : Option V)
    (h : List (Reply V)) : run blk c ⟨s,r,h⟩=(pause c s r).resume blk h := by
  induction c generalizing s r with
  | ends | ask => rfl
  | read k ih | pop k ih => exact ih _ _ _
  | write f k ih | put r' k ih => exact ih _ _

def Pause.Asks : Pause S V β → Prop
  | .ends _ _ _ => False
  | .asks _ _ _ _ => True

lemma Pause.Asks.bind {p : Pause S V β} (hp : p.Asks) (f : β → Code S V γ) : (p.bind f).Asks := by
  cases p with
  | ends o s r => cases hp
  | asks args k s r => trivial

def Silent (c : ℕ → Code S V β) (s : S) : Prop := ∀ n, ¬(pause (c n) s none).Asks

lemma left_of_silent {c : ℕ → Code S V V} {s : S} (h : Silent c s) (blk : Block S V) :
    Left blk c s := by
  intro n pre v post hh
  have hn := h n
  change (run blk (c n) ⟨s,none,[]⟩).2.history=_ at hh
  rw [run_eq_resume] at hh
  cases hp : pause (c n) s none with
  | ends o s' r =>
    rw [hp] at hh
    cases pre <;> cases hh
  | asks args k s' r =>
    rw [hp] at hn
    exact absurd trivial hn

end Calls

variable {S V β γ : Type}
variable {v : V}
variable {P : β → Prop}
variable {Q : γ → Prop}
variable {x : Code S V β}
variable {c : Code S V β} {f : β → Code S V γ} {p : Pause S V β} {J : β → Prop} {a : Option β}

/-- Code that ended so goes on with a value that has the property, and has not returned
the value that is watched for. -/
def Outcome.Holds (v : V) (P : β → Prop) : Outcome V β → Prop
  | .ok b => P b
  | .done u => u ≠ v
  | .raised => True
  | .running => True

def Pause.Ends (v : V) (P : β → Prop) : Pause S V β → Prop
  | .ends o _ _ => o.Holds v P
  | .asks _ _ _ _ => True

/-- If the block breaks with the value where the code stands, this holds of the code when
it ends without a further invocation. -/
def Pause.Misses (v : V) (P : β → Prop) : Pause S V β → Prop
  | .ends _ _ _ => True
  | .asks _ k s _ => (pause (k v) s (some v)).Ends v P

def Ends (v : V) (P : β → Prop) (c : Code S V β) : Prop := ∀ s r, (pause c s r).Ends v P

def Misses (v : V) (P : β → Prop) (c : Code S V β) : Prop := ∀ s r, (pause c s r).Misses v P

lemma Pause.Ends.bind (hp : p.Ends v P)
    (hf : ∀ b, P b → PolledBreaks.Ends v Q (f b)) : (p.bind f).Ends v Q := by
  cases p with
  | ends o s r =>
    cases o with
    | ok b => exact hf b hp s r
    | done u => exact hp
    | raised | running => trivial
  | asks args k s r => trivial

lemma Ends.bind (hx : Ends v P x) (hf : ∀ b, P b → Ends v Q (f b)) : Ends v Q (x >>= f) := by
  intro s r
  rw [pause_bind]
  exact (hx s r).bind hf

/-- The first break is in the first piece, or in the second one after the first piece has
ended without invoking the block. -/
lemma Pause.Misses.bind (hp : p.Misses v P) (hp₀ : p.Ends v J)
    (hf : ∀ b, P b → PolledBreaks.Ends v Q (f b)) (hf₀ : ∀ b, J b → PolledBreaks.Misses v Q (f b)) :
    (p.bind f).Misses v Q := by
  cases p with
  | ends o s r =>
    cases o with
    | ok b => exact hf₀ b hp₀ s r
    | done | raised | running => trivial
  | asks args k s r =>
    change (pause (k v >>= f) s (some v)).Ends v Q
    rw [pause_bind]
    exact Pause.Ends.bind hp hf

lemma Misses.bind (hx : Misses v P x) (hx₀ : Ends v J x) (hf : ∀ b, P b → Ends v Q (f b))
    (hf₀ : ∀ b, J b → Misses v Q (f b)) : Misses v Q (x >>= f) := by
  intro s r
  rw [pause_bind]
  exact (hx s r).bind (hx₀ s r) hf hf₀

def Mute (c : Code S V β) : Prop := ∀ s r, ¬(pause c s r).Asks

lemma Pause.not_asks_bind (hp : ¬p.Asks) (hf : ∀ b, Mute (f b)) : ¬(p.bind f).Asks := by
  cases p with
  | ends o s r =>
    cases o with
    | ok b => exact hf b s r
    | done | raised | running => exact not_false
  | asks args k s r => exact absurd trivial hp

lemma Mute.misses (h : Mute c) (v : V) (P : β → Prop) : Misses v P c := by
  intro s r
  have hs := h s r
  cases hp : pause c s r with
  | ends o s' r' => trivial
  | asks args k s' r' =>
    rw [hp] at hs
    exact absurd trivial hs

lemma Mute.bind_misses (hx : Mute x) (hx₀ : Ends v P x) (hf : ∀ b, P b → Misses v Q (f b)) :
    Misses v Q (x >>= f) :=
  (hx.misses v fun _ => False).bind hx₀ (fun _ h => h.elim) hf

def Avoids (v : V) (P : β → Prop) : Code S V β → Prop
  | .ends o => o.Holds v P
  | .read k => ∀ s, Avoids v P (k s)
  | .write _ k => Avoids v P k
  | .ask _ k => ∀ u, Avoids v P (k u)
  | .pop k => ∀ r, Avoids v P (k r)
  | .put _ k => Avoids v P k

lemma Avoids.bind (hx : Avoids v P x)
    (hf : ∀ b, P b → Avoids v Q (f b)) : Avoids v Q (x >>= f) := by
  induction x with
  | ends o =>
    cases o with
    | ok b => exact hf b hx
    | done u => exact hx
    | raised | running => trivial
  | read k ih => exact fun s => ih s (hx s)
  | write g k ih | put r k ih => exact ih hx
  | ask args k ih => exact fun u => ih u (hx u)
  | pop k ih => exact fun r => ih r (hx r)

lemma Avoids.ends (h : Avoids v P c) : Ends v P c := by
  intro s r
  induction c generalizing s r with
  | ends o => exact h
  | read k ih => exact ih s (h s) s r
  | write f k ih => exact ih h (f s) r
  | ask args k ih => trivial
  | pop k ih => exact ih r (h r) s none
  | put r' k ih => exact ih h s r'

lemma Avoids.misses (h : Avoids v P c) : Misses v P c := by
  intro s r
  induction c generalizing s r with
  | ends o => trivial
  | read k ih => exact ih s (h s) s r
  | write f k ih => exact ih h (f s) r
  | ask args k ih => exact (h v).ends s (some v)
  | pop k ih => exact ih r (h r) s none
  | put r' k ih => exact ih h s r'

lemma Avoids.run (h : Avoids v P c) (blk : Block S V)
    (w : World S V) : (run blk c w).1.Holds v P := by
  induction c generalizing w with
  | ends o => exact h
  | read k ih => exact ih w.data (h w.data) w
  | write f k ih => exact ih h {w with data := f w.data}
  | ask args k ih =>
    simp only [PolledBreaks.run]
    split
    · next v w' _ => exact ih v (h v) w'
    · trivial
  | pop k ih => exact ih w.broken (h w.broken) {w with broken := none}
  | put r k ih => exact ih h {w with broken := r}

lemma avoids_function (v : V) (c : Code S V V) : Avoids v (fun _ => True) (function c) := by
  induction c with
  | ends o =>
    cases o <;> trivial
  | read k ih | write f k ih | ask args k ih | pop k ih | put r k ih => exact ih

lemma avoids_pure {b : β} (h : P b) : Avoids v P (pure b : Code S V β) := h

lemma avoids_read {f : S → β} (h : ∀ s, P (f s)) : Avoids v P (read f : Code S V β) := h

lemma avoids_write (v : V) (f : S → S) :
    Avoids v (fun _ => True) (write f : Code S V Unit) := trivial

lemma avoids_yield (v : V) (args : List V) :
    Avoids v (fun _ => True) (yield args : Code S V V) := fun _ => trivial

lemma avoids_popBroken (v : V) :
    Avoids v (fun _ => True) (popBroken : Code S V (Option V)) := fun _ => trivial

lemma avoids_answer (h : ∀ b, a=some b → P b) : Avoids v P (answer a : Code S V β) := by
  cases a with
  | none => trivial
  | some b => exact h b rfl

lemma avoids_dispatch (h : ∀ b, a=some b → P b) :
    Avoids v P (dispatch a : Code S V β) := avoids_answer h

lemma avoids_ite {c : Prop} [Decidable c] {y : Code S V β}
    (hx : Avoids v P x) (hy : Avoids v P y) : Avoids v P (if c then x else y) := by
  split
  · exact hx
  · exact hy

lemma avoids_forEach {f : γ → Code S V Unit} (hf : ∀ x, Avoids v (fun _ => True) (f x))
    (xs : List γ) : Avoids v (fun _ => True) (forEach f xs) := by
  induction xs with
  | nil => trivial
  | cons x xs ih => exact (hf x).bind fun _ _ => ih

def Asking (c : Code S V β) : Prop := ∀ s r, (pause c s r).Asks

lemma Asking.bind (hx : Asking x) (f : β → Code S V γ) : Asking (x >>= f) := by
  intro s r
  rw [pause_bind]
  exact (hx s r).bind f

lemma asking_yield (args : List V) : Asking (yield args : Code S V V) := fun _ _ => trivial

lemma asking_forEach {f : γ → Code S V Unit} {xs : List γ}
    (hf : ∀ x ∈ xs, f x=pure () ∨ Asking (f x)) (hx : ∃ x ∈ xs, Asking (f x)) :
    Asking (forEach f xs) := by
  induction xs with
  | nil =>
    obtain ⟨x,hx,-⟩ := hx
    cases hx
  | cons x xs ih =>
    obtain hp | hb := hf x mem_cons_self
    · have hs : forEach f (x::xs)=forEach f xs := by
        change (f x >>= fun _ => forEach f xs)=_
        rw [hp]
        rfl
      obtain ⟨y,hy,hby⟩ := hx
      obtain rfl | hy := mem_cons.mp hy
      · exact hby.bind _
      · rw [hs]
        exact ih (fun z hz => hf z (mem_cons_of_mem x hz)) ⟨y,hy,hby⟩
    · exact hb.bind _

def breaking (v : V) : Block S V := fun _ _ s => (.brk v,s)

/-- A call that invokes its block, and that has not returned the value of a break in the
first invocation when it ends or comes to the second one. -/
lemma not_left {c : ℕ → Code S V V} {s : S} (hs : ¬Silent c s)
    (hc : ∀ n, (pause (c n) s none).Misses v (· ≠ v)) : ¬Left (breaking v) c s := by
  intro h
  obtain ⟨n,hn⟩ := not_forall.mp hs
  have hq : Quiet ([] : List (Reply V)) := fun u hu => by cases hu
  obtain ⟨post,hpo⟩ : ∃ post, (run (breaking v) (c n) (start s)).2.history=[] ++ .brk v::post := by
    change ∃ post, (run (breaking v) (c n) ⟨s,none,[]⟩).2.history=_
    rw [run_eq_resume]
    cases hp : pause (c n) s none with
    | ends o s' r =>
      rw [hp] at hn
      exact absurd not_false hn
    | asks args k s' r =>
      obtain ⟨post,hpo⟩ := run_history (breaking v) (k v) ⟨s',some v,[.brk v]⟩
      exact ⟨post,hpo.symm⟩
  obtain ⟨-,m,hm,hh⟩ := h n [] v post hpo hq
  have hl := hc m
  change (run (breaking v) (c m) ⟨s,none,[]⟩).1.value=_ at hm
  change (run (breaking v) (c m) ⟨s,none,[]⟩).2.history=_ at hh
  rw [run_eq_resume] at hm hh
  cases hp : pause (c m) s none with
  | ends o s' r =>
    rw [hp] at hh
    cases hh
  | asks args k s' r =>
    rw [hp] at hm hh hl
    change (run (breaking v) (k v) ⟨s',some v,[.brk v]⟩).1.value=_ at hm
    change (run (breaking v) (k v) ⟨s',some v,[.brk v]⟩).2.history=_ at hh
    change (pause (k v) s' (some v)).Ends v _ at hl
    rw [run_eq_resume] at hm hh
    cases hk : pause (k v) s' (some v) with
    | ends o s'' r' =>
      rw [hk] at hm hl
      cases o with
      | ok | done =>
        cases hm
        exact hl rfl
      | raised | running => cases hm
    | asks args' k' s'' r' =>
      rw [hk] at hh
      obtain ⟨post',hpo'⟩ :=
        run_history (breaking v) (k' v) ⟨s'',some v,[.brk v] ++ [.brk v]⟩
      change (run (breaking v) (k' v) ⟨s'',some v,[.brk v] ++ [.brk v]⟩).2.history=_ at hh
      rw [hh] at hpo'
      cases hpo'

end MacRuby.PolledBreaks
