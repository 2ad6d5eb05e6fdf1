import Mathlib.Data.List.Forall2
import Mathlib.Algebra.Order.Group.Nat

/-!
# Reuse of block records

`rb_vm_prepare_block` keeps one record for each compiled block and writes self,
class and captured variables over the old ones, unless the record is running or
belongs to a Proc. The record may still be the block of a call that has not
finished, and what that call yields to is then another evaluation's block.

Code is a tree whose branches depend on what the running code can see. Two
machines run it: `exec` with the records and the cache of the VM, where reuse
can be switched off, and `eval` where a block is a value that nothing changes.
-/
namespace MacRuby.BlockReuse
open Function List Nat

/-- The compiled code of a block literal, with the slots of the variables that it captures: those
of `dvars`, and those that `lvars` lists by name for evaluated code. -/
structure Function where
  key : ℕ
  dvars : List ℕ
  lvars : List (ℕ × ℕ)
deriving DecidableEq

/-- What one evaluation of a block literal captures; variables are given by their addresses. -/
structure Closure where
  function : Function
  self : ℕ
  klass : ℕ
  dvars : List ℕ
  locals : List (ℕ × ℕ)
deriving DecidableEq

/-- The fields of `rb_vm_block_t` that this depends on. -/
structure Block extends Closure where
  active : Bool
  isProc : Bool
deriving DecidableEq

/-- What does not depend on how blocks are kept: the current class and the variables. -/
structure World where
  currentClass : ℕ
  store : ℕ → ℕ
  nextVar : ℕ

/-- Self and the addresses of the variables of running code. -/
structure Env where
  self : ℕ
  vars : List ℕ

structure View where
  self : ℕ
  klass : ℕ
  values : List ℕ
  blockGiven : Bool

/-- The block of a call: none, the block of the caller passed on, a literal or a Proc. -/
inductive BlockArg
  | none
  | current
  | literal (f : Function)
  | proc (i : ℕ)
deriving DecidableEq

/-- What runs a block: `rb_vm_yield0` or the call of a Proc. -/
inductive Target
  | yield
  | proc (i : ℕ)
deriving DecidableEq

inductive Code
  | done
  | raise
  | look (next : View → Code)
  | assign (i v : ℕ) (rest : Code)
  | setClass (klass : ℕ) (rest : Code)
  | call (arg : BlockArg) (recv : ℕ) (args : List ℕ) (body rest : Code)
  /-- The body is that of the function which the block has. -/
  | invoke (target : Target) (args : List ℕ) (body : Function → Code) (rest : Code)
  | makeProc (rest : Code)
  | rescue (body rest : Code)

def World.alloc (w : World) : List ℕ → World × List ℕ
  | [] => (w,[])
  | v::vs =>
    let w' := {w with store := update w.store w.nextVar v, nextVar := w.nextVar+1}
    let r := w'.alloc vs
    (r.1,w.nextVar::r.2)

def World.assign (w : World) (env : Env) (i v : ℕ) : World :=
  match env.vars[i]? with
  | none => w
  | some a => {w with store := update w.store a v}

def World.setClass (w : World) (klass : ℕ) : World := {w with currentClass := klass}

def World.view (w : World) (env : Env) (blockGiven : Bool) : View :=
  ⟨env.self,w.currentClass,env.vars.map w.store,blockGiven⟩

def World.capture (w : World) (env : Env) (f : Function) : Closure where
  function := f
  self := env.self
  klass := w.currentClass
  dvars := f.dvars.map (env.vars.getD · 0)
  locals := f.lvars.map fun l => (l.1,env.vars.getD l.2 0)

/-- The part of a `RoxorVM` that keeps blocks. The top of the stack of current blocks comes first;
`none` is a null pointer. A Proc is given by its record. -/
structure VM where
  world : World
  memory : ℕ → Block
  next : ℕ
  blocks : Function → Option ℕ
  currentBlocks : List (Option ℕ)
  procs : List ℕ

inductive Event
  /-- A literal was evaluated: whether its record was reused, and whether that record was on the
  stack of current blocks. -/
  | prepared (reused held : Bool)
  | ran (c : Closure)
deriving DecidableEq

structure Run where
  vm : VM
  raised : Bool
  log : List Event

/-- `is_block_current`; a null pointer never is. -/
def VM.isBlockCurrent (m : VM) (b : Option ℕ) : Bool := b.isSome && m.currentBlocks.head? == some b

def VM.setBlock (m : VM) (b : ℕ) (block : Block) : VM :=
  {m with memory := update m.memory b block}

/-- Whether `uncache_or_create_block` takes the cached record. -/
def VM.reusable (m : VM) (f : Function) : Option ℕ :=
  (m.blocks f).filter fun b => !((m.memory b).active || (m.memory b).isProc)

/-- `rb_vm_prepare_block`. Without `reuse` every record is new. -/
def VM.prepareBlock (reuse : Bool) (m : VM) (env : Env) (f : Function) : VM × ℕ × Event :=
  match if reuse then m.reusable f else none with
  | some b =>
    let c := m.world.capture env f
    let block := {m.memory b with
      self := c.self
      klass := c.klass
      dvars := c.dvars
      locals := c.locals}
    (m.setBlock b block,b,.prepared true (m.currentBlocks.contains (some b)))
  | none =>
    let m' := {m.setBlock m.next ⟨m.world.capture env f,false,false⟩ with
      next := m.next+1
      blocks := update m.blocks f (some m.next)}
    (m',m.next,.prepared false (m.currentBlocks.contains (some m.next)))

/-- The block that a call passes; nothing for a Proc that is not there. -/
def VM.blockArg (reuse : Bool) (m : VM) (env : Env) : BlockArg → Option (VM × Option ℕ × List Event)
  | .none => some (m,none,[])
  | .current => some (m,m.currentBlocks.headD none,[])
  | .literal f => some ((m.prepareBlock reuse env f).1,some (m.prepareBlock reuse env f).2.1,
      [(m.prepareBlock reuse env f).2.2])
  | .proc i => m.procs[i]?.map fun b => (m,some b,[])

def VM.enterCall (m : VM) (b : Option ℕ) (world : World) : VM :=
  {m with
    currentBlocks := if m.isBlockCurrent b then m.currentBlocks else b::m.currentBlocks
    world := world.setClass 0}

def VM.leaveCall (m : VM) (alreadyCurrent : Bool) (klass : ℕ) : VM :=
  {m with
    currentBlocks := if alreadyCurrent then m.currentBlocks else m.currentBlocks.tail
    world := m.world.setClass klass}

/-- The block that is run, which `rb_vm_yield0` pops for that time. -/
def VM.target (m : VM) : Target → Option (VM × ℕ)
  | .yield => match m.currentBlocks with
      | some b::bs => some ({m with currentBlocks := bs},b)
      | _ => none
  | .proc i => m.procs[i]?.map fun b => (m,b)

/-- The destructor of `rb_vm_yield0`. -/
def VM.resume (m : VM) (b : ℕ) : Target → VM
  | .yield => {m with currentBlocks := some b::m.currentBlocks}
  | .proc _ => m

/-- `rb_vm_dup_active_block`. -/
def VM.dupActiveBlock (m : VM) (b : ℕ) : VM × ℕ :=
  ({m.setBlock m.next {m.memory b with active := false} with next := m.next+1},m.next)

/-- `rb_vm_block_eval0` up to the code of the block. -/
def VM.enterBlock (m : VM) (b : ℕ) : VM × ℕ :=
  let r := if (m.memory b).active then m.dupActiveBlock b else (m,b)
  ({r.1.setBlock r.2 {r.1.memory r.2 with active := true} with
    world := m.world.setClass (r.1.memory r.2).klass},r.2)

/-- The destructor of `rb_vm_block_eval0`. -/
def VM.leaveBlock (m : VM) (b : ℕ) (klass : ℕ) : VM :=
  {m.setBlock b {m.memory b with active := false} with world := m.world.setClass klass}

/-- `rb_vm_current_block_object`; a Proc and its block share the record. -/
def VM.makeProc (m : VM) : VM :=
  match m.currentBlocks.headD none with
  | none => m
  | some b => {m.setBlock b {m.memory b with isProc := true} with procs := m.procs++[b]}

/-- What runs after a part of the code with the given log, unless that part raised. -/
def Run.after (r : Run) (raised : Bool) (m : VM) (log : List Event) : Run :=
  if raised then ⟨m,true,log⟩ else ⟨r.vm,r.raised,log++r.log⟩

def exec (reuse : Bool) : Code → Env → VM → Run
  | .done,_,m => ⟨m,false,[]⟩
  | .raise,_,m => ⟨m,true,[]⟩
  | .look next,env,m =>
    exec reuse (next (m.world.view env (m.currentBlocks.headD none).isSome)) env m
  | .assign i v rest,env,m => exec reuse rest env {m with world := m.world.assign env i v}
  | .setClass klass rest,env,m => exec reuse rest env {m with world := m.world.setClass klass}
  | .call arg recv args body rest,env,m =>
    match m.blockArg reuse env arg with
    | none => ⟨m,true,[]⟩
    | some (m₁,b,log) =>
      let new := m₁.world.alloc args
      let r := exec reuse body ⟨recv,new.2⟩ (m₁.enterCall b new.1)
      let m₂ := r.vm.leaveCall (m₁.isBlockCurrent b) m.world.currentClass
      (exec reuse rest env m₂).after r.raised m₂ (log++r.log)
  | .invoke target args body rest,env,m =>
    match m.target target with
    | none => ⟨m,true,[]⟩
    | some (m₁,b) =>
      let e := m₁.enterBlock b
      let c := (e.1.memory e.2).toClosure
      let new := e.1.world.alloc args
      let r := exec reuse (body c.function) ⟨c.self,c.dvars++new.2⟩ {e.1 with world := new.1}
      let m₂ := (r.vm.leaveBlock e.2 m.world.currentClass).resume b target
      (exec reuse rest env m₂).after r.raised m₂ (.ran c::r.log)
  | .makeProc rest,env,m => exec reuse rest env m.makeProc
  | .rescue body rest,env,m =>
    let r := exec reuse body env m
    (exec reuse rest env r.vm).after false r.vm r.log

/-- A block as a value: one evaluation of a literal, with its number. -/
structure Value where
  id : ℕ
  closure : Closure
deriving DecidableEq

structure State where
  world : World
  currentBlocks : List (Option Value)
  procs : List Value
  evaluations : ℕ

structure Result where
  state : State
  raised : Bool
  ran : List Closure

def State.isBlockCurrent (s : State) (v : Option Value) : Bool :=
  v.isSome && s.currentBlocks.head?.map (·.map Value.id) == some (v.map Value.id)

def State.blockArg (s : State) (env : Env) : BlockArg → Option (State × Option Value)
  | .none => some (s,none)
  | .current => some (s,s.currentBlocks.headD none)
  | .literal f => some ({s with evaluations := s.evaluations+1},
      some ⟨s.evaluations,s.world.capture env f⟩)
  | .proc i => s.procs[i]?.map fun v => (s,some v)

def State.enterCall (s : State) (v : Option Value) (world : World) : State :=
  {s with
    currentBlocks := if s.isBlockCurrent v then s.currentBlocks else v::s.currentBlocks
    world := world.setClass 0}

def State.leaveCall (s : State) (alreadyCurrent : Bool) (klass : ℕ) : State :=
  {s with
    currentBlocks := if alreadyCurrent then s.currentBlocks else s.currentBlocks.tail
    world := s.world.setClass klass}

def State.target (s : State) : Target → Option (State × Value)
  | .yield => match s.currentBlocks with
      | some v::vs => some ({s with currentBlocks := vs},v)
      | _ => none
  | .proc i => s.procs[i]?.map fun v => (s,v)

def State.resume (s : State) (v : Value) : Target → State
  | .yield => {s with currentBlocks := some v::s.currentBlocks}
  | .proc _ => s

def State.leaveBlock (s : State) (klass : ℕ) : State := {s with world := s.world.setClass klass}

def State.makeProc (s : State) : State :=
  match s.currentBlocks.headD none with
  | none => s
  | some v => {s with procs := s.procs++[v]}

def Result.after (r : Result) (raised : Bool) (s : State) (ran : List Closure) : Result :=
  if raised then ⟨s,true,ran⟩ else ⟨r.state,r.raised,ran++r.ran⟩

/-- Each block that runs is the value of the evaluation that made it. -/
def eval : Code → Env → State → Result
  | .done,_,s => ⟨s,false,[]⟩
  | .raise,_,s => ⟨s,true,[]⟩
  | .look next,env,s =>
    eval (next (s.world.view env (s.currentBlocks.headD none).isSome)) env s
  | .assign i v rest,env,s => eval rest env {s with world := s.world.assign env i v}
  | .setClass klass rest,env,s => eval rest env {s with world := s.world.setClass klass}
  | .call arg recv args body rest,env,s =>
    match s.blockArg env arg with
    | none => ⟨s,true,[]⟩
    | some (s₁,v) =>
      let new := s₁.world.alloc args
      let r := eval body ⟨recv,new.2⟩ (s₁.enterCall v new.1)
      let s₂ := r.state.leaveCall (s₁.isBlockCurrent v) s.world.currentClass
      (eval rest env s₂).after r.raised s₂ r.ran
  | .invoke target args body rest,env,s =>
    match s.target target with
    | none => ⟨s,true,[]⟩
    | some (s₁,v) =>
      let c := v.closure
      let new := (s₁.world.setClass c.klass).alloc args
      let r := eval (body c.function) ⟨c.self,c.dvars++new.2⟩ {s₁ with world := new.1}
      let s₂ := (r.state.leaveBlock s.world.currentClass).resume v target
      (eval rest env s₂).after r.raised s₂ (c::r.ran)
  | .makeProc rest,env,s => eval rest env s.makeProc
  | .rescue body rest,env,s =>
    let r := eval body env s
    (eval rest env r.state).after false r.state r.ran

def ranOf (log : List Event) : List Closure :=
  log.filterMap fun
    | .ran c => some c
    | .prepared _ _ => none

/-- A literal is not evaluated into a record that an unfinished call holds as its block. -/
def Safe : Event → Prop
  | .prepared reused held => reused=true → held=false
  | .ran _ => True

variable {b next : ℕ} {v : Value} {r : Run} {block : Block} {q : Result} {memory : ℕ → Block}
variable {f : Function} {raised : Bool} {log : List Event} {ids₂ : ℕ → Option ℕ} {w : World}

variable {ids ids' : ℕ → Option ℕ} {m m' : VM} {s s' : State}

/-- A record stands for a value; `ids` numbers the records by the evaluation they stand for. -/
structure Stands (ids : ℕ → Option ℕ) (memory : ℕ → Block) (b : ℕ) (v : Value) : Prop where
  id : ids b=some v.id
  closure : (memory b).toClosure=v.closure

structure Sim (ids : ℕ → Option ℕ) (m : VM) (s : State) : Prop where
  world : m.world=s.world
  unique : ∀ b b' i, ids b=some i → ids b'=some i → b=b'
  old : ∀ b i, ids b=some i → b < m.next ∧ i < s.evaluations
  cache : ∀ f b, m.blocks f=some b → b < m.next ∧ (m.memory b).function=f
  current : List.Forall₂ (Option.Rel (Stands ids m.memory)) m.currentBlocks s.currentBlocks
  procs : List.Forall₂ (Stands ids m.memory) m.procs s.procs
  isProc : ∀ b ∈ m.procs, (m.memory b).isProc=true

def Keeps (ids ids' : ℕ → Option ℕ) (m m' : VM) : Prop :=
  m.next ≤ m'.next ∧ ∀ b < m.next, (m.memory b).active=true →
    ids' b=ids b ∧ (m'.memory b).toClosure=(m.memory b).toClosure ∧
      (m'.memory b).active=true

lemma Keeps.refl (ids : ℕ → Option ℕ) (m : VM) : Keeps ids ids m m :=
  ⟨le_rfl,fun _ _ h => ⟨rfl,rfl,h⟩⟩

lemma Keeps.congr_left {m₁ : VM} (h : Keeps ids ids' m₁ m') (hm : m₁.memory=m.memory)
    (hn : m₁.next=m.next) : Keeps ids ids' m m' := by
  unfold Keeps at h ⊢
  rw [← hm,← hn]
  exact h

lemma Keeps.trans {ids'' : ℕ → Option ℕ} {m'' : VM} (h : Keeps ids ids' m m')
    (h' : Keeps ids' ids'' m' m'') : Keeps ids ids'' m m'' := by
  refine ⟨h.1.trans h'.1,fun b hb ha => ?_⟩
  obtain ⟨hi,hc,ha'⟩ := h.2 b hb ha
  obtain ⟨hi',hc',ha''⟩ := h'.2 b (hb.trans_le h.1) ha'
  exact ⟨hi'.trans hi,hc'.trans hc,ha''⟩

lemma update_field {α : Type*} (field : Block → α) (h : field block=field (memory b)) (b' : ℕ) :
    field (update memory b block b')=field (memory b') := by
  by_cases hn : b'=b
  · rw [hn,update_self]
    exact h
  · rw [update_of_ne hn]

lemma Sim.setWorld (h : Sim ids m s) (w : World) :
    Sim ids {m with world := w} {s with world := w} :=
  ⟨rfl,h.unique,h.old,h.cache,h.current,h.procs,h.isProc⟩

lemma current_numbered {bs : List (Option ℕ)} {vs : List (Option Value)}
    (h : List.Forall₂ (Option.Rel (Stands ids memory)) bs vs) (hb : some b ∈ bs) :
    ∃ i, ids b=some i := by
  induction h with
  | nil => cases hb
  | cons hh _ ih =>
    cases mem_cons.mp hb with
    | inl he =>
      rw [← he] at hh
      cases hh with
      | some hv => exact ⟨_,hv.id⟩
    | inr hm => exact ih hm

lemma Sim.procs_numbered (h : Sim ids m s) (hb : b ∈ m.procs) : ∃ i, ids b=some i := by
  have hm : Forall₂ (Option.Rel (Stands ids m.memory)) (m.procs.map some)
      (s.procs.map some) := by
    rw [forall₂_map_left_iff,forall₂_map_right_iff]
    exact h.procs.imp fun _ _ hv => .some hv
  exact current_numbered hm (mem_map_of_mem hb)

lemma Sim.setMemory (h : Sim ids m s) (memory : ℕ → Block) (hn : m.next ≤ next)
    (hc : ∀ b < m.next, (memory b).toClosure=(m.memory b).toClosure)
    (hp : ∀ b < m.next, (m.memory b).isProc=true → (memory b).isProc=true) :
    Sim ids {m with memory := memory, next := next} s := by
  have hs : ∀ b v, Stands ids m.memory b v → Stands ids memory b v := fun b v hv =>
    ⟨hv.id,(hc b (h.old b _ hv.id).1).trans hv.closure⟩
  refine ⟨h.world,h.unique,?_,?_,?_,h.procs.imp hs,?_⟩
  · intro b i hi
    exact ⟨(h.old b i hi).1.trans_le hn,(h.old b i hi).2⟩
  · intro f b hb
    obtain ⟨hl,hf⟩ := h.cache f b hb
    refine ⟨hl.trans_le hn,?_⟩
    rw [← hf]
    exact congrArg Closure.function (hc b hl)
  · refine h.current.imp fun o o' ho => ?_
    cases ho with
    | none => exact .none
    | some hv => exact .some (hs _ _ hv)
  · intro b hb
    obtain ⟨i,hi⟩ := h.procs_numbered hb
    exact hp b (h.old b i hi).1 (h.isProc b hb)

lemma Sim.prepare (h : Sim ids m s)
    {blocks : Function → Option ℕ} (hnex : m.next ≤ next) (hb : b < next)
    (hc : ∀ o ∈ m.currentBlocks, o ≠ some b) (hp : ∀ b' ∈ m.procs, b' ≠ b)
    (hca : ∀ f b', blocks f=some b' → b' < next ∧ (update m.memory b block b').function=f) :
    Sim (update ids b (some s.evaluations))
      {m with memory := update m.memory b block, next := next, blocks := blocks}
      {s with evaluations := s.evaluations+1} := by
  have hs : ∀ b' v, b' ≠ b ∧ Stands ids m.memory b' v →
      Stands (update ids b (some s.evaluations)) (update m.memory b block) b' v := by
    intro b' v hv
    constructor
    · rw [update_of_ne hv.1]
      exact hv.2.id
    · rw [update_of_ne hv.1]
      exact hv.2.closure
  have hold : ∀ b' i, update ids b (some s.evaluations) b'=some i →
      b'=b ∧ i=s.evaluations ∨ b' ≠ b ∧ ids b'=some i := by
    intro b' i hi
    by_cases hn : b'=b
    · rw [hn,update_self] at hi
      exact .inl ⟨hn,Option.some.inj hi.symm⟩
    · rw [update_of_ne hn] at hi
      exact .inr ⟨hn,hi⟩
  refine ⟨h.world,?_,?_,hca,?_,?_,?_⟩
  · intro b₁ b₂ i h₁ h₂
    rcases hold b₁ i h₁ with ⟨rfl,hi⟩ | ⟨_,hi⟩ <;> rcases hold b₂ i h₂ with ⟨rfl,hj⟩ | ⟨_,hj⟩
    · rfl
    · exact absurd (h.old b₂ i hj).2 (by omega)
    · exact absurd (h.old b₁ i hi).2 (by omega)
    · exact h.unique b₁ b₂ i hi hj
  · intro b' i hi
    rcases hold b' i hi with ⟨rfl,rfl⟩ | ⟨_,hi⟩
    · exact ⟨hb,lt_succ_self _⟩
    · exact ⟨(h.old b' i hi).1.trans_le hnex,(h.old b' i hi).2.trans (lt_succ_self _)⟩
  · have hbo := (forall₂_and_left _ _).mpr ⟨hc,h.current⟩
    refine hbo.imp fun o o' ho => ?_
    obtain ⟨hn,hr⟩ := ho
    cases hr with
    | none => exact .none
    | some hv => exact .some (hs _ _ ⟨fun he => hn (congrArg some he),hv⟩)
  · exact ((forall₂_and_left _ _).mpr ⟨hp,h.procs⟩).imp hs
  · intro b' hb'
    change (update m.memory b block b').isProc=true
    rw [update_of_ne (hp b' hb')]
    exact h.isProc b' hb'

lemma reusable_eq_some (h : m.reusable f=some b) :
    m.blocks f=some b ∧ (m.memory b).active=false ∧ (m.memory b).isProc=false := by
  obtain ⟨hb,hf⟩ := Option.filter_eq_some_iff.mp h
  simpa [hb] using hf

structure Prepared (ids : ℕ → Option ℕ) (m m' : VM) (b : ℕ) (s : State) (c : Closure) : Prop where
  sim : Sim (update ids b (some s.evaluations)) m' {s with evaluations := s.evaluations+1}
  closure : (m'.memory b).toClosure=c
  keeps : Keeps ids (update ids b (some s.evaluations)) m m'

lemma prepared_new (h : Sim ids m s) (env : Env) (f : Function) :
    Prepared ids m {m.setBlock m.next ⟨m.world.capture env f,false,false⟩ with
      next := m.next+1, blocks := update m.blocks f (some m.next)} m.next s
      (m.world.capture env f) := by
  constructor
  · refine h.prepare (le_succ _) (lt_succ_self _) ?_ ?_ ?_
    · rintro o ho rfl
      obtain ⟨i,hi⟩ := current_numbered h.current ho
      exact absurd (h.old _ i hi).1 (lt_irrefl _)
    · rintro b hb rfl
      obtain ⟨i,hi⟩ := h.procs_numbered hb
      exact absurd (h.old _ i hi).1 (lt_irrefl _)
    · intro f' b hb
      by_cases hf : f'=f
      · rw [hf,update_self] at hb
        cases hb
        rw [update_self,hf]
        exact ⟨lt_succ_self _,rfl⟩
      · rw [update_of_ne hf] at hb
        obtain ⟨hl,hfu⟩ := h.cache f' b hb
        rw [update_of_ne hl.ne]
        exact ⟨hl.trans (lt_succ_self _),hfu⟩
  · change (update m.memory m.next _ m.next).toClosure=_
    rw [update_self]
  · refine ⟨le_succ _,fun b hb ha => ?_⟩
    change _ ∧ (update m.memory m.next _ b).toClosure=_ ∧ (update m.memory m.next _ b).active=true
    rw [update_of_ne hb.ne,update_of_ne hb.ne]
    exact ⟨rfl,rfl,ha⟩

lemma prepared_reused (h : Sim ids m s) (env : Env)
    (hb : m.reusable f=some b) (hh : m.currentBlocks.contains (some b)=false)
    (hbl : block.toClosure=m.world.capture env f) :
    Prepared ids m (m.setBlock b block) b s (m.world.capture env f) := by
  obtain ⟨hc,ha,hp⟩ := reusable_eq_some hb
  obtain ⟨hl,hf⟩ := h.cache f b hc
  constructor
  · refine h.prepare le_rfl hl ?_ ?_ ?_
    · rintro o ho rfl
      rw [contains_iff_mem.mpr ho] at hh
      cases hh
    · rintro b' hb' rfl
      rw [h.isProc b' hb'] at hp
      cases hp
    · intro f' b' hb'
      obtain ⟨hl',hf'⟩ := h.cache f' b' hb'
      refine ⟨hl',?_⟩
      by_cases hn : b'=b
      · rw [hn,update_self,congrArg Closure.function hbl]
        rw [hn,hf] at hf'
        exact hf'
      · rw [update_of_ne hn]
        exact hf'
  · change (update m.memory b block b).toClosure=_
    rw [update_self]
    exact hbl
  · refine ⟨le_rfl,fun b' hb' ha' => ?_⟩
    have hn : b' ≠ b := by
      rintro rfl
      rw [ha] at ha'
      cases ha'
    change _ ∧ (update m.memory b block b').toClosure=_ ∧ (update m.memory b block b').active=true
    rw [update_of_ne hn,update_of_ne hn]
    exact ⟨rfl,rfl,ha'⟩

lemma prepareBlock_prepared (h : Sim ids m s) (reuse : Bool) (env : Env) (f : Function)
    (hs : Safe (m.prepareBlock reuse env f).2.2) :
    Prepared ids m (m.prepareBlock reuse env f).1 (m.prepareBlock reuse env f).2.1 s
      (m.world.capture env f) := by
  unfold VM.prepareBlock at hs ⊢
  cases hb : if reuse then m.reusable f else none with
  | none => exact prepared_new h env f
  | some b =>
    simp only [hb] at hs
    have hr : m.reusable f=some b := by
      cases reuse with
      | false => cases hb
      | true => exact hb
    refine prepared_reused h env hr (hs rfl) ?_
    obtain ⟨_,hf⟩ := h.cache f b (reusable_eq_some hr).1
    simp only [World.capture,hf]

lemma Sim.currentBlock (h : Sim ids m s) :
    Option.Rel (Stands ids m.memory) (m.currentBlocks.headD none) (s.currentBlocks.headD none) := by
  have hc := h.current
  revert hc
  generalize m.currentBlocks=bs, s.currentBlocks=vs
  intro hc
  cases hc with
  | nil => exact .none
  | cons hh _ => exact hh

lemma Sim.proc (h : Sim ids m s) (i : ℕ) :
    Option.Rel (Stands ids m.memory) m.procs[i]? s.procs[i]? := by
  have hl := h.procs.length_eq
  by_cases hi : i < m.procs.length
  · have hg := h.procs.get hi (hl ▸ hi)
    rw [getElem?_eq_getElem hi,getElem?_eq_getElem (hl ▸ hi)]
    exact .some hg
  · rw [getElem?_eq_none (not_lt.mp hi),getElem?_eq_none (hl ▸ not_lt.mp hi)]
    exact .none

lemma Sim.isBlockCurrent (h : Sim ids m s) {b : Option ℕ} {v : Option Value}
    (hb : Option.Rel (Stands ids m.memory) b v) : m.isBlockCurrent b=s.isBlockCurrent v := by
  unfold VM.isBlockCurrent State.isBlockCurrent
  cases hb with
  | none => rfl
  | @some b v hv =>
    have hc := h.current
    revert hc
    generalize m.currentBlocks=bs, s.currentBlocks=vs
    intro hc
    cases hc with
    | nil => rfl
    | cons hh _ =>
      cases hh with
      | none => rfl
      | @some b' v' hv' =>
        have hi : b'=b ↔ v'.id=v.id := by
          constructor
          · rintro rfl
            exact Option.some.inj (hv'.id.symm.trans hv.id)
          · intro he
            exact h.unique b' b v.id (he ▸ hv'.id) hv.id
        simp [hi]

def Passed (ids : ℕ → Option ℕ) (m : VM) :
    Option (VM × Option ℕ × List Event) → Option (State × Option Value) → Prop
  | none,none => True
  | some (m₁,b,log),some (s₁,v) => ranOf log=[] ∧ ((∀ e ∈ log, Safe e) →
      ∃ ids', Sim ids' m₁ s₁ ∧ Option.Rel (Stands ids' m₁.memory) b v ∧ Keeps ids ids' m m₁)
  | _,_ => False

lemma blockArg_passed (h : Sim ids m s) (reuse : Bool) (env : Env) (arg : BlockArg) :
    Passed ids m (m.blockArg reuse env arg) (s.blockArg env arg) := by
  cases arg with
  | none => exact ⟨rfl,fun _ => ⟨ids,h,.none,.refl ids m⟩⟩
  | current => exact ⟨rfl,fun _ => ⟨ids,h,h.currentBlock,.refl ids m⟩⟩
  | literal f =>
    refine ⟨?_,fun hs => ?_⟩
    · unfold VM.prepareBlock
      cases if reuse then m.reusable f else none <;> rfl
    · have hp := prepareBlock_prepared h reuse env f (hs _ (mem_singleton_self _))
      refine ⟨_,hp.sim,.some ⟨update_self _ _ _,?_⟩,hp.keeps⟩
      rw [hp.closure,h.world]
  | proc i =>
    have hpr := h.proc i
    change Passed ids m (m.procs[i]?.map _) (s.procs[i]?.map _)
    revert hpr
    generalize m.procs[i]? = b, s.procs[i]? = v
    intro hpr
    cases hpr with
    | none => trivial
    | some hv => exact ⟨rfl,fun _ => ⟨ids,h,.some hv,.refl ids m⟩⟩

lemma Sim.enterCall (h : Sim ids m s) {b : Option ℕ} {v : Option Value}
    (hb : Option.Rel (Stands ids m.memory) b v) (world : World) :
    Sim ids (m.enterCall b world) (s.enterCall v world) := by
  refine ⟨rfl,h.unique,h.old,h.cache,?_,h.procs,h.isProc⟩
  change Forall₂ _ (if m.isBlockCurrent b then _ else _) (if s.isBlockCurrent v then _ else _)
  rw [h.isBlockCurrent hb]
  split
  · exact h.current
  · exact .cons hb h.current

lemma Sim.leaveCall (h : Sim ids m s) (alreadyCurrent : Bool) (klass : ℕ) :
    Sim ids (m.leaveCall alreadyCurrent klass) (s.leaveCall alreadyCurrent klass) := by
  refine ⟨congrArg (·.setClass klass) h.world,h.unique,h.old,h.cache,?_,h.procs,h.isProc⟩
  change Forall₂ _ (if alreadyCurrent then _ else _) (if alreadyCurrent then _ else _)
  split
  · exact h.current
  · rw [← drop_one,← drop_one]
    exact forall₂_drop 1 h.current

def Taken (ids : ℕ → Option ℕ) (m : VM) : Option (VM × ℕ) → Option (State × Value) → Prop
  | none,none => True
  | some (m₁,b),some (s₁,v) =>
    Sim ids m₁ s₁ ∧ Stands ids m₁.memory b v ∧ m₁.memory=m.memory ∧ m₁.next=m.next
  | _,_ => False

lemma target_taken (h : Sim ids m s) (target : Target) :
    Taken ids m (m.target target) (s.target target) := by
  cases target with
  | yield =>
    have hc := h.current
    unfold VM.target State.target
    revert hc
    generalize m.currentBlocks=bs, s.currentBlocks=vs
    intro hc
    cases hc with
    | nil => trivial
    | cons hh ht =>
      cases hh with
      | none => trivial
      | some hv => exact ⟨⟨h.world,h.unique,h.old,h.cache,ht,h.procs,h.isProc⟩,hv,rfl,rfl⟩
  | proc i =>
    have hp := h.proc i
    change Taken ids m (m.procs[i]?.map _) (s.procs[i]?.map _)
    revert hp
    generalize m.procs[i]? = b, s.procs[i]? = v
    intro hp
    cases hp with
    | none => trivial
    | some hv => exact ⟨h,hv,rfl,rfl⟩

lemma Sim.resume (h : Sim ids m s) (hb : Stands ids m.memory b v)
    (target : Target) : Sim ids (m.resume b target) (s.resume v target) := by
  cases target with
  | yield => exact ⟨h.world,h.unique,h.old,h.cache,.cons (.some hb) h.current,h.procs,h.isProc⟩
  | proc i => exact h

lemma Sim.makeProc (h : Sim ids m s) : Sim ids m.makeProc s.makeProc := by
  have hbl := h.currentBlock
  unfold VM.makeProc State.makeProc
  revert hbl
  generalize m.currentBlocks.headD none=o, s.currentBlocks.headD none=o'
  intro hbl
  cases hbl with
  | none => exact h
  | @some b v hv =>
    have hm := h.setMemory (update m.memory b {m.memory b with isProc := true}) le_rfl
      (fun b' _ => update_field Block.toClosure (by rfl) b') (by
        intro b' _ hp
        by_cases hn : b'=b
        · rw [hn,update_self]
        · rw [update_of_ne hn]
          exact hp)
    refine ⟨hm.world,hm.unique,hm.old,hm.cache,hm.current,?_,?_⟩
    · refine rel_append hm.procs (.cons ⟨hv.id,?_⟩ .nil)
      change (update m.memory b _ b).toClosure=_
      rw [update_self]
      exact hv.closure
    · intro b' hb'
      cases mem_append.mp hb' with
      | inl hme => exact hm.isProc b' hme
      | inr hme =>
        cases mem_singleton.mp hme
        change (update m.memory b _ b).isProc=true
        rw [update_self]

lemma makeProc_keeps (ids : ℕ → Option ℕ) (m : VM) : Keeps ids ids m m.makeProc := by
  unfold VM.makeProc
  cases m.currentBlocks.headD none with
  | none => exact .refl ids m
  | some b =>
    exact ⟨le_rfl,fun b' _ ha => ⟨rfl,update_field Block.toClosure (by rfl) b',
      (update_field Block.active (by rfl) b').trans ha⟩⟩

/-- What marking a block as running guarantees: `b` runs afterwards, and the record that was marked
is no record that ran before. -/
structure Entered (ids : ℕ → Option ℕ) (m : VM) (b : ℕ) (v : Value) (s : State)
    (e : VM × ℕ) : Prop where
  sim : Sim ids e.1 {s with world := s.world.setClass v.closure.klass}
  closure : (e.1.memory e.2).toClosure=v.closure
  active : b < e.1.next ∧ (e.1.memory b).active=true
  keeps : Keeps ids ids m e.1
  ne : ∀ b' < m.next, (m.memory b').active=true → b' ≠ e.2
  same : (e.1.memory b).toClosure=v.closure

lemma enterBlock_active (h : Sim ids m s) (hb : Stands ids m.memory b v)
    (ha : (m.memory b).active=true) : Entered ids m b v s (m.enterBlock b) := by
  have hl : b < m.next := (h.old b _ hb.id).1
  have he : m.enterBlock b=({m with
      memory := update (update m.memory m.next {m.memory b with active := false})
        m.next {m.memory b with active := true}
      next := m.next+1
      world := m.world.setClass (m.memory b).klass},m.next) := by
    simp [VM.enterBlock,ha,VM.dupActiveBlock,VM.setBlock]
  rw [update_idem] at he
  have hc : m.world.setClass (m.memory b).klass=s.world.setClass v.closure.klass := by
    rw [h.world]
    exact congrArg (s.world.setClass ·.klass) hb.closure
  have hf : ∀ b' < m.next, update m.memory m.next {m.memory b with active := true} b'=m.memory b' :=
    fun b' hb' => update_of_ne hb'.ne _ _
  rw [he]
  have hs := h.setMemory (update m.memory m.next {m.memory b with active := true})
    (le_succ m.next) (fun b' hb' => congrArg Block.toClosure (hf b' hb'))
    fun b' hb' hp => (congrArg Block.isProc (hf b' hb')).trans hp
  constructor
  · have hs' := hs.setWorld (s.world.setClass v.closure.klass)
    rw [← hc] at hs' ⊢
    exact hs'
  · change (update m.memory m.next _ m.next).toClosure=_
    rw [update_self]
    exact hb.closure
  · exact ⟨hl.trans (lt_succ_self _),(congrArg Block.active (hf b hl)).trans ha⟩
  · exact ⟨le_succ _,fun b' hb' ha' => ⟨rfl,congrArg Block.toClosure (hf b' hb'),
      (congrArg Block.active (hf b' hb')).trans ha'⟩⟩
  · exact fun b' hb' _ => hb'.ne
  · exact (congrArg Block.toClosure (hf b hl)).trans hb.closure

lemma enterBlock_inactive (h : Sim ids m s) (hb : Stands ids m.memory b v)
    (ha : (m.memory b).active=false) : Entered ids m b v s (m.enterBlock b) := by
  have hl : b < m.next := (h.old b _ hb.id).1
  have he : m.enterBlock b=({m with
      memory := update m.memory b {m.memory b with active := true}
      world := m.world.setClass (m.memory b).klass},b) := by
    simp [VM.enterBlock,ha,VM.setBlock]
  have hcl : m.world.setClass (m.memory b).klass=s.world.setClass v.closure.klass := by
    rw [h.world]
    exact congrArg (s.world.setClass ·.klass) hb.closure
  have hc : ∀ b', (update m.memory b {m.memory b with active := true} b').toClosure =
      (m.memory b').toClosure := fun b' => update_field Block.toClosure (by rfl) b'
  have hn : ∀ b', (m.memory b').active=true → b' ≠ b := by
    rintro b' hb' rfl
    rw [ha] at hb'
    cases hb'
  rw [he]
  have hs := h.setMemory (update m.memory b {m.memory b with active := true})
    (le_refl m.next) (fun b' _ => hc b')
    fun b' _ hp => (update_field Block.isProc (by rfl) b').trans hp
  constructor
  · have hs' := hs.setWorld (s.world.setClass v.closure.klass)
    rw [← hcl] at hs' ⊢
    exact hs'
  · exact (hc b).trans hb.closure
  · refine ⟨hl,?_⟩
    change (update m.memory b _ b).active=true
    rw [update_self]
  · refine ⟨le_rfl,fun b' _ ha' => ⟨rfl,hc b',?_⟩⟩
    change (update m.memory b _ b').active=true
    rw [update_of_ne (hn b' ha')]
    exact ha'
  · exact fun b' _ ha' => hn b' ha'
  · exact (hc b).trans hb.closure

lemma enterBlock_entered (h : Sim ids m s) (hb : Stands ids m.memory b v) :
    Entered ids m b v s (m.enterBlock b) := by
  cases ha : (m.memory b).active with
  | true => exact enterBlock_active h hb ha
  | false => exact enterBlock_inactive h hb ha

lemma leaveBlock_closure (m : VM) (b klass b' : ℕ) :
    ((m.leaveBlock b klass).memory b').toClosure=(m.memory b').toClosure :=
  update_field Block.toClosure (by rfl) b'

lemma Sim.leaveBlock (h : Sim ids m s) (b klass : ℕ) :
    Sim ids (m.leaveBlock b klass) (s.leaveBlock klass) := by
  have hs := h.setMemory (m.leaveBlock b klass).memory (le_refl m.next)
    (fun b' _ => leaveBlock_closure m b klass b')
    fun b' _ hp => (update_field Block.isProc (by rfl) b').trans hp
  have hs' := hs.setWorld (s.world.setClass klass)
  unfold State.leaveBlock
  rw [← h.world] at hs' ⊢
  exact hs'

def Agrees (ids : ℕ → Option ℕ) (m : VM) (r : Run) (q : Result) : Prop :=
  ∃ ids', Sim ids' r.vm q.state ∧ Keeps ids ids' m r.vm ∧ r.raised=q.raised ∧ ranOf r.log=q.ran

lemma ranOf_append (log log' : List Event) : ranOf (log++log')=ranOf log++ranOf log' :=
  filterMap_append

lemma mem_after_log {e : Event} (he : e ∈ log) : e ∈ (r.after raised m log).log := by
  cases raised with
  | true => exact he
  | false => exact mem_append_left _ he

lemma Agrees.after {ran : List Closure} {raised' : Bool}
    (hs : Sim ids' m' s') (hk : Keeps ids ids' m m') (hr : raised=raised')
    (hl : ranOf log=ran) (hsa : ∀ e ∈ (r.after raised m' log).log, Safe e)
    (hre : (∀ e ∈ r.log, Safe e) → Agrees ids' m' r q) :
    Agrees ids m (r.after raised m' log) (q.after raised' s' ran) := by
  rw [← hr]
  cases raised with
  | true => exact ⟨ids',hs,hk,rfl,hl⟩
  | false =>
    obtain ⟨ids'',hs',hk',hr',hra⟩ :=
      hre fun e he => hsa e (mem_append_right _ he)
    refine ⟨ids'',hs',hk.trans hk',hr',?_⟩
    rw [← hl]
    exact (ranOf_append log r.log).trans (congrArg (ranOf log++·) hra)

lemma leaveCall_agrees {b : Option ℕ} {v : Option Value}
    (h : Sim ids' m' s') (hb : Option.Rel (Stands ids' m'.memory) b v)
    (hs : Sim ids₂ r.vm q.state) (hk : Keeps ids' ids₂ (m'.enterCall b w) r.vm) (klass : ℕ) :
    Sim ids₂ (r.vm.leaveCall (m'.isBlockCurrent b) klass)
        (q.state.leaveCall (s'.isBlockCurrent v) klass) ∧
      Keeps ids' ids₂ m' (r.vm.leaveCall (m'.isBlockCurrent b) klass) := by
  rw [h.isBlockCurrent hb]
  exact ⟨hs.leaveCall _ klass,hk⟩

/-- The end of a block: its record was marked all the time, so it stands for the same value. -/
lemma leaveBlock_agrees {e : VM × ℕ} (he : Entered ids m b v s e) (hb : ids b=some v.id)
    (hsi : Sim ids₂ r.vm q.state) (hk : Keeps ids ids₂ {e.1 with world := w} r.vm)
    (klass : ℕ) (target : Target) : Sim ids₂ ((r.vm.leaveBlock e.2 klass).resume b target)
        ((q.state.leaveBlock klass).resume v target) ∧
      Keeps ids ids₂ m ((r.vm.leaveBlock e.2 klass).resume b target) := by
  have hr := hk.2 b he.active.1 he.active.2
  have hs : Stands ids₂ (r.vm.leaveBlock e.2 klass).memory b v :=
    ⟨hr.1.trans hb,(leaveBlock_closure _ _ _ _).trans (hr.2.1.trans he.same)⟩
  refine ⟨(hsi.leaveBlock e.2 klass).resume hs target,?_⟩
  have hen : Keeps ids ids₂ m r.vm := he.keeps.trans hk
  have hl : Keeps ids ids₂ m (r.vm.leaveBlock e.2 klass) := by
    refine ⟨hen.1,fun b' hb' ha => ?_⟩
    obtain ⟨hi,hc,ha'⟩ := hen.2 b' hb' ha
    refine ⟨hi,(leaveBlock_closure _ _ _ _).trans hc,?_⟩
    change (update r.vm.memory e.2 _ b').active=true
    rw [update_of_ne (he.ne b' hb' ha)]
    exact ha'
  cases target <;> exact hl

lemma exec_agrees (reuse : Bool) (code : Code) (env : Env) (h : Sim ids m s)
    (hs : ∀ e ∈ (exec reuse code env m).log, Safe e) :
    Agrees ids m (exec reuse code env m) (eval code env s) := by
  induction code generalizing env ids m s with
  | done | raise => exact ⟨ids,h,.refl ids m,rfl,rfl⟩
  | look next ih =>
    have hg : (m.currentBlocks.headD none).isSome=(s.currentBlocks.headD none).isSome := by
      have hb := h.currentBlock
      revert hb
      generalize m.currentBlocks.headD none=o, s.currentBlocks.headD none=o'
      rintro ⟨⟩ <;> rfl
    simp only [eval] at hs ⊢
    rw [← h.world,← hg]
    exact ih _ env h hs
  | assign i v rest ih =>
    have hw : m.world.assign env i v=s.world.assign env i v := by rw [h.world]
    simp only [eval] at hs ⊢
    have hsi := h.setWorld (s.world.assign env i v)
    rw [← hw] at hsi ⊢
    exact ih env hsi hs
  | setClass klass rest ih =>
    have hw : m.world.setClass klass=s.world.setClass klass := by rw [h.world]
    simp only [eval] at hs ⊢
    have hsi := h.setWorld (s.world.setClass klass)
    rw [← hw] at hsi ⊢
    exact ih env hsi hs
  | makeProc rest ih =>
    obtain ⟨ids',hsi,hk,hre⟩ := ih env h.makeProc hs
    exact ⟨ids',hsi,(makeProc_keeps ids m).trans hk,hre⟩
  | rescue body rest ihb ihr =>
    obtain ⟨ids',hsi,hk,_,hra⟩ := ihb env h fun e he => hs e (mem_after_log he)
    exact .after hsi hk rfl hra hs (ihr env hsi)
  | call arg recv args body rest ihb ihr =>
    have hpa := blockArg_passed h reuse env arg
    simp only [exec,eval] at hs ⊢
    cases hp : m.blockArg reuse env arg with
    | none =>
      cases hq : s.blockArg env arg with
      | none => exact ⟨ids,h,.refl ids m,rfl,rfl⟩
      | some q =>
        rw [hp,hq] at hpa
        exact hpa.elim
    | some p =>
      cases hq : s.blockArg env arg with
      | none =>
        rw [hp,hq] at hpa
        exact hpa.elim
      | some q =>
        rw [hp,hq] at hpa
        rw [hp] at hs
        obtain ⟨hlo,hpa⟩ := hpa
        simp only at hs ⊢
        have hl := fun e he => hs e (mem_after_log he)
        rw [forall_mem_append] at hl
        obtain ⟨ids₁,hsi₁,hb,hk₁⟩ := hpa hl.1
        have hbo := ihb _ (hsi₁.enterCall hb _) hl.2
        rw [← hsi₁.world,← h.world]
        obtain ⟨ids₂,hsi₂,hk₂,hr,hra⟩ := hbo
        obtain ⟨hsi₃,hk₃⟩ := leaveCall_agrees hsi₁ hb hsi₂ hk₂ m.world.currentClass
        refine .after hsi₃ (hk₁.trans hk₃) hr ?_ hs (ihr env hsi₃)
        rw [ranOf_append,hlo,hra]
        rfl
  | invoke target args body rest ihb ihr =>
    have ht := target_taken h target
    simp only [exec,eval] at hs ⊢
    cases hp : m.target target with
    | none =>
      cases hq : s.target target with
      | none => exact ⟨ids,h,.refl ids m,rfl,rfl⟩
      | some q =>
        rw [hp,hq] at ht
        exact ht.elim
    | some p =>
      cases hq : s.target target with
      | none =>
        rw [hp,hq] at ht
        exact ht.elim
      | some q =>
        rw [hp,hq] at ht
        rw [hp] at hs
        obtain ⟨m₁,b⟩ := p
        obtain ⟨s₁,v⟩ := q
        obtain ⟨hsi₁,hv,hm,hn⟩ := ht
        have he := enterBlock_entered hsi₁ hv
        simp only at hs ⊢
        rw [he.closure] at hs ⊢
        have hw : (m₁.enterBlock b).1.world=s₁.world.setClass v.closure.klass := he.sim.world
        rw [hw,h.world] at hs ⊢
        have hbo := ihb v.closure.function _
          (he.sim.setWorld ((s₁.world.setClass v.closure.klass).alloc args).1)
          fun e he => hs e (mem_after_log (mem_cons_of_mem _ he))
        obtain ⟨ids₂,hsi₂,hk₂,hr,hra⟩ := hbo
        obtain ⟨hsi₃,hk₃⟩ := leaveBlock_agrees he hv.id hsi₂ hk₂ s.world.currentClass target
        exact .after hsi₃ (hk₃.congr_left hm hn) hr (congrArg (v.closure::·) hra) hs (ihr env hsi₃)

def VM.init (w : World) : VM := ⟨w,fun _ => ⟨⟨⟨0,[],[]⟩,0,0,[],[]⟩,false,false⟩,0,fun _ => none,[],[]⟩

def State.init (w : World) : State := ⟨w,[],[],0⟩

lemma sim_init (w : World) : Sim (fun _ => none) (VM.init w) (State.init w) where
  world := rfl
  unique := nofun
  old := nofun
  cache := nofun
  current := .nil
  procs := .nil
  isProc := nofun

lemma exec_fresh_safe (code : Code) (env : Env) (m : VM) :
    ∀ e ∈ (exec false code env m).log, Safe e := by
  have ha : ∀ (r : Run) raised (m' : VM) (log : List Event), (∀ e ∈ log, Safe e) →
      (∀ e ∈ r.log, Safe e) → ∀ e ∈ (r.after raised m' log).log, Safe e := by
    intro r raised m' log hl hr
    cases raised with
    | true => exact hl
    | false => exact forall_mem_append.mpr ⟨hl,hr⟩
  induction code generalizing env m with
  | done | raise => exact nofun
  | look next ih => exact ih _ env m
  | assign i v rest ih | setClass klass rest ih | makeProc rest ih => exact ih env _
  | rescue body rest ihb ihr => exact ha _ _ _ _ (ihb env m) (ihr env _)
  | call arg recv args body rest ihb ihr =>
    simp only [exec]
    split
    · exact nofun
    · rename_i m₁ b log hp
      refine ha _ _ _ _ (forall_mem_append.mpr ⟨?_,ihb _ _⟩) (ihr env _)
      cases arg with
      | none | current =>
        cases hp
        exact nofun
      | literal f =>
        cases hp
        exact forall_mem_singleton.mpr nofun
      | proc i =>
        obtain ⟨b',_,hb'⟩ := Option.map_eq_some_iff.mp hp
        cases hb'
        exact nofun
  | invoke target args body rest ihb ihr =>
    simp only [exec]
    split
    · exact nofun
    · exact ha _ _ _ _ (forall_mem_cons.mpr ⟨trivial,ihb _ _ _⟩) (ihr env _)

/-- If no literal is evaluated into a record that an unfinished call holds, every yield and every
call of a Proc runs its block with what the evaluation that made it captured, and a VM that never
reuses a record runs the same blocks. -/
theorem reuse_unobservable (code : Code) (env : Env) (w : World)
    (hsafe : ∀ e ∈ (exec true code env (VM.init w)).log, Safe e) :
    ranOf (exec true code env (VM.init w)).log = (eval code env (State.init w)).ran ∧
      ranOf (exec true code env (VM.init w)).log = ranOf (exec false code env (VM.init w)).log ∧
      (exec true code env (VM.init w)).raised = (exec false code env (VM.init w)).raised := by
  obtain ⟨_,_,_,hr,hra⟩ := exec_agrees true code env (sim_init w) hsafe
  obtain ⟨_,_,_,hr',hra'⟩ :=
    exec_agrees false code env (sim_init w) (exec_fresh_safe code env (VM.init w))
  exact ⟨hra,hra.trans hra'.symm,hr.trans hr'.symm⟩

/-- `2.times { g { x } }` with `def g; yield; end`, as the two calls of `g`. -/
def repeatedCalls : Code :=
  .call (.literal ⟨0,[0],[]⟩) 5 [] (.invoke .yield [] (fun _ => .done) .done)
    (.call (.literal ⟨0,[0],[]⟩) 5 [] (.invoke .yield [] (fun _ => .done) .done) .done)

lemma repeatedCalls_log : (exec true repeatedCalls ⟨7,[9]⟩ (VM.init ⟨0,fun _ => 0,10⟩)).log =
    [.prepared false false,.ran ⟨⟨0,[0],[]⟩,7,0,[9],[]⟩,
      .prepared true false,.ran ⟨⟨0,[0],[]⟩,7,0,[9],[]⟩] := by decide

theorem repeatedCalls_unobservable :
    (∀ e ∈ (exec true repeatedCalls ⟨7,[9]⟩ (VM.init ⟨0,fun _ => 0,10⟩)).log, Safe e) ∧
      ranOf (exec true repeatedCalls ⟨7,[9]⟩ (VM.init ⟨0,fun _ => 0,10⟩)).log =
        ranOf (exec false repeatedCalls ⟨7,[9]⟩ (VM.init ⟨0,fun _ => 0,10⟩)).log := by
  have hs : ∀ e ∈ (exec true repeatedCalls ⟨7,[9]⟩ (VM.init ⟨0,fun _ => 0,10⟩)).log, Safe e := by
    rw [repeatedCalls_log]
    simp [Safe]
  exact ⟨hs,(reuse_unobservable _ _ _ hs).2.1⟩

/-- `def f(n); g(n) { n }; end; def g(n); f(n-1) if n > 0; yield; end` called as `f(1)`. -/
def recursiveCalls : Code :=
  .call .none 7 [1] (.call (.literal ⟨0,[0],[]⟩) 7 [1]
    (.call .none 7 [0]
      (.call (.literal ⟨0,[0],[]⟩) 7 [0] (.invoke .yield [] (fun _ => .done) .done) .done)
      (.invoke .yield [] (fun _ => .done) .done)) .done) .done

/-- The inner evaluation of the literal writes over the block of the outer call of `g`, which then
yields to a block that captured the inner `n`. -/
theorem pending_block_is_overwritten :
    ranOf (exec true recursiveCalls ⟨7,[]⟩ (VM.init ⟨0,fun _ => 0,0⟩)).log =
        [⟨⟨0,[0],[]⟩,7,0,[2],[]⟩,⟨⟨0,[0],[]⟩,7,0,[2],[]⟩] ∧
      ranOf (exec false recursiveCalls ⟨7,[]⟩ (VM.init ⟨0,fun _ => 0,0⟩)).log =
        [⟨⟨0,[0],[]⟩,7,0,[2],[]⟩,⟨⟨0,[0],[]⟩,7,0,[0],[]⟩] := by
  constructor <;> decide
end MacRuby.BlockReuse
