import Mathlib.Data.List.Basic
import Mathlib.Order.Nat

/-!
# Current blocks and the current class along a call tree

A Ruby call pushes its block unless that block is on top already, a yield pops
the top block for the time in which it runs, and evaluations under another self
rewrite the block meanwhile. Everything is undone by destructors, on normal
returns and on C++ exceptions alike. A call tree is given by the calls that
each piece of code makes, in order, each with the code that it runs in turn.

The code of a method runs under a dispatch, so a block is on the stack there
(possibly a null pointer); `rb_mod_module_exec` relies on that.
-/
namespace MacRuby.CallTree
open Function List

/-- The fields of `rb_vm_block_t` that decide how a block is run. -/
structure Block where
  self : ℕ
  klass : ℕ
  active : Bool
  ifunc : Bool
  empty : Bool
  lambda : Bool
  arityMin : ℤ
  arityMax : ℤ
deriving DecidableEq, Repr

/-- The part of a `RoxorVM` that calls change, and the blocks in memory. The top
of the stack of current blocks comes first; `none` is a null pointer. -/
structure VM where
  blocks : List (Option ℕ)
  currentClass : ℕ
  memory : ℕ → Block
  next : ℕ

inductive Crash
  | popEmpty
  | nullBlock
deriving DecidableEq, Repr

/-- Where code runs: right in the body of a called method, or elsewhere. -/
inductive Place
  | method
  | other
deriving DecidableEq, Repr

inductive Node : Place → Type
  | dispatch {p : Place} (block : Option ℕ) : Node p
  | hashNew {p : Place} (block : ℕ) : Node p
  | yield0 {p : Place} (argc : ℤ) : Node p
  | yieldUnder {p : Place} (klass self : ℕ) (argc : ℤ) : Node p
  | moduleExec (mod : ℕ) (argc : ℤ) : Node .method
  | blockEval0 {p : Place} (block : ℕ) (argc : ℤ) : Node p

def Node.bodyPlace {p : Place} : Node p → Place
  | .dispatch _ => .method
  | _ => .other

/-- Code as a tree of calls. An exception that leaves a call may be rescued;
otherwise it leaves the code as well. A block made from a method has one
dispatch as its code. -/
inductive Code : Place → Type
  | done {p : Place} : Code p
  | raise {p : Place} : Code p
  | call {p : Place} (n : Node p) (body : Code n.bodyPlace) (rescued : Bool) (rest : Code p) : Code p

inductive Finally
  | popBlock
  | pushBlock (block : ℕ)
  | restoreClass (klass : ℕ)
  | clearActive (block : ℕ)
  | restoreBlock (block self klass : ℕ)
deriving DecidableEq, Repr

/-- `is_block_current`; a null pointer never is. -/
def VM.isBlockCurrent (s : VM) (b : Option ℕ) : Bool :=
  match b with
  | none => false
  | some _ => s.blocks.head? == some b

def VM.addCurrentBlock (s : VM) (b : Option ℕ) : VM := {s with blocks := b::s.blocks}

def VM.popCurrentBlock (s : VM) : Except Crash VM :=
  match s.blocks with
  | [] => .error .popEmpty
  | _::bs => .ok {s with blocks := bs}

/-- `current_block`; the null pointer when there is none. -/
def VM.currentBlock (s : VM) : Option ℕ := s.blocks.headD none

def VM.setBlock (s : VM) (b : ℕ) (block : Block) : VM :=
  {s with memory := update s.memory b block}

def Finally.run (s : VM) : Finally → Except Crash VM
  | .popBlock => s.popCurrentBlock
  | .pushBlock b => .ok (s.addCurrentBlock (some b))
  | .restoreClass klass => .ok {s with currentClass := klass}
  | .clearActive b => .ok (s.setBlock b {s.memory b with active := false})
  | .restoreBlock b self klass =>
    .ok (s.setBlock b {s.memory b with self := self,klass := klass})

def unwind : List Finally → VM → Except Crash VM
  | [],s => .ok s
  | f::fs,s => (f.run s).bind (unwind fs)

/-- What a call does after its entry: run code, or finish at once. -/
inductive Entry
  | body
  | finish (raised : Bool)
deriving DecidableEq, Repr

/-- The state after the entry of a call, and the destructors that are due. -/
structure Entered where
  vm : VM
  finals : List Finally
  entry : Entry

/-- `rb_vm_dup_active_block`. -/
def VM.dupActiveBlock (s : VM) (b : ℕ) : VM × ℕ :=
  ({s.setBlock s.next {s.memory b with active := false} with next := s.next+1},s.next)

def arityError (b : Block) (argc : ℤ) : Bool :=
  decide (argc < b.arityMin ∨ argc > b.arityMax) && decide (b.arityMax ≠ -1) && b.lambda

/-- `rb_vm_block_eval0` up to the code of the block. -/
def enterBlock (s : VM) (b : ℕ) (argc : ℤ) : Entered :=
  if (s.memory b).ifunc then ⟨s,[],.body⟩
  else if (s.memory b).empty then ⟨s,[],.finish false⟩
  else if arityError (s.memory b) argc then ⟨s,[],.finish true⟩
  else
    let r := if (s.memory b).active then s.dupActiveBlock b else (s,b)
    let block := r.1.memory r.2
    ⟨{r.1.setBlock r.2 {block with active := true} with currentClass := block.klass},
      [.clearActive r.2,.restoreClass s.currentClass],.body⟩

/-- `rb_vm_yield_under`. -/
def enterUnder (s : VM) (klass self : ℕ) (argc : ℤ) : Except Crash Entered :=
  match s.popCurrentBlock with
  | .error c => .error c
  | .ok s' => match s.currentBlock with
      | none => .error .nullBlock
      | some b =>
        let old := s'.memory b
        let e := enterBlock (s'.setBlock b {old with self := self,klass := klass}) b argc
        .ok {e with finals := e.finals++[.restoreBlock b old.self old.klass,.pushBlock b]}

def enter {p : Place} (s : VM) : Node p → Except Crash Entered
  | .dispatch block =>
    let s' := if s.isBlockCurrent block then s else s.addCurrentBlock block
    .ok ⟨{s' with currentClass := 0},
      (if s.isBlockCurrent block then [] else [.popBlock])++[.restoreClass s.currentClass],.body⟩
  | .hashNew block => .ok ⟨s.addCurrentBlock (some block),[.popBlock],.body⟩
  | .yield0 argc => match s.currentBlock with
      | none => .ok ⟨s,[],.finish true⟩
      | some b => match s.popCurrentBlock with
          | .error c => .error c
          | .ok s' =>
            let e := enterBlock s' b argc
            .ok {e with finals := e.finals++[.pushBlock b]}
  | .yieldUnder klass self argc =>
    if s.currentBlock=none then .ok ⟨s,[],.finish true⟩ else enterUnder s klass self argc
  | .moduleExec mod argc => enterUnder s mod mod argc
  | .blockEval0 b argc => .ok (enterBlock s b argc)

inductive Outcome
  | finished (raised : Bool)
  | crashed (why : Crash)
deriving DecidableEq, Repr

/-- The end of some code, with the states at the start and at the end of every
call in it that finished. -/
structure Trace where
  vm : VM
  outcome : Outcome
  calls : List (VM × VM)

def exec {p : Place} : Code p → VM → Trace
  | .done,s => ⟨s,.finished false,[]⟩
  | .raise,s => ⟨s,.finished true,[]⟩
  | .call n body rescued rest,s =>
    match enter s n with
    | .error c => ⟨s,.crashed c,[]⟩
    | .ok e =>
      let inner := match e.entry with
        | .body => exec body e.vm
        | .finish raised => ⟨e.vm,.finished raised,[]⟩
      match inner.outcome with
      | .crashed c => ⟨inner.vm,.crashed c,inner.calls⟩
      | .finished raised => match unwind e.finals inner.vm with
          | .error c => ⟨inner.vm,.crashed c,inner.calls⟩
          | .ok s' =>
            let calls := inner.calls++[(s,s')]
            if raised && !rescued then ⟨s',.finished true,calls⟩
            else
              let after := exec rest s'
              {after with calls := calls++after.calls}

/-- Nothing is left of what happened between two states: the stack of blocks, the
current class and the blocks that existed are as they were. -/
structure Same (s t : VM) : Prop where
  blocks : t.blocks=s.blocks
  currentClass : t.currentClass=s.currentClass
  next : s.next ≤ t.next
  memory : ∀ b < s.next, t.memory b=s.memory b

lemma Same.refl (s : VM) : Same s s := ⟨rfl,rfl,le_rfl,fun _ _ => rfl⟩

lemma Same.trans {s t u : VM} (h : Same s t) (h' : Same t u) : Same s u where
  blocks := h'.blocks.trans h.blocks
  currentClass := h'.currentClass.trans h.currentClass
  next := h.next.trans h'.next
  memory b hb := (h'.memory b (hb.trans_le h.next)).trans (h.memory b hb)

/-- The destructors of a call undo its entry, whatever balanced code ran between. -/
def Undoes (s : VM) (e : Entered) : Prop :=
  ∀ t, Same e.vm t → ∃ u, unwind e.finals t=.ok u ∧ Same s u

lemma unwind_append (fs gs : List Finally) (s : VM) :
    unwind (fs++gs) s=(unwind fs s).bind (unwind gs) := by
  induction fs generalizing s with
  | nil => rfl
  | cons f fs ih =>
    simp only [cons_append,unwind]
    cases hf : f.run s with
    | error c => rfl
    | ok t => exact ih t

lemma unwind_of_undoes {s t : VM} {e : Entered} (h : Undoes s e) (ht : Same e.vm t)
    (gs : List Finally) : ∃ u, unwind (e.finals++gs) t=unwind gs u ∧ Same s u := by
  obtain ⟨u,hu,hs⟩ := h t ht
  refine ⟨u,?_,hs⟩
  rw [unwind_append,hu]
  rfl

variable {s : VM} {e : Entered}

/-- An inactive block is marked while it runs; an active one is copied first, and
the copy is marked. -/
lemma enterBlock_undoes (s : VM) (b : ℕ) (argc : ℤ) : Undoes s (enterBlock s b argc) := by
  unfold enterBlock
  split_ifs with hi he har ha
  · exact fun t ht => ⟨t,rfl,ht⟩
  · exact fun t ht => ⟨t,rfl,ht⟩
  · exact fun t ht => ⟨t,rfl,ht⟩
  · intro t ht
    refine ⟨_,rfl,ht.blocks,rfl,?_,?_⟩
    · exact (Nat.le_succ _).trans ht.next
    · intro c hc
      have hn : c ≠ s.next := by omega
      have hm := ht.memory c (Nat.lt_succ_of_lt hc)
      simp only [VM.dupActiveBlock,VM.setBlock,update_of_ne hn] at hm ⊢
      exact hm
  · intro t ht
    refine ⟨_,rfl,ht.blocks,rfl,ht.next,?_⟩
    intro c hc
    have hm := ht.memory c hc
    simp only [VM.setBlock] at hm ⊢
    by_cases hcb : c=b
    · subst hcb
      rw [update_self] at hm ⊢
      rw [hm]
      simp only [Bool.not_eq_true] at ha
      rw [← ha]
    · rw [update_of_ne hcb] at hm ⊢
      exact hm

lemma undoes_pushBlock {s' : VM} {b : ℕ} {bs : List (Option ℕ)} (hs : s.blocks=some b::bs)
    (hs' : s'={s with blocks := bs}) (he : Undoes s' e) :
    Undoes s {e with finals := e.finals++[.pushBlock b]} := by
  intro t ht
  obtain ⟨u,hu,hsa⟩ := unwind_of_undoes he ht [.pushBlock b]
  rw [hs'] at hsa
  refine ⟨u.addCurrentBlock (some b),hu,?_,hsa.currentClass,hsa.next,hsa.memory⟩
  rw [VM.addCurrentBlock,hsa.blocks,hs]

lemma undoes_restoreBlock (s : VM) (b self klass : ℕ)
    (he : Undoes (s.setBlock b {s.memory b with self := self,klass := klass}) e) :
    Undoes s {e with finals := e.finals++[.restoreBlock b (s.memory b).self (s.memory b).klass]} := by
  intro t ht
  obtain ⟨u,hu,hs⟩ := unwind_of_undoes he ht [.restoreBlock b (s.memory b).self (s.memory b).klass]
  refine ⟨_,hu,hs.blocks,hs.currentClass,hs.next,?_⟩
  intro c hc
  have hm := hs.memory c hc
  simp only [VM.setBlock] at hm ⊢
  by_cases hcb : c=b
  · subst hcb
    rw [update_self] at hm ⊢
    rw [hm]
  · rw [update_of_ne hcb] at hm ⊢
    exact hm

/-- What every entry guarantees: it does not pop an empty stack, it leaves a block
on the stack for the body of a method, and its destructors undo it. -/
structure Sound (s : VM) (place : Place) (r : Except Crash Entered) : Prop where
  noUnderflow : r ≠ .error .popEmpty
  onStack : ∀ e, r=.ok e → place=.method → e.vm.blocks ≠ []
  undoes : ∀ e, r=.ok e → Undoes s e

lemma sound_ok {place : Place} (hp : place=.method → e.vm.blocks ≠ [])
    (he : Undoes s e) : Sound s place (.ok e) where
  noUnderflow := by simp
  onStack := by
    rintro _ ⟨⟩
    exact hp
  undoes := by
    rintro _ ⟨⟩
    exact he

lemma enterUnder_sound (hs : s.blocks ≠ []) (klass self : ℕ) (argc : ℤ) :
    Sound s .other (enterUnder s klass self argc) := by
  rcases hb : s.blocks with _ | ⟨_ | b,bs⟩
  · exact (hs hb).elim
  · simp only [enterUnder,VM.popCurrentBlock,VM.currentBlock,hb]
    exact ⟨by simp,by simp,by simp⟩
  · simp only [enterUnder,VM.popCurrentBlock,VM.currentBlock,hb]
    apply sound_ok (by simp)
    have hr := undoes_restoreBlock {s with blocks := bs} b self klass (enterBlock_undoes _ b argc)
    have hp := undoes_pushBlock hb rfl hr
    simp only [append_assoc] at hp
    exact hp

lemma enter_sound {p : Place} (n : Node p) (hp : p=.method → s.blocks ≠ []) :
    Sound s n.bodyPlace (enter s n) := by
  cases n with
  | dispatch block =>
    simp only [enter]
    split_ifs with hc
    · refine sound_ok ?_ ?_
      · -- the block is on top already
        intro _ hn
        change s.blocks=[] at hn
        cases block <;> simp [VM.isBlockCurrent,hn] at hc
      · exact fun t ht => ⟨_,rfl,ht.blocks,rfl,ht.next,ht.memory⟩
    · refine sound_ok (fun _ => cons_ne_nil _ _) ?_
      intro t ht
      have hpo : t.popCurrentBlock=.ok {t with blocks := s.blocks} := by
        rw [VM.popCurrentBlock,ht.blocks]
        rfl
      refine ⟨{t with blocks := s.blocks,currentClass := s.currentClass},?_,rfl,rfl,ht.next,
        ht.memory⟩
      simp only [cons_append,unwind,Finally.run,hpo]
      rfl
  | hashNew block =>
    refine sound_ok (fun _ => cons_ne_nil _ _) ?_
    intro t ht
    have hpo : t.popCurrentBlock=.ok {t with blocks := s.blocks} := by
      rw [VM.popCurrentBlock,ht.blocks]
      rfl
    refine ⟨{t with blocks := s.blocks},?_,rfl,ht.currentClass,ht.next,ht.memory⟩
    simp only [unwind,Finally.run,hpo]
    rfl
  | yield0 argc =>
    have hs : Undoes s ⟨s,[],.finish true⟩ := fun t ht => ⟨t,rfl,ht⟩
    rcases hb : s.blocks with _ | ⟨_ | b,bs⟩
    · simp only [enter,VM.currentBlock,hb]
      exact sound_ok (by simp [Node.bodyPlace]) hs
    · simp only [enter,VM.currentBlock,hb]
      exact sound_ok (by simp [Node.bodyPlace]) hs
    · simp only [enter,VM.currentBlock,VM.popCurrentBlock,hb]
      exact sound_ok (by simp [Node.bodyPlace])
        (undoes_pushBlock hb rfl (enterBlock_undoes _ b argc))
  | yieldUnder klass self argc =>
    simp only [enter]
    split_ifs with hno
    · exact sound_ok (by simp [Node.bodyPlace]) fun t ht => ⟨t,rfl,ht⟩
    · apply enterUnder_sound
      intro hn
      exact hno (by rw [VM.currentBlock,hn]; rfl)
  | moduleExec mod argc => exact enterUnder_sound (hp rfl) mod mod argc
  | blockEval0 b argc => exact sound_ok (by simp [Node.bodyPlace]) (enterBlock_undoes s b argc)

/-- Code never pops an empty stack, leaves everything as it was if it finishes,
and so does every call in it. -/
structure Balanced (s : VM) (r : Trace) : Prop where
  noUnderflow : r.outcome ≠ .crashed .popEmpty
  same : ∀ raised, r.outcome=.finished raised → Same s r.vm
  calls : ∀ c ∈ r.calls, Same c.1 c.2

lemma exec_balanced {p : Place} (c : Code p) (s : VM) (hp : p=.method → s.blocks ≠ []) :
    Balanced s (exec c s) := by
  induction c generalizing s with
  | done | raise => exact ⟨by simp [exec],fun _ _ => Same.refl s,by simp [exec]⟩
  | call n body rescued rest ihbody ihrest =>
    have hso := enter_sound n hp
    simp only [exec]
    cases he : enter s n with
    | error c =>
      refine ⟨?_,by simp,by simp⟩
      intro hc
      exact hso.noUnderflow (by rw [he,Outcome.crashed.inj hc])
    | ok e =>
      have hun := hso.undoes e he
      -- the call runs its code or finishes at once
      have hi : Balanced e.vm (match e.entry with
          | .body => exec body e.vm
          | .finish raised => ⟨e.vm,.finished raised,[]⟩) := by
        cases e.entry with
        | body => exact ihbody e.vm (hso.onStack e he)
        | finish raised => exact ⟨by simp,fun _ _ => Same.refl _,by simp⟩
      dsimp only
      generalize (match e.entry with
          | .body => exec body e.vm
          | .finish raised => ⟨e.vm,.finished raised,[]⟩)=inner at hi ⊢
      cases ho : inner.outcome with
      | crashed c =>
        refine ⟨?_,by simp,hi.calls⟩
        intro hc
        exact hi.noUnderflow (by rw [ho]; exact hc)
      | finished raised =>
        obtain ⟨u,hu,hs⟩ := hun inner.vm (hi.same raised ho)
        simp only [hu]
        have hca : ∀ c ∈ inner.calls++[(s,u)], Same c.1 c.2 := by
          intro c hc
          rcases mem_append.mp hc with hc | hc
          · exact hi.calls c hc
          · rw [mem_singleton.mp hc]
            exact hs
        split_ifs
        · exact ⟨by simp,fun _ _ => hs,hca⟩
        · have hre := ihrest u fun hm => hs.blocks ▸ hp hm
          refine ⟨hre.noUnderflow,fun r hr => hs.trans (hre.same r hr),?_⟩
          intro c hc
          rcases mem_append.mp hc with hc | hc
          · exact hca c hc
          · exact hre.calls c hc

/-- From any state, and for every call tree: no pop of an empty stack, and every
call that finishes leaves the block stack, the current class and the blocks as
it found them. -/
theorem call_tree_balanced (c : Code .other) (s : VM) :
    (exec c s).outcome ≠ .crashed .popEmpty ∧ ∀ call ∈ (exec c s).calls, Same call.1 call.2 := by
  have h := exec_balanced c s (by simp)
  exact ⟨h.noUnderflow,h.calls⟩

end MacRuby.CallTree
