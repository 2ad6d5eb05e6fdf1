import Mathlib.Data.List.Nodup
import Mathlib.Algebra.Order.Group.Nat

/-!
# The stack of bindings along a call tree

The compiler pushes a binding before the dispatch of an eval-like selector, and
`rb_vm_dispatch` pops one after every dispatch that returns normally. Code with
an explicit binding is bracketed by `rb_vm_add_binding` and `rb_vm_pop_binding`,
which neither retain nor release. An exception passes the pops by.

A run logs how each call finishes and what each eval-like method reads as the
current binding. The log is right exactly when ordinary calls return only to an
empty stack and no call that has a binding is left by an exception.
-/
namespace MacRuby.BindingStack
open List

/-- A binding: one that `rb_vm_push_binding` makes, or that of a Binding object. -/
inductive Ref
  | pushed (n : ℕ)
  | explicit (n : ℕ)
  deriving DecidableEq

structure VM where
  /-- The last binding first. -/
  bindings : List Ref
  /-- The number of the next binding that is made. -/
  next : ℕ
  /-- The bindings given to `rb_objc_retain` and `rb_objc_release`. -/
  retained : List Ref
  released : List Ref
  deriving DecidableEq

inductive Kind
  /-- A dispatch of any other selector. -/
  | ordinary
  /-- A dispatch of `eval`, `instance_eval`, `class_eval`, `module_eval`, `local_variables`
  or `binding`. -/
  | evalLike
  /-- Code between `rb_vm_add_binding` and `rb_vm_pop_binding`. -/
  | explicit (n : ℕ)
  /-- A call from C, without `rb_vm_dispatch`. -/
  | internal
  deriving DecidableEq

inductive Code
  | done
  | raise
  /-- `rb_vm_current_binding`, read by the method itself. -/
  | read (rest : Code)
  | call (kind : Kind) (body rest : Code)
  /-- A body whose exception is rescued. -/
  | rescue (body rest : Code)

inductive Event
  | finish (kind : Kind) (raised : Bool) (before after : List Ref)
  | read (own : Ref) (got : Option Ref)
  deriving DecidableEq

structure Run where
  vm : VM
  raised : Bool
  events : List Event
  deriving DecidableEq

/-- `push_current_binding`. -/
def VM.push (s : VM) (b : Ref) (retain : Bool) : VM :=
  {s with bindings := b::s.bindings, retained := if retain then s.retained++[b] else s.retained}

/-- `pop_current_binding`. -/
def VM.pop (s : VM) (release : Bool) : VM :=
  match s.bindings with
  | [] => s
  | b::bs => {s with bindings := bs, released := if release then s.released++[b] else s.released}

def VM.enter (s : VM) : Kind → VM × Option Ref
  | .evalLike => ({s with next := s.next+1}.push (.pushed s.next) true,some (.pushed s.next))
  | .explicit n => (s.push (.explicit n) false,none)
  | .ordinary => (s,none)
  | .internal => (s,none)

def VM.leave (s : VM) : Kind → VM
  | .evalLike => s.pop true
  | .ordinary => s.pop true
  | .explicit _ => s.pop false
  | .internal => s

def finished (kind : Kind) (r : Run) : VM := if r.raised then r.vm else r.vm.leave kind

/-- Run code of a method for which the binding `own` was pushed, if any. -/
def exec : Code → Option Ref → VM → Run
  | .done,_,s => ⟨s,false,[]⟩
  | .raise,_,s => ⟨s,true,[]⟩
  | .read rest,own,s =>
    let r := exec rest own s
    {r with events := (own.map fun b => Event.read b s.bindings.head?).toList++r.events}
  | .call kind body rest,own,s =>
    let r := exec body (s.enter kind).2 (s.enter kind).1
    let s' := finished kind r
    let log := r.events++[.finish kind r.raised s.bindings s'.bindings]
    if r.raised then ⟨s',true,log⟩
    else
      let r' := exec rest own s'
      {r' with events := log++r'.events}
  | .rescue body rest,own,s =>
    let r := exec body own s
    let r' := exec rest own r.vm
    {r' with events := r.events++r'.events}

/-- A call finishes with the stack it started with; a method reads its own binding. -/
def Right : Event → Prop
  | .finish _ _ before after => after=before
  | .read own got => got=some own

/-- The step is safe: an ordinary call that returns was made with an empty stack, and a call
with a binding is not left by an exception. -/
def Safe : Event → Prop
  | .finish .ordinary raised before _ => raised=false → before=[]
  | .finish .evalLike raised _ _ => raised=false
  | .finish (.explicit _) raised _ _ => raised=false
  | .finish .internal _ _ _ => True
  | .read _ _ => True

/-- Every call of the run is right, and each binding that the run retains it releases once. -/
structure Balanced (s : VM) (r : Run) : Prop where
  right : ∀ e ∈ r.events, Right e
  released : ∃ bs bs', r.vm.retained=s.retained++bs ∧ r.vm.released=s.released++bs' ∧ bs.Nodup ∧
    bs'.Perm bs

variable {s : VM} {own : Option Ref}

lemma enter_bindings (s : VM) (kind : Kind) : (s.enter kind).1.bindings=match kind with
      | .evalLike => .pushed s.next::s.bindings
      | .explicit n => .explicit n::s.bindings
      | .ordinary => s.bindings
      | .internal => s.bindings := by
  cases kind <;> rfl

lemma enter_own (s : VM) (kind : Kind) :
    (s.enter kind).2=none ∨ (s.enter kind).1.bindings.head? = (s.enter kind).2 := by
  cases kind with
  | evalLike => exact .inr rfl
  | explicit | ordinary | internal => exact .inl rfl

@[simp] lemma pop_bindings (s : VM) (release : Bool) :
    (s.pop release).bindings=s.bindings.tail := by
  unfold VM.pop
  split
  all_goals
    rename_i h
    rw [h]
    rfl

lemma leave_bindings (s : VM) (kind : Kind) :
    (s.leave kind).bindings=if kind=.internal then s.bindings else s.bindings.tail := by
  cases kind <;> simp [VM.leave]

lemma tail_eq_self_iff {α : Type*} (xs : List α) : xs.tail=xs ↔ xs=[] := by
  cases xs <;> simp

/-- Where the body leaves the stack as it found it, the call is right exactly when it is safe. -/
lemma finish_right_iff (kind : Kind) (r : Run) (hr : r.vm.bindings=(s.enter kind).1.bindings) :
    Right (.finish kind r.raised s.bindings (finished kind r).bindings) ↔
      Safe (.finish kind r.raised s.bindings (finished kind r).bindings) := by
  rw [enter_bindings] at hr
  cases hra : r.raised with
  | true =>
    -- the exception passes the pop by, so a binding that was pushed stays
    cases kind <;> simp [Right,Safe,finished,hra,hr]
  | false =>
    cases kind <;> simp [Right,Safe,finished,hra,hr,leave_bindings,tail_eq_self_iff]

lemma exec_bindings (code : Code) (own : Option Ref) (s : VM)
    (h : ∀ e ∈ (exec code own s).events, Right e) : (exec code own s).vm.bindings=s.bindings := by
  induction code generalizing own s with
  | done | raise => rfl
  | read rest ih =>
    exact ih own s fun e he => h e (mem_append_right _ he)
  | call kind body rest _ ih =>
    cases hr : (exec body (s.enter kind).2 (s.enter kind).1).raised with
    | true =>
      simp only [exec,hr] at h ⊢
      exact h _ (mem_append_right _ (mem_singleton_self _))
    | false =>
      simp only [exec,hr] at h ⊢
      have hf := h _ (mem_append_left _ (mem_append_right _ (mem_singleton_self _)))
      have hre := ih own _ fun e he => h e (mem_append_right _ he)
      exact hre.trans hf
  | rescue body rest ihb ihr =>
    have hb := ihb own s fun e he => h e (mem_append_left _ he)
    have hre := ihr own _ fun e he => h e (mem_append_right _ he)
    exact hre.trans hb

lemma exec_right_iff (code : Code) (own : Option Ref) (s : VM)
    (ho : own=none ∨ s.bindings.head? = own) :
    (∀ e ∈ (exec code own s).events, Right e) ↔ ∀ e ∈ (exec code own s).events, Safe e := by
  induction code generalizing own s with
  | done | raise => simp [exec]
  | read rest ih =>
    have hre : ∀ e ∈ (own.map fun b => Event.read b s.bindings.head?).toList, Right e ∧ Safe e := by
      intro e he
      cases own with
      | none => cases he
      | some b =>
        cases mem_singleton.mp he
        exact ⟨ho.resolve_left (by simp),trivial⟩
    simp only [exec,forall_mem_append]
    exact and_congr ⟨fun _ e he => (hre e he).2,fun _ e he => (hre e he).1⟩ (ih own s ho)
  | call kind body rest ihb ihr =>
    have hb := ihb (s.enter kind).2 (s.enter kind).1 (enter_own s kind)
    have hl : (∀ e ∈ (exec body (s.enter kind).2 (s.enter kind).1).events, Right e) ∧
          Right (.finish kind (exec body (s.enter kind).2 (s.enter kind).1).raised s.bindings
            (finished kind (exec body (s.enter kind).2 (s.enter kind).1)).bindings) ↔
        (∀ e ∈ (exec body (s.enter kind).2 (s.enter kind).1).events, Safe e) ∧
          Safe (.finish kind (exec body (s.enter kind).2 (s.enter kind).1).raised s.bindings
            (finished kind (exec body (s.enter kind).2 (s.enter kind).1)).bindings) := by
      rw [← hb]
      exact and_congr_right fun h => finish_right_iff kind _ (exec_bindings body _ _ h)
    cases hr : (exec body (s.enter kind).2 (s.enter kind).1).raised with
    | true =>
      rw [hr] at hl
      simp only [exec,hr,if_true,forall_mem_append,forall_mem_singleton]
      exact hl
    | false =>
      rw [hr] at hl
      simp only [exec,hr,Bool.false_eq_true,if_false,forall_mem_append, forall_mem_singleton]
      rw [← hl]
      refine and_congr_right fun h => ihr own _ ?_
      have hs : (finished kind (exec body (s.enter kind).2 (s.enter kind).1)).bindings =
        s.bindings := h.2
      rw [hs]
      exact ho
  | rescue body rest ihb ihr =>
    simp only [exec,forall_mem_append]
    rw [← ihb own s ho]
    refine and_congr_right fun h => ihr own _ ?_
    rw [exec_bindings body own s h]
    exact ho

variable {t u : VM}

/-- From `s` to `t` the bindings that were retained are new, and each was released once. -/
structure Settled (s t : VM) : Prop where
  next : s.next ≤ t.next
  lists : ∃ bs bs', t.retained=s.retained++bs ∧ t.released=s.released++bs' ∧ bs.Nodup ∧
    bs'.Perm bs ∧ ∀ b ∈ bs, ∃ n, b=.pushed n ∧ s.next ≤ n ∧ n < t.next

lemma Settled.refl (s : VM) : Settled s s :=
  ⟨le_rfl,[],[],by simp⟩

lemma Settled.trans (h : Settled s t) (h' : Settled t u) : Settled s u := by
  obtain ⟨hne,bs,rs,hbs,hr,hno,hp,hnew⟩ := h
  obtain ⟨hne',bs',rs',hbs',hr',hno',hp',hnew'⟩ := h'
  have hd : Disjoint bs bs' := by
    intro b hb hb'
    obtain ⟨n,rfl,_,hn⟩ := hnew b hb
    obtain ⟨m,hm,hm',_⟩ := hnew' _ hb'
    cases hm
    omega
  refine ⟨hne.trans hne',bs++bs',rs++rs',?_,?_,hno.append hno' hd, hp.append hp',?_⟩
  · rw [hbs',hbs,append_assoc]
  · rw [hr',hr,append_assoc]
  · intro b hb
    cases mem_append.mp hb with
    | inl hb =>
      obtain ⟨n,h₁,h₂,h₃⟩ := hnew b hb
      exact ⟨n,h₁,h₂,h₃.trans_le hne'⟩
    | inr hb =>
      obtain ⟨n,h₁,h₂,h₃⟩ := hnew' b hb
      exact ⟨n,h₁,hne.trans h₂,h₃⟩

/-- The call of an eval-like method: its binding is the first that it retains and the last
that it releases. -/
lemma settled_evalLike (h : Settled (s.enter .evalLike).1 t)
    (ht : t.bindings=.pushed s.next::s.bindings) : Settled s (t.pop true) := by
  obtain ⟨hnex,bs,rs,hbs,hr,hno,hp,hne⟩ := h
  have hl : s.next < t.next := hnex
  have hf : Ref.pushed s.next ∉ bs := by
    intro hb
    obtain ⟨n,hn,hle,_⟩ := hne _ hb
    cases hn
    exact absurd hle (Nat.not_succ_le_self _)
  have hpo : t.pop true =
      {t with bindings := s.bindings, released := t.released++[.pushed s.next]} := by
    simp [VM.pop,ht]
  rw [hpo]
  refine ⟨hl.le,.pushed s.next::bs,rs++[.pushed s.next],?_,?_,nodup_cons.mpr ⟨hf,hno⟩,
    (perm_append_singleton _ _).trans (hp.cons _),?_⟩
  · simpa [VM.enter,VM.push] using hbs
  · change t.released++[.pushed s.next]=_
    rw [hr,append_assoc]
    rfl
  · intro b hb
    cases mem_cons.mp hb with
    | inl hb => exact ⟨s.next,hb,le_rfl,hl⟩
    | inr hb =>
      obtain ⟨n,h₁,h₂,h₃⟩ := hne b hb
      exact ⟨n,h₁,(Nat.le_succ _).trans h₂,h₃⟩

lemma settled_finished (kind : Kind) (r : Run) (h : Settled (s.enter kind).1 r.vm)
    (hr : r.vm.bindings=(s.enter kind).1.bindings)
    (hs : Safe (.finish kind r.raised s.bindings (finished kind r).bindings)) :
    Settled s (finished kind r) := by
  unfold finished
  cases kind with
  | internal => simpa [VM.leave,VM.enter] using h
  | ordinary =>
    split
    · exact h
    · rename_i hra
      have he : r.vm.bindings=[] := hr.trans (hs (by simpa using hra))
      simpa [VM.leave,VM.pop,VM.enter,he] using h
  | evalLike =>
    have hra : r.raised=false := hs
    rw [if_neg (by simp [hra])]
    exact settled_evalLike h hr
  | explicit n =>
    have hra : r.raised=false := hs
    have hp : r.vm.pop false={r.vm with bindings := s.bindings} := by
      simp [VM.pop,hr,VM.enter,VM.push]
    rw [if_neg (by simp [hra])]
    change Settled s (r.vm.pop false)
    rw [hp]
    exact ⟨h.next,h.lists⟩

lemma exec_settled (code : Code) (own : Option Ref) (s : VM)
    (ho : own=none ∨ s.bindings.head? = own)
    (h : ∀ e ∈ (exec code own s).events, Right e) : Settled s (exec code own s).vm := by
  induction code generalizing own s with
  | done | raise => exact .refl s
  | read rest ih =>
    exact ih own s ho fun e he => h e (mem_append_right _ he)
  | call kind body rest ihb ihr =>
    have hl : ∀ e ∈ (exec body (s.enter kind).2 (s.enter kind).1).events ++
        [.finish kind (exec body (s.enter kind).2 (s.enter kind).1).raised s.bindings
          (finished kind (exec body (s.enter kind).2 (s.enter kind).1)).bindings], Right e := by
      intro e he
      apply h
      simp only [exec]
      split
      · exact he
      · exact mem_append_left _ he
    rw [forall_mem_append,forall_mem_singleton] at hl
    have hs := exec_bindings body _ _ hl.1
    have hc := settled_finished kind _ (ihb _ _ (enter_own s kind) hl.1) hs
      ((finish_right_iff kind _ hs).mp hl.2)
    simp only [exec] at h ⊢
    split
    · exact hc
    · rename_i hr
      rw [if_neg hr] at h
      refine hc.trans (ihr own _ ?_ fun e he => h e (mem_append_right _ he))
      rw [hl.2]
      exact ho
  | rescue body rest ihb ihr =>
    simp only [exec,forall_mem_append] at h ⊢
    refine (ihb own s ho h.1).trans (ihr own _ ?_ h.2)
    rw [exec_bindings body own s h.1]
    exact ho

/-- In every run every call finishes with the stack it started with, every eval-like method reads
its own binding and every retained binding is released once, exactly when each ordinary call that
returns was made with an empty stack and no call with a binding is left by an exception. -/
theorem bindings_balanced_iff (code : Code) (s : VM) :
    Balanced s (exec code none s) ↔ ∀ e ∈ (exec code none s).events, Safe e := by
  rw [← exec_right_iff code none s (.inl rfl)]
  constructor
  · intro h
    exact h.right
  · intro h
    obtain ⟨_,bs,bs',hb,hb',hn,hp,_⟩ := exec_settled code none s (.inl rfl) h
    exact ⟨h,bs,bs',hb,hb',hn,hp⟩

/-- The call `eval("foo")` with an empty stack: `eval` reads its binding and runs the code, where the
ordinary call of `foo` finishes with the binding of `eval` popped and released. -/
theorem ordinary_call_pops_binding_of_eval :
    (exec (.call .evalLike (.read (.call .ordinary .done .done)) .done) none ⟨[],0,[],[]⟩).events =
        [.read (.pushed 0) (some (.pushed 0)),.finish .ordinary false [.pushed 0] [],
          .finish .evalLike false [] []] ∧ ¬ Balanced ⟨[],0,[],[]⟩
        (exec (.call .evalLike (.read (.call .ordinary .done .done)) .done) none ⟨[],0,[],[]⟩) := by
  constructor
  · decide
  · intro h
    have hr : Right (.finish .ordinary false [.pushed 0] []) := h.right _ (by decide)
    cases hr

end MacRuby.BindingStack
