import MacRuby.Runs
import Mathlib.Data.Int.Notation
import Mathlib.Logic.Function.Basic
import Mathlib.Tactic.SplitIfs

/-!
# Queues with a capacity

`SizedQueue#push` adds its object if there are at most `max` objects, not fewer, so that
there can be one too many. A push that waits does so with more than `max` objects, and
`SizedQueue#pop` wakes no one up before there are fewer than `max`.
-/
namespace MacRuby.SizedQueues
open Runs Function

/-- What a thread does next; `asleep` is set in `Mutex#sleep`. -/
inductive Pc (α : Type*)
  | user
  | push (obj : α) (asleep : Bool)
  | pop (nonBlock asleep : Bool)
  | popped
  | waking (diff : ℕ)

structure State (τ α : Type*) where
  que : List α
  max : ℤ
  waiting : List τ
  queueWait : List τ
  pc : τ → Pc α

/-- A thread calls a method or takes the next step of its call, or it is woken up by something
else. -/
inductive Action (τ α : Type*)
  | push (t : τ) (obj : α)
  | pop (t : τ) (nonBlock : Bool)
  | setMax (t : τ) (max : ℤ)
  | go (t : τ)
  | wake (t : τ)

def Pc.wake {α : Type*} : Pc α → Pc α
  | .push obj _ => .push obj false
  | .pop nonBlock _ => .pop nonBlock false
  | pc => pc

def Pc.blocked {α : Type*} : Pc α → Bool
  | .push _ asleep => asleep
  | _ => false

variable {τ α : Type*} [DecidableEq τ]

def State.goTo (s : State τ α) (t : τ) (pc : Pc α) : State τ α := {s with pc := update s.pc t pc}

def State.wakeup (s : State τ α) : Option τ → State τ α
  | none => s
  | some t => s.goTo t (s.pc t).wake

/-- The next section under the mutex; for `max=`, one of the wakeups after it. -/
def goStep (s : State τ α) (t : τ) : State τ α :=
  match s.pc t with
  | .push obj false =>
    if s.que.length ≤ s.max then
      {s.goTo t .user with que := s.que++[obj], waiting := s.waiting.tail}.wakeup s.waiting.head?
    else {s.goTo t (.push obj true) with queueWait := s.queueWait++[t]}
  | .pop nonBlock false => match s.que with
    | [] =>
      if nonBlock then s.goTo t .user
      else {s.goTo t (.pop nonBlock true) with waiting := s.waiting++[t]}
    | _::que => {s.goTo t .popped with que := que}
  | .popped =>
    if s.que.length < s.max then
      {s.goTo t .user with queueWait := s.queueWait.tail}.wakeup s.queueWait.head?
    else s.goTo t .user
  | .waking (diff+1) =>
    {s.goTo t (.waking diff) with queueWait := s.queueWait.tail}.wakeup s.queueWait.head?
  | .waking 0 => s.goTo t .user
  | _ => s

def callStep (s : State τ α) (t : τ) (called : State τ α) : State τ α :=
  match s.pc t with
  | .user => called
  | _ => s

def step (s : State τ α) : Action τ α → State τ α
  | .push t obj => callStep s t (s.goTo t (.push obj false))
  | .pop t nonBlock => callStep s t (s.goTo t (.pop nonBlock false))
  | .setMax t max => callStep s t {s.goTo t (.waking (max-s.max).toNat) with max := max}
  | .go t => goStep s t
  | .wake t => s.wakeup (some t)

def start (max : ℤ) : State τ α := ⟨[],max,[],[],fun _ => .user⟩

/-- A push does not exceed the capacity, and when a thread has removed an object, it makes a
blocked producer runnable if there is one. -/
def Respects (s : State τ α) : Action τ α → Prop
  | .go t => match s.pc t with
    | .push _ false =>
      s.que.length < (goStep s t).que.length → (goStep s t).que.length ≤ s.max
    | .popped => (∃ u, (s.pc u).blocked) → ∃ u, (s.pc u).blocked ∧ ¬((goStep s t).pc u).blocked
    | _ => True
  | _ => True

/-- A push does not find `max` objects, and where a producer is blocked, a pop leaves fewer
and finds the first producer of the list asleep. -/
def Room (s : State τ α) : Action τ α → Prop
  | .go t => match s.pc t with
    | .push _ false => s.que.length ≠ s.max
    | .popped => (∃ u, (s.pc u).blocked) →
      s.que.length < s.max ∧ ∃ u, s.queueWait.head?=some u ∧ (s.pc u).blocked
    | _ => True
  | _ => True

variable {s : State τ α} {t u : τ}

lemma push_que {obj : α} (hp : s.pc t=.push obj false) :
    (goStep s t).que=if s.que.length ≤ s.max then s.que++[obj] else s.que := by
  simp only [goStep,hp]
  split_ifs
  · cases s.waiting <;> rfl
  · rfl

lemma blocked_wakeup {o : Option τ} (h : (s.pc u).blocked) :
    ¬((s.wakeup o).pc u).blocked ↔ o=some u := by
  cases o with
  | none => exact iff_of_false (not_not.mpr h) fun he => by cases he
  | some t =>
    change ¬(update s.pc t (s.pc t).wake u).blocked ↔ _
    by_cases hu : u=t
    · subst hu
      rw [update_self]
      refine iff_of_true ?_ rfl
      cases s.pc u <;> exact Bool.false_ne_true
    · rw [update_of_ne hu]
      exact iff_of_false (not_not.mpr h) fun he => hu (Option.some.inj he).symm

lemma popped_wakes_iff (hp : s.pc t=.popped) (hu : (s.pc u).blocked) :
    ¬((goStep s t).pc u).blocked ↔ s.que.length < s.max ∧ s.queueWait.head?=some u := by
  have hn : u ≠ t := by
    rintro rfl
    rw [hp] at hu
    cases hu
  have hb : (update s.pc t .user u).blocked := by rwa [update_of_ne hn]
  simp only [goStep,hp]
  split_ifs with hl
  · rw [and_iff_right hl]
    exact blocked_wakeup hb
  · exact iff_of_false (not_not.mpr hb) fun h => hl h.1

lemma respects_iff (s : State τ α) (a : Action τ α) : Respects s a ↔ Room s a := by
  unfold Respects Room
  split
  · split
    · next hp =>
      rw [push_que hp]
      split_ifs with hl
      · rw [List.length_append,List.length_singleton]
        omega
      · omega
    · next hp =>
      refine imp_congr_right fun _ => ⟨?_,?_⟩
      · rintro ⟨u,hu,hw⟩
        obtain ⟨hl,hh⟩ := (popped_wakes_iff hp hu).mp hw
        exact ⟨hl,u,hh,hu⟩
      · rintro ⟨hl,u,hh,hu⟩
        exact ⟨u,hu,(popped_wakes_iff hp hu).mpr ⟨hl,hh⟩⟩
    · exact Iff.rfl
  · exact Iff.rfl

/-- The capacity is respected in a run exactly if no push finds `max` objects, and if each
pop during which a producer is blocked leaves fewer and finds the first one asleep. -/
theorem capacity_respected_iff (max : ℤ) (as : List (Action τ α)) :
    Along step Respects (start max) as ↔ Along step Room (start max) as := by
  rw [show Respects=Room from funext₂ fun s a => propext (respects_iff s a)]

/-- The second of two pushes to a queue of one object exceeds its capacity, and the third
waits; a pop does not wake it up. -/
theorem two_objects_in_one_place :
    let s := run step (start 1) [.push 0 'a',.go 0,.push 1 'b',.go 1,.push 2 'c',.go 2,.pop 3 false]
    s.que.length = 2 ∧ ((run step s [.go 3,.go 3]).pc 2).blocked ∧
      (run step s [.go 3,.go 3]).que.length = 1 := by
  decide

end MacRuby.SizedQueues
