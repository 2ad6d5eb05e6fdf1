import MacRuby.Runs

/-!
# Killing a thread that sleeps

A thread that sleeps goes through `pre_wait`, the wait for its condition variable
and `post_wait`. `rb_vm_thread_cancel` marks the thread as killed, and then, with
the mutex of the condition variable, signals the variable if the thread is in the
wait and asks the thread to cancel otherwise. The mark is the status word, which
`pre_wait` and `post_wait` overwrite, and it is set without the mutex.

Each access to the status or to `in_cond_wait` and each operation on the mutex, the
variable or the thread is one step. Any number of threads call `rb_vm_thread_cancel`
on one target, any number of times. Waits can end without a signal.
-/
namespace MacRuby.ThreadKill
open Runs

inductive Status
  | alive
  | sleep
  | killed
  | dead
deriving DecidableEq, Repr

inductive Pc
  | running
  | locked
  | slept
  | flagged
  | waiting (woken : Bool)
  | awake
  | cleared
  | unlocked
  | checked
  | thrown
  | dead
deriving DecidableEq, Repr

/-- What a caller of `rb_vm_thread_cancel` does next. -/
inductive CallPc
  | readKilled
  | readDead
  | write
  | lock
  | check
  | signal
  | cancel
  | unlock
deriving DecidableEq, Repr

inductive Owner
  | target
  | caller (i : ℕ)
deriving DecidableEq, Repr

/-- `returned` records that a call which set the status has returned. -/
structure State where
  status : Status
  inCondWait : Bool
  mutex : Option Owner
  pc : Pc
  callers : ℕ → CallPc
  asked : Bool
  returned : Bool

/-- `rb_vm_thread_create`. -/
def start : State := ⟨.alive,false,none,.running,fun _ => .readKilled,false,false⟩

/-- The end of the thread, which frees its mutex and sets the status. -/
def State.die (s : State) : State :=
  {s with pc := .dead,status := .dead,mutex := if s.mutex=some .target then none else s.mutex}

/-- The next step of the target in `pre_wait`, `pthread_cond_wait` and `post_wait`. -/
def targetStep (s : State) : State :=
  match s.pc with
  | .running => if s.mutex=none then {s with pc := .locked,mutex := some .target} else s
  | .locked => {s with pc := .slept,status := .sleep}
  | .slept => {s with pc := .flagged,inCondWait := true}
  -- the wait is a cancellation point
  | .flagged => if s.asked then s.die else {s with pc := .waiting false,mutex := none}
  | .waiting _ => if s.mutex=none then {s with pc := .awake,mutex := some .target} else s
  | .awake => {s with pc := .cleared,inCondWait := false}
  | .cleared => {s with pc := .unlocked,mutex := none}
  | .unlocked => if s.status=.killed then {s with pc := .thrown} else {s with pc := .checked}
  | .checked => {s with pc := .running,status := .alive}
  | .thrown => s.die
  | .dead => s

/-- The target ends while it runs: of itself, or at a cancellation point. -/
def endStep (s : State) : State := if s.pc=.running then s.die else s

/-- `pthread_cond_signal`. -/
def Pc.signalled : Pc → Pc
  | .waiting _ => .waiting true
  | pc => pc

def State.goTo (s : State) (i : ℕ) (pc : CallPc) : State :=
  {s with callers := Function.update s.callers i pc}

/-- The next step of a caller in `rb_vm_thread_cancel`. -/
def callerStep (s : State) (i : ℕ) : State :=
  match s.callers i with
  | .readKilled => if s.status=.killed then s else s.goTo i .readDead
  | .readDead => s.goTo i (if s.status=.dead then .readKilled else .write)
  | .write => {s.goTo i .lock with status := .killed}
  | .lock => if s.mutex=none then {s.goTo i .check with mutex := some (.caller i)} else s
  | .check => s.goTo i (if s.inCondWait then .signal else .cancel)
  | .signal => {s.goTo i .unlock with pc := s.pc.signalled}
  | .cancel => {s.goTo i .unlock with asked := true}
  | .unlock => {s.goTo i .readKilled with mutex := none,returned := true}

inductive Action
  | target
  | ends
  | caller (i : ℕ)

def step (s : State) : Action → State
  | .target => targetStep s
  | .ends => endStep s
  | .caller i => callerStep s i

/-- After a call that killed the thread has returned, the thread is not alive any more: it
has been asked to cancel, or it has been woken, will find the mark and throw, or has. -/
def Kept (s : State) : Prop :=
  s.returned=true → s.status ≠ .alive ∧ (s.asked=true ∨ s.pc=.thrown ∨ s.pc=.dead ∨
    s.status=.killed ∧
      (s.pc=.waiting true ∨ s.pc=.awake ∨ s.pc=.cleared ∨ s.pc=.unlocked))

/-- `pre_wait` overwrites the mark only when the thread has been asked to cancel, and
`post_wait` does not overwrite it. -/
def Safe (s : State) : Action → Prop
  | .target => (s.pc=.locked → s.status=.killed → s.asked=true) ∧
      (s.pc=.checked → s.status ≠ .killed)
  | _ => True

variable {pc : Pc}

@[grind] def Pc.holds : Pc → Bool
  | .locked | .slept | .flagged | .awake | .cleared => true
  | _ => false

@[grind] def Pc.inWait : Pc → Bool
  | .flagged | .waiting _ | .awake => true
  | _ => false

/-- The target has been woken, or is past the wait, and has not looked at the mark in vain. -/
@[grind] def Pc.leaving : Pc → Bool
  | .waiting true | .awake | .cleared | .unlocked | .thrown | .dead => true
  | _ => false

@[grind] def Pc.askable : Pc → Bool
  | .waiting _ | .awake | .cleared => false
  | _ => true

@[grind] def CallPc.holds : CallPc → Bool
  | .check | .signal | .cancel | .unlock => true
  | _ => false

@[grind] def CallPc.written : CallPc → Bool
  | .lock | .check | .signal | .cancel | .unlock => true
  | _ => false

structure Inv (s : State) : Prop where
  target_mutex : s.pc.holds=true → s.mutex=some .target
  caller_mutex : ∀ i, (s.callers i).holds=true → s.mutex=some (.caller i)
  flag : s.pc ≠ .dead → s.inCondWait=s.pc.inWait
  mark : (s.returned=true ∨ ∃ i, (s.callers i).written=true) →
    s.status=.killed ∨ s.asked=true ∨ s.pc=.dead
  asked : s.asked=true → s.pc ≠ .dead → s.status ≠ .alive ∧ s.pc.askable=true ∧
    (s.pc=.unlocked ∨ s.pc=.checked ∨ s.pc=.thrown → s.status=.killed)
  dead : s.pc=.dead → s.status ≠ .alive
  signal : ∀ i, s.callers i=.signal → s.pc=.dead ∨ ∃ b, s.pc=.waiting b
  cancel : ∀ i, s.callers i=.cancel → s.pc.inWait=false
  done : (s.returned=true ∨ ∃ i, s.callers i=.unlock) → s.asked=true ∨ s.pc.leaving=true

lemma Pc.eq_waiting (hw : pc.inWait=true) (hh : pc.holds=false) : ∃ b, pc=.waiting b := by
  cases pc with
  | waiting b => exact ⟨b,rfl⟩
  | _ => grind

lemma Pc.askable_of (hw : pc.inWait=false) (hh : pc.holds=false) : pc.askable=true := by
  cases pc <;> grind

lemma inv_start : Inv start := by
  constructor <;> simp [start,Pc.holds,Pc.inWait,CallPc.holds,CallPc.written]

variable {s : State}

lemma Inv.kept (h : Inv s) : Kept s := by
  intro hr
  have hdo := h.done (.inl hr)
  rcases h.mark (.inl hr) with hk | ha | hd
  · refine ⟨by rw [hk]; nofun,?_⟩
    cases hp : s.pc <;> grind
  · refine ⟨?_,.inl ha⟩
    by_cases hp : s.pc=.dead
    · exact h.dead hp
    · exact (h.asked ha hp).1
  · exact ⟨h.dead hd,.inr (.inr (.inl hd))⟩

lemma inv_die (h : Inv s) : Inv s.die := by
  obtain ⟨-,hc,-,-,-,-,-,-,-⟩ := h
  unfold State.die
  constructor <;> grind

lemma Inv.target_without (h : Inv s) {i : ℕ} (hi : (s.callers i).holds=true) :
    s.pc.holds=false := by
  have hm := h.caller_mutex i hi
  cases hp : s.pc.holds with
  | false => rfl
  | true =>
    rw [h.target_mutex hp] at hm
    cases hm

lemma inv_locked (h : Inv s) (hp : s.pc=.running) (hfr : s.mutex=none) :
    Inv {s with pc := .locked,mutex := some .target} := by
  cases h
  constructor <;> grind

/-- No caller has the mutex, so whoever has set the mark has yet to look for the target. -/
lemma inv_slept (h : Inv s) (hp : s.pc=.locked)
    (ho : s.status=.killed → s.asked=true) : Inv {s with pc := .slept,status := .sleep} := by
  cases h
  constructor <;> grind

lemma inv_flagged (h : Inv s) (hp : s.pc=.slept) :
    Inv {s with pc := .flagged,inCondWait := true} := by
  cases h
  constructor <;> grind

lemma inv_waiting (h : Inv s) (hp : s.pc=.flagged) (hc : ¬s.asked=true) :
    Inv {s with pc := .waiting false,mutex := none} := by
  cases h
  constructor <;> grind

lemma inv_awake (h : Inv s) {woken : Bool} (hp : s.pc=.waiting woken)
    (hfr : s.mutex=none) : Inv {s with pc := .awake,mutex := some .target} := by
  cases h
  constructor <;> grind

lemma inv_cleared (h : Inv s) (hp : s.pc=.awake) :
    Inv {s with pc := .cleared,inCondWait := false} := by
  cases h
  constructor <;> grind

lemma inv_unlocked (h : Inv s) (hp : s.pc=.cleared) :
    Inv {s with pc := .unlocked,mutex := none} := by
  cases h
  constructor <;> grind

lemma inv_thrown (h : Inv s) (hp : s.pc=.unlocked) (hk : s.status=.killed) :
    Inv {s with pc := .thrown} := by
  cases h
  constructor <;> grind

lemma inv_checked (h : Inv s) (hp : s.pc=.unlocked) (hk : ¬s.status=.killed) :
    Inv {s with pc := .checked} := by
  cases h
  constructor <;> grind

lemma inv_running (h : Inv s) (hp : s.pc=.checked) (ho : s.status ≠ .killed) :
    Inv {s with pc := .running,status := .alive} := by
  cases h
  constructor <;> grind

lemma inv_targetStep (h : Inv s) (hs : Safe s .target) : Inv (targetStep s) := by
  unfold targetStep
  cases hp : s.pc with
  | running =>
    dsimp only
    split_ifs with hf
    · exact inv_locked h hp hf
    · exact h
  | locked => exact inv_slept h hp (hs.1 hp)
  | slept => exact inv_flagged h hp
  | flagged =>
    dsimp only
    split_ifs with hc
    · exact inv_die h
    · exact inv_waiting h hp hc
  | waiting woken =>
    dsimp only
    split_ifs with hf
    · exact inv_awake h hp hf
    · exact h
  | awake => exact inv_cleared h hp
  | cleared => exact inv_unlocked h hp
  | unlocked =>
    dsimp only
    split_ifs with hk
    · exact inv_thrown h hp hk
    · exact inv_checked h hp hk
  | checked => exact inv_running h hp (hs.2 hp)
  | thrown => exact inv_die h
  | dead => exact h

lemma inv_endStep (h : Inv s) : Inv (endStep s) := by
  unfold endStep
  split_ifs with hp
  · exact inv_die h
  · exact h

variable {i : ℕ}

lemma inv_goTo (h : Inv s) {pc : CallPc} (hp : pc.written=false) : Inv (s.goTo i pc) := by
  cases h
  unfold State.goTo
  cases pc with
  | readKilled | readDead | write => constructor <;> grind
  | _ => cases hp

lemma inv_write (h : Inv s) : Inv {s.goTo i .lock with status := .killed} := by
  cases h
  unfold State.goTo
  constructor <;> grind

lemma inv_lock (h : Inv s) (hi : s.callers i=.lock) (hfr : s.mutex=none) :
    Inv {s.goTo i .check with mutex := some (.caller i)} := by
  cases h
  unfold State.goTo
  constructor <;> grind

lemma inv_check (h : Inv s) (hi : s.callers i=.check) :
    Inv (s.goTo i (if s.inCondWait then .signal else .cancel)) := by
  have hw := h.target_without (by rw [hi]; rfl)
  obtain ⟨ht,hc,hf,hm,ha,hd,hs,hca,hdo⟩ := h
  unfold State.goTo
  split_ifs with hwa
  · have hpl : s.pc=.dead ∨ ∃ b, s.pc=.waiting b := by
      by_cases hp : s.pc=.dead
      · exact .inl hp
      · exact .inr (Pc.eq_waiting ((hf hp).symm.trans hwa) hw)
    constructor <;> grind
  · constructor <;> grind

lemma inv_signal (h : Inv s) (hi : s.callers i=.signal) :
    Inv {s.goTo i .unlock with pc := s.pc.signalled} := by
  cases h
  unfold State.goTo
  constructor <;> grind [Pc.signalled]

lemma inv_cancel (h : Inv s) (hi : s.callers i=.cancel) :
    Inv {s.goTo i .unlock with asked := true} := by
  have hw := h.target_without (by rw [hi]; rfl)
  obtain ⟨ht,hca,hf,hm,ha,hd,hs,hc,hdo⟩ := h
  have hp := Pc.askable_of (hc i hi) hw
  unfold State.goTo
  constructor <;> grind

lemma inv_unlock (h : Inv s) (hi : s.callers i=.unlock) :
    Inv {s.goTo i .readKilled with mutex := none,returned := true} := by
  cases h
  unfold State.goTo
  constructor <;> grind

lemma inv_callerStep (h : Inv s) (i : ℕ) : Inv (callerStep s i) := by
  unfold callerStep
  cases hi : s.callers i with
  | readKilled =>
    dsimp only
    split_ifs with hk
    · exact h
    · exact inv_goTo h rfl
  | readDead =>
    refine inv_goTo h ?_
    split_ifs <;> rfl
  | write => exact inv_write h
  | lock =>
    dsimp only
    split_ifs with hf
    · exact inv_lock h hi hf
    · exact h
  | check => exact inv_check h hi
  | signal => exact inv_signal h hi
  | cancel => exact inv_cancel h hi
  | unlock => exact inv_unlock h hi

lemma inv_step (s : State) (a : Action) (h : Inv s) (hs : Safe s a) : Inv (step s a) := by
  cases a with
  | target => exact inv_targetStep h hs
  | ends => exact inv_endStep h
  | caller i => exact inv_callerStep h i

instance (s : State) : (a : Action) → Decidable (Safe s a)
  | .target => inferInstanceAs (Decidable (_ ∧ _))
  | .ends => isTrue trivial
  | .caller _ => isTrue trivial

/-- A kill is kept in every run in which no mark is overwritten too early. -/
theorem kept_of_safe {as : List Action} (has : Along step Safe start as) : Kept (run step start as) :=
  (run_invariant inv_step inv_start has).kept

def foundWaiting : List Action :=
  List.replicate 4 .target++List.replicate 7 (.caller 0)++List.replicate 3 .target

theorem kept_foundWaiting : (run step start foundWaiting).returned = true ∧
    Kept (run step start foundWaiting) := ⟨by decide,kept_of_safe (by decide)⟩

/-- A thread that is past its wait, or has been woken, finds the mark. -/
lemma Inv.marked (h : Inv s) (hr : s.returned=true) (hp : s.pc.askable=false ∨ s.pc=.unlocked) :
    s.status=.killed := by
  have hk := (h.kept hr).2
  have ha := h.asked
  grind

/-- The mark is set before the thread goes to sleep, and the thread is found in the wait. -/
def markedBefore : List Action :=
  List.replicate 3 (.caller 0)++List.replicate 4 .target++List.replicate 4 (.caller 0)++
    List.replicate 5 .target

/-- The call has returned, the thread runs on and has not been asked to cancel. -/
theorem kill_lost : (run step start markedBefore).returned = true ∧
    (run step start markedBefore).asked = false ∧ (run step start markedBefore).pc = .running ∧
    (run step start markedBefore).status = .alive ∧ ¬Kept (run step start markedBefore) := by
  refine ⟨by decide,by decide,by decide,by decide,?_⟩
  intro h
  have hr : (run step start markedBefore).returned=true := by decide
  exact (h hr).1 (by decide)

end MacRuby.ThreadKill
