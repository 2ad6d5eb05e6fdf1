import MacRuby.Runs

/-!
# Threads that push to and pop from one queue

`Queue#push` adds an object under the mutex of the queue, takes the first thread off the
list of waiting threads and wakes it up, and runs it once more after the mutex is
released. `Queue#pop` takes an object under the mutex. If there is none, the thread puts
itself on the list and calls `Mutex#sleep`, which releases the mutex, waits for the
condition variable of the thread and does not lock again. `Thread#wakeup` and
`Thread#run` signal this variable only if they find the thread in its wait.

Threads are interleaved at each operation on a mutex or condition variable, each test of
a status and each access to the two arrays.
-/
namespace MacRuby.QueueWaits
open Runs Function

/-- `THREAD_ALIVE`, `THREAD_SLEEP` and `THREAD_DEAD`. -/
inductive Status
  | alive
  | sleep
  | dead
deriving DecidableEq, Repr

/-- The two calls of `rb_vm_thread_wakeup` in a push, before and after the unlock. -/
inductive Waking
  | wakeup
  | run
deriving DecidableEq, Repr

/-- What a thread does next. `user` is anything outside of the queue. -/
inductive Pc (τ α : Type*)
  | user
  | dead
  | pushLock (obj : α)
  | pushObj (obj : α)
  | pushShift
  | pushUnlock (t : Option τ)
  | testDead (k : Waking) (t : τ)
  | testSleep (k : Waking) (t : τ)
  | sleepLock (k : Waking) (t : τ)
  | signal (k : Waking) (t : τ)
  | sleepUnlock (k : Waking) (t : τ)
  | popLock (nonBlock : Bool)
  | popTest (nonBlock : Bool)
  | popShift
  | popUnlock
  | register
  | mutexSleep
  | preWait
  | condWait
  | waiting
  | woken
  | postWait
  | postStatus
  | leave
deriving DecidableEq, Repr

/-- `mutex` is the owner of the mutex of the queue, `sleepMutex` the holder of the mutex of
each thread's sleep. `pushed` and `popped` are histories; a `shift` of an empty array is
`none`. -/
structure State (τ α : Type*) where
  que : List α
  waiting : List τ
  mutex : Option τ
  pc : τ → Pc τ α
  status : τ → Status
  inCondWait : τ → Bool
  sleepMutex : τ → Option τ
  pushed : List α
  popped : List (Option α)

def start {τ α : Type*} : State τ α :=
  ⟨[],[],none,fun _ => .user,fun _ => .alive,fun _ => false,fun _ => none,[],[]⟩

/-- A thread calls `push` or `pop`, ends, or takes the next step of its call; or the wait of
a thread ends without a signal. -/
inductive Action (τ α : Type*)
  | push (t : τ) (obj : α)
  | pop (t : τ) (nonBlock : Bool)
  | finish (t : τ)
  | go (t : τ)
  | wake (t : τ)
deriving DecidableEq, Repr

section Steps
variable {τ α : Type*} [DecidableEq τ]

def State.goTo (s : State τ α) (t : τ) (pc : Pc τ α) : State τ α :=
  {s with pc := update s.pc t pc}

/-- `rb_mutex_lock` up to the pthread mutex. It raises for the owner. -/
def mutexLock (s : State τ α) (t : τ) (pc : Pc τ α) : State τ α :=
  if s.mutex=some t then s.goTo t .user
  else {s.goTo t pc with status := update s.status t .sleep}

/-- The pthread mutex and the rest of `rb_mutex_lock`. -/
def mutexTake (s : State τ α) (t : τ) (pc : Pc τ α) : State τ α :=
  if s.mutex=none then
    {s.goTo t pc with mutex := some t, status := update s.status t .alive}
  else s

/-- `rb_mutex_unlock0` as the ensure clause of `Mutex#synchronize` calls it. -/
def mutexUnlock (s : State τ α) (t : τ) : State τ α :=
  {s with mutex := if s.mutex=some t then none else s.mutex}

def State.wake (s : State τ α) (t : τ) : State τ α :=
  s.goTo t (match s.pc t with
    | .waiting => .woken
    | pc => pc)

/-- The second test of `rb_vm_thread_wakeup`. -/
def State.sleeps (s : State τ α) (t : τ) : Bool := decide (s.status t=.sleep) && s.inCondWait t

/-- Where a push goes on after a wakeup, and after one that raised. -/
def Waking.next : Waking → τ → Pc τ α
  | .wakeup,t => .pushUnlock (some t)
  | .run,_ => .user

def Waking.rescue : Waking → Pc τ α
  | .wakeup => .pushShift
  | .run => .user

/-- The next step of `Queue#push` or `Queue#pop`. -/
def goStep (s : State τ α) (t : τ) : State τ α :=
  match s.pc t with
  | .user | .dead | .waiting => s
  | .pushLock obj => mutexTake s t (.pushObj obj)
  | .pushObj obj => {s.goTo t .pushShift with que := s.que++[obj], pushed := s.pushed++[obj]}
  | .pushShift => match s.waiting with
      | [] => s.goTo t (.pushUnlock none)
      | u::us => {s.goTo t (.testDead .wakeup u) with waiting := us}
  | .pushUnlock none => (mutexUnlock s t).goTo t .user
  | .pushUnlock (some u) => (mutexUnlock s t).goTo t (.testDead .run u)
  | .testDead k u => s.goTo t (if s.status u=.dead then k.rescue else .testSleep k u)
  | .testSleep k u => s.goTo t (if s.sleeps u then .sleepLock k u else k.next u)
  | .sleepLock k u =>
    if s.sleepMutex u=none then
      {s.goTo t (.signal k u) with sleepMutex := update s.sleepMutex u (some t)}
    else s
  | .signal k u => (s.wake u).goTo t (.sleepUnlock k u)
  | .sleepUnlock k u =>
    {s.goTo t (k.next u) with sleepMutex := update s.sleepMutex u none}
  | .popLock nonBlock => mutexTake s t (.popTest nonBlock)
  | .popTest nonBlock =>
    s.goTo t (if s.que.isEmpty then if nonBlock then .popUnlock else .register else .popShift)
  | .popShift => {s.goTo t .popUnlock with que := s.que.tail, popped := s.popped++[s.que.head?]}
  | .popUnlock => (mutexUnlock s t).goTo t .user
  | .register => {s.goTo t .mutexSleep with waiting := s.waiting++[t]}
  | .mutexSleep =>
    if s.mutex=some t then {s.goTo t .preWait with mutex := none} else s.goTo t .user
  | .preWait =>
    if s.sleepMutex t=none then
      {s.goTo t .condWait with
        sleepMutex := update s.sleepMutex t (some t)
        status := update s.status t .sleep
        inCondWait := update s.inCondWait t true}
    else s
  | .condWait => {s.goTo t .waiting with sleepMutex := update s.sleepMutex t none}
  | .woken =>
    if s.sleepMutex t=none then
      {s.goTo t .postWait with sleepMutex := update s.sleepMutex t (some t)}
    else s
  | .postWait =>
    {s.goTo t .postStatus with
      inCondWait := update s.inCondWait t false
      sleepMutex := update s.sleepMutex t none}
  | .postStatus => {s.goTo t .leave with status := update s.status t .alive}
  | .leave => mutexLock (mutexUnlock s t) t (.popLock false)

def callStep (s : State τ α) (t : τ) (called : State τ α) : State τ α :=
  match s.pc t with
  | .user => called
  | _ => s

def step (s : State τ α) : Action τ α → State τ α
  | .push t obj => callStep s t (mutexLock s t (.pushLock obj))
  | .pop t nonBlock => callStep s t (mutexLock s t (.popLock nonBlock))
  | .finish t => callStep s t {s.goTo t .dead with status := update s.status t .dead}
  | .go t => goStep s t
  | .wake t => s.wake t

end Steps

variable {τ α : Type*} {u : τ} {pc : Pc τ α}

/-- In `Queue#push`. -/
def Pc.pushes : Pc τ α → Bool
  | .pushLock _ | .pushObj _ | .pushShift | .pushUnlock _ | .testDead _ _ | .testSleep _ _
  | .sleepLock _ _ | .signal _ _ | .sleepUnlock _ _ => true
  | _ => false

def Pc.inside : Pc τ α → Bool
  | .pushObj _ | .pushShift | .pushUnlock _ | .popTest _ | .popShift | .popUnlock | .register
  | .mutexSleep | .testDead .wakeup _ | .testSleep .wakeup _ | .sleepLock .wakeup _
  | .signal .wakeup _ | .sleepUnlock .wakeup _ => true
  | _ => false

def Pc.outside : Pc τ α → Bool
  | .user | .dead | .pushLock _ | .popLock _ => true
  | _ => false

/-- The thread whose sleep mutex is held by `t` at this place. -/
def Pc.locks (t : τ) : Pc τ α → Option τ
  | .signal _ u | .sleepUnlock _ u => some u
  | .condWait | .postWait => some t
  | _ => none

/-- Between the writes of `in_cond_wait`. -/
def Pc.inWait : Pc τ α → Bool
  | .condWait | .waiting | .woken | .postWait => true
  | _ => false

def Pc.asleep : Pc τ α → Bool
  | .mutexSleep | .preWait | .condWait | .waiting => true
  | _ => false

/-- The thread that a push has taken off the list and has yet to signal. -/
def Pc.took : Pc τ α → Option τ
  | .testDead .wakeup u | .testSleep .wakeup u | .sleepLock .wakeup u | .signal .wakeup u => some u
  | _ => none

/-- The thread whose status a push is about to test under the mutex. -/
def Pc.tests : Pc τ α → Option τ
  | .testSleep .wakeup u => some u
  | _ => none

/-- The thread that a push has found in its wait and has yet to signal. -/
def Pc.found : Pc τ α → Option τ
  | .sleepLock .wakeup u | .signal .wakeup u => some u
  | _ => none

/-- A push that has added its object and is not done with the list. -/
def Pc.serving : Pc τ α → Bool
  | .pushShift | .testDead .wakeup _ | .testSleep .wakeup _ | .sleepLock .wakeup _
  | .signal .wakeup _ => true
  | _ => false

def Pc.served : Pc τ α → Bool
  | .sleepUnlock .wakeup _ | .pushUnlock _ => true
  | _ => false

lemma Pc.inside_of_took (h : pc.took=some u) : pc.inside=true := by
  unfold Pc.took at h
  split at h <;> first | rfl | cases h

lemma Pc.took_of_found (h : pc.found=some u) : pc.took=some u := by
  unfold Pc.found at h
  split at h <;> first | exact h | cases h

lemma Pc.inside_of_serving (h : pc.serving=true) : pc.inside=true := by
  unfold Pc.serving at h
  split at h <;> first | rfl | cases h

lemma Pc.inside_of_served (h : pc.served=true) : pc.inside=true := by
  unfold Pc.served at h
  split at h <;> first | rfl | cases h

variable {s : State τ α} {t : τ} {s' : State τ α}

/-- What has been popped is what was pushed first, in this order; the rest is in the queue. -/
def Ordered (s : State τ α) : Prop := s.popped++s.que.map some=s.pushed.map some

/-- A thread waits while there is an object and no push is in progress. -/
def Stranded (s : State τ α) : Prop :=
  ∃ t, s.pc t=.waiting ∧ s.que ≠ [] ∧ ∀ u, (s.pc u).pushes=false

/-- A push that tests the thread it took, under the mutex, finds it in its wait if it is
asleep, and no other thread is asleep. -/
def Awake (s : State τ α) : Action τ α → Prop
  | .go t => ∀ u, (s.pc t).tests=some u →
      ∀ v, (s.pc v).asleep=true → v=u ∧ s.sleeps u=true
  | _ => True

/-- All that a call, the end of a thread or the end of a wait does. -/
structure Quiet (s s' : State τ α) : Prop where
  que : s'.que=s.que
  waiting : s'.waiting=s.waiting
  mutex : s'.mutex=s.mutex
  sleepMutex : s'.sleepMutex=s.sleepMutex
  inCondWait : s'.inCondWait=s.inCondWait
  pushed : s'.pushed=s.pushed
  popped : s'.popped=s.popped
  moved : ∀ u, s'.pc u=s.pc u ∧ s'.status u=s.status u ∨
    s.pc u=.user ∧ (s'.pc u).outside=true ∧ (s'.status u=.dead → s'.pc u=.dead) ∨
    s.pc u=.waiting ∧ s'.pc u=.woken ∧ s'.status u=s.status u

lemma quiet_callStep {called : State τ α} (h : s.pc t=.user → Quiet s called) :
    Quiet s (callStep s t called) := by
  unfold callStep
  split
  · rename_i ht
    exact h ht
  · exact ⟨rfl,rfl,rfl,rfl,rfl,rfl,rfl,fun _ => .inl ⟨rfl,rfl⟩⟩

structure Knows (s : State τ α) (t : τ) : Prop where
  inside : (s.pc t).inside=true → s.mutex=some t
  locks : ∀ u, (s.pc t).locks t=some u → s.sleepMutex u=some t
  inWait : s.inCondWait t=true → (s.pc t).inWait=true
  empty : s.pc t=.register ∨ s.pc t=.mutexSleep → s.que=[]
  nonempty : s.pc t=.popShift → s.que ≠ []
  dead : s.status t=.dead → s.pc t=.dead

lemma knows_start (t : τ) : Knows (start : State τ α) t := by
  constructor <;> simp [start,Pc.inside,Pc.locks]

lemma Knows.quiet (h : Knows s u) (hq : Quiet s s') : Knows s' u := by
  obtain ⟨hi,hl,hw,he,hf,hd⟩ := h
  obtain ⟨hp,hs⟩ | ⟨hb,hp,hs⟩ | ⟨hb,hp,hs⟩ := hq.moved u
  · refine ⟨?_,?_,?_,?_,?_,?_⟩
    all_goals simp only [hp,hs,hq.mutex,hq.sleepMutex,hq.inCondWait,hq.que]
    all_goals assumption
  · cases hpl : s'.pc u <;> rw [hpl] at hp <;> try cases hp
    all_goals refine ⟨?_,?_,?_,?_,?_,?_⟩ <;> simp_all [hq.inCondWait,Pc.inside,Pc.locks,Pc.inWait]
  · refine ⟨?_,?_,?_,?_,?_,?_⟩ <;> simp_all [Pc.inside,Pc.locks,Pc.inWait]

lemma inside_unique (h : ∀ v, Knows s v) (ht : (s.pc t).inside=true)
    (hu : (s.pc u).inside=true) : t=u :=
  Option.some.inj (((h t).inside ht).symm.trans ((h u).inside hu))

def NoneAsleep (s : State τ α) : Prop := ∀ v, (s.pc v).asleep=false

lemma noneAsleep_iff : NoneAsleep s ↔ ∀ v, (s.pc v).asleep ≠ true := by
  simp only [NoneAsleep,Bool.not_eq_true]

/-- A thread that is asleep is on the list, or a push is about to wake it up; and while there
are objects, a push is about to wake up all that are asleep. -/
structure Served (s : State τ α) : Prop where
  registered : ∀ v, (s.pc v).asleep=true → v ∈ s.waiting ∨ ∃ p, (s.pc p).took=some v
  found : ∀ p u, (s.pc p).found=some u →
    ∀ v, (s.pc v).asleep=true → v=u ∧ (s.pc v).inWait=true
  served : ∀ p, (s.pc p).served=true → NoneAsleep s
  stays : s.que ≠ [] → (∃ p, (s.pc p).serving=true) ∨ NoneAsleep s

lemma served_start : Served (start : State τ α) := by
  constructor <;> simp [start,Pc.asleep,Pc.served]

lemma none_asleep_of_nil (h : ∀ v, Knows s v) (hs : Served s) (ht : s.pc t=.pushShift)
    (hn : s.waiting=[]) : NoneAsleep s := by
  rw [noneAsleep_iff]
  intro v hv
  obtain hm | ⟨p,hp⟩ := hs.registered v hv
  · rw [hn] at hm
    cases hm
  · have hpt := inside_unique h (Pc.inside_of_took hp) (by rw [ht]; rfl)
    rw [hpt,ht] at hp
    cases hp

lemma none_asleep_of_test (ha : Awake s (.go t)) (ht : s.pc t=.testSleep .wakeup u)
    (hs : s.sleeps u=false) : NoneAsleep s := by
  rw [noneAsleep_iff]
  intro v hv
  rw [(ha u (by rw [ht]; rfl) v hv).2] at hs
  cases hs

lemma Quiet.pc_inside (hq : Quiet s s')
    (h : (s.pc u).inside=true ∨ (s'.pc u).inside=true ∨ (s'.pc u).asleep=true) :
    s'.pc u=s.pc u := by
  obtain ⟨hp,_⟩ | ⟨hb,hp,_⟩ | ⟨hb,hp,_⟩ := hq.moved u
  · exact hp
  · cases hpl : s'.pc u <;> simp_all [Pc.inside,Pc.asleep,Pc.outside]
  · simp_all [Pc.inside,Pc.asleep]

lemma NoneAsleep.quiet (hn : NoneAsleep s) (hq : Quiet s s') : NoneAsleep s' := by
  rw [noneAsleep_iff]
  intro v hv
  have hb := hn v
  rw [← hq.pc_inside (.inr (.inr hv)),hv] at hb
  cases hb

lemma Served.quiet (hs : Served s) (hq : Quiet s s') : Served s' := by
  have ha : ∀ v, (s'.pc v).asleep=true → s'.pc v=s.pc v :=
    fun v hv => hq.pc_inside (.inr (.inr hv))
  refine ⟨?_,?_,?_,?_⟩
  · intro v hv
    obtain hm | ⟨p,hp⟩ := hs.registered v (ha v hv ▸ hv)
    · exact .inl (hq.waiting ▸ hm)
    · exact .inr ⟨p,by rw [hq.pc_inside (.inl (Pc.inside_of_took hp))]; exact hp⟩
  · intro p u hp v hv
    have hpc := hq.pc_inside (.inr (.inl (Pc.inside_of_took (Pc.took_of_found hp))))
    rw [hpc] at hp
    have hv' := ha v hv
    rw [hv'] at hv ⊢
    exact hs.found p u hp v hv
  · intro p hp
    have hpc := hq.pc_inside (.inr (.inl (Pc.inside_of_served hp)))
    rw [hpc] at hp
    exact (hs.served p hp).quiet hq
  · intro hqu
    obtain ⟨p,hp⟩ | hn := hs.stays (hq.que ▸ hqu)
    · exact .inl ⟨p,by rw [hq.pc_inside (.inl (Pc.inside_of_serving hp))]; exact hp⟩
    · exact .inr (hn.quiet hq)

lemma Served.not_stranded (hs : Served s) : ¬Stranded s := by
  rintro ⟨t,ht,hq,hpu⟩
  obtain ⟨p,hp⟩ | hn := hs.stays hq
  · have hno := hpu p
    unfold Pc.serving at hp
    split at hp <;> simp_all [Pc.pushes]
  · have ha := hn t
    rw [ht] at ha
    cases ha

variable [DecidableEq τ]

@[simp] lemma State.goTo_pc_self (pc : Pc τ α) : (s.goTo t pc).pc t=pc := update_self ..

@[simp] lemma State.goTo_pc_of_ne (hu : u ≠ t) (pc : Pc τ α) : (s.goTo t pc).pc u=s.pc u :=
  update_of_ne hu ..

@[simp] lemma State.goTo_fields (pc : Pc τ α) :
    (s.goTo t pc).que=s.que ∧ (s.goTo t pc).waiting=s.waiting ∧ (s.goTo t pc).mutex=s.mutex ∧
    (s.goTo t pc).status=s.status ∧ (s.goTo t pc).inCondWait=s.inCondWait ∧
    (s.goTo t pc).sleepMutex=s.sleepMutex ∧ (s.goTo t pc).pushed=s.pushed ∧
    (s.goTo t pc).popped=s.popped := ⟨rfl,rfl,rfl,rfl,rfl,rfl,rfl,rfl⟩

@[simp] lemma State.wake_fields :
    (s.wake t).que=s.que ∧ (s.wake t).waiting=s.waiting ∧ (s.wake t).mutex=s.mutex ∧
    (s.wake t).status=s.status ∧ (s.wake t).inCondWait=s.inCondWait ∧
    (s.wake t).sleepMutex=s.sleepMutex ∧ (s.wake t).pushed=s.pushed ∧
    (s.wake t).popped=s.popped := ⟨rfl,rfl,rfl,rfl,rfl,rfl,rfl,rfl⟩

lemma State.wake_pc (s : State τ α) (t u : τ) :
    (s.wake t).pc u=s.pc u ∨ s.pc u=.waiting ∧ (s.wake t).pc u=.woken := by
  unfold State.wake
  by_cases hu : u=t
  · rw [hu]
    cases s.pc t <;> simp
  · exact .inl (State.goTo_pc_of_ne hu _)

lemma goStep_pc_other (hu : u ≠ t) :
    (goStep s t).pc u=s.pc u ∨ s.pc u=.waiting ∧ (goStep s t).pc u=.woken := by
  have hw := fun v => s.wake_pc v u
  unfold goStep mutexLock mutexTake mutexUnlock
  split <;> (try split) <;> simp_all

lemma goStep_other (hu : u ≠ t) : (s.mutex=some u → (goStep s t).mutex=some u) ∧
    (goStep s t).inCondWait u=s.inCondWait u ∧ (goStep s t).status u=s.status u := by
  have ht := hu.symm
  unfold goStep mutexLock mutexTake mutexUnlock
  split <;> (try split) <;> simp_all

lemma goStep_history (s : State τ α) (t : τ) :
    ((goStep s t).que=s.que ∧ (goStep s t).pushed=s.pushed ∧ (goStep s t).popped=s.popped) ∨
    (∃ obj, s.pc t=.pushObj obj ∧ (goStep s t).que=s.que++[obj] ∧
      (goStep s t).pushed=s.pushed++[obj] ∧ (goStep s t).popped=s.popped) ∨
    s.pc t=.popShift ∧ (goStep s t).que=s.que.tail ∧ (goStep s t).pushed=s.pushed ∧
      (goStep s t).popped=s.popped++[s.que.head?] := by
  unfold goStep mutexLock mutexTake mutexUnlock
  split <;> (try split) <;> simp_all

lemma goStep_que (h : (s.pc t).inside=false) : (goStep s t).que=s.que := by
  unfold goStep mutexLock mutexTake mutexUnlock
  split <;> (try split) <;> simp_all [Pc.inside]

lemma quiet_call {status : Status} (ho : pc.outside=true)
    (hd : status=.dead → pc=.dead) (ht : s.pc t=.user) :
    Quiet s {s.goTo t pc with status := update s.status t status} := by
  refine ⟨rfl,rfl,rfl,rfl,rfl,rfl,rfl,?_⟩
  intro u
  by_cases hu : u=t
  · subst hu
    refine .inr (.inl ⟨ht,?_,?_⟩)
    · simpa using ho
    · simpa using hd
  · simp [hu]

lemma quiet_mutexLock (ho : pc.outside=true) (ht : s.pc t=.user)
    (hs : s.status t=.dead → s.pc t=.dead) : Quiet s (mutexLock s t pc) := by
  unfold mutexLock
  split_ifs with how
  · have hc : Quiet s {s.goTo t .user with
        status := update s.status t (s.status t)} :=
      quiet_call rfl (fun h => ht ▸ hs h) ht
    rwa [update_eq_self] at hc
  · exact quiet_call ho nofun ht

lemma quiet_wake (s : State τ α) (t : τ) : Quiet s (s.wake t) := by
  refine ⟨rfl,rfl,rfl,rfl,rfl,rfl,rfl,?_⟩
  intro u
  obtain h | h := s.wake_pc t u
  · exact .inl ⟨h,rfl⟩
  · exact .inr (.inr ⟨h.1,h.2,rfl⟩)

lemma knows_goStep_self (h : Knows s t) : Knows (goStep s t) t := by
  obtain ⟨hi,hl,hw,he,-,hd⟩ := h
  constructor <;> unfold goStep mutexLock mutexTake mutexUnlock <;> split <;>
    (try cases ‹Waking›) <;> (try split_ifs) <;> (try split) <;>
    simp_all [Pc.inside,Pc.locks,Pc.inWait,Waking.next,Waking.rescue]

lemma goStep_sleepMutex_other (ht : Knows s t) (hu : u ≠ t) {v : τ} (h : s.sleepMutex v=some u) :
    (goStep s t).sleepMutex v=some u := by
  have hl := ht.locks
  unfold goStep mutexLock mutexTake mutexUnlock
  split <;> (try split) <;> simp_all [Pc.locks] <;> grind

lemma knows_goStep_other (h : ∀ v, Knows s v) (hu : u ≠ t) : Knows (goStep s t) u := by
  obtain ⟨hi,hlo,hw,he,hfu,hde⟩ := h u
  have hpc := goStep_pc_other (s := s) hu
  obtain ⟨hm,hf,hs⟩ := goStep_other hu
  have hq : (s.pc u).inside=true → (goStep s t).que=s.que := by
    intro hu'
    apply goStep_que
    by_contra ht
    have hbo := (hi hu').symm.trans ((h t).inside (Bool.not_eq_false _ ▸ ht))
    exact hu (Option.some.inj hbo)
  obtain hpc | ⟨hb,hpc⟩ := hpc
  · refine ⟨?_,?_,?_,?_,?_,?_⟩ <;> rw [hpc]
    · exact fun hin => hm (hi hin)
    · exact fun v hl => goStep_sleepMutex_other (h t) hu (hlo v hl)
    · rw [hf]
      exact hw
    · intro hpl
      rw [hq (by obtain hp | hp := hpl <;> rw [hp] <;> rfl)]
      exact he hpl
    · intro hpl
      rw [hq (by rw [hpl]; rfl)]
      exact hfu hpl
    · rw [hs]
      exact hde
  · refine ⟨?_,?_,?_,?_,?_,?_⟩ <;> rw [hpc]
    · nofun
    · nofun
    · exact fun _ => rfl
    · rintro (hp | hp) <;> cases hp
    · nofun
    · rw [hs]
      intro hd
      cases (hde hd).symm.trans hb

lemma knows_goStep (h : ∀ v, Knows s v) (t u : τ) : Knows (goStep s t) u := by
  by_cases hu : u=t
  · rw [hu]
    exact knows_goStep_self (h t)
  · exact knows_goStep_other h hu

lemma quiet_step (h : ∀ v, Knows s v) {a : Action τ α} (ha : ∀ t, a ≠ .go t) : Quiet s (step s a) := by
  cases a with
  | push t obj | pop t nonBlock => exact quiet_callStep fun ht => quiet_mutexLock rfl ht (h t).dead
  | finish t => exact quiet_callStep fun ht => quiet_call rfl (fun _ => rfl) ht
  | go t => exact absurd rfl (ha t)
  | wake t => exact quiet_wake s t

lemma knows_step (h : ∀ v, Knows s v) (a : Action τ α) (u : τ) : Knows (step s a) u := by
  cases a with
  | go t => exact knows_goStep h t u
  | _ => exact (h u).quiet (quiet_step h nofun)

lemma ordered_goStep (h : Knows s t) (ho : Ordered s) : Ordered (goStep s t) := by
  obtain ⟨hq,hpu,hp⟩ | ⟨obj,_,hq,hpu,hp⟩ | ⟨hpc,hq,hpu,hp⟩ :=
    goStep_history s t
  all_goals
    unfold Ordered at *
    rw [hq,hpu,hp]
  · exact ho
  · rw [List.map_append,List.map_append,← List.append_assoc,ho]
  · have hf := h.nonempty hpc
    rw [← ho]
    cases hs : s.que with
    | nil => exact absurd hs hf
    | cons obj objs => simp

lemma ordered_step (h : ∀ v, Knows s v) (ho : Ordered s) (a : Action τ α) : Ordered (step s a) := by
  have hqu : ∀ s', Quiet s s' → Ordered s' := by
    intro s' hq
    unfold Ordered
    rwa [hq.que,hq.pushed,hq.popped]
  cases a with
  | go t => exact ordered_goStep (h t) ho
  | _ => exact hqu _ (quiet_step h nofun)

variable {v : τ} {p : τ}

lemma goStep_pc_inside (hu : u ≠ t) (hi : (s.pc u).inside=true) : (goStep s t).pc u=s.pc u := by
  obtain h | ⟨hw,_⟩ := goStep_pc_other hu
  · exact h
  · rw [hw] at hi
    cases hi

lemma asleep_of_goStep (hv : ((goStep s t).pc v).asleep=true) :
    v=t ∧ s.pc t=.register ∨ (s.pc v).asleep=true ∧ ((s.pc v).inWait=true →
      ((goStep s t).pc v).inWait=true) := by
  by_cases hvt : v=t
  · revert hv
    unfold goStep mutexLock mutexTake
    split <;> (try cases ‹Waking›) <;> (try split) <;> (try split_ifs) <;>
      simp_all [Pc.asleep,Pc.inWait,Waking.next,Waking.rescue]
  · obtain h | ⟨_,h⟩ := goStep_pc_other hvt
    · rw [h] at hv ⊢
      exact .inr ⟨hv,id⟩
    · rw [h] at hv
      cases hv

lemma goStep_waiting (hv : v ∈ s.waiting) :
    v ∈ (goStep s t).waiting ∨ (goStep s t).pc t=.testDead .wakeup v := by
  unfold goStep mutexLock mutexTake mutexUnlock
  split <;> (try split) <;> simp_all
  grind

lemma asleep_of_goStep_of_ne (ht : s.pc t ≠ .register) (hv : ((goStep s t).pc v).asleep=true) :
    (s.pc v).asleep=true := by
  obtain ⟨_,h⟩ | ⟨h,_⟩ := asleep_of_goStep hv
  · exact absurd h ht
  · exact h

lemma NoneAsleep.goStep (hn : NoneAsleep s) (ht : s.pc t ≠ .register) :
    NoneAsleep (goStep s t) := by
  rw [noneAsleep_iff]
  intro v hv
  have hb := asleep_of_goStep_of_ne ht hv
  rw [hn v] at hb
  cases hb

/-- After the signal of a push no thread is asleep: the thread that it found does not hold
its sleep mutex, so it has started to wait. -/
lemma none_asleep_of_signal (h : ∀ v, Knows s v) (hs : Served s) (ht : s.pc t=.signal .wakeup u) :
    NoneAsleep (goStep s t) := by
  rw [noneAsleep_iff]
  intro v hv
  have hb := asleep_of_goStep_of_ne (by rw [ht]; nofun) hv
  obtain ⟨rfl,hw⟩ := hs.found t u (by rw [ht]; rfl) v hb
  have hn : v ≠ t := by
    rintro rfl
    rw [ht] at hb
    cases hb
  have hm := (h t).locks v (by rw [ht]; rfl)
  have hpc : s.pc v=.waiting := by
    cases hp : s.pc v <;> rw [hp] at hb hw <;> try cases hb <;>
      try cases hw
    · have ho := (h v).locks v (by rw [hp]; rfl)
      rw [hm] at ho
      exact absurd (Option.some.inj ho).symm hn
  have ha : (goStep s t).pc v=.woken := by
    simp [goStep,ht,State.wake,hpc,hn]
  rw [ha] at hv
  cases hv

lemma serving_goStep (h : ∀ v, Knows s v) (hs : Served s) (ha : Awake s (.go t))
    (ht : (s.pc t).serving=true) : ((goStep s t).pc t).serving=true ∨ NoneAsleep (goStep s t) := by
  unfold Pc.serving at ht
  split at ht
  · rename_i hp
    cases hw : s.waiting with
    | nil => exact .inr ((none_asleep_of_nil h hs hp hw).goStep (by rw [hp]; nofun))
    | cons u us => simp [goStep,hp,hw,Pc.serving]
  · rename_i u hp
    left
    by_cases hd : s.status u=.dead
    · simp [goStep,hp,hd,Waking.rescue,Pc.serving]
    · simp [goStep,hp,hd,Pc.serving]
  · rename_i u hp
    cases hu : s.sleeps u with
    | false => exact .inr ((none_asleep_of_test ha hp hu).goStep (by rw [hp]; nofun))
    | true => simp [goStep,hp,hu,Pc.serving]
  · rename_i u hp
    left
    by_cases hf : s.sleepMutex u=none <;> simp [goStep,hp,hf,Pc.serving]
  · rename_i u hp
    exact .inr (none_asleep_of_signal h hs hp)
  · cases ht

lemma took_goStep (h : ∀ v, Knows s v) (hs : Served s) (ha : Awake s (.go t))
    (ht : (s.pc t).took=some v) (hv : ((goStep s t).pc v).asleep=true) :
    ((goStep s t).pc t).took=some v := by
  have hn : s.pc t ≠ .register := by
    intro hp
    rw [hp] at ht
    cases ht
  have hb := asleep_of_goStep_of_ne hn hv
  unfold Pc.took at ht
  split at ht
  · rename_i u hp
    cases ht
    have hd : s.status v ≠ .dead := by
      intro hd
      rw [(h v).dead hd] at hb
      cases hb
    simp [goStep,hp,hd,Pc.took]
  · rename_i u hp
    cases ht
    cases hu : s.sleeps v with
    | false =>
      rw [none_asleep_of_test ha hp hu v] at hb
      cases hb
    | true => simp [goStep,hp,hu,Pc.took]
  · rename_i u hp
    cases ht
    by_cases hf : s.sleepMutex v=none <;> simp [goStep,hp,hf,Pc.took]
  · rename_i u hp
    cases ht
    rw [none_asleep_of_signal h hs hp v] at hv
    cases hv
  · cases ht

lemma found_of_goStep (h : ((goStep s t).pc t).found=some u) :
    (s.pc t).found=some u ∨ s.pc t=.testSleep .wakeup u ∧ s.sleeps u=true := by
  revert h
  unfold goStep mutexLock mutexTake
  split <;> (try cases ‹Waking›) <;> (try split) <;> (try split_ifs) <;>
    simp_all [Pc.found,Waking.next,Waking.rescue]
  grind

lemma served_of_goStep (h : ((goStep s t).pc t).served=true) :
    ((s.pc t).served=true ∨ (s.pc t).serving=true) ∧ ((goStep s t).pc t).serving=false := by
  revert h
  unfold goStep mutexLock mutexTake
  split <;> (try cases ‹Waking›) <;> (try split) <;> (try split_ifs) <;>
    simp_all [Pc.served,Pc.serving,Waking.next,Waking.rescue]

/-- Another thread that is under the mutex after a step was there before, and no thread
registers meanwhile. -/
lemma inside_of_goStep (h : ∀ v, Knows s v) (hu : u ≠ t) (hi : ((goStep s t).pc u).inside=true) :
    (goStep s t).pc u=s.pc u ∧ s.pc t ≠ .register := by
  obtain hp | ⟨_,hp⟩ := goStep_pc_other hu
  · refine ⟨hp,?_⟩
    intro ht
    rw [hp] at hi
    exact hu (inside_unique h hi (by rw [ht]; rfl))
  · rw [hp] at hi
    cases hi

lemma registered_goStep (h : ∀ v, Knows s v) (hs : Served s) (ha : Awake s (.go t))
    (hv : ((goStep s t).pc v).asleep=true) :
    v ∈ (goStep s t).waiting ∨ ∃ p, ((goStep s t).pc p).took=some v := by
  obtain ⟨rfl,hpc⟩ | ⟨hb,_⟩ := asleep_of_goStep hv
  · left
    simp [goStep,hpc]
  · obtain hm | ⟨p,hp⟩ := hs.registered v hb
    · obtain hw | hw := goStep_waiting hm
      · exact .inl hw
      · exact .inr ⟨t,by rw [hw]; rfl⟩
    · by_cases hpt : p=t
      · subst hpt
        exact .inr ⟨p,took_goStep h hs ha hp hv⟩
      · exact .inr ⟨p,by rw [goStep_pc_inside hpt (Pc.inside_of_took hp)]; exact hp⟩

lemma found_goStep (h : ∀ v, Knows s v) (hs : Served s) (ha : Awake s (.go t))
    (hp : ((goStep s t).pc p).found=some u) (hv : ((goStep s t).pc v).asleep=true) :
    v=u ∧ ((goStep s t).pc v).inWait=true := by
  by_cases hpt : p=t
  · subst hpt
    obtain hf | ⟨hpc,_⟩ := found_of_goStep hp
    · obtain ⟨_,hpc⟩ | ⟨hb,hw⟩ := asleep_of_goStep hv
      · rw [hpc] at hf
        cases hf
      · obtain ⟨hvu,hi⟩ := hs.found p u hf v hb
        exact ⟨hvu,hw hi⟩
    · obtain ⟨_,hr⟩ | ⟨hb,hw⟩ := asleep_of_goStep hv
      · cases hpc.symm.trans hr
      · obtain ⟨rfl,hsl⟩ := ha u (by rw [hpc]; rfl) v hb
        refine ⟨rfl,hw ((h v).inWait ?_)⟩
        simp only [State.sleeps,Bool.and_eq_true] at hsl
        exact hsl.2
  · obtain ⟨hpc,hn⟩ := inside_of_goStep h hpt (Pc.inside_of_took (Pc.took_of_found hp))
    rw [hpc] at hp
    obtain ⟨_,hr⟩ | ⟨hb,hw⟩ := asleep_of_goStep hv
    · exact absurd hr hn
    · obtain ⟨hvu,hi⟩ := hs.found p u hp v hb
      exact ⟨hvu,hw hi⟩

lemma served_goStep (h : ∀ v, Knows s v) (hs : Served s) (ha : Awake s (.go t))
    (hp : ((goStep s t).pc p).served=true) : NoneAsleep (goStep s t) := by
  by_cases hpt : p=t
  · subst hpt
    obtain ⟨hser | hse,haf⟩ := served_of_goStep hp
    · refine (hs.served p hser).goStep ?_
      intro hpc
      rw [hpc] at hser
      cases hser
    · obtain hse | hn := serving_goStep h hs ha hse
      · cases hse.symm.trans haf
      · exact hn
  · obtain ⟨hpc,hne⟩ := inside_of_goStep h hpt (Pc.inside_of_served hp)
    rw [hpc] at hp
    exact (hs.served p hp).goStep hne

lemma stays_goStep (h : ∀ v, Knows s v) (hs : Served s) (ha : Awake s (.go t))
    (hq : (goStep s t).que ≠ []) :
    (∃ p, ((goStep s t).pc p).serving=true) ∨ NoneAsleep (goStep s t) := by
  by_cases hse : (s.pc t).serving=true
  · obtain haf | hn := serving_goStep h hs ha hse
    · exact .inl ⟨t,haf⟩
    · exact .inr hn
  have hold : s.que ≠ [] → (∃ p, ((goStep s t).pc p).serving=true) ∨ NoneAsleep (goStep s t) := by
    intro hb
    obtain ⟨p,hp⟩ | hn := hs.stays hb
    · have hpt : p ≠ t := by
        rintro rfl
        exact hse hp
      exact .inl ⟨p,by rw [goStep_pc_inside hpt (Pc.inside_of_serving hp)]; exact hp⟩
    · exact .inr (hn.goStep fun hr => hb ((h t).empty (.inl hr)))
  obtain ⟨hsa,_⟩ | ⟨obj,hpc,_⟩ | ⟨_,ht,_⟩ := goStep_history s t
  · exact hold (hsa ▸ hq)
  · exact .inl ⟨t,by simp [goStep,hpc,Pc.serving]⟩
  · apply hold
    intro hni
    rw [ht,hni] at hq
    exact hq rfl

lemma Served.goStep (h : ∀ v, Knows s v) (hs : Served s) (ha : Awake s (.go t)) :
    Served (goStep s t) where
  registered _ hv := registered_goStep h hs ha hv
  found _ _ hp _ hv := found_goStep h hs ha hp hv
  served _ hp := served_goStep h hs ha hp
  stays hq := stays_goStep h hs ha hq

lemma served_step (h : ∀ v, Knows s v) (hs : Served s) {a : Action τ α} (ha : Awake s a) :
    Served (step s a) := by
  cases a with
  | go t => exact hs.goStep h ha
  | _ => exact hs.quiet (quiet_step h nofun)

lemma ordered_run (as : List (Action τ α)) : Ordered (run step start as) :=
  (run_invariant (I := fun s => (∀ v, Knows s v) ∧ Ordered s)
    (fun _ a h _ => ⟨knows_step h.1 a,ordered_step h.1 h.2 a⟩) ⟨knows_start,rfl⟩
    (along_true step start as)).2

lemma served_run {as : List (Action τ α)} (h : Along step Awake start as) :
    Served (run step start as) :=
  (run_invariant (I := fun s => (∀ v, Knows s v) ∧ Served s)
    (fun _ a h ha => ⟨knows_step h.1 a,served_step h.1 h.2 ha⟩) ⟨knows_start,served_start⟩ h).2

/-- If every push finds the thread that it took in its wait and no other one asleep, objects
are popped in order and no thread is stranded, in every state of the run. -/
theorem delivers_of_awake {as : List (Action τ α)} (h : Along step Awake start as) :
    ∀ l, l <+: as → Ordered (run step start l) ∧ ¬Stranded (run step start l) := by
  rintro l ⟨rest,rfl⟩
  rw [along_append] at h
  exact ⟨ordered_run l,(served_run h.1).not_stranded⟩

/-- Lost wakeups do not harm the contents: in every run the objects leave in the order in which
they came, none is lost or taken twice, and one thread at most is between lock and unlock. -/
theorem contents_serialized (as : List (Action τ α)) : Ordered (run step start as) ∧
    ∀ t u, ((run step start as).pc t).inside = true → ((run step start as).pc u).inside = true →
      t = u := by
  have hk : ∀ v, Knows (run step (start : State τ α) as) v :=
    run_invariant (I := fun s => ∀ v, Knows s v) (fun _ a h _ => knows_step h a) knows_start
      (along_true step start as)
  exact ⟨ordered_run as,fun t u ht hu => inside_unique hk ht hu⟩

def goes {τ : Type*} (t : τ) (n : ℕ) : List (Action τ ℕ) := List.replicate n (.go t)

/-- Thread 0 waits; thread 1 pushes and wakes it up; thread 0 pops the object. -/
def wokenOnce : List (Action (Fin 2) ℕ) :=
  .pop 0 false::goes 0 6++.push 1 7::goes 1 9++goes 0 8++goes 1 2

/-- Thread 1 pushes when thread 0 has released the mutex and not begun to wait. -/
def lostWakeup : List (Action (Fin 2) ℕ) :=
  .pop 0 false::goes 0 4++.push 1 7::goes 1 8++goes 0 2

/-- Thread 0 is run by the first push after it has popped the object and waits again, so that
it is on the list twice. The third push takes its second entry and leaves thread 2 asleep. -/
def staleEntry : List (Action (Fin 3) ℕ) :=
  .pop 0 false::goes 0 6++.push 1 1::goes 1 9++goes 0 8++
  .pop 0 false::goes 0 6++goes 1 5++goes 0 10++
  .push 1 2::goes 1 9++goes 0 8++goes 1 2++
  .pop 2 false::goes 2 6++.push 1 3::goes 1 8

instance {n : ℕ} (s : State (Fin n) ℕ) : (a : Action (Fin n) ℕ) → Decidable (Awake s a)
  | .go t => inferInstanceAs (Decidable (∀ u, (s.pc t).tests=some u →
      ∀ v, (s.pc v).asleep=true → v=u ∧ s.sleeps u=true))
  | .push _ _ | .pop _ _ | .finish _ | .wake _ => isTrue trivial

instance {n : ℕ} (s : State (Fin n) ℕ) : Decidable (Stranded s) :=
  inferInstanceAs (Decidable (∃ t, s.pc t=.waiting ∧ s.que ≠ [] ∧ ∀ u, (s.pc u).pushes=false))

theorem delivers_wokenOnce : Along step Awake start wokenOnce ∧
    ∀ l, l <+: wokenOnce → Ordered (run step start l) ∧ ¬Stranded (run step start l) := by
  have h : Along step Awake start wokenOnce := by decide
  exact ⟨h,delivers_of_awake h⟩

/-- The sleeping thread is not woken any more: the other threads have all returned. -/
theorem consumer_stranded : (Stranded (run step start lostWakeup) ∧
      ∀ t, (run step start lostWakeup).pc t = .user ∨ (run step start lostWakeup).pc t = .waiting) ∧
    (Stranded (run step start staleEntry) ∧
      ∀ t, (run step start staleEntry).pc t = .user ∨ (run step start staleEntry).pc t = .waiting) := by
  decide +kernel
end MacRuby.QueueWaits
