import MacRuby.Runs

/-!
# Mutexes and the bodies of `synchronize`

A mutex of Ruby is a pthread mutex and the thread that is recorded as its owner.
`Mutex#lock` takes the pthread mutex and then records the thread, `Mutex#unlock`
tests the record, releases the pthread mutex and then clears the record.
`Mutex#synchronize` locks, runs a body and unlocks in an ensure clause. Inside the
body `Mutex#sleep` unlocks and sleeps, and it does not lock again.

Threads are interleaved at each access to a record and at each operation on a
pthread mutex. A thread can call any of the operations on any mutex, and leave the
innermost body at any time, as it does when an operation raises.
-/
namespace MacRuby.MutexOwnership
open Runs Function

/-- Why a mutex is locked: by `Mutex#lock` or for a body. -/
inductive Locking
  | plain
  | body
deriving DecidableEq, Repr

/-- Why a mutex is unlocked: by `Mutex#unlock`, after a body, or by `Mutex#sleep`. -/
inductive Unlocking
  | plain
  | ensure
  | sleep
deriving DecidableEq, Repr

/-- What a thread does next. `user` is anything outside of the operations. -/
inductive Pc
  | user
  | lockTest (m : ℕ) (k : Locking)
  | lockTake (m : ℕ) (k : Locking)
  | lockRecord (m : ℕ) (k : Locking)
  | unlockNull (m : ℕ) (k : Unlocking)
  | unlockOwner (m : ℕ) (k : Unlocking)
  | unlockRelease (m : ℕ) (k : Unlocking)
  | unlockClear (m : ℕ) (k : Unlocking)
  | sleeping (m : ℕ)
deriving DecidableEq, Repr

/-- `held` and `thread` are the holder of the pthread mutex and the recorded owner of each
mutex, `bodies` are the mutexes in whose bodies a thread is, innermost first. -/
structure State where
  held : ℕ → Option ℕ
  thread : ℕ → Option ℕ
  pc : ℕ → Pc
  bodies : ℕ → List ℕ

def start : State := ⟨fun _ => none,fun _ => none,fun _ => .user,fun _ => []⟩

inductive Op
  | lock (m : ℕ)
  | unlock (m : ℕ)
  | synchronize (m : ℕ)
  | leave
  | sleep (m : ℕ)
deriving DecidableEq, Repr

/-- A thread calls an operation, or takes the next step of the one it is in. -/
inductive Action
  | call (t : ℕ) (op : Op)
  | go (t : ℕ)
deriving DecidableEq, Repr

def State.goTo (s : State) (t : ℕ) (pc : Pc) : State := {s with pc := update s.pc t pc}

def callStep (s : State) (t : ℕ) : Op → State
  | .lock m => s.goTo t (.lockTest m .plain)
  | .unlock m => s.goTo t (.unlockNull m .plain)
  | .synchronize m => s.goTo t (.lockTest m .body)
  | .leave => match s.bodies t with
      | [] => s
      | m::ms => {s.goTo t (.unlockNull m .ensure) with bodies := update s.bodies t ms}
  | .sleep m => s.goTo t (.unlockNull m .sleep)

/-- The next step in `rb_mutex_lock`, `rb_mutex_unlock0` or the sleep. An operation that
raises goes back to `user`. -/
def goStep (s : State) (t : ℕ) : State :=
  match s.pc t with
  | .user => s
  | .lockTest m k => s.goTo t (if s.thread m=some t then .user else .lockTake m k)
  | .lockTake m k =>
    if s.held m=none then
      {s.goTo t (.lockRecord m k) with held := update s.held m (some t)}
    else s
  | .lockRecord m .plain => {s.goTo t .user with thread := update s.thread m (some t)}
  | .lockRecord m .body =>
    {s.goTo t .user with
      thread := update s.thread m (some t)
      bodies := update s.bodies t (m::s.bodies t)}
  | .unlockNull m k => s.goTo t (if s.thread m=none then .user else .unlockOwner m k)
  | .unlockOwner m k => s.goTo t (if s.thread m=some t then .unlockRelease m k else .user)
  | .unlockRelease m k =>
    {s.goTo t (.unlockClear m k) with held := update s.held m none}
  | .unlockClear m .sleep => {s.goTo t (.sleeping m) with thread := update s.thread m none}
  | .unlockClear m _ => {s.goTo t .user with thread := update s.thread m none}
  | .sleeping _ => s.goTo t .user

def step (s : State) : Action → State
  | .call t op => if s.pc t=.user then callStep s t op else s
  | .go t => goStep s t

/-- A thread is in a body on the mutex, and not in the part of `Mutex#sleep` after the
release. -/
def InBody (s : State) (t m : ℕ) : Prop :=
  m ∈ s.bodies t ∧ s.pc t ≠ .unlockClear m .sleep ∧ s.pc t ≠ .sleeping m

def Owns (s : State) (t m : ℕ) : Prop := s.held m=some t ∧ s.thread m=some t

structure Exclusive (s : State) : Prop where
  unique : ∀ {t u m}, InBody s t m → InBody s u m → t=u
  owns : ∀ {t m}, InBody s t m → Owns s t m

/-- A thread does not release by `Mutex#unlock` a mutex in whose body it is, does not come
back from `Mutex#sleep` in such a body, and clears no record while another thread is in a
body on the mutex. -/
def SafeAt (s : State) (t : ℕ) : Pc → Prop
  | .unlockRelease m .plain => m ∉ s.bodies t
  | .unlockClear m _ => ∀ u, ¬InBody s u m
  | .sleeping m => m ∉ s.bodies t
  | _ => True

def Safe (s : State) : Action → Prop
  | .call _ _ => True
  | .go t => SafeAt s t (s.pc t)

variable {s : State} {t : ℕ} {pc : Pc}

lemma exclusive_iff : Exclusive s ↔ ∀ t m, InBody s t m → Owns s t m := by
  constructor
  · intro h t m hb
    exact h.owns hb
  · intro h
    refine ⟨?_,h _ _⟩
    intro t u m ht hu
    have hh := (h t m ht).1
    rw [(h u m hu).1] at hh
    exact Option.some.inj hh.symm

@[grind] def Pc.quiet : Pc → Bool
  | .user | .lockTest _ _ | .lockTake _ _ | .unlockNull _ _ | .unlockOwner _ _ => true
  | _ => false

/-- The mutex of a body that the thread has left and whose unlocking goes on. -/
@[grind] def Pc.left : Pc → Option ℕ
  | .unlockNull m .ensure | .unlockOwner m .ensure | .unlockRelease m .ensure
  | .unlockClear m .ensure => some m
  | _ => none

/-- The mutex that the thread has released and whose record it has yet to clear. -/
@[grind] def Pc.clears : Pc → Option ℕ
  | .unlockClear m _ => some m
  | _ => none

lemma Pc.left_unlock (m : ℕ) (k : Unlocking) :
    (Pc.unlockOwner m k).left=(Pc.unlockNull m k).left ∧
    (Pc.unlockRelease m k).left=(Pc.unlockOwner m k).left ∧
    (Pc.unlockClear m k).left=(Pc.unlockRelease m k).left := by
  cases k <;> exact ⟨rfl,rfl,rfl⟩

/-- What a thread knows of the pthread mutexes and of its bodies. -/
structure Inv (s : State) : Prop where
  recorded : ∀ {m t}, s.thread m=some t → s.held m=some t ∨ (s.pc t).clears=some m
  taken : ∀ {t m k}, s.pc t=.lockRecord m k → s.held m=some t ∧ m ∉ s.bodies t
  releasing : ∀ {t m k}, s.pc t=.unlockRelease m k → s.held m=some t
  released : ∀ {t m}, (s.pc t).clears=some m → s.held m ≠ some t
  sleeping : ∀ {t m}, s.pc t=.sleeping m → s.held m ≠ some t
  nodup : ∀ t, (s.bodies t).Nodup
  left : ∀ {t m}, (s.pc t).left=some m → m ∉ s.bodies t

lemma inv_start : Inv start := by
  constructor <;> simp [start]

lemma Pc.clears_of_quiet (h : pc.quiet=true) : pc.clears=none := by
  cases pc <;> grind

lemma Inv.goTo (h : Inv s) (hold : (s.pc t).quiet=true)
    (hq : pc.quiet=true) (hl : pc.left=none ∨ pc.left=(s.pc t).left) : Inv (s.goTo t pc) := by
  obtain ⟨hrec,ht,hr,hre,hs,hn,ho⟩ := h
  have hb := Pc.clears_of_quiet hold
  have ha := Pc.clears_of_quiet hq
  unfold State.goTo
  constructor <;> grind

lemma inv_callStep (h : Inv s) (hp : s.pc t=.user) (op : Op) : Inv (callStep s t op) := by
  have hq : (s.pc t).quiet=true := by
    rw [hp]
    rfl
  cases op with
  | lock | unlock | synchronize | sleep => exact h.goTo hq rfl (.inl rfl)
  | leave =>
    unfold callStep State.goTo
    cases hb : s.bodies t with
    | nil => exact h
    | cons m ms =>
      obtain ⟨hrec,ht,hr,hre,hs,hn',ho⟩ := h
      constructor <;> grind

lemma inv_goStep (h : Inv s) (he : Exclusive s) (t : ℕ) : Inv (goStep s t) := by
  have hk := h
  obtain ⟨hrec,ht,hr,hre,hs,hn,hou⟩ := h
  unfold goStep
  cases hp : s.pc t with
  | user => exact hk
  | lockTest m k =>
    refine hk.goTo (by rw [hp]; rfl) ?_ (.inl ?_) <;> split_ifs <;> rfl
  | lockTake m k =>
    dsimp only
    split_ifs with hf
    · -- a thread in a body on the mutex holds it, so this thread is in none
      have hou : m ∉ s.bodies t := by
        intro hm
        have ho := he.owns ⟨hm,by rw [hp]; nofun,by rw [hp]; nofun⟩
        rw [ho.1] at hf
        cases hf
      unfold State.goTo
      constructor <;> grind
    · exact hk
  | lockRecord m k | unlockClear m k =>
    unfold State.goTo
    cases k <;> constructor <;> grind
  | unlockNull m k =>
    have hl := (Pc.left_unlock m k).1
    dsimp only
    split_ifs with hnu
    · exact hk.goTo (by rw [hp]; rfl) rfl (.inl rfl)
    · exact hk.goTo (by rw [hp]; rfl) rfl (.inr (by rw [hp,hl]))
  | unlockOwner m k =>
    have hl := (Pc.left_unlock m k).2.1
    dsimp only
    split_ifs with how
    · unfold State.goTo
      constructor <;> grind
    · exact hk.goTo (by rw [hp]; rfl) rfl (.inl rfl)
  | unlockRelease m k =>
    have hl := (Pc.left_unlock m k).2.2
    unfold State.goTo
    constructor <;> grind
  | sleeping m =>
    unfold State.goTo
    constructor <;> grind

lemma inv_step (s : State) (a : Action) (h : Inv s) (he : Exclusive s) : Inv (step s a) := by
  cases a with
  | call t op =>
    change Inv (if s.pc t=.user then callStep s t op else s)
    split_ifs with hp
    · exact inv_callStep h hp op
    · exact h
  | go t => exact inv_goStep h he t

lemma exclusive_goTo (h : Exclusive s)
    (hc : ∀ m, s.pc t ≠ .unlockClear m .sleep) (hs : ∀ m, s.pc t ≠ .sleeping m) :
    Exclusive (s.goTo t pc) := by
  rw [exclusive_iff] at h ⊢
  intro u m hb
  refine h u m ⟨hb.1,?_,?_⟩
  · intro hu
    by_cases hut : u=t
    · exact hc m (hut ▸ hu)
    · exact hb.2.1 ((update_of_ne hut _ _).trans hu)
  · intro hu
    by_cases hut : u=t
    · exact hs m (hut ▸ hu)
    · exact hb.2.2 ((update_of_ne hut _ _).trans hu)

lemma exclusive_callStep (h : Exclusive s) (hpc : s.pc t=.user) (op : Op) :
    Exclusive (callStep s t op) := by
  have hm : ∀ pc, Exclusive (s.goTo t pc) :=
    fun pc => exclusive_goTo h (by rw [hpc]; nofun) (by rw [hpc]; nofun)
  cases op with
  | lock | unlock | synchronize | sleep => exact hm _
  | leave =>
    unfold callStep
    cases hb : s.bodies t with
    | nil => exact h
    | cons m ms =>
      have hg := exclusive_iff.mp (hm (.unlockNull m .ensure))
      rw [exclusive_iff]
      rintro u m' ⟨hme,hp⟩
      refine hg u m' ⟨?_,hp⟩
      change m' ∈ update s.bodies t ms u at hme
      change m' ∈ s.bodies u
      by_cases hu : u=t
      · rw [hu] at hme ⊢
        rw [update_self] at hme
        rw [hb]
        exact List.mem_cons_of_mem m hme
      · rwa [update_of_ne hu] at hme

lemma exclusive_goStep (hi : Inv s) (h : Exclusive s) (t : ℕ) :
    Exclusive (goStep s t) ↔ Safe s (.go t) := by
  have hm : (∀ m, s.pc t ≠ .unlockClear m .sleep) → (∀ m, s.pc t ≠ .sleeping m) →
      ∀ pc, Exclusive (s.goTo t pc) := fun hc hs pc => exclusive_goTo h hc hs
  have ho := exclusive_iff.mp h
  change _ ↔ SafeAt s t (s.pc t)
  unfold goStep
  cases hp : s.pc t with
  | user => exact iff_of_true h trivial
  | lockTest | unlockNull | unlockOwner =>
    exact iff_of_true (hm (by rw [hp]; nofun) (by rw [hp]; nofun) _) trivial
  | lockTake m k =>
    refine iff_of_true ?_ trivial
    dsimp only
    split_ifs with hf
    · rw [exclusive_iff]
      unfold InBody Owns State.goTo at *
      grind
    · exact h
  | lockRecord m k =>
    have ht := hi.taken hp
    refine iff_of_true ?_ trivial
    cases k with
    | plain | body =>
      rw [exclusive_iff]
      unfold InBody Owns State.goTo at *
      grind
  | unlockRelease m k =>
    have hh := hi.releasing hp
    rw [exclusive_iff]
    unfold SafeAt
    cases k with
    | plain | sleep =>
      unfold InBody Owns State.goTo at *
      grind
    | ensure =>
      have hou := hi.left (by rw [hp]; rfl)
      unfold InBody Owns State.goTo at *
      grind
  | unlockClear m k =>
    rw [exclusive_iff]
    unfold SafeAt
    cases k with
    | plain | ensure | sleep =>
      unfold InBody Owns State.goTo at *
      grind
  | sleeping m =>
    have hh := hi.sleeping hp
    rw [exclusive_iff]
    unfold SafeAt
    unfold InBody Owns State.goTo at *
    grind

lemma exclusive_step (s : State) (a : Action) (hi : Inv s) (h : Exclusive s) :
    Exclusive (step s a) ↔ Safe s a := by
  cases a with
  | call t op =>
    refine iff_of_true ?_ trivial
    change Exclusive (if s.pc t=.user then callStep s t op else s)
    split_ifs with hp
    · exact exclusive_callStep h hp op
    · exact h
  | go t => exact exclusive_goStep hi h t

lemma exclusive_start : Exclusive start := by
  rw [exclusive_iff]
  intro t m hb
  exact absurd hb.1 List.not_mem_nil

/-- The bodies exclude each other in all states of a run exactly when every step is safe. -/
theorem exclusive_iff_safe (as : List Action) :
    (∀ l, l <+: as → Exclusive (run step start l)) ↔ Along step Safe start as :=
  invariant_iff_along inv_step exclusive_step inv_start exclusive_start as

/-- A thread records itself after it has taken the pthread mutex, and unlocks it only while it
holds it. -/
structure Disciplined (s : State) : Prop where
  recorded : ∀ {m t}, s.thread m=some t → s.held m=some t ∨ (s.pc t).clears=some m
  taken : ∀ {t m k}, s.pc t=.lockRecord m k → s.held m=some t
  releasing : ∀ {t m k}, s.pc t=.unlockRelease m k → s.held m=some t

lemma Disciplined.goTo (h : Disciplined s) (hold : (s.pc t).quiet=true) (hq : pc.quiet=true) :
    Disciplined (s.goTo t pc) := by
  obtain ⟨hr,ht,hu⟩ := h
  have hb := Pc.clears_of_quiet hold
  have ha := Pc.clears_of_quiet hq
  unfold State.goTo
  constructor <;> grind

lemma disciplined_goStep (h : Disciplined s) (t : ℕ) : Disciplined (goStep s t) := by
  have hk := h
  obtain ⟨hr,ht,hu⟩ := h
  unfold goStep
  cases hp : s.pc t with
  | user => exact hk
  | lockTest m k | unlockNull m k =>
    refine hk.goTo (by rw [hp]; rfl) ?_
    split_ifs <;> rfl
  | lockTake m k =>
    dsimp only
    split_ifs with hf
    · unfold State.goTo
      constructor <;> grind
    · exact hk
  | lockRecord m k | unlockClear m k =>
    unfold State.goTo
    cases k <;> constructor <;> grind
  | unlockOwner m k | unlockRelease m k | sleeping m =>
    unfold State.goTo
    constructor <;> grind

lemma disciplined_step (s : State) (a : Action) (h : Disciplined s) : Disciplined (step s a) := by
  cases a with
  | call t op =>
    change Disciplined (if s.pc t=.user then callStep s t op else s)
    split_ifs with hp
    · have hg : ∀ {pc : Pc}, pc.quiet=true → Disciplined (s.goTo t pc) := fun hq =>
        h.goTo (by rw [hp]; rfl) hq
      cases op with
      | lock | unlock | synchronize | sleep => exact hg rfl
      | leave =>
        unfold callStep
        cases s.bodies t with
        | nil => exact h
        | cons m ms => exact ⟨(hg rfl).recorded,(hg rfl).taken,(hg rfl).releasing⟩
    · exact h
  | go t => exact disciplined_goStep h t

/-- Also where bodies overlap, in every run a pthread mutex is unlocked by its holder. -/
theorem disciplined_run (as : List Action) : Disciplined (run step start as) :=
  run_invariant (fun s a h _ => disciplined_step s a h) ⟨nofun,nofun,nofun⟩
    (along_true step start as)

instance (s : State) (t m : ℕ) : Decidable (InBody s t m) := inferInstanceAs (Decidable (_ ∧ _))

instance (s : State) (t m : ℕ) : Decidable (Owns s t m) := inferInstanceAs (Decidable (_ ∧ _))

/-- The steps of a thread that enters a body, leaves it, or sleeps and wakes up. -/
def enter (t m : ℕ) : List Action := .call t (.synchronize m)::List.replicate 3 (.go t)

def leave (t : ℕ) : List Action := .call t .leave::List.replicate 4 (.go t)

def sleep (t m : ℕ) : List Action := .call t (.sleep m)::List.replicate 5 (.go t)

/-- `ConditionVariable#wait`, with the mutex of the list of waiters. -/
def wait (t waiters m : ℕ) : List Action := enter t waiters++leave t++sleep t m

/-- While the first thread sleeps the second one enters a body, then the first wakes up. -/
def sleepsInBody : List Action :=
  enter 0 0++.call 0 (.sleep 0)::List.replicate 4 (.go 0)++enter 1 0++[.go 0]

/-- The second thread enters a body before the first one has cleared the record. -/
def clearedLate : List Action :=
  enter 0 0++.call 0 .leave::List.replicate 3 (.go 0)++enter 1 0++[.go 0]

/-- Two threads are in bodies at once; a body goes on without the mutex after a wait; and a
body goes on without its record. -/
theorem bodies_overlap :
    (InBody (run step start sleepsInBody) 0 0 ∧ InBody (run step start sleepsInBody) 1 0) ∧
    (InBody (run step start (enter 0 0++wait 0 1 0)) 0 0 ∧
      (run step start (enter 0 0++wait 0 1 0)).held 0 = none) ∧
    InBody (run step start clearedLate) 1 0 ∧ (run step start clearedLate).thread 0 = none := by
  decide
end MacRuby.MutexOwnership
