import Mathlib.Data.List.Nodup
import MacRuby.CallTree
import MacRuby.Runs

/-!
# `catch` and `throw`

For every tag there is one record with one jump buffer and a count of nested
catches, shared by all activations of `ruby_catch` with that tag. A catch fills
the buffer when it is entered, and counts down when it is left normally or by a
throw. A C++ exception, and a jump past a catch, do not count down; and a jump
runs none of the destructors of the calls that it leaves.

Each activation of `ruby_catch` has a number of its own, so a buffer can be told
from a newer one of the same tag. `lastEntered` and `abandoned` record the history;
no operation reads them.
-/
namespace MacRuby.CatchThrow
open Runs CallTree Function List Option

/-- An activation of `ruby_catch`. -/
structure Catch where
  tag : ℕ
  id : ℕ
  entryBlocks : List (Option ℕ)
deriving DecidableEq, Repr

structure Frame where
  finals : List Finally
  catching : Option Catch
deriving DecidableEq, Repr

/-- `rb_vm_catch_t`; `owner` is the activation that filled the buffer. -/
structure CatchBuf where
  owner : ℕ
  nested : ℕ
  throwValue : ℕ
deriving DecidableEq, Repr

structure State where
  vm : VM
  frames : List Frame
  bufs : ℕ → Option CatchBuf
  nextId : ℕ
  halted : Bool
  lastEntered : ℕ → Option ℕ
  abandoned : ℕ → ℕ

/-- `Qnil`, the thrown value when there is none. -/
def qnil : ℕ := 0

def start (vm : VM) : State := ⟨vm,[],fun _ => none,0,false,fun _ => none,fun _ => 0⟩

/-- The end of `ruby_catch`: one nested catch less. -/
def release (bufs : ℕ → Option CatchBuf) (tag : ℕ) : ℕ → Option CatchBuf :=
  match bufs tag with
  | none => bufs
  | some e =>
    update bufs tag
      (if e.nested-1=0 then none else some {e with nested := e.nested-1})

variable (s : State)

def State.halt : State := {s with halted := true}

def abandon (tag : ℕ) : State :=
  {s with abandoned := update s.abandoned tag (s.abandoned tag+1)}

def finishTop : State :=
  match s.frames with
  | [] => s
  | f::fs => match unwind f.finals s.vm with
      | .error _ => s.halt
      | .ok vm => match f.catching with
          | none => {s with vm := vm,frames := fs}
          | some c => {s with vm := vm,frames := fs,bufs := release s.bufs c.tag}

def leaveTop : State :=
  match s.frames with
  | [] => s
  | f::fs => match unwind f.finals s.vm with
      | .error _ => s.halt
      | .ok vm => match f.catching with
          | none => {s with vm := vm,frames := fs}
          | some c => abandon {s with vm := vm,frames := fs} c.tag

def enterCall {p : Place} (n : Node p) (catching : Option Catch) : State :=
  match enter s.vm n with
  | .error _ => s.halt
  | .ok e =>
    let s' := {s with vm := e.vm,frames := ⟨e.finals,catching⟩::s.frames}
    match e.entry with
    | .body => s'
    | .finish false => finishTop s'
    | .finish true => leaveTop s'

/-- The record of a tag after `setjmp` in a new activation. -/
def fillBuf (tag : ℕ) : CatchBuf :=
  match s.bufs tag with
  | none => ⟨s.nextId,1,qnil⟩
  | some e => ⟨s.nextId,e.nested+1,e.throwValue⟩

/-- `RoxorVM::ruby_catch` up to the code of the block that it yields to. -/
def rubyCatch (tag : ℕ) : State :=
  match enter s.vm (.yield0 1 : Node .other) with
  | .error _ => s.halt
  | .ok e =>
    let s' : State := {s with
      vm := e.vm
      frames := ⟨e.finals,some ⟨tag,s.nextId,s.vm.blocks⟩⟩::s.frames
      bufs := update s.bufs tag (some (fillBuf s tag))
      nextId := s.nextId+1
      lastEntered := update s.lastEntered tag (some s.nextId)}
    match e.entry with
    | .body => s'
    | .finish false => finishTop s'
    | .finish true => leaveTop s'

/-- The frames that a jump to an activation leaves, the activation itself, and
the frames below it; nothing when the activation is gone. -/
def landing (owner : ℕ) : List Frame → Option (List Catch × Catch × List Frame)
  | [] => none
  | f::fs => match f.catching with
      | none => landing owner fs
      | some c =>
        if c.id=owner then some ([],c,fs)
        else (landing owner fs).map fun r => (c::r.1,r.2)

inductive Thrown
  | argumentError
  | jump (target : Catch) (value : ℕ) (s : State)
  | undefined

/-- `RoxorVM::ruby_throw`, the jump and the rest of `ruby_catch` where it lands. -/
def rubyThrow (tag value : ℕ) : Thrown :=
  match s.bufs tag with
  | none => .argumentError
  | some e =>
    let e := {e with throwValue := value}
    match landing e.owner s.frames with
    | none => .undefined
    | some (left,c,rest) =>
      .jump c e.throwValue {s with
        frames := rest
        bufs := release (update s.bufs tag (some {e with throwValue := qnil})) c.tag
        abandoned := fun t => s.abandoned t+(left.map Catch.tag).count t}

inductive Action
  | call (n : Node .method)
  | enterCatch (tag : ℕ)
  | finish
  | leave
  | throw (tag value : ℕ)

def step (s : State) (a : Action) : State :=
  if s.halted then s
  else match a with
    | .call n => enterCall s n none
    | .enterCatch tag => rubyCatch s tag
    | .finish => finishTop s
    | .leave => leaveTop s
    | .throw tag value => match rubyThrow s tag value with
        | .argumentError => s
        | .jump _ _ s' => s'
        | .undefined => s.halt

/-- The activations of `ruby_catch` that are not finished, innermost first. -/
def State.catches (s : State) : List Catch := s.frames.filterMap Frame.catching

def State.innermost (s : State) (tag : ℕ) : Option Catch := s.catches.find? (fun c => c.tag=tag)

/-- A throw goes with its value to the innermost active catch of its tag and
leaves the blocks that were current when that catch was entered; without an
active catch it is an error. -/
def Correct (s : State) (tag value : ℕ) : Prop :=
  match s.innermost tag with
  | none => rubyThrow s tag value=.argumentError
  | some c => ∃ s', rubyThrow s tag value=.jump c value s' ∧ s'.vm.blocks=c.entryBlocks

/-- The innermost active catch of the tag is the last one of that tag that was
entered, and the current blocks are those of its entry; or none is active and
none was ever left by an exception or a jump past it. -/
def Safe (s : State) (tag : ℕ) : Prop :=
  match s.innermost tag with
  | none => s.abandoned tag=0
  | some c => s.lastEntered tag=some c.id ∧ s.vm.blocks=c.entryBlocks

instance (s : State) (tag : ℕ) : Decidable (Safe s tag) := by
  unfold Safe
  cases s.innermost tag <;> infer_instance

/-- The count of a tag covers the active catches and those that were left without
counting down; its buffer was filled by the last catch of the tag. -/
structure Inv (s : State) : Prop where
  counted : ∀ t, (s.bufs t).elim 0 CatchBuf.nested =
    (s.catches.map Catch.tag).count t+s.abandoned t
  positive : ∀ t e, s.bufs t=some e → 0 < e.nested
  last : ∀ t e, s.bufs t=some e → s.lastEntered t=some e.owner
  known : ∀ t e, s.bufs t=some e → e.owner < s.nextId
  owned : ∀ t e, s.bufs t=some e → ∀ c ∈ s.catches, c.id=e.owner → c.tag=t
  fresh : ∀ c ∈ s.catches, c.id < s.nextId
  distinct : (s.catches.map Catch.id).Nodup

variable {s : State}
variable {bufs : ℕ → Option CatchBuf} {tag owner : ℕ} {frames : List Frame} {e : CatchBuf}
variable {c : Catch} {vm : VM}

lemma inv_start (vm : VM) : Inv (start vm) := by
  constructor <;> simp [start,State.catches]

lemma Inv.halt (h : Inv s) : Inv s.halt :=
  ⟨h.counted,h.positive,h.last,h.known,h.owned,h.fresh,h.distinct⟩

lemma Inv.reframe (h : Inv s) (hc : frames.filterMap Frame.catching=s.catches) :
    Inv {s with vm := vm,frames := frames} := by
  constructor
  all_goals simp only [State.catches,hc]
  · exact h.counted
  · exact h.positive
  · exact h.last
  · exact h.known
  · exact h.owned
  · exact h.fresh
  · exact h.distinct

lemma Inv.abandonAll (h : Inv s) (vm : VM) (frames : List Frame) (left : List Catch)
    (abandoned : ℕ → ℕ) (hca : s.catches=left++frames.filterMap Frame.catching)
    (ha : ∀ t, abandoned t=s.abandoned t+(left.map Catch.tag).count t) :
    Inv {s with vm := vm,frames := frames,abandoned := abandoned} := by
  have hs : ∀ c ∈ frames.filterMap Frame.catching, c ∈ s.catches := by
    intro c hc
    rw [hca]
    exact mem_append_right _ hc
  have hd := h.distinct
  rw [hca,map_append] at hd
  constructor
  · intro t
    have hco := h.counted t
    rw [hca,map_append,count_append] at hco
    simp only [State.catches,ha]
    omega
  · exact h.positive
  · exact h.last
  · exact h.known
  · exact fun t e he c hc => h.owned t e he c (hs c hc)
  · exact fun c hc => h.fresh c (hs c hc)
  · exact (nodup_append.mp hd).2.1

lemma release_of_some (h : bufs tag=some e) (t : ℕ) : release bufs tag t=if t=tag then
      (if e.nested-1=0 then none else some {e with nested := e.nested-1}) else bufs t := by
  simp only [release,h]
  by_cases ht : t=tag
  · rw [if_pos ht,ht,update_self]
  · rw [if_neg ht,update_of_ne ht]

lemma release_some {e' : CatchBuf}
    (h : bufs tag=some e) {t : ℕ} (he' : release bufs tag t=some e') :
    ∃ e₀, bufs t=some e₀ ∧ e₀.owner=e'.owner ∧ (0 < e₀.nested → 0 < e'.nested) := by
  rw [release_of_some h] at he'
  split_ifs at he' with ht hz
  · have heq := some.inj he'
    subst heq
    exact ⟨e,ht ▸ h,rfl,fun _ => by dsimp only; omega⟩
  · exact ⟨e',he',rfl,id⟩

lemma release_nested (h : bufs tag=some e) (t : ℕ) : (release bufs tag t).elim 0 CatchBuf.nested =
      (bufs t).elim 0 CatchBuf.nested-(if t=tag then 1 else 0) := by
  rw [release_of_some h]
  split_ifs with ht hz
  · rw [ht,h]
    exact hz.symm
  · rw [ht,h]
    rfl
  · rfl

lemma Inv.complete (h : Inv s) (hc : s.catches=c::frames.filterMap Frame.catching) :
    Inv {s with vm := vm,frames := frames,bufs := release s.bufs c.tag} := by
  have hs : ∀ d ∈ frames.filterMap Frame.catching, d ∈ s.catches := by
    intro d hd
    rw [hc]
    exact mem_cons_of_mem c hd
  have hcou : ∀ t, (s.catches.map Catch.tag).count t =
      ((frames.filterMap Frame.catching).map Catch.tag).count t+if t=c.tag then 1 else 0 := by
    intro t
    rw [hc,map_cons]
    split_ifs with ht
    · rw [ht,count_cons_self]
    · rw [count_cons_of_ne (Ne.symm ht),Nat.add_zero]
  have hp := h.counted c.tag
  rw [hcou,if_pos rfl] at hp
  have hso : ∃ e, s.bufs c.tag=some e := by
    cases he : s.bufs c.tag with
    | none =>
      rw [he] at hp
      simp only [elim_none] at hp
      omega
    | some e => exact ⟨e,rfl⟩
  obtain ⟨e,he⟩ := hso
  constructor
  · intro t
    have hco := h.counted t
    rw [hcou] at hco
    simp only [State.catches,release_nested he t]
    split_ifs at hco ⊢ <;> omega
  · intro t e' he'
    obtain ⟨e₀,he₀,-,hn⟩ := release_some he he'
    exact hn (h.positive t e₀ he₀)
  · intro t e' he'
    obtain ⟨e₀,he₀,ho,-⟩ := release_some he he'
    rw [← ho]
    exact h.last t e₀ he₀
  · intro t e' he'
    obtain ⟨e₀,he₀,ho,-⟩ := release_some he he'
    rw [← ho]
    exact h.known t e₀ he₀
  · intro t e' he' d hd
    obtain ⟨e₀,he₀,ho,-⟩ := release_some he he'
    rw [← ho]
    exact h.owned t e₀ he₀ d (hs d hd)
  · exact fun d hd => h.fresh d (hs d hd)
  · have hdi := h.distinct
    rw [hc] at hdi
    exact (nodup_cons.mp hdi).2

lemma Inv.setThrowValue (h : Inv s) (he : s.bufs tag=some e) (value : ℕ) :
    Inv {s with bufs := update s.bufs tag (some {e with throwValue := value})} := by
  have hs : ∀ t e', update s.bufs tag (some {e with throwValue := value}) t=some e' →
      ∃ e₀, s.bufs t=some e₀ ∧ e₀.owner=e'.owner ∧ e₀.nested=e'.nested := by
    intro t e' he'
    by_cases ht : t=tag
    · rw [ht,update_self] at he'
      have heq := some.inj he'
      subst heq
      exact ⟨e,ht ▸ he,rfl,rfl⟩
    · rw [update_of_ne ht] at he'
      exact ⟨e',he',rfl,rfl⟩
  constructor
  · intro t
    have hc := h.counted t
    by_cases ht : t=tag
    · subst ht
      rw [he] at hc
      simp only [update_self]
      exact hc
    · simp only [update_of_ne ht]
      exact hc
  · intro t e' he'
    obtain ⟨e₀,he₀,-,hn⟩ := hs t e' he'
    rw [← hn]
    exact h.positive t e₀ he₀
  · intro t e' he'
    obtain ⟨e₀,he₀,ho,-⟩ := hs t e' he'
    rw [← ho]
    exact h.last t e₀ he₀
  · intro t e' he'
    obtain ⟨e₀,he₀,ho,-⟩ := hs t e' he'
    rw [← ho]
    exact h.known t e₀ he₀
  · intro t e' he'
    obtain ⟨e₀,he₀,ho,-⟩ := hs t e' he'
    rw [← ho]
    exact h.owned t e₀ he₀
  · exact h.fresh
  · exact h.distinct

lemma Inv.finishTop (h : Inv s) : Inv (finishTop s) := by
  unfold CatchThrow.finishTop
  cases hf : s.frames with
  | nil => exact h
  | cons f fs =>
    dsimp only
    cases unwind f.finals s.vm with
    | error c => exact h.halt
    | ok vm =>
      cases hc : f.catching with
      | none =>
        apply h.reframe
        rw [State.catches,hf,filterMap_cons,hc]
      | some c =>
        apply h.complete
        rw [State.catches,hf,filterMap_cons,hc]

lemma Inv.leaveTop (h : Inv s) : Inv (leaveTop s) := by
  unfold CatchThrow.leaveTop
  cases hf : s.frames with
  | nil => exact h
  | cons f fs =>
    dsimp only
    cases unwind f.finals s.vm with
    | error c => exact h.halt
    | ok vm =>
      cases hc : f.catching with
      | none =>
        apply h.reframe
        rw [State.catches,hf,filterMap_cons,hc]
      | some c =>
        apply h.abandonAll vm fs [c]
        · rw [State.catches,hf,filterMap_cons,hc]
          rfl
        · intro t
          by_cases ht : t=c.tag
          · simp [ht]
          · simp [update_of_ne ht,Ne.symm ht]

lemma Inv.enterCall (h : Inv s) (n : Node .method) : Inv (enterCall s n none) := by
  unfold CatchThrow.enterCall
  cases enter s.vm n with
  | error c => exact h.halt
  | ok e =>
    dsimp only
    have hp : Inv {s with vm := e.vm,frames := ⟨e.finals,none⟩::s.frames} := h.reframe rfl
    rcases e.entry with _ | ⟨_ | _⟩
    · exact hp
    · exact hp.finishTop
    · exact hp.leaveTop

lemma fillBuf_spec (s : State) (tag : ℕ) : (fillBuf s tag).owner=s.nextId ∧
      (fillBuf s tag).nested=(s.bufs tag).elim 0 CatchBuf.nested+1 := by
  unfold fillBuf
  cases s.bufs tag <;> exact ⟨rfl,rfl⟩

lemma Inv.register (h : Inv s) (tag : ℕ) (vm : VM) (finals : List Finally)
    (blocks : List (Option ℕ)) : Inv {s with
      vm := vm
      frames := ⟨finals,some ⟨tag,s.nextId,blocks⟩⟩::s.frames
      bufs := update s.bufs tag (some (fillBuf s tag))
      nextId := s.nextId+1
      lastEntered := update s.lastEntered tag (some s.nextId)} := by
  obtain ⟨ho,hn⟩ := fillBuf_spec s tag
  have hca : ∀ t e, update s.bufs tag (some (fillBuf s tag)) t=some e →
      t=tag ∧ e=fillBuf s tag ∨ t ≠ tag ∧ s.bufs t=some e := by
    intro t e he
    by_cases ht : t=tag
    · rw [ht,update_self] at he
      exact .inl ⟨ht,some.inj he.symm⟩
    · rw [update_of_ne ht] at he
      exact .inr ⟨ht,he⟩
  constructor
  · intro t
    have hco := h.counted t
    simp only [State.catches,filterMap_cons,map_cons]
    by_cases ht : t=tag
    · subst ht
      rw [update_self,count_cons_self,elim_some,hn,hco]
      simp only [State.catches]
      omega
    · rw [update_of_ne ht,count_cons_of_ne (Ne.symm ht)]
      exact hco
  · intro t e he
    rcases hca t e he with ⟨-,rfl⟩ | ⟨-,he⟩
    · omega
    · exact h.positive t e he
  · intro t e he
    rcases hca t e he with ⟨rfl,rfl⟩ | ⟨ht,he⟩
    · simp only [update_self,ho]
    · simp only [update_of_ne ht]
      exact h.last t e he
  · intro t e he
    dsimp only
    rcases hca t e he with ⟨-,rfl⟩ | ⟨-,he⟩
    · omega
    · have hk := h.known t e he
      omega
  · intro t e he c hc hi
    simp only [State.catches,filterMap_cons,mem_cons] at hc
    rcases hca t e he with ⟨rfl,rfl⟩ | ⟨ht,he⟩
    · rcases hc with rfl | hc
      · rfl
      · have hf := h.fresh c hc
        omega
    · rcases hc with rfl | hc
      · have hk := h.known t e he
        simp only at hi
        omega
      · exact h.owned t e he c hc hi
  · intro c hc
    simp only [State.catches,filterMap_cons,mem_cons] at hc
    dsimp only
    rcases hc with rfl | hc
    · exact Nat.lt_succ_self _
    · have hf := h.fresh c hc
      omega
  · simp only [State.catches,filterMap_cons,map_cons]
    refine nodup_cons.mpr ⟨?_,h.distinct⟩
    intro hm
    obtain ⟨c,hc,hi⟩ := mem_map.mp hm
    have hf := h.fresh c hc
    omega

lemma Inv.rubyCatch (h : Inv s) (tag : ℕ) : Inv (rubyCatch s tag) := by
  unfold CatchThrow.rubyCatch
  cases enter s.vm (.yield0 1) with
  | error c => exact h.halt
  | ok e =>
    dsimp only
    have hp := h.register tag e.vm e.finals s.vm.blocks
    rcases e.entry with _ | ⟨_ | _⟩
    · exact hp
    · exact hp.finishTop
    · exact hp.leaveTop

/-- A jump cuts the active catches into those that it leaves, its target, and
those below. -/
lemma landing_some {rest : List Frame} {left : List Catch}
    (h : landing owner frames=some (left,c,rest)) :
    frames.filterMap Frame.catching=left++c::rest.filterMap Frame.catching ∧ c.id=owner := by
  induction frames generalizing left with
  | nil => simp [landing] at h
  | cons f fs ih =>
    simp only [landing] at h
    cases hc : f.catching with
    | none =>
      rw [hc] at h
      rw [filterMap_cons,hc]
      exact ih h
    | some d =>
      rw [hc] at h
      dsimp only at h
      rw [filterMap_cons,hc]
      split_ifs at h with hi
      · obtain ⟨rfl,hre⟩ := Prod.mk.inj (some.inj h)
        obtain ⟨rfl,rfl⟩ := Prod.mk.inj hre
        exact ⟨rfl,hi⟩
      · obtain ⟨⟨left',r⟩,hr,he⟩ := map_eq_some_iff.mp h
        obtain ⟨rfl,rfl⟩ := Prod.mk.inj he
        obtain ⟨ih₁,ih₂⟩ := ih hr
        exact ⟨by simp only [ih₁,cons_append],ih₂⟩

lemma landing_isSome (hc : c ∈ frames.filterMap Frame.catching) (hi : c.id=owner) :
    ∃ r, landing owner frames=some r := by
  induction frames with
  | nil => simp at hc
  | cons f fs ih =>
    simp only [landing]
    cases hca : f.catching with
    | none =>
      rw [filterMap_cons,hca] at hc
      exact ih hc
    | some d =>
      rw [filterMap_cons,hca] at hc
      dsimp only
      split_ifs with hd
      · exact ⟨_,rfl⟩
      · rcases mem_cons.mp hc with rfl | hc
        · exact (hd hi).elim
        · obtain ⟨r,hr⟩ := ih hc
          exact ⟨_,by rw [hr]; rfl⟩

lemma Inv.rubyThrow (h : Inv s) {value v : ℕ} {s' : State}
    (hj : rubyThrow s tag value=.jump c v s') : Inv s' := by
  unfold CatchThrow.rubyThrow at hj
  cases he : s.bufs tag with
  | none => simp [he] at hj
  | some e =>
    rw [he] at hj
    dsimp only at hj
    cases hl : landing e.owner s.frames with
    | none => simp [hl] at hj
    | some r =>
      obtain ⟨left,d,rest⟩ := r
      rw [hl] at hj
      simp only [Thrown.jump.injEq] at hj
      obtain ⟨rfl,-,rfl⟩ := hj
      obtain ⟨hc,-⟩ := landing_some hl
      -- first the catches that are jumped over, then the target itself
      have hle := (h.setThrowValue he qnil).abandonAll s.vm (⟨[],some d⟩::rest) left
        (fun t => s.abandoned t+(left.map Catch.tag).count t) hc fun _ => rfl
      exact hle.complete rfl

lemma inv_step (h : Inv s) (a : Action) : Inv (step s a) := by
  unfold step
  split_ifs
  · exact h
  · cases a with
    | call n => exact h.enterCall n
    | enterCatch tag => exact h.rubyCatch tag
    | finish => exact h.finishTop
    | leave => exact h.leaveTop
    | throw tag value =>
      dsimp only
      cases ht : CatchThrow.rubyThrow s tag value with
      | argumentError => exact h
      | undefined => exact h.halt
      | jump c v s' => exact h.rubyThrow ht

lemma inv_run (vm : VM) (as : List Action) : Inv (run step (start vm) as) :=
  run_invariant (I := Inv) (fun _ a h _ => inv_step h a) (inv_start vm)
    (along_true step (start vm) as)

/-- The record of a tag is gone exactly if no activation of it is left and none was abandoned. -/
theorem buf_freed_iff (vm : VM) (as : List Action) (tag : ℕ) :
    (run step (start vm) as).bufs tag = none ↔
      (∀ c ∈ (run step (start vm) as).catches, c.tag ≠ tag) ∧
        (run step (start vm) as).abandoned tag = 0 := by
  have h := inv_run vm as
  have hc := h.counted tag
  have hn : (∀ c ∈ (run step (start vm) as).catches, c.tag ≠ tag) ↔
      ((run step (start vm) as).catches.map Catch.tag).count tag=0 := by
    rw [count_eq_zero,List.mem_map]
    push Not
    rfl
  rw [hn]
  cases hb : (run step (start vm) as).bufs tag with
  | none =>
    rw [hb] at hc
    exact iff_of_true rfl (Nat.add_eq_zero_iff.mp hc.symm)
  | some e =>
    have hp := h.positive tag e hb
    rw [hb,Option.elim_some] at hc
    refine iff_of_false nofun fun hz => ?_
    omega

lemma mem_of_innermost (h : s.innermost tag=some c) : c ∈ s.catches ∧ c.tag=tag :=
  ⟨mem_of_find?_eq_some h,by simpa using find?_some h⟩

lemma count_of_innermost_none (h : s.innermost tag=none) :
    (s.catches.map Catch.tag).count tag=0 := by
  apply count_eq_zero.mpr
  intro hm
  obtain ⟨c,hc,ht⟩ := mem_map.mp hm
  have hn := find?_eq_none.mp h c hc
  simp [ht] at hn

lemma rubyThrow_of_landing (value : ℕ) {e : CatchBuf} (he : s.bufs tag=some e)
    {left : List Catch} {rest : List Frame} (hl : landing e.owner s.frames=some (left,c,rest)) :
    ∃ s', rubyThrow s tag value=.jump c value s' ∧ s'.vm=s.vm := by
  unfold CatchThrow.rubyThrow
  rw [he]
  dsimp only
  rw [hl]
  exact ⟨_,rfl,rfl⟩

lemma rubyThrow_target {value v : ℕ} {s' : State} (h : rubyThrow s tag value=.jump c v s') :
    ∃ e, s.bufs tag=some e ∧ c.id=e.owner ∧ s'.vm=s.vm := by
  unfold CatchThrow.rubyThrow at h
  cases he : s.bufs tag with
  | none => simp [he] at h
  | some e =>
    rw [he] at h
    dsimp only at h
    cases hl : landing e.owner s.frames with
    | none => simp [hl] at h
    | some r =>
      rw [hl] at h
      obtain ⟨rfl,-,rfl⟩ := h
      exact ⟨e,rfl,(landing_some hl).2,rfl⟩

lemma Inv.correct_iff (h : Inv s) (tag value : ℕ) : Correct s tag value ↔ Safe s tag := by
  unfold Correct Safe
  cases hi : s.innermost tag with
  | none =>
    have hc := h.counted tag
    rw [count_of_innermost_none hi,Nat.zero_add] at hc
    cases he : s.bufs tag with
    | none =>
      rw [he] at hc
      simp only [CatchThrow.rubyThrow,he,true_iff]
      exact hc.symm
    | some e =>
      rw [he] at hc
      have hp := h.positive tag e he
      simp only [elim_some] at hc
      constructor
      · intro her
        simp only [CatchThrow.rubyThrow,he] at her
        cases hl : landing e.owner s.frames <;> simp [hl] at her
      · intro hz
        omega
  | some c =>
    obtain ⟨hm,ht⟩ := mem_of_innermost hi
    have hc := h.counted tag
    have hcp : 0 < (s.catches.map Catch.tag).count tag :=
      count_pos_iff.mpr (mem_map.mpr ⟨c,hm,ht⟩)
    cases he : s.bufs tag with
    | none =>
      rw [he] at hc
      simp only [elim_none] at hc
      omega
    | some e =>
      rw [h.last tag e he]
      constructor
      · rintro ⟨s',hj,hb⟩
        obtain ⟨e',he',hid,hv⟩ := rubyThrow_target hj
        rw [he] at he'
        obtain rfl := some.inj he'
        exact ⟨by rw [hid],by rw [← hv]; exact hb⟩
      · rintro ⟨hid,hb⟩
        have ho : c.id=e.owner := some.inj hid.symm
        obtain ⟨⟨left,d,rest⟩,hl⟩ := landing_isSome hm ho
        obtain ⟨hca,hd⟩ := landing_some hl
        -- activations have different numbers, so the jump is to the innermost one
        have hdm : d ∈ s.catches := by rw [State.catches,hca]; simp
        have hdc : d=c := inj_on_of_nodup_map h.distinct hdm hm (hd.trans ho.symm)
        subst hdc
        obtain ⟨s',hj,hv⟩ := rubyThrow_of_landing value he hl
        exact ⟨s',hj,by rw [hv]; exact hb⟩

/-- In every state that calls, catches, returns, exceptions and throws lead to, a
throw does what it should exactly when its tag was not entered again after the
innermost active catch, or left uncounted, and the blocks are those of the
entry of that catch. -/
theorem throw_correct_iff (vm : VM) (as : List Action) (tag value : ℕ) :
    Correct (run step (start vm) as) tag value ↔ Safe (run step (start vm) as) tag := by
  exact (inv_run vm as).correct_iff tag value

def oneBlock : VM := ⟨[],0,fun _ => ⟨0,0,false,false,false,false,0,0⟩,1⟩

/-- The code of a catch calls a method, and the method throws: the throw lands,
with the entries of the two calls still on the stack. -/
theorem throw_from_method_leaves_blocks :
    ¬Correct (run step (start oneBlock) [.call (.dispatch (some 0)),.enterCatch 7,
      .call (.dispatch none),.call (.dispatch none)]) 7 5 := by
  rw [(inv_run _ _).correct_iff]
  decide

end MacRuby.CatchThrow
