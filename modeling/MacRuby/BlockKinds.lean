import Mathlib.Data.Nat.Notation

/-!
# Callbacks, empty blocks and others

What a block is can be told only from its flags. `VM_BLOCK_EMPTY` is the flag of a callback
and that of a lambda, and the flag of a callback is tested first.
-/
namespace MacRuby.BlockKinds

abbrev Flags := BitVec 32

def vmBlockProc : Flags := 0x0001
def vmBlockLambda : Flags := 0x0002
def vmBlockActive : Flags := 0x0004
def vmBlockIfunc : Flags := 0x0010
def vmBlockEmpty : Flags := 0x0012
def vmBlockAot : Flags := 0x1000

/-- The pointer that was given, or the code that it was compiled to. -/
inductive Imp
  | function
  | compiled
deriving DecidableEq

structure Block where
  flags : Flags
  imp : Imp
deriving DecidableEq

/-- What calls `rb_vm_prepare_block`: `rb_vm_create_block`, or compiled code, itself compiled
ahead of time or not, for a block with or without a body. -/
inductive Origin
  | callback
  | literal (aot empty : Bool)
deriving DecidableEq

/-- What happens to a block: it becomes a Proc, a lambda, it is called or copied while it is,
and a call of it ends. A block that is used again stays as it is. -/
inductive Event
  | proc
  | lambda
  | enter
  | dup
  | leave

inductive Ran
  | callback (imp : Imp)
  | nil
  | body (imp : Imp)
deriving DecidableEq

def Flags.has (flags f : Flags) : Bool := flags &&& f == f

def Origin.flags : Origin → Flags
  | .callback => vmBlockIfunc
  | .literal aot empty => (if aot then vmBlockAot else 0) ||| (if empty then vmBlockEmpty else 0)

def rbVmPrepareBlock (flags : Flags) : Block :=
  let aot := Flags.has flags vmBlockAot
  let flags := if aot then flags ^^^ vmBlockAot else flags
  ⟨flags,if Flags.has flags vmBlockIfunc || aot then .function else .compiled⟩

def Block.after (b : Block) : Event → Block
  | .proc => {b with flags := b.flags ||| vmBlockProc}
  | .lambda => {b with flags := b.flags ||| vmBlockLambda}
  | .enter => {b with flags := b.flags ||| vmBlockActive}
  | .dup | .leave => {b with flags := b.flags &&& ~~~vmBlockActive}

def rbVmBlockEval0 (b : Block) : Ran :=
  if Flags.has b.flags vmBlockIfunc then .callback b.imp
  else if Flags.has b.flags vmBlockEmpty then .nil
  else .body b.imp

variable {b : Block} (o : Origin) (es : List Event)

def Origin.isEmpty : Origin → Bool
  | .callback => false
  | .literal _ empty => empty

/-- What a call is to run. -/
def Origin.runs : Origin → Ran
  | .callback => .callback .function
  | .literal aot empty => if empty then .nil else .body (if aot then .function else .compiled)

lemma has_after (e : Event) :
    Flags.has (b.after e).flags vmBlockIfunc=Flags.has b.flags vmBlockIfunc := by
  have ho : ∀ f, f &&& vmBlockIfunc=0 →
      (b.flags ||| f) &&& vmBlockIfunc=b.flags &&& vmBlockIfunc := by
    intro f hf
    rw [BitVec.and_or_distrib_right,hf]
    exact BitVec.or_zero
  unfold Flags.has
  cases e with
  | proc | lambda | enter => exact congrArg (· == _) (ho _ (by decide))
  | dup | leave =>
    dsimp only [Block.after]
    rw [BitVec.and_assoc]
    rfl

/-- No block is taken for an empty one: it would have the flag of a callback. -/
lemma eval0_eq : rbVmBlockEval0 b=
    if Flags.has b.flags vmBlockIfunc then .callback b.imp else .body b.imp := by
  unfold rbVmBlockEval0
  split
  · rfl
  · next hi =>
    refine if_neg fun he => hi (beq_iff_eq.mpr ?_)
    have hm := congrArg (· &&& vmBlockIfunc) (beq_iff_eq.mp he)
    rw [BitVec.and_assoc] at hm
    exact hm

lemma eval0_events : rbVmBlockEval0 (es.foldl Block.after b)=rbVmBlockEval0 b := by
  induction es generalizing b with
  | nil => rfl
  | cons e es ih =>
    rw [List.foldl_cons,ih,eval0_eq,eval0_eq,has_after]
    cases e <;> rfl

end MacRuby.BlockKinds
