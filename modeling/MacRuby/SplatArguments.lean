import Mathlib.Algebra.Order.Group.Nat
import Mathlib.Data.List.Induction

/-!
# Transmission of splat arguments

A call site passes its arguments as a variable argument list in which a splat is
marked by the word `SPLAT_ARG_FOLLOWS` before it. The callee counts arguments
without the marks, expands splats and moves to a larger vector when its own is
full. The mark is in band: a word that is the mark and was meant as an argument
makes the callee read on behind the end of the list.
-/
namespace MacRuby.SplatArguments
open List Nat

abbrev VALUE := BitVec 64

def splatArgFollows : VALUE := 0xdeadbeef

/-- `FIXFLOAT_P`: the word is a Float. -/
def isFixfloat (v : VALUE) : Bool := v &&& 3 == 3

/-- The nodes of an argument list, with the values of the expressions in them. -/
inductive ArgNode
  | array (elems : List VALUE)
  | splat (value : VALUE)
  | argscat (head : ArgNode) (body : VALUE)
  | argspush (head : ArgNode) (body : VALUE)

/-- `compile_dispatch_arguments`: what is passed, and the number of arguments. -/
def compileDispatchArguments : ArgNode → List VALUE × ℕ
  | .array elems => (elems,elems.length)
  | .splat value => ([splatArgFollows,value],1)
  | .argscat head body =>
    let r := compileDispatchArguments head
    (r.1++[splatArgFollows,body],r.2+1)
  | .argspush head body =>
    let r := compileDispatchArguments head
    (r.1++[body],r.2+1)

/-- The vector that is filled: the cells that were written, and its size. -/
structure Argv where
  cells : List VALUE
  size : ℕ

/-- Unless the vector has more than `count` free cells, a larger one with a copy of it. -/
def Argv.reserve (a : Argv) (count : ℕ) : Argv :=
  if a.cells.length+count ≥ a.size then ⟨a.cells.take a.size,a.cells.length+count+100⟩ else a

/-- `argv[real_argc++] = v`; nothing if that is outside. -/
def Argv.push (a : Argv) (v : VALUE) : Option Argv :=
  if a.cells.length < a.size then some {a with cells := a.cells++[v]} else none

variable (toA : VALUE → Option (List VALUE))

/-- The elements of a splatted value; one that does not convert with `to_a` stands for itself. -/
def splatElems (v : VALUE) : List VALUE := (toA v).getD [v]

/-- The arguments of `__rb_vm_resolve_args` that are still to come, their number, and whether the mark
came last. Nothing is given where it reads behind the list. -/
def resolveLoop : List VALUE → ℕ → Bool → Argv → Option Argv
  | _,0,_,a => some a
  | [],_+1,_,_ => none
  | v::ar,n+1,splatFollows,a =>
    if v=splatArgFollows then resolveLoop ar (n+1) true a
    else if splatFollows then
      let ary := splatElems toA v
      (ary.foldlM Argv.push (a.reserve ary.length)).bind (resolveLoop ar n false)
    else ((a.reserve 0).push v).bind (resolveLoop ar n false)

/-- `__rb_vm_resolve_args` with a vector of the given size on the stack. -/
def resolveArgs (size : ℕ) (ar : List VALUE) (argc : ℕ) : Option (List VALUE) :=
  (resolveLoop toA ar argc false ⟨[],size⟩).map Argv.cells

inductive Item
  | plain (v : VALUE)
  | splat (v : VALUE)

def Item.operand : Item → VALUE
  | .plain v => v
  | .splat v => v

def ArgNode.items : ArgNode → List Item
  | .array elems => elems.map .plain
  | .splat value => [.splat value]
  | .argscat head body => head.items++[.splat body]
  | .argspush head body => head.items++[.plain body]

def Item.args (toA : VALUE → Option (List VALUE)) : Item → List VALUE
  | .plain v => [v]
  | .splat v => splatElems toA v

def Item.words : Item → List VALUE
  | .plain v => [v]
  | .splat v => [splatArgFollows,v]

lemma compileDispatchArguments_eq (node : ArgNode) :
    compileDispatchArguments node=(node.items.flatMap Item.words,node.items.length) := by
  induction node with
  | array elems =>
    have hw : ∀ vs : List VALUE, (vs.map Item.plain).flatMap Item.words=vs := by
      intro vs
      induction vs with
      | nil => rfl
      | cons v vs ih => exact congrArg (v::·) ih
    simp only [compileDispatchArguments,ArgNode.items,hw,length_map]
  | splat value => rfl
  | argscat head body ih | argspush head body ih =>
    simp only [compileDispatchArguments,ArgNode.items,ih,flatMap_append,length_append]
    rfl

variable (toA : VALUE → Option (List VALUE))

lemma foldlM_push (vs : List VALUE) (a : Argv) (h : a.cells.length+vs.length ≤ a.size) :
    vs.foldlM Argv.push a=some {a with cells := a.cells++vs} := by
  induction vs generalizing a with
  | nil => simp
  | cons v vs ih =>
    simp only [length_cons] at h
    have hp : a.push v=some {a with cells := a.cells++[v]} := if_pos (by omega)
    rw [foldlM_cons,hp]
    change vs.foldlM Argv.push _=_
    rw [ih _ (by simp; omega)]
    simp

lemma reserve_spec (a : Argv) (count : ℕ) (ha : a.cells.length ≤ a.size) :
    (a.reserve count).cells=a.cells ∧ a.cells.length+count < (a.reserve count).size := by
  unfold Argv.reserve
  split_ifs with hf
  · exact ⟨take_of_length_le ha,Nat.lt_add_of_pos_right (by decide)⟩
  · exact ⟨rfl,not_le.mp hf⟩

lemma resolveLoop_item (item : Item) (hi : item.operand ≠ splatArgFollows) (ar : List VALUE)
    (n : ℕ) (a : Argv) (ha : a.cells.length ≤ a.size) :
    ∃ a', a'.cells=a.cells++item.args toA ∧ a'.cells.length ≤ a'.size ∧
      resolveLoop toA (item.words++ar) (n+1) false a=resolveLoop toA ar n false a' := by
  cases item with
  | plain v =>
    have hv : v ≠ splatArgFollows := hi
    obtain ⟨hc,hr⟩ := reserve_spec a 0 ha
    rw [add_zero] at hr
    have hp : (a.reserve 0).push v=some ⟨a.cells++[v],(a.reserve 0).size⟩ := by
      unfold Argv.push
      rw [hc,if_pos hr]
    refine ⟨⟨a.cells++[v],(a.reserve 0).size⟩,rfl,by simpa using succ_le_of_lt hr,?_⟩
    simp only [Item.words,singleton_append,resolveLoop,if_neg hv,hp]
    rfl
  | splat v =>
    have hv : v ≠ splatArgFollows := hi
    obtain ⟨hc,hr⟩ := reserve_spec a (splatElems toA v).length ha
    have hp : (splatElems toA v).foldlM Argv.push (a.reserve (splatElems toA v).length) =
        some ⟨a.cells++splatElems toA v,(a.reserve (splatElems toA v).length).size⟩ := by
      rw [foldlM_push _ _ (by rw [hc]; exact hr.le),hc]
    refine ⟨⟨a.cells++splatElems toA v,(a.reserve (splatElems toA v).length).size⟩,rfl,?_,?_⟩
    · simpa using hr.le
    · simp only [Item.words,cons_append,resolveLoop,if_neg hv,hp]
      rfl

lemma resolveLoop_items (items : List Item)
    (hit : ∀ item ∈ items, item.operand ≠ splatArgFollows) (a : Argv)
    (ha : a.cells.length ≤ a.size) : ∃ a', a'.cells=a.cells++items.flatMap (Item.args toA) ∧
      resolveLoop toA (items.flatMap Item.words) items.length false a=some a' := by
  induction items generalizing a with
  | nil => exact ⟨a,by simp,by simp [resolveLoop]⟩
  | cons item items ih =>
    obtain ⟨a₁,hc₁,ha₁,hl₁⟩ := resolveLoop_item toA item (hit item (by simp))
      (items.flatMap Item.words) items.length a ha
    obtain ⟨a₂,hc₂,hl₂⟩ := ih (fun i hi => hit i (by simp [hi])) a₁ ha₁
    refine ⟨a₂,?_,?_⟩
    · rw [hc₂,hc₁,flatMap_cons,append_assoc]
    · rw [flatMap_cons,length_cons,hl₁,hl₂]

lemma le_unmarked_of_resolveLoop (ar : List VALUE) (n : ℕ) (splatFollows : Bool) (a a' : Argv)
    (h : resolveLoop toA ar n splatFollows a=some a') :
    n ≤ (ar.filter (· ≠ splatArgFollows)).length := by
  induction ar generalizing n splatFollows a with
  | nil =>
    cases n with
    | zero => exact zero_le
    | succ n => cases h
  | cons v ar ih =>
    cases n with
    | zero => exact zero_le
    | succ n =>
      simp only [resolveLoop] at h
      by_cases hv : v=splatArgFollows
      · rw [if_pos hv] at h
        simpa [hv] using ih (n+1) true a h
      · rw [if_neg hv] at h
        have hr : n ≤ (ar.filter (· ≠ splatArgFollows)).length := by
          split at h
          all_goals
            obtain ⟨b,_,hb⟩ := Option.bind_eq_some_iff.mp h
            exact ih n false b hb
        simpa [hv] using hr

lemma unmarked_words (items : List Item) :
    ((items.flatMap Item.words).filter (· ≠ splatArgFollows)).length =
      (items.filter (·.operand ≠ splatArgFollows)).length := by
  induction items with
  | nil => rfl
  | cons item items ih =>
    rw [flatMap_cons,filter_append,length_append,ih]
    cases item with
    | plain v | splat v =>
      by_cases hv : v=splatArgFollows <;> simp [Item.words,Item.operand,hv,add_comm]

/-- For every argument list and every size of the vector the callee gets the values of the plain
arguments and the elements of the splatted ones in order, exactly if no argument and no splatted
value is the mark. -/
theorem transmitted_iff (node : ArgNode) (size : ℕ) :
    resolveArgs toA size (compileDispatchArguments node).1 (compileDispatchArguments node).2 =
        some (node.items.flatMap (Item.args toA)) ↔
      ∀ item ∈ node.items, item.operand ≠ splatArgFollows := by
  rw [compileDispatchArguments_eq]
  constructor
  · intro h
    obtain ⟨a,ha,_⟩ := Option.map_eq_some_iff.mp h
    have hle := le_unmarked_of_resolveLoop toA _ _ _ _ _ ha
    rw [unmarked_words] at hle
    have hal := length_filter_eq_length_iff.mp (le_antisymm (length_filter_le _ _) hle)
    intro item hi
    simpa using hal item hi
  · intro h
    obtain ⟨a,hc,hl⟩ := resolveLoop_items toA node.items h ⟨[],size⟩ zero_le
    unfold resolveArgs
    rw [hl]
    exact congrArg some hc

/-- The mark is the word of a Float, 1.845793955e-314: as an argument of a call it is not received. -/
theorem float_argument_is_taken_for_mark : isFixfloat splatArgFollows = true ∧
      resolveArgs (fun _ => none) 100 (compileDispatchArguments (.array [splatArgFollows])).1
        (compileDispatchArguments (.array [splatArgFollows])).2 = none := by
  decide

end MacRuby.SplatArguments
