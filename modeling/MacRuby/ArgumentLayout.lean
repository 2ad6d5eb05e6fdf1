import Mathlib.Algebra.Order.Group.Nat
import Mathlib.Data.List.Induction

/-!
# Layout of call arguments

`rb_vm_node_arity` counts the parameters of a method or block, and
`__rb_vm_fix_args` fills the arguments of the compiled function: leading required
ones, optional ones, the rest array, trailing required ones. The four index
formulas are kept as they are, over integers, and a read outside `argv` gives
nothing, so that a layout that exists has read only inside it.
-/
namespace MacRuby.ArgumentLayout
open List Nat

/-- `rb_vm_arity_t`; `max` is -1 where there is no maximum. -/
structure Arity where
  leftReq : ℤ
  min : ℤ
  max : ℤ
  real : ℤ
deriving DecidableEq, Repr

/-- The node after the parameters before a rest: the rest, and the trailing parameters. -/
structure RestNode where
  rest : Bool
  next : Option ℕ
deriving DecidableEq, Repr

/-- `NODE_ARGS`: leading required parameters, the chain of optional ones, what follows. -/
structure ArgsNode where
  frml : ℕ
  opt : ℕ
  next : Option RestNode
deriving DecidableEq, Repr

/-- The nodes that have an arity: a scope, and a C function with its declared count. -/
inductive Node
  | scope (args : Option ArgsNode)
  | fbody (argc : ℤ)
deriving DecidableEq, Repr

inductive Slot (V : Type*)
  | value (v : V)
  | undef
  | rest (vs : List V)
deriving DecidableEq, Repr

section Source

def scopeArity : Option ArgsNode → Arity
  | none => ⟨0,0,0,0⟩
  | some n =>
    let hasRest := (n.next.map RestNode.rest).getD false
    let req : ℤ := n.frml+((n.next.bind RestNode.next).getD 0 : ℕ)
    if hasRest then ⟨n.frml,req,-1,req+n.opt+1⟩ else ⟨n.frml,req,req+n.opt,req+n.opt⟩

/-- `rb_vm_node_arity`; nothing where it stops the process. -/
def nodeArity : Node → Option Arity
  | .scope args => some (scopeArity args)
  | .fbody argc =>
    if 0 ≤ argc then some ⟨argc,argc,argc,argc⟩
    else if argc = -1 then some ⟨0,0,-1,2⟩
    else if argc = -2 then some ⟨0,0,-1,1⟩
    else none

variable {V : Type*}

/-- `argv[i]`, if that is inside. -/
def readAt (argv : List V) (i : ℤ) : Option V := if i < 0 then none else argv[i.toNat]?

/-- `rb_ary_new4(n,&argv[i])`, if all of that is inside. -/
def readRange (argv : List V) (i n : ℤ) : Option (List V) :=
  if 0 ≤ i ∧ i+n ≤ argv.length then some ((argv.drop i.toNat).take n.toNat) else none

/-- The body of the loop of `__rb_vm_fix_args`. -/
def fixArg (argv : List V) (arity : Arity) (i : ℕ) : Option (Slot V) :=
  let argc : ℤ := argv.length
  let usedOptArgs := argc-arity.min
  let optArgs := if arity.max = -1 then arity.real-arity.min-1 else arity.real-arity.min
  let restPos := if arity.max = -1 then arity.leftReq+optArgs else -1
  if (i : ℤ) < arity.leftReq then (readAt argv i).map .value
  else if (i : ℤ) < arity.leftReq+optArgs then
    if (i : ℤ)-arity.leftReq ≥ usedOptArgs then some .undef else (readAt argv i).map .value
  else if (i : ℤ)=restPos then
    let restSize := argc-arity.real+1
    if restSize ≤ 0 then some (.rest []) else (readRange argv i restSize).map .rest
  else (readAt argv (argc-(arity.real-i))).map .value

/-- `__rb_vm_fix_args`; nothing if an assertion fails or a read is outside `argv`. -/
def fixArgs (argv : List V) (arity : Arity) : Option (List (Slot V)) :=
  if arity.min ≤ argv.length ∧ (arity.max = -1 ∨ (argv.length : ℤ) ≤ arity.max) then
    (List.range arity.real.toNat).mapM (fixArg argv arity)
  else none

/-- The arguments with which `__rb_vm_rcall` and `__rb_vm_bcall` call the compiled function. -/
def callArgs (argv : List V) (arity : Arity) : Option (List (Slot V)) :=
  if arity.real ≠ argv.length ∨ arity.max = -1 then fixArgs argv arity
  else some (argv.map .value)

end Source

structure Params where
  leading : ℕ
  optional : ℕ
  rest : Bool
  trailing : ℕ
deriving DecidableEq, Repr

def Params.required (p : Params) : ℕ := p.leading+p.trailing

def Params.arity (p : Params) : Arity where
  leftReq := p.leading
  min := p.required
  max := if p.rest then -1 else (p.required+p.optional : ℕ)
  real := (p.required+p.optional+(if p.rest then 1 else 0) : ℕ)

/-- The parameters of a node; a C function that takes its arguments as a vector or as an array has
none and is called in another way. -/
def Node.params : Node → Option Params
  | .scope none => some ⟨0,0,false,0⟩
  | .scope (some n) => some ⟨n.frml,n.opt,(n.next.map RestNode.rest).getD false,
      (n.next.bind RestNode.next).getD 0⟩
  | .fbody argc => if 0 ≤ argc then some ⟨argc.toNat,0,false,0⟩ else none

lemma nodeArity_of_params {node : Node} {p : Params} (h : node.params=some p) :
    nodeArity node=some p.arity := by
  cases node with
  | scope args =>
    cases args with
    | none =>
      cases h
      rfl
    | some n =>
      cases h
      simp only [nodeArity,scopeArity,Params.arity,Params.required]
      split <;> simp
  | fbody argc =>
    simp only [Node.params] at h
    split at h
    · rename_i ha
      cases h
      simp [nodeArity,Params.arity,Params.required,ha]
    · cases h

def Params.Admits (p : Params) (argc : ℕ) : Prop :=
  p.required ≤ argc ∧ (p.rest=false → argc ≤ p.required+p.optional)

variable {α : Type*}

variable {V : Type*} {l o r t : List V} {k : ℕ} {rest : Bool}

lemma mapM_range_eq {f : ℕ → Option α} (xs : List α)
    (h : ∀ i < xs.length, f i=xs[i]?) : (List.range xs.length).mapM f=some xs := by
  induction xs using reverseRecOn with
  | nil => rfl
  | append_singleton xs x ih =>
    have hin : (range xs.length).mapM f=some xs := by
      apply ih
      intro i hi
      rw [h i (by simp; omega),getElem?_append_left hi]
    have hl : f xs.length=some x := by
      rw [h xs.length (by simp)]
      simp
    rw [length_append,length_singleton,range_succ,mapM_append,hin]
    simp [hl]

/-- The slots for leading arguments, supplied optional ones, a number of optional ones that are not
supplied, rest arguments and trailing ones. -/
def slots (l o : List V) (k : ℕ) (rest : Bool) (r t : List V) : List (Slot V) :=
  l.map .value++(o.map .value++(List.replicate k .undef++
    ((if rest then [.rest r] else [])++t.map .value)))

lemma readAt_ofNat (argv : List V) (i : ℕ) : readAt argv i=argv[i]? := by simp [readAt]

lemma optArgs_eq (p : Params) :
    (if p.arity.max = -1 then p.arity.real-p.arity.min-1 else p.arity.real-p.arity.min) =
      p.optional := by
  cases hr : p.rest <;> simp [Params.arity,hr] <;> omega

lemma restPos_eq (p : Params) :
    (if p.arity.max = -1 then p.arity.leftReq+(p.optional : ℤ) else -1) =
      if p.rest then ((p.leading+p.optional : ℕ) : ℤ) else -1 := by
  cases hr : p.rest <;> simp [Params.arity,hr]
  omega

variable {p : Params} {argv : List V} {i : ℕ}

lemma fixArg_leading (hi : i < p.leading) : fixArg argv p.arity i=argv[i]?.map .value := by
  unfold fixArg
  simp only [readAt_ofNat]
  rw [if_pos]
  exact Int.ofNat_lt.mpr hi

lemma fixArg_optional (hle : p.leading ≤ i) (hlt : i < p.leading+p.optional) :
    fixArg argv p.arity i =
      if argv.length+p.leading ≤ p.required+i then some .undef else argv[i]?.map .value := by
  have hl : p.arity.leftReq=p.leading := rfl
  have hm : p.arity.min=p.required := rfl
  unfold fixArg
  simp only [optArgs_eq]
  rw [if_neg (by omega),if_pos (by omega)]
  exact if_congr (by omega) rfl rfl

lemma fixArg_rest (hr : p.rest=true) (hi : i=p.leading+p.optional) : fixArg argv p.arity i =
      if argv.length ≤ p.required+p.optional then some (.rest [])
      else (readRange argv i (argv.length-(p.required+p.optional) : ℕ)).map .rest := by
  have hl : p.arity.leftReq=p.leading := rfl
  have hre : p.arity.real=(p.required+p.optional+1 : ℕ) := by simp [Params.arity,hr]
  unfold fixArg
  simp only [optArgs_eq]
  simp only [restPos_eq,hr,if_true]
  simp only [hre]
  rw [if_neg (by omega),if_neg (by omega),if_pos (by omega)]
  have hs : (argv.length : ℤ)-(p.required+p.optional+1 : ℕ)+1 ≤ 0 ↔
    argv.length ≤ p.required+p.optional := by omega
  by_cases he : argv.length ≤ p.required+p.optional
  · rw [if_pos (hs.mpr he),if_pos he]
  · rw [if_neg (mt hs.mp he),if_neg he]
    congr 2
    omega

lemma fixArg_trailing {j : ℕ} (hle : p.trailing ≤ argv.length)
    (hi : i=p.leading+p.optional+(if p.rest then 1 else 0)+j) :
    fixArg argv p.arity i=argv[argv.length-p.trailing+j]?.map .value := by
  have hl : p.arity.leftReq=p.leading := rfl
  have hin : argv.length-(p.arity.real-i)=(argv.length-p.trailing+j : ℕ) := by
    simp only [Params.arity,Params.required]
    omega
  unfold fixArg
  simp only [optArgs_eq]
  simp only [restPos_eq]
  simp only [hin,readAt_ofNat]
  rw [if_neg (by omega),if_neg (by omega),if_neg]
  cases hr : p.rest with
  | false =>
    rw [if_neg Bool.false_ne_true]
    omega
  | true =>
    rw [hr,if_pos rfl] at hi
    omega

lemma readRange_middle (l r t : List V) : readRange (l++(r++t)) l.length r.length=some r := by
  unfold readRange
  rw [if_pos (by simp only [length_append]; omega)]
  simp

lemma getElem?_append_add {xs ys : List α} {n : ℕ} (h : xs.length=n) (j : ℕ) :
    (xs++ys)[n+j]? = ys[j]? := by
  rw [getElem?_append_right (by omega),h,Nat.add_sub_cancel_left]

lemma fixArg_restSlot (l o t : List V) (hk : r ≠ [] → k=0) :
    fixArg (l++(o++(r++t))) (Params.arity ⟨l.length,o.length+k,true,t.length⟩)
      (l.length+(o.length+k))=some (.rest r) := by
  rw [fixArg_rest rfl (by simp)]
  by_cases hr : r=[]
  · subst hr
    rw [if_pos (by simp [Params.required]; omega)]
  · have hk₀ := hk hr
    subst hk₀
    have hp := length_pos_iff.mpr hr
    rw [if_neg (by simp [Params.required]; omega)]
    have hre := readRange_middle (l++o) r t
    have hs : (l++(o++(r++t))).length-
        (Params.required ⟨l.length,o.length+0,true,t.length⟩+(o.length+0))=r.length := by
      simp only [Params.required,length_append]
      omega
    rw [append_assoc,length_append] at hre
    rw [hs,add_zero,hre]
    rfl

/-- The slots are those of the concatenated arguments: every formula for an index falls into the
part that it is meant for. -/
lemma fixArg_slots (hre : rest=false → r=[]) (hk : r ≠ [] → k=0)
    (hi : i < (slots l o k rest r t).length) :
    fixArg (l++(o++(r++t))) (Params.arity ⟨l.length,o.length+k,rest,t.length⟩) i =
      (slots l o k rest r t)[i]? := by
  have hr : r.length=0 ∨ k=0 := by
    cases r with
    | nil => exact .inl rfl
    | cons v vs => exact .inr (hk (cons_ne_nil v vs))
  unfold slots at hi ⊢
  by_cases h₁ : i < l.length
  · rw [fixArg_leading h₁,getElem?_append_left h₁,getElem?_append_left (by simpa using h₁),
      getElem?_map]
  obtain ⟨j,rfl⟩ := Nat.exists_eq_add_of_le (not_lt.mp h₁)
  rw [getElem?_append_add (length_map _)]
  by_cases h₂ : j < o.length
  · rw [fixArg_optional (by simp) (by simp; omega),if_neg (by simp [Params.required]; omega),
      getElem?_append_add rfl,getElem?_append_left h₂,getElem?_append_left (by simpa using h₂),
      getElem?_map]
  obtain ⟨j,rfl⟩ := Nat.exists_eq_add_of_le (not_lt.mp h₂)
  rw [getElem?_append_add (length_map _)]
  by_cases h₃ : j < k
  · rw [fixArg_optional (by simp) (by simp; omega),if_pos (by simp [Params.required]; omega),
      getElem?_append_left (by simpa using h₃),getElem?_replicate_of_lt h₃]
  obtain ⟨j,rfl⟩ := Nat.exists_eq_add_of_le (not_lt.mp h₃)
  rw [getElem?_append_add length_replicate]
  have ht : ∀ j', j=(if rest then 1 else 0)+j' →
      fixArg (l++(o++(r++t))) (Params.arity ⟨l.length,o.length+k,rest,t.length⟩)
        (l.length+(o.length+(k+j)))=t[j']?.map .value := by
    rintro j' rfl
    rw [fixArg_trailing (j := j') (by simp; omega) (by simp; omega)]
    have hin : (l++(o++(r++t))).length-t.length+j'=(l++(o++r)).length+j' := by
      simp only [length_append]
      omega
    rw [hin,show l++(o++(r++t))=l++(o++r)++t by simp,getElem?_append_add rfl]
  cases hb : rest with
  | false =>
    rw [← hb,ht j (by simp [hb]),hb]
    simp
  | true =>
    cases j with
    | succ j =>
      rw [← hb,ht j (by rw [hb,if_pos rfl,add_comm])]
      simp
    | zero => exact fixArg_restSlot l o t hk

def Slot.values : Slot V → List V
  | .value v => [v]
  | .undef => []
  | .rest vs => vs

lemma values_slots (hr : rest=false → r=[]) :
    (slots l o k rest r t).flatMap Slot.values=l++(o++(r++t)) := by
  have hv : ∀ xs : List V, (xs.map Slot.value).flatMap Slot.values=xs := by
    intro xs
    induction xs with
    | nil => rfl
    | cons x xs ih => exact congrArg (x::·) ih
  have hu : (replicate k (Slot.undef : Slot V)).flatMap Slot.values=[] := by
    induction k with
    | zero => rfl
    | succ k ih => exact ih
  unfold slots
  simp only [flatMap_append,hv,hu]
  cases hb : rest with
  | false => simp [hr hb]
  | true => simp [Slot.values]

lemma length_slots (l o : List V) (k : ℕ) (rest : Bool) (r t : List V) :
    (slots l o k rest r t).length =
      (Params.arity ⟨l.length,o.length+k,rest,t.length⟩).real.toNat := by
  cases rest <;> simp [slots,Params.arity,Params.required] <;> omega

lemma fixArgs_slots (hr : rest=false → r=[]) (hk : r ≠ [] → k=0) :
    fixArgs (l++(o++(r++t))) (Params.arity ⟨l.length,o.length+k,rest,t.length⟩) =
      some (slots l o k rest r t) := by
  unfold fixArgs
  rw [if_pos]
  · rw [← length_slots l o k rest r t]
    exact mapM_range_eq _ fun i hi => fixArg_slots hr hk hi
  · constructor
    · simp [Params.arity,Params.required]
      omega
    · cases hb : rest with
      | true => exact .inl rfl
      | false =>
        right
        simp [Params.arity,Params.required,hr hb]
        omega

lemma callArgs_slots (hre : rest=false → r=[]) (hk : r ≠ [] → k=0) :
    callArgs (l++(o++(r++t))) (Params.arity ⟨l.length,o.length+k,rest,t.length⟩) =
      some (slots l o k rest r t) := by
  unfold callArgs
  split_ifs with h
  · exact fixArgs_slots hre hk
  · cases hb : rest with
    | true => simp [Params.arity,hb] at h
    | false =>
      have hr := hre hb
      simp [Params.arity,Params.required,hr] at h
      have hk₀ : k=0 := by omega
      subst hk₀
      simp [slots,hr]

/-- The arguments fall into leading, optional, rest and trailing ones. -/
structure Parts (p : Params) (argv l o r t : List V) : Prop where
  leading : l.length=p.leading
  optional : o.length=min p.optional (argv.length-p.required)
  rest : p.rest=false → r=[]
  trailing : t.length=p.trailing
  concat : argv=l++(o++(r++t))

lemma exists_append_of_le (xs : List V) {n : ℕ} (h : n ≤ xs.length) :
    ∃ ys zs, xs=ys++zs ∧ ys.length=n :=
  ⟨xs.take n,xs.drop n,(take_append_drop n xs).symm,length_take_of_le h⟩

lemma exists_parts (p : Params) (argv : List V) (h : p.Admits argv.length) :
    ∃ l o r t, Parts p argv l o r t := by
  obtain ⟨hmi,hm⟩ := h
  unfold Params.required at hmi hm
  obtain ⟨l,xs,rfl,hl⟩ := exists_append_of_le argv (n := p.leading) (by omega)
  rw [length_append] at hmi hm
  have hop : min p.optional (xs.length-p.trailing) ≤ xs.length-p.trailing := min_le_right _ _
  obtain ⟨o,ys,rfl,ho⟩ := exists_append_of_le xs
    (n := min p.optional (xs.length-p.trailing)) (by omega)
  rw [length_append] at hmi hm ho hop
  obtain ⟨r,t,rfl,hr⟩ := exists_append_of_le ys (n := ys.length-p.trailing) (by omega)
  rw [length_append] at hmi hm ho hr hop
  refine ⟨l,o,r,t,hl,?_,?_,by omega,rfl⟩
  · simp only [length_append,Params.required]
    omega
  · intro hre
    have hle := hm hre
    apply length_eq_zero_iff.mp
    omega

/-- Qundef stands only for optional parameters that are not supplied: with rest arguments there are
none. -/
lemma Parts.rest_nil {p : Params} {argv l o r t : List V} (h : Parts p argv l o r t)
    (hr : r ≠ []) : p.optional-o.length=0 := by
  have hp := length_pos_iff.mpr hr
  have ho := h.optional
  have hle := congrArg length h.concat
  simp only [length_append] at hle
  have hl := h.leading
  have ht := h.trailing
  unfold Params.required at ho
  omega

lemma layout_of_admits (p : Params) (argv : List V) (h : p.Admits argv.length) :
    ∃ l o r t, Parts p argv l o r t ∧
      fixArgs argv p.arity=some (slots l o (p.optional-o.length) p.rest r t) ∧
      callArgs argv p.arity=some (slots l o (p.optional-o.length) p.rest r t) := by
  obtain ⟨l,o,r,t,hpa⟩ := exists_parts p argv h
  refine ⟨l,o,r,t,hpa,?_⟩
  have hl : o.length ≤ p.optional := hpa.optional ▸ min_le_left _ _
  have hp : p=⟨l.length,o.length+(p.optional-o.length),p.rest,t.length⟩ := by
    rw [hpa.leading,hpa.trailing,Nat.add_sub_cancel' hl]
  have hf := fixArgs_slots (l := l) (o := o) (t := t) hpa.rest hpa.rest_nil
  have hc := callArgs_slots (l := l) (o := o) (t := t) hpa.rest hpa.rest_nil
  rw [← hp,← hpa.concat] at hf hc
  exact ⟨hf,hc⟩

example : fixArgs [10,20,30] (Params.arity ⟨1,2,true,1⟩) =
    some [.value 10,.value 20,.undef,.rest [],.value 30] := by decide

end MacRuby.ArgumentLayout
