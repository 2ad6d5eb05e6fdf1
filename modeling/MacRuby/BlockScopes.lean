import MacRuby.SortedMap

/-!
# Bindings of nested blocks

The local variables of a method and of the blocks nested in it, from the tables
of the parser to the binding of an eval-like call. Each level has an `lvars` map
of its own; a block is created in the level around it and records the variables
of that level. The binding is one list: the records of all running blocks from
the inside out, then the variables of the innermost level itself. A lookup takes
the first entry with the name.
-/
namespace MacRuby.BlockScopes
open List

abbrev ID := ℕ

/-- The slot of a variable: the level that allocates it and its name. -/
structure Slot where
  level : ℕ
  name : ID
  deriving DecidableEq

/-- `std::map<ID, Value *>`. -/
abbrev Lvars := SortedMap ID Slot

/-- `nd_tbl`: the parameters and the other names of a scope. -/
structure Tbl where
  args : List ID
  lvars : List ID

/-- The names of a block that belong to the level around it become dynamic variables. -/
def scopeDvars (outer : Lvars) (tbl : Tbl) (dvars : List ID) : List ID :=
  tbl.lvars.foldl (fun dvars id =>
    if (outer.find id).isSome then if id ∈ dvars then dvars else dvars++[id] else dvars) dvars

def compileLvars (level : ℕ) (dvars : List ID) (ids : List ID) (lvars : Lvars) : Lvars :=
  ids.foldl (fun lvars id =>
    if (lvars.find id).isSome then lvars
    else if id ∉ dvars then lvars.assign id ⟨level,id⟩ else lvars) lvars

/-- The variables of a `NODE_SCOPE`: its parameters, then its names that are not dynamic. -/
def scopeLvars (level : ℕ) (dvars : List ID) (tbl : Tbl) : Lvars :=
  compileLvars level dvars tbl.lvars
    (tbl.args.foldl (fun lvars id => lvars.assign id ⟨level,id⟩) ∅)

/-- `rb_vm_local_t`. -/
abbrev Locals := List (ID × Slot)

/-- `rb_vm_block_t`: what the level around it recorded, and the block that level runs in. -/
inductive Block
  | mk (locals : Locals) (parent : Option Block)

/-- A level that runs, with what the compiler knows of it. -/
structure Frame where
  level : ℕ
  lvars : Lvars
  dvars : List ID
  runningBlock : Option Block

def enterMethod (tbl : Tbl) : Frame := ⟨0,scopeLvars 0 [] tbl,[],none⟩

/-- `rb_vm_prepare_block`, as `compile_block_create` calls it. -/
def prepareBlock (frame : Frame) : Block := .mk frame.lvars.entries frame.runningBlock

def enterBlock (frame : Frame) (tbl : Tbl) : Frame :=
  let dvars := scopeDvars frame.lvars tbl frame.dvars
  ⟨frame.level+1,scopeLvars (frame.level+1) dvars tbl,dvars,some (prepareBlock frame)⟩

/-- A method and blocks nested in it, the innermost block first: the innermost level and the
levels around it. -/
def frames (method : Tbl) : List Tbl → Frame × List Frame
  | [] => (enterMethod method,[])
  | tbl::tbls =>
    let (frame,outer) := frames method tbls
    (enterBlock frame tbl,frame::outer)

def Block.chain : Block → Locals
  | .mk locals none => locals
  | .mk locals (some parent) => locals++parent.chain

structure Binding where
  self : ℕ
  locals : Locals

/-- The bindings of the virtual machine, the last one first. -/
structure VM where
  bindings : List Binding

/-- `rb_vm_push_binding`, as `compile_binding` calls it. -/
def pushBinding (vm : VM) (self : ℕ) (frame : Frame) : VM :=
  ⟨⟨self,(frame.runningBlock.map Block.chain).getD []++frame.lvars.entries⟩::vm.bindings⟩

/-- `get_binding_lvar`; a variable that is created gets the slot `new`. -/
def getBindingLvar (vm : VM) (new : Slot) (name : ID) (create : Bool) : Option Slot × VM :=
  match vm.bindings with
  | [] => (none,vm)
  | b::bs =>
    match SortedMap.findIn name b.locals with
    | some slot => (some slot,vm)
    | none =>
      if create then (some new,⟨{b with locals := b.locals++[(name,new)]}::bs⟩) else (none,vm)

def innermost (name : ID) (levels : List Frame) : Option Slot := levels.findSome? (·.lvars.find name)

lemma findIn_append (name : ID) (l l' : Locals) :
    SortedMap.findIn name (l++l')=(SortedMap.findIn name l).or (SortedMap.findIn name l') := by
  induction l with
  | nil => rfl
  | cons e l ih =>
    rw [cons_append,SortedMap.findIn,SortedMap.findIn]
    split_ifs
    · rfl
    · exact ih

lemma findIn_flatMap (name : ID) (levels : List Frame) :
    SortedMap.findIn name (levels.flatMap (·.lvars.entries))=innermost name levels := by
  induction levels with
  | nil => rfl
  | cons frame levels ih =>
    rw [flatMap_cons,findIn_append,ih,innermost,innermost,findSome?_cons]
    change (frame.lvars.find name).or _=_
    cases frame.lvars.find name <;> rfl

lemma chain_frames (method : Tbl) (tbls : List Tbl) :
    (((frames method tbls).1.runningBlock.map Block.chain).getD []) =
      (frames method tbls).2.flatMap (·.lvars.entries) := by
  induction tbls with
  | nil => rfl
  | cons tbl tbls ih =>
    rw [frames,flatMap_cons,← ih]
    change Block.chain (.mk _ (frames method tbls).1.runningBlock)=_
    cases (frames method tbls).1.runningBlock with
    | none => exact (append_nil _).symm
    | some parent => rfl

def Own (level : ℕ) (lvars : Lvars) : Prop := ∀ name slot, lvars.find name=some slot → slot.level=level

lemma own_assign {level : ℕ} {lvars : Lvars} (h : Own level lvars) (id : ID) :
    Own level (lvars.assign id ⟨level,id⟩) := by
  intro name slot hs
  rw [SortedMap.find_assign] at hs
  split_ifs at hs
  · cases hs
    rfl
  · exact h name slot hs

lemma own_empty (level : ℕ) : Own level ∅ := by
  intro name slot hs
  exact nomatch hs

lemma own_scopeLvars (level : ℕ) (dvars : List ID) (tbl : Tbl) : Own level (scopeLvars level dvars tbl) := by
  have ha : ∀ (ids : List ID) lvars, Own level lvars →
      Own level (ids.foldl (fun lvars id => lvars.assign id ⟨level,id⟩) lvars) := by
    intro ids
    induction ids with
    | nil => exact fun _ h => h
    | cons id ids ih => exact fun lvars h => ih _ (own_assign h id)
  have hl : ∀ ids (lvars : Lvars), Own level lvars →
      Own level (compileLvars level dvars ids lvars) := by
    intro ids
    induction ids with
    | nil => exact fun _ h => h
    | cons id ids ih =>
      intro lvars h
      refine ih _ ?_
      dsimp only
      split_ifs
      · exact h
      · exact h
      · exact own_assign h id
  exact hl _ _ (ha _ _ (own_empty level))

lemma frames_levels (method : Tbl) (tbls : List Tbl) :
    Own (frames method tbls).1.level (frames method tbls).1.lvars ∧
      ∀ frame ∈ (frames method tbls).2,
        frame.level < (frames method tbls).1.level ∧ Own frame.level frame.lvars := by
  induction tbls with
  | nil => exact ⟨own_scopeLvars 0 [] method,nofun⟩
  | cons tbl tbls ih =>
    refine ⟨own_scopeLvars _ _ tbl,fun frame hf => ?_⟩
    rcases mem_cons.mp hf with rfl | hf
    · exact ⟨Nat.lt_succ_self _,ih.1⟩
    · exact ⟨Nat.lt_succ_of_lt (ih.2 frame hf).1,(ih.2 frame hf).2⟩

lemma innermost_eq_none {name : ID} {levels : List Frame} :
    innermost name levels=none ↔ ∀ frame ∈ levels, frame.lvars.find name=none :=
  findSome?_eq_none_iff

lemma getBindingLvar_pushBinding (vm : VM) (self : ℕ) (new : Slot) (method : Tbl) (tbls : List Tbl)
    (name : ID) : (getBindingLvar (pushBinding vm self (frames method tbls).1) new name false).1 =
      (innermost name (frames method tbls).2).or ((frames method tbls).1.lvars.find name) := by
  have hl : SortedMap.findIn name
      (((frames method tbls).1.runningBlock.map Block.chain).getD []++(frames method tbls).1.lvars.entries) =
      (innermost name (frames method tbls).2).or ((frames method tbls).1.lvars.find name) := by
    rw [findIn_append,chain_frames,findIn_flatMap]
    rfl
  simp only [getBindingLvar,pushBinding]
  rw [hl]
  cases (innermost name (frames method tbls).2).or ((frames method tbls).1.lvars.find name) <;> rfl

/-- A name in the binding of the innermost level denotes the innermost variable of that name, and
is absent exactly when no level has it, if and only if the innermost level does not reuse a name
of a level around it. -/
theorem binding_sees_innermost_iff (vm : VM) (self : ℕ) (new : Slot) (method : Tbl) (tbls : List Tbl)
    (name : ID) : ((getBindingLvar (pushBinding vm self (frames method tbls).1) new name false).1 =
        innermost name ((frames method tbls).1::(frames method tbls).2) ∧
      ((getBindingLvar (pushBinding vm self (frames method tbls).1) new name false).1 = none ↔
        ∀ frame ∈ (frames method tbls).1::(frames method tbls).2, frame.lvars.find name = none)) ↔
    ¬(((frames method tbls).1.lvars.find name).isSome ∧
      ∃ frame ∈ (frames method tbls).2, (frame.lvars.find name).isSome) := by
  obtain ⟨how,ho⟩ := frames_levels method tbls
  have hc : innermost name ((frames method tbls).1::(frames method tbls).2) =
      ((frames method tbls).1.lvars.find name).or (innermost name (frames method tbls).2) := by
    rw [innermost,findSome?_cons]
    cases (frames method tbls).1.lvars.find name <;> rfl
  have hfo : (∃ frame ∈ (frames method tbls).2, (frame.lvars.find name).isSome) ↔
      (innermost name (frames method tbls).2).isSome := by
    rw [innermost,findSome?_isSome_iff]
  rw [← innermost_eq_none,hc,getBindingLvar_pushBinding,hfo]
  cases hi : (frames method tbls).1.lvars.find name with
  | none =>
    rw [Option.or_none]
    exact ⟨fun _ h => (nomatch h.1),fun _ => ⟨rfl,Iff.rfl⟩⟩
  | some slot =>
    cases hs : innermost name (frames method tbls).2 with
    | none => exact ⟨fun _ h => (nomatch h.2),fun _ => ⟨rfl,⟨nofun,nofun⟩⟩⟩
    | some slot' =>
      refine ⟨fun h => ?_,fun h => absurd ⟨rfl,rfl⟩ h⟩
      obtain ⟨frame,hf,hfi⟩ := exists_of_findSome?_eq_some hs
      have hl := how name slot hi
      have hl' := (ho frame hf).2 name slot' hfi
      have hlt := (ho frame hf).1
      have he : slot'=slot := Option.some.inj h.1
      rw [he] at hl'
      omega

/-- `x = 1; [2].each { |x| eval("x") }`: the name is the variable of the method. -/
theorem parameter_hidden_by_outer_variable :
    (getBindingLvar (pushBinding ⟨[]⟩ 0 (frames ⟨[],[7]⟩ [⟨[7],[]⟩]).1) ⟨9,9⟩ 7 false).1 = some ⟨0,7⟩ ∧
      innermost 7 ((frames ⟨[],[7]⟩ [⟨[7],[]⟩]).1::(frames ⟨[],[7]⟩ [⟨[7],[]⟩]).2) = some ⟨1,7⟩ := by
  decide
end MacRuby.BlockScopes
