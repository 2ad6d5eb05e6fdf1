import MacRuby.ArgumentLayout

/-!
# Arguments of blocks

`rb_vm_block_eval0` refuses a wrong number of arguments of a lambda, spreads a
single array over several parameters and pads or cuts the list, before the
arguments are laid out as for a method. The test that guards all this compares
with a maximum that is -1 for a block with a rest parameter, and the refusal of
a lambda is skipped there.
-/
namespace MacRuby.BlockArguments
open ArgumentLayout List

/-- What is read of values: nil, and the elements of an array. -/
structure Values (V : Type*) where
  nil : V
  elems : V → Option (List V)
  nil_elems : elems nil=none

/-- The fields of `rb_vm_block_t` that decide how the arguments are given. -/
structure Block where
  arity : Arity
  lambda : Bool
  ifunc : Bool
  empty : Bool

inductive Outcome (V : Type*)
  /-- A C function gets the arguments as they are. -/
  | function (argv : List V)
  | nothing
  /-- "wrong number of arguments (%d for %d)" -/
  | argumentError (argc min : ℤ)
  | called (slots : List (Slot V))
  /-- The process stops. -/
  | aborted
deriving DecidableEq

variable {V : Type*} (vals : Values V)

/-- The elements of the only argument, where they are to replace it. -/
def expand (arity : Arity) : List V → Option (List V)
  | [v] => if arity.min > 1 ∨ (arity.min=1 ∧ arity.min ≠ arity.max) then vals.elems v else none
  | _ => none

/-- The list with `new_argc` arguments. -/
def resize (arity : Arity) (argv : List V) : List V :=
  let argc : ℤ := argv.length
  let newArgc := if argc ≤ arity.min then arity.min
    else if argc > arity.max ∧ arity.max ≠ -1 then arity.max else argc
  argv.take newArgc.toNat++List.replicate (newArgc.toNat-argv.length) vals.nil

/-- The number of arguments is outside of the arity; without a maximum it always is. -/
def outside (arity : Arity) (argc : ℤ) : Bool := decide (argc < arity.min ∨ argc > arity.max)

/-- The arguments up to `block_call`. -/
def adapt (arity : Arity) (argv : List V) : List V :=
  if outside arity argv.length then
    match expand vals arity argv with
    | some vs =>
      if arity.min ≤ vs.length ∧ ((vs.length : ℤ) ≤ arity.max ∨ arity.max = -1) then vs
      else resize vals arity vs
    | none => resize vals arity argv
  else argv

/-- `__rb_vm_bcall`, which knows functions of up to nine arguments. -/
def bcall (arity : Arity) (argv : List V) : Outcome V :=
  match callArgs argv arity with
  | none => .aborted
  | some slots => if slots.length ≤ 9 then .called slots else .aborted

/-- `rb_vm_block_eval0`. -/
def blockEval0 (b : Block) (argv : List V) : Outcome V :=
  if b.ifunc then .function argv
  else if b.empty then .nothing
  else if outside b.arity argv.length=true ∧ b.arity.max ≠ -1 ∧ b.lambda=true then
    .argumentError argv.length b.arity.min
  else bcall b.arity (adapt vals b.arity argv)

/-- A block literal; the parser gives it a body even where it is empty. -/
def literal (p : Params) (lambda : Bool) : Block := ⟨p.arity,lambda,false,false⟩

variable {p : Params} {argv : List V}

/-- The block gets the arguments of the list, each at the parameter that it belongs to. -/
def Delivers (p : Params) (argv : List V) (out : Outcome V) : Prop :=
  ∃ l o r t, Parts p argv l o r t ∧ out=.called (slots l o (p.optional-o.length) p.rest r t)

def realArgc (p : Params) : ℕ := p.required+p.optional+(if p.rest then 1 else 0)

lemma Delivers.argv_eq {argv' : List V} {out : Outcome V} (h : Delivers p argv out)
    (h' : Delivers p argv' out) : argv=argv' := by
  obtain ⟨l,o,r,t,hp,rfl⟩ := h
  obtain ⟨l',o',r',t',hp',ho⟩ := h'
  have hs := Outcome.called.inj ho
  rw [hp.concat,hp'.concat,← values_slots hp.rest,
    ← values_slots hp'.rest,hs]

/-- A list that the parameters admit is laid out, and the function is called if it can be. -/
lemma bcall_layout (h : p.Admits argv.length) : ∃ l o r t, Parts p argv l o r t ∧
    bcall p.arity argv=if realArgc p ≤ 9 then
      .called (slots l o (p.optional-o.length) p.rest r t) else .aborted := by
  obtain ⟨l,o,r,t,hp,_,hc⟩ := layout_of_admits p argv h
  have hl := length_slots l o (p.optional-o.length) p.rest r t
  have hle : o.length ≤ p.optional := hp.optional ▸ min_le_left _ _
  rw [hp.leading,hp.trailing,Nat.add_sub_cancel' hle] at hl
  have hr : (slots l o (p.optional-o.length) p.rest r t).length=realArgc p := hl
  refine ⟨l,o,r,t,hp,?_⟩
  unfold bcall
  rw [hc,← hr]

lemma delivers_bcall_iff {argv' : List V} (h : p.Admits argv'.length) :
    Delivers p argv (bcall p.arity argv') ↔ argv'=argv ∧ realArgc p ≤ 9 := by
  obtain ⟨l,o,r,t,hp,hc⟩ := bcall_layout h
  rw [hc]
  split_ifs with hr
  · have hd : Delivers p argv' (.called (slots l o (p.optional-o.length) p.rest r t)) :=
      ⟨l,o,r,t,hp,rfl⟩
    constructor
    · intro h'
      exact ⟨hd.argv_eq h',hr⟩
    · rintro ⟨rfl,_⟩
      exact hd
  · constructor
    · rintro ⟨_,_,_,_,_,ho⟩
      cases ho
    · exact fun h' => absurd h'.2 hr

variable (p) (argv)

/-- Extra arguments dropped where there is no rest parameter, missing required ones set to nil. -/
def fit : List V :=
  (if p.rest then argv else argv.take (p.required+p.optional))++
    List.replicate (p.required-argv.length) vals.nil

def count : ℕ := p.required+p.optional+(if p.rest then 1 else 0)

/-- A single array is replaced by its elements if the block has more than one parameter. -/
def spread : List V :=
  match argv with
  | [v] => if 1 < count p then (vals.elems v).getD argv else argv
  | _ => argv

lemma fit_admits : p.Admits (fit vals p argv).length := by
  unfold fit Params.Admits
  cases hr : p.rest with
  | true | false => simp; omega

lemma fit_of_admits (h : p.Admits argv.length) : fit vals p argv=argv := by
  obtain ⟨hmi,hm⟩ := h
  unfold fit
  rw [Nat.sub_eq_zero_of_le hmi]
  cases hr : p.rest with
  | true => simp
  | false => simp [take_of_length_le (hm hr)]

lemma max_of_rest (hr : p.rest=true) : p.arity.max = -1 := by simp [Params.arity,hr]

lemma max_of_no_rest (hr : p.rest=false) : p.arity.max=(p.required+p.optional : ℕ) := by
  simp [Params.arity,hr]

lemma resize_eq_fit : resize vals p.arity argv=fit vals p argv := by
  have hmi : p.arity.min=p.required := rfl
  unfold resize fit
  simp only [hmi]
  by_cases hl : argv.length ≤ p.required
  · rw [if_pos (by omega),Int.toNat_natCast,take_of_length_le hl,
      take_of_length_le (hl.trans (Nat.le_add_right _ _)),ite_self]
  rw [if_neg (by omega),Nat.sub_eq_zero_of_le (n := p.required) (by omega)]
  cases hr : p.rest with
  | true =>
    have hm := max_of_rest p hr
    rw [hm,if_neg (by simp),Int.toNat_natCast,Nat.sub_self,take_length,if_pos rfl]
  | false =>
    have hm := max_of_no_rest p hr
    rw [hm,if_neg Bool.false_ne_true]
    by_cases hlt : p.required+p.optional < argv.length
    · rw [if_pos (by omega),Int.toNat_natCast,Nat.sub_eq_zero_of_le hlt.le]
    · rw [if_neg (by omega),Int.toNat_natCast,Nat.sub_self,take_length,
        take_of_length_le (not_lt.mp hlt)]

lemma outside_of_rest (hr : p.rest=true) (argc : ℕ) : outside p.arity argc=true := by
  have hm := max_of_rest p hr
  apply decide_eq_true
  omega

lemma outside_iff (hr : p.rest=false) (argc : ℕ) :
    outside p.arity argc=true ↔ ¬p.Admits argc := by
  have hmi : p.arity.min=p.required := rfl
  have hm := max_of_no_rest p hr
  unfold outside Params.Admits
  rw [decide_eq_true_iff]
  simp only [hr,forall_const]
  omega

lemma adapt_eq_fit : adapt vals p.arity argv=fit vals p
    (if outside p.arity argv.length then (expand vals p.arity argv).getD argv else argv) := by
  have hmi : p.arity.min=p.required := rfl
  unfold adapt
  split_ifs with ho
  · cases he : expand vals p.arity argv with
    | none => exact resize_eq_fit vals p argv
    | some vs =>
      change (if _ then vs else resize vals p.arity vs)=fit vals p vs
      split_ifs with hf
      · refine (fit_of_admits vals p vs ⟨by omega,fun hr => ?_⟩).symm
        have hm := max_of_no_rest p hr
        omega
      · exact resize_eq_fit vals p vs
  · refine (fit_of_admits vals p argv ?_).symm
    cases hr : p.rest with
    | true => exact absurd (outside_of_rest p hr _) ho
    | false =>
      by_contra hadmits
      exact ho ((outside_iff p hr _).mpr hadmits)

def Spreads : Prop := 2 ≤ p.required ∨ (p.required=1 ∧ p.rest=true)

instance : Decidable (Spreads p) :=
  inferInstanceAs (Decidable (2 ≤ p.required ∨ (p.required=1 ∧ p.rest=true)))

lemma expand_eq_none (h : ∀ v, argv=[v] → vals.elems v=none) (arity : Arity) :
    expand vals arity argv=none := by
  unfold expand
  split
  · rename_i v
    rw [h v rfl,ite_self]
  · rfl

lemma expanded_singleton {v : V} {vs : List V} (hv : vals.elems v=some vs) :
    (if outside p.arity [v].length then (expand vals p.arity [v]).getD [v] else [v]) =
      if Spreads p then vs else [v] := by
  have hmi : p.arity.min=p.required := rfl
  cases hr : p.rest with
  | true =>
    have hm := max_of_rest p hr
    rw [if_pos (outside_of_rest p hr _)]
    simp only [expand,hv,Spreads,hr,and_true]
    by_cases hs : 2 ≤ p.required ∨ p.required=1
    · rw [if_pos hs,if_pos (by omega)]
      rfl
    · rw [if_neg hs,if_neg (by omega)]
      rfl
  | false =>
    by_cases hs : 2 ≤ p.required
    · have ho : outside p.arity [v].length=true := by
        rw [outside_iff p hr]
        exact fun ha => absurd ha.1 (by simp; omega)
      rw [if_pos ho,if_pos (.inl hs)]
      simp only [expand,hv]
      rw [if_pos (by omega)]
      rfl
    · have hn : ¬Spreads p := by simp [Spreads,hr,hs]
      split_ifs with ho
      · -- more than no parameter is refused, and then there is none at all
        rw [outside_iff p hr] at ho
        simp only [expand]
        rw [if_neg]
        · rfl
        · intro hc
          apply ho
          constructor
          · simp
            omega
          · intro
            simp
            omega
      · rfl

lemma eq_singleton_of_fit_eq {v : V} {vs : List V} (hv : vals.elems v=some vs)
    (hc : 1 < count p) (hs : ¬Spreads p) (h : fit vals p [v]=fit vals p vs) : vs=[v] := by
  have hre : p.required ≤ 1 := by
    unfold Spreads at hs
    omega
  have hm : p.rest=false → 2 ≤ p.required+p.optional := by
    intro hr
    simp [count,hr] at hc
    omega
  have ho : fit vals p [v]=[v] := fit_of_admits vals p [v] ⟨hre,fun hr => by
    have := hm hr
    simp
    omega⟩
  rw [ho] at h
  cases vs with
  | nil =>
    -- padding gives nil, which is no array
    have hn : vals.nil=v := by
      unfold fit at h
      simp only [take_nil,ite_self] at h
      have hme : v ∈ replicate (p.required-[].length) vals.nil :=
        h ▸ mem_singleton_self v
      exact (eq_of_mem_replicate hme).symm
    rw [← hn,vals.nil_elems] at hv
    cases hv
  | cons w ws =>
    have hlo : (w::ws).length ≤ 1 ∨ 2 ≤ (fit vals p (w::ws)).length := by
      by_cases hw : (w::ws).length ≤ 1
      · exact .inl hw
      · right
        unfold fit
        rw [length_append]
        cases hr : p.rest with
        | true =>
          rw [if_pos rfl]
          omega
        | false =>
          have := hm hr
          rw [if_neg Bool.false_ne_true,length_take]
          omega
    cases hlo with
    | inl hsh =>
      have hw : ws=[] := by simpa using hsh
      subst hw
      rw [fit_of_admits vals p [w] ⟨hre,fun hr => by
        have := hm hr
        omega⟩] at h
      exact h.symm
    | inr hl =>
      rw [← h] at hl
      simp at hl

/-- The code spreads as it should, unless an array is the only argument of several parameters that
are not among those for which it looks; an array that is its own only element makes no difference. -/
lemma adapt_eq_iff : adapt vals p.arity argv=fit vals p (spread vals p argv) ↔
    ∀ v vs, argv=[v] → vals.elems v=some vs → 1 < count p → Spreads p ∨ vs=[v] := by
  rw [adapt_eq_fit]
  by_cases ha : ∃ v vs, argv=[v] ∧ vals.elems v=some vs
  · obtain ⟨v,vs,rfl,hv⟩ := ha
    rw [expanded_singleton vals p hv]
    have hi : (∀ v' vs', [v]=[v'] → vals.elems v'=some vs' → 1 < count p →
        Spreads p ∨ vs'=[v']) ↔ 1 < count p → Spreads p ∨ vs=[v] := by
      constructor
      · intro h
        exact h v vs rfl hv
      · intro h v' vs' hv' hvs'
        cases hv'
        rw [hv] at hvs'
        cases hvs'
        exact h
    rw [hi]
    simp only [spread,hv,Option.getD_some]
    by_cases hc : 1 < count p
    · rw [if_pos hc]
      split_ifs with hs
      · simp [hs]
      · constructor
        · intro h _
          exact .inr (eq_singleton_of_fit_eq vals p hv hc hs h)
        · intro h
          rw [(h hc).resolve_left hs]
    · have hs : ¬Spreads p := by
        unfold count at *
        intro h
        cases h with
        | inl h => omega
        | inr h =>
          rw [h.2,if_pos rfl] at hc
          omega
      simp [hc,hs]
  · have hn : ∀ v, argv=[v] → vals.elems v=none := by
      intro v hv
      cases he : vals.elems v with
      | none => rfl
      | some vs => exact absurd ⟨v,vs,hv,he⟩ ha
    have hsp : spread vals p argv=argv := by
      unfold spread
      split
      · rename_i v
        rw [hn v rfl]
        simp
      · rfl
    rw [hsp,expand_eq_none vals argv hn]
    simp only [Option.getD_none,ite_self,true_iff]
    intro v vs hv hvs
    exact absurd ⟨v,vs,hv,hvs⟩ ha

/-- A block that is no lambda is given its parameters as in Ruby exactly if its function has at most
nine arguments and the code spreads where it should. -/
theorem block_adapts_iff :
    Delivers p (fit vals p (spread vals p argv)) (blockEval0 vals (literal p false) argv) ↔
      realArgc p ≤ 9 ∧
        ∀ v vs, argv = [v] → vals.elems v = some vs → 1 < count p → Spreads p ∨ vs = [v] := by
  have he : blockEval0 vals (literal p false) argv=bcall p.arity (adapt vals p.arity argv) := by
    simp [blockEval0,literal]
  have ha : p.Admits (adapt vals p.arity argv).length := by
    rw [adapt_eq_fit]
    exact fit_admits vals p _
  rw [he,delivers_bcall_iff ha,adapt_eq_iff,and_comm]

/-- What a lambda does: a number of arguments that it does not admit is an error, and the others are
delivered as they are. -/
def Strict (out : Outcome V) : Prop :=
  (¬p.Admits argv.length → ∃ argc min, out=.argumentError argc min) ∧
    (p.Admits argv.length → Delivers p argv out)

def SpreadsArray : Prop :=
  p.rest=true ∧ p.required=1 ∧ ∃ v vs, argv=[v] ∧ vals.elems v=some vs ∧ vs ≠ [v]

lemma lambda_without_rest (hr : p.rest=false) : blockEval0 vals (literal p true) argv =
    if outside p.arity argv.length then .argumentError argv.length p.required
    else bcall p.arity (adapt vals p.arity argv) := by
  have hm : p.arity.max ≠ -1 := by
    simp [Params.arity,hr]
    omega
  have hmi : p.arity.min=p.required := rfl
  simp [blockEval0,literal,hm,hmi]

lemma lambda_with_rest (hr : p.rest=true) :
    blockEval0 vals (literal p true) argv=bcall p.arity (adapt vals p.arity argv) := by
  have hm := max_of_rest p hr
  simp [blockEval0,literal,hm]

lemma fit_eq_singleton_iff (hre : p.rest=true) (hr : p.required=1) {v : V}
    {vs : List V} (hv : vals.elems v=some vs) : fit vals p vs=[v] ↔ vs=[v] := by
  unfold fit
  rw [hre,hr]
  cases vs with
  | nil =>
    constructor
    · intro h
      have hn : vals.nil=v := head_eq_of_cons_eq h
      rw [← hn,vals.nil_elems] at hv
      cases hv
    · intro h
      cases h
  | cons w ws => simp

lemma adapt_eq_self_iff (hre : p.rest=true) (ha : p.Admits argv.length) :
    adapt vals p.arity argv=argv ↔ ¬SpreadsArray vals p argv := by
  rw [adapt_eq_fit]
  by_cases har : ∃ v vs, argv=[v] ∧ vals.elems v=some vs
  · obtain ⟨v,vs,rfl,hv⟩ := har
    rw [expanded_singleton vals p hv]
    have hi : SpreadsArray vals p [v] ↔ p.required=1 ∧ vs ≠ [v] := by
      constructor
      · rintro ⟨_,hr,v',vs',hv',hvs',hn⟩
        cases hv'
        rw [hv] at hvs'
        cases hvs'
        exact ⟨hr,hn⟩
      · rintro ⟨hr,hn⟩
        exact ⟨hre,hr,v,vs,rfl,hv,hn⟩
    rw [hi]
    by_cases hr : p.required=1
    · rw [if_pos (.inr ⟨hr,hre⟩),fit_eq_singleton_iff vals p hre hr hv]
      simp [hr]
    · have hl : p.required ≤ 1 := ha.1
      have hs : ¬Spreads p := by
        unfold Spreads
        omega
      rw [if_neg hs,fit_of_admits vals p [v] ha]
      simp [hr]
  · have hno : ∀ v, argv=[v] → vals.elems v=none := by
      intro v hv
      cases he : vals.elems v with
      | none => rfl
      | some vs => exact absurd ⟨v,vs,hv,he⟩ har
    rw [expand_eq_none vals argv hno]
    simp only [Option.getD_none,ite_self,fit_of_admits vals p argv ha,true_iff]
    rintro ⟨_,_,v,vs,hv,hvs,_⟩
    exact har ⟨v,vs,hv,hvs⟩

/-- A lambda is strict exactly if the number of arguments is refused and there is no rest parameter,
or it is admitted, the function has at most nine arguments and the only argument is not an array
that is spread. -/
theorem lambda_strict_iff : Strict p argv (blockEval0 vals (literal p true) argv) ↔
    (¬p.Admits argv.length ∧ p.rest = false) ∨
      (p.Admits argv.length ∧ realArgc p ≤ 9 ∧ ¬SpreadsArray vals p argv) := by
  have had : p.Admits (adapt vals p.arity argv).length := by
    rw [adapt_eq_fit]
    exact fit_admits vals p _
  unfold Strict
  cases hr : p.rest with
  | true =>
    rw [lambda_with_rest vals p argv hr]
    by_cases ha : p.Admits argv.length
    · rw [delivers_bcall_iff had,adapt_eq_self_iff vals p argv hr ha]
      simp [ha,and_comm]
    · have hca : ¬∃ argc min, bcall p.arity (adapt vals p.arity argv)=.argumentError argc min := by
        rintro ⟨argc,min,ho⟩
        obtain ⟨l,o,r,t,_,hc⟩ := bcall_layout had
        rw [ho] at hc
        split at hc <;> cases hc
      simp [ha,hca]
  | false =>
    rw [lambda_without_rest vals p argv hr]
    by_cases ha : p.Admits argv.length
    · have ho : outside p.arity argv.length=false := by
        rw [← Bool.not_eq_true,outside_iff p hr]
        exact fun h => h ha
      have hse : adapt vals p.arity argv=argv := by
        unfold adapt
        rw [ho]
        rfl
      have hs : ¬SpreadsArray vals p argv :=
        fun h => Bool.false_ne_true (hr.symm.trans h.1)
      rw [ho,if_neg Bool.false_ne_true,delivers_bcall_iff had]
      simp [ha,hse,hs]
    · have ho : outside p.arity argv.length=true := (outside_iff p hr _).mpr ha
      rw [if_pos ho]
      simp [ha]

def pairValues : Values ℕ := ⟨0,fun v => if v=5 then some [1,2] else none,rfl⟩

/-- `lambda { |a, *b| }` called without arguments is no error: `a` is nil. -/
theorem lambda_with_rest_pads :
    blockEval0 pairValues (literal ⟨1,0,true,0⟩ true) [] = .called [.value 0,.rest []] ∧
      ¬Strict ⟨1,0,true,0⟩ [] (blockEval0 pairValues (literal ⟨1,0,true,0⟩ true) []) := by
  have hc : blockEval0 pairValues (literal ⟨1,0,true,0⟩ true) [] =
    .called [.value 0,.rest []] := by decide
  refine ⟨hc,fun h => ?_⟩
  obtain ⟨_,_,ho⟩ := h.1 (by simp [Params.Admits,Params.required])
  cases ho

/-- `proc { |a, b = 3| }` called with an array: `a` is the array. -/
theorem optional_parameter_prevents_spreading :
    blockEval0 pairValues (literal ⟨1,1,false,0⟩ false) [5] = .called [.value 5,.undef] ∧
      ¬Delivers ⟨1,1,false,0⟩ (fit pairValues ⟨1,1,false,0⟩ (spread pairValues ⟨1,1,false,0⟩ [5]))
        (blockEval0 pairValues (literal ⟨1,1,false,0⟩ false) [5]) := by
  have hc : blockEval0 pairValues (literal ⟨1,1,false,0⟩ false) [5] =
    .called [.value 5,.undef] := by decide
  refine ⟨hc,fun h => ?_⟩
  have hs : Delivers ⟨1,1,false,0⟩ [5] (.called [.value 5,.undef]) :=
    ⟨[5],[],[],[],⟨rfl,rfl,fun _ => rfl,rfl,rfl⟩,rfl⟩
  exact absurd (h.argv_eq hs) (by decide)

end MacRuby.BlockArguments
