import MacRuby.Integers

/-!
# Stepping through Fixnums

`Numeric#step` with three Fixnums counts with a machine word. The counter goes past the
limit before it is tested, and what is past the limit is at most one step away, so that
63 bits are enough.
-/
namespace MacRuby.FixnumSteps
open Integers Nat

/-- The counter has not passed the limit in the direction of the step. -/
def Continues (diff i last : ℤ) : Prop := if diff > 0 then i ≤ last else i ≥ last

instance (diff i last : ℤ) : Decidable (Continues diff i last) :=
  inferInstanceAs (Decidable (if diff > 0 then i ≤ last else i ≥ last))

/-- The loops of `num_step` for the two directions, with the values that are yielded. A
counter that leaves the machine word has no result, and neither has a loop that goes on. -/
def stepLoop : ℕ → ℤ → ℤ → ℤ → Option (List (BitVec 62))
  | 0,_,_,_ => none
  | fuel+1,i,last,diff =>
    if Continues diff i last then
      if long (i+diff)=i+diff then
        (stepLoop fuel (long (i+diff)) last diff).map (long2fix i::·)
      else none
    else some []

inductive Stepped
  | yielded (values : List (BitVec 62))
  | stepIsZero
deriving DecidableEq, Repr

/-- `num_step` of Fixnums, for a block that does not break. -/
def numStep (fuel : ℕ) (start limit step : BitVec 62) : Option Stepped :=
  if fix2long step=0 then some .stepIsZero
  else (stepLoop fuel (fix2long start) (fix2long limit) (fix2long step)).map .yielded

variable {d last : ℤ}
variable {i : ℤ}

lemma not_continues_add (h : ¬Continues d i last) (k : ℕ) : ¬Continues d (i+k*d) last := by
  unfold Continues at h ⊢
  split_ifs at h ⊢ with hd
  · have hl : 0 ≤ (k : ℤ)*d := mul_nonneg (by omega) (by omega)
    omega
  · have hl : (k : ℤ)*d ≤ 0 := mul_nonpos_of_nonneg_of_nonpos (by omega) (by omega)
    omega

def distance (d i last : ℤ) : ℕ := if d > 0 then (last-i+1).toNat else (i-last+1).toNat

lemma distance_add (hd : d ≠ 0) (h : Continues d i last) :
    distance d (i+d) last < distance d i last := by
  unfold Continues at h
  unfold distance
  split_ifs at h ⊢ with hp <;> omega

/-- The counter has not run away against the direction of the step. -/
def Ahead (d i : ℤ) : Prop := if d > 0 then -2^61 ≤ i else i < 2^61

lemma ahead_add (h : Ahead d i) : Ahead d (i+d) := by
  unfold Ahead at h ⊢
  split_ifs at h ⊢ with hp <;> omega

lemma ahead_mul (h : Ahead d i) (k : ℕ) : Ahead d (i+k*d) := by
  induction k with
  | zero =>
    rw [cast_zero,zero_mul,add_zero]
    exact h
  | succ k ih =>
    rw [cast_succ,add_mul,one_mul,← add_assoc]
    exact ahead_add ih

lemma fixable_of_continues (hl : Fixable last) (ha : Ahead d i)
    (h : Continues d i last) : Fixable i := by
  unfold Fixable at hl ⊢
  unfold Ahead at ha
  unfold Continues at h
  split_ifs at h ha with hp <;> omega

def progression (a d : ℤ) (count : ℕ) : List (BitVec 62) :=
  (List.range count).map fun k : ℕ => long2fix (a+k*d)

lemma progression_succ (a d : ℤ) (count : ℕ) :
    progression a d (count+1)=long2fix a::progression (a+d) d count := by
  have hs : ∀ k, a+((k+1 : ℕ))*d=a+d+k*d := fun k => by
    push_cast
    ring
  simp only [progression,List.range_succ_eq_map,List.map_cons,List.map_map,Function.comp_def,hs,cast_zero,zero_mul,add_zero]

lemma stepLoop_spec (hd : d ≠ 0) (hf : Fixable d) (hl : Fixable last) {fuel : ℕ}
    (ha : Ahead d i) (hfu : distance d i last < fuel) :
    ∃ count : ℕ, stepLoop fuel i last d=some (progression i d count) ∧
      ∀ k : ℕ, k < count ↔ Continues d (i+k*d) last := by
  induction fuel generalizing i with
  | zero => omega
  | succ fuel ih =>
    rw [stepLoop]
    by_cases h : Continues d i last
    · have hi := fixable_of_continues hl ha h
      have hlo : long (i+d)=i+d := by
        unfold Fixable at hi hf
        exact long_eq (by omega) (by omega)
      have hn := distance_add hd h
      obtain ⟨count,hloo,hc⟩ := ih (ahead_add ha) (by omega)
      refine ⟨count+1,?_,fun k => ?_⟩
      · rw [if_pos h,hlo,if_pos rfl,hloo,Option.map_some,progression_succ]
      · cases k with
        | zero =>
          rw [cast_zero,zero_mul,add_zero]
          exact iff_of_true (succ_pos count) h
        | succ k =>
          have hs : i+((k+1 : ℕ))*d=i+d+k*d := by
            push_cast
            ring
          rw [succ_lt_succ_iff,hc,hs]
    · rw [if_neg h]
      exact ⟨0,rfl,fun k => iff_of_false (not_lt_zero k) (not_continues_add h k)⟩

/-- Fixnum stepping yields the numbers `start+k*step` that do not pass the limit, each once and
in order, and its counter stays in the machine word. -/
theorem numStep_progression (start limit step : BitVec 62) (hstep : fix2long step ≠ 0) :
    ∃ fuel count : ℕ, numStep fuel start limit step =
        some (.yielded (progression (fix2long start) (fix2long step) count)) ∧
      ∀ k : ℕ, (k < count ↔ Continues (fix2long step) (fix2long start+k*fix2long step)
          (fix2long limit)) ∧ (k < count → fix2long (long2fix (fix2long start+k*fix2long step)) =
          fix2long start+k*fix2long step) := by
  have ha : Ahead (fix2long step) (fix2long start) := by
    have hs := fix2long_fixable start
    unfold Ahead
    split_ifs
    · exact hs.1
    · exact hs.2
  obtain ⟨count,hl,hc⟩ := stepLoop_spec hstep (fix2long_fixable step)
    (fix2long_fixable limit) ha (lt_succ_self _)
  refine ⟨_,count,by rw [numStep,if_neg hstep,hl,Option.map_some],fun k => ⟨hc k,fun hk => ?_⟩⟩
  exact fix2long_long2fix (fixable_of_continues (fix2long_fixable limit) (ahead_mul ha k)
    ((hc k).mp hk))

/-- From 10 down to 3 in steps of -4. -/
theorem numStep_down : ∃ fuel count : ℕ, numStep fuel 10 3 (-4) =
        some (.yielded (progression (fix2long 10) (fix2long (-4)) count)) ∧
      ∀ k : ℕ, (k < count ↔ Continues (fix2long (-4)) (fix2long 10+k*fix2long (-4)) (fix2long 3)) ∧
        (k < count → fix2long (long2fix (fix2long 10+k*fix2long (-4))) =
          fix2long 10+k*fix2long (-4)) :=
  numStep_progression 10 3 (-4) (by decide)

end MacRuby.FixnumSteps
