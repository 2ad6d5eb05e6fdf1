import Mathlib.Algebra.Ring.Nat
import Mathlib.Data.List.GetD

/-!
# Multiple assignment

The targets before the splat, the splat and those after it get their values from three
functions that compute the places in the array each for itself, two of them with the
length of the array as an `int`.
-/
namespace MacRuby.MultipleAssignment
open List

variable {V : Type*} (nil : V) (ary : List V)

def masgnGetElemBeforeSplat (offset : ℕ) : V := if offset < ary.length then ary.getD offset nil else nil

/-- `int len = RARRAY_LEN(ary)`. -/
def intLen : ℤ := (ary.length : ℤ).bmod (2^32)

def masgnGetElemAfterSplat (before after offset : ℕ) : V :=
  if intLen ary < before+after then
    if (offset+before : ℤ) < intLen ary then ary.getD (offset+before) nil else nil
  else ary.getD (offset+(intLen ary-after)).toNat nil

def masgnGetSplat (before after : ℕ) : List V :=
  if before+after < intLen ary then (ary.drop before).take (intLen ary-before-after).toNat else []

/-- The values that `compile_multiple_assignment` gives to the targets, in their order. -/
def compileMultipleAssignment (before after : ℕ) : List V :=
  (range before).map (masgnGetElemBeforeSplat nil ary)++masgnGetSplat ary before after++
    (range after).map (masgnGetElemAfterSplat nil ary before after)

variable {nil} {ary} {p q : ℕ}

lemma filled_eq (n : ℕ) : ary++replicate (n-ary.length) nil =
    (range (n+(ary.length-n))).map (ary.getD · nil) := by
  apply ext_getElem
  · simp
    omega
  · intro i _ _
    simp only [getElem_append,getElem_map,getElem_range,getElem_replicate]
    split_ifs with hi
    · rw [getD_eq_getElem _ _ hi]
    · rw [getD_eq_default _ _ (by omega)]

lemma splat_eq (nil : V) (hl : intLen ary=ary.length) : masgnGetSplat ary p q =
    (range (ary.length-(p+q))).map fun i => ary.getD (p+i) nil := by
  unfold masgnGetSplat
  rw [hl]
  split_ifs with h
  · apply ext_getElem
    · simp
      omega
    · intro i _ hi
      simp only [length_map,length_range] at hi
      simp [show p+i < ary.length by omega]
  · rw [show ary.length-(p+q)=0 by omega]
    rfl

lemma after_eq (hl : intLen ary=ary.length) (i : ℕ) : masgnGetElemAfterSplat nil ary p q i =
    ary.getD (p+(ary.length-(p+q))+i) nil := by
  unfold masgnGetElemAfterSplat
  split_ifs with h hi
  · exact congrArg (ary.getD · nil) (by omega)
  · rw [getD_eq_default _ _ (by omega)]
  · exact congrArg (ary.getD · nil) (by omega)

end MacRuby.MultipleAssignment
