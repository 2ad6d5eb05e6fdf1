import MacRuby.Digits
import Mathlib.Data.Nat.Bitwise

/-!
# Shifts of digit lists

Numbers are shifted by less than one digit with a register of two digits. The
loop to the left goes up from the lowest digit and puts the bits that leave a
digit into the next one; the loop to the right goes down from the highest one.
The base is a multiple of the power of two that is shifted by.
-/
namespace MacRuby.DigitShifts
open Digits List Nat

variable {B s : ℕ}

/-- To the left: the digits, and the bits that leave the highest one. `join`
puts the bits that come from below to the shifted digit. -/
def shiftUp (join : ℕ → ℕ → ℕ) (B s : ℕ) : ℕ → List ℕ → List ℕ × ℕ
  | num,[] => ([],num)
  | num,x::xs =>
    let num := wide B (join num (wide B (x*2^s)))
    let rest := shiftUp join B s (num/B) xs
    (num%B::rest.1,rest.2)

/-- To the right: the digits are given and returned highest first, `num` holds
the next higher digit in its upper half. -/
def shiftDown (B s : ℕ) : ℕ → List ℕ → List ℕ
  | _,[] => []
  | num,x::xs => wide B (num ||| x)/2^s%B::shiftDown B s (wide B (x*B)) xs

section Up
variable {f : ℕ → ℕ → ℕ} (hjoin : ∀ num x, num < 2^s → f num (x*2^s)=num+x*2^s)
  (hs : 2^s ≤ B)
include hjoin hs

lemma shiftUp_spec {num : ℕ} {xs : List ℕ} (hn : num < 2^s) (hx : Below B xs) :
    (shiftUp f B s num xs).1.length=xs.length ∧ Below B (shiftUp f B s num xs).1 ∧
      (shiftUp f B s num xs).2 < 2^s ∧
      Nat.ofDigits B (shiftUp f B s num xs).1+B^xs.length*(shiftUp f B s num xs).2 =
        num+2^s*Nat.ofDigits B xs := by
  induction xs generalizing num with
  | nil => simp [shiftUp,hn]
  | cons x xs ih =>
    rw [below_cons] at hx
    have hm : (x+1)*2^s ≤ B*2^s := mul_le_mul_right _ hx.1
    have hm' : B*2^s ≤ B*B := mul_le_mul_left _ hs
    rw [add_mul] at hm
    have hwi : wide B (x*2^s)=x*2^s := wide_of_lt (by omega)
    have hwi' : wide B (num+x*2^s)=num+x*2^s := wide_of_lt (by omega)
    have hc : (num+x*2^s)/B < 2^s := Nat.div_lt_of_lt_mul (by omega)
    obtain ⟨hle,hb,hl,hv⟩ := ih hc hx.2
    simp only [shiftUp,hwi,hjoin num x hn,hwi',length_cons]
    refine ⟨by rw [hle],below_cons.mpr ⟨mod_lt _ (by omega),hb⟩,hl,?_⟩
    rw [ofDigits_cons,ofDigits_cons]
    have hd := mod_add_div (num+x*2^s) B
    linear_combination B*hv+hd

end Up

lemma or_join (num x : ℕ) (h : num < 2^s) : num ||| x*2^s=num+x*2^s := by
  have ho := two_pow_add_eq_or_of_lt h x
  rw [lor_comm,mul_comm x,← ho,add_comm]

lemma div_mod_pow_succ {p h x rest n : ℕ} (hp : p ∣ B) (hpo : 0 < p) (hr : rest < B^n) :
    (x*B^n+rest)/p%B^n+B^n*((h*B+x)/p%B)=(h*B^(n+1)+(x*B^n+rest))/p%B^(n+1) := by
  obtain ⟨c,hc⟩ := hp
  have hl : (h*B^(n+1)+(x*B^n+rest))/p=h*c*B^n+(x*B^n+rest)/p := by
    have hsp : h*B^(n+1)=p*(h*c*B^n) := by
      linear_combination h*B^n*hc
    rw [hsp,mul_add_div hpo]
  have hh : (h*B^(n+1)+(x*B^n+rest))/p/B^n=(h*B+x)/p := by
    have hsp : h*B^(n+1)+(x*B^n+rest)=B^n*(h*B+x)+rest := by ring
    rw [hsp,Nat.div_div_eq_div_mul,mul_comm p (B^n),← Nat.div_div_eq_div_mul,
      mul_add_div (by omega),div_eq_of_lt hr,add_zero]
  have hm : (h*B^(n+1)+(x*B^n+rest))/p%B^(n+1) =
      (h*B^(n+1)+(x*B^n+rest))/p%B^n+B^n*((h*B^(n+1)+(x*B^n+rest))/p/B^n%B) := by
    rw [pow_succ,mod_mul]
  rw [hm,hh,hl,mul_add_mod_self_right]

variable {w : ℕ} (hw : 0 < w) (hs : s ≤ w)
include hw hs

lemma shiftDown_spec {h : ℕ} {xs : List ℕ} (hh : h < 2^w) (hx : Below (2^w) xs) :
    (shiftDown (2^w) s (h*2^w) xs).length=xs.length ∧ Below (2^w) (shiftDown (2^w) s (h*2^w) xs) ∧
      Nat.ofDigits (2^w) (shiftDown (2^w) s (h*2^w) xs).reverse =
        (h*(2^w)^xs.length+Nat.ofDigits (2^w) xs.reverse)/2^s%(2^w)^xs.length := by
  induction xs generalizing h with
  | nil => simp [shiftDown,mod_one]
  | cons x xs ih =>
    rw [below_cons] at hx
    have ho : h*2^w ||| x=x+h*2^w := by rw [lor_comm,or_join x h hx.1]
    have hp : x+h*2^w < 2^w*2^w := by nlinarith
    have hn : x*2^w < 2^w*2^w := (Nat.mul_lt_mul_right (by positivity)).mpr hx.1
    have hr : Below (2^w) xs.reverse := fun d hd => hx.2 d (mem_reverse.mp hd)
    obtain ⟨hl,hb,hv⟩ := ih hx.1 hx.2
    simp only [shiftDown,ho,wide_of_lt hp,wide_of_lt hn,length_cons,reverse_cons]
    refine ⟨by rw [hl],below_cons.mpr ⟨mod_lt _ (by positivity),hb⟩,?_⟩
    have hsi := ofDigits_lt_base_pow_length (Nat.one_lt_two_pow hw.ne') hr
    rw [length_reverse] at hsi
    have hdi := div_mod_pow_succ (h := h) (x := x) (pow_dvd_pow 2 hs) (by positivity) hsi
    rw [ofDigits_concat,ofDigits_concat,hv,length_reverse,length_reverse,hl, add_comm x]
    rw [hdi]
    congr 2
    ring

end MacRuby.DigitShifts
