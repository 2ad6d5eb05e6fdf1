import Mathlib.Data.Nat.Digits.Lemmas
import Mathlib.Tactic.LinearCombination

/-!
# Digit loops

Schoolbook arithmetic on lists of digits to a base `B`, lowest digit first, as
it is done with one register of the width of a digit and one of twice that
width. The loops stop early where nothing is left to carry. `wide` is the
arithmetic of the wide register; each loop is proved not to overflow it.
-/
namespace MacRuby.Digits
open List Nat

def wide (B n : ℕ) : ℕ := n % (B*B)

def Below (B : ℕ) (ds : List ℕ) : Prop := ∀ d ∈ ds, d < B

variable {B : ℕ}

@[simp] lemma below_nil : Below B [] := by simp [Below]

@[simp] lemma below_cons {d : ℕ} {ds : List ℕ} : Below B (d::ds) ↔ d < B ∧ Below B ds := by
  simp [Below]

lemma below_append {ds es : List ℕ} : Below B (ds++es) ↔ Below B ds ∧ Below B es := by
  simp [Below,or_imp,forall_and]

lemma wide_of_lt {n : ℕ} (h : n < B*B) : wide B n=n := mod_eq_of_lt h

lemma ofDigits_concat (ds : List ℕ) (d : ℕ) :
    Nat.ofDigits B (ds++[d])=Nat.ofDigits B ds+B^ds.length*d := by
  rw [ofDigits_append,ofDigits_singleton]

section Addition
variable {ys xs : List ℕ} {num : ℕ}

/-- The carry runs into the rest of the longer number; what follows is copied
and the last carry becomes the top digit. -/
def addCarry (B : ℕ) : ℕ → List ℕ → List ℕ
  | num,[] => [num%B]
  | num,y::ys =>
    if num=0 then y::(ys++[num%B])
    else (wide B (num+y))%B::addCarry B ((wide B (num+y))/B) ys

def addLoop (B : ℕ) : ℕ → List ℕ → List ℕ → List ℕ
  | num,x::xs,y::ys => (wide B (num+(x+y)))%B::addLoop B ((wide B (num+(x+y)))/B) xs ys
  | num,_,ys => addCarry B num ys

def addDigits (B : ℕ) (xs ys : List ℕ) : List ℕ :=
  if xs.length > ys.length then addLoop B 0 ys xs else addLoop B 0 xs ys

variable (hB : 1 < B)
include hB

lemma wide_add_le {n : ℕ} (h : n < 2*B) : wide B n=n ∧ n/B ≤ 1 := by
  refine ⟨wide_of_lt ?_,?_⟩
  · nlinarith
  · have hl : n/B < 2 := Nat.div_lt_of_lt_mul (by omega)
    omega

lemma addCarry_spec (hn : num ≤ 1) (hy : Below B ys) :
    Nat.ofDigits B (addCarry B num ys)=num+Nat.ofDigits B ys ∧ Below B (addCarry B num ys) := by
  induction ys generalizing num with
  | nil =>
    have hm : num%B=num := mod_eq_of_lt (by omega)
    rw [addCarry,hm]
    exact ⟨rfl,below_cons.mpr ⟨by omega,below_nil⟩⟩
  | cons y ys ih =>
    rw [below_cons] at hy
    simp only [addCarry]
    split_ifs with hz
    · subst hz
      rw [zero_mod,ofDigits_cons,ofDigits_cons,ofDigits_concat]
      refine ⟨by ring,?_⟩
      rw [below_cons,below_append]
      exact ⟨hy.1,hy.2,by simp; omega⟩
    · obtain ⟨hw,hc⟩ := wide_add_le hB (n := num+y) (by omega)
      rw [hw]
      obtain ⟨hv,hb⟩ := ih hc hy.2
      refine ⟨?_,below_cons.mpr ⟨mod_lt _ (by omega),hb⟩⟩
      rw [ofDigits_cons,hv]
      have hd := mod_add_div (num+y) B
      calc (num+y)%B+B*((num+y)/B+ofDigits B ys)
          = (num+y)%B+B*((num+y)/B)+B*ofDigits B ys := by ring
        _=num+(y+B*ofDigits B ys) := by rw [hd]; ring

lemma addLoop_spec (hn : num ≤ 1) (hl : xs.length ≤ ys.length)
    (hx : Below B xs) (hy : Below B ys) :
    Nat.ofDigits B (addLoop B num xs ys)=num+Nat.ofDigits B xs+Nat.ofDigits B ys ∧
      Below B (addLoop B num xs ys) := by
  induction xs generalizing num ys with
  | nil =>
    exact addCarry_spec hB hn hy
  | cons x xs ih =>
    cases ys with
    | nil => simp at hl
    | cons y ys =>
      rw [below_cons] at hx hy
      simp only [length_cons] at hl
      obtain ⟨hw,hc⟩ := wide_add_le hB (n := num+(x+y)) (by omega)
      simp only [addLoop,hw]
      obtain ⟨hv,hb⟩ := ih hc (by omega) hx.2 hy.2
      refine ⟨?_,below_cons.mpr ⟨mod_lt _ (by omega),hb⟩⟩
      rw [ofDigits_cons,hv]
      have hd := mod_add_div (num+(x+y)) B
      calc (num+(x+y))%B+B*((num+(x+y))/B+ofDigits B xs+ofDigits B ys)
          = (num+(x+y))%B+B*((num+(x+y))/B)+B*(ofDigits B xs+ofDigits B ys) := by ring
        _=num+(x+B*ofDigits B xs)+(y+B*ofDigits B ys) := by rw [hd]; ring

lemma addDigits_spec (hx : Below B xs) (hy : Below B ys) :
    Nat.ofDigits B (addDigits B xs ys)=Nat.ofDigits B xs+Nat.ofDigits B ys ∧
      Below B (addDigits B xs ys) := by
  unfold addDigits
  split_ifs with hl
  · obtain ⟨hv,hb⟩ := addLoop_spec hB (zero_le 1) hl.le hy hx
    exact ⟨by rw [hv]; ring,hb⟩
  · obtain ⟨hv,hb⟩ := addLoop_spec hB (zero_le 1) (not_lt.mp hl) hx hy
    exact ⟨by rw [hv]; ring,hb⟩

end Addition

section Subtraction
variable {xs ys : List ℕ} {num : ℤ}

/-- The borrow runs into the rest of the longer number; what follows is copied. -/
def subBorrow (B : ℕ) : ℤ → List ℕ → List ℕ
  | _,[] => []
  | num,x::xs =>
    if num=0 then x::xs
    else ((num+x)%B).toNat::subBorrow B ((num+x)/B) xs

def subLoop (B : ℕ) : ℤ → List ℕ → List ℕ → List ℕ
  | num,x::xs,y::ys => ((num+(x-y))%B).toNat::subLoop B ((num+(x-y))/B) xs ys
  | num,xs,_ => subBorrow B num xs

/-- The first difference of two numbers of the same length, highest digit first. -/
def lessFromTop : List ℕ → List ℕ → Bool
  | x::xs,y::ys => if x > y then false else if x < y then true else lessFromTop xs ys
  | _,_ => false

def subSwaps (xs ys : List ℕ) : Bool :=
  if xs.length < ys.length then true
  else if xs.length=ys.length then lessFromTop xs.reverse ys.reverse
  else false

/-- The difference as a sign (`true` for not negative) and digits. -/
def subDigits (B : ℕ) (xs ys : List ℕ) : Bool × List ℕ :=
  if subSwaps xs ys then (false,subLoop B 0 ys xs) else (true,subLoop B 0 xs ys)

lemma toNat_emod_lt (hB : 1 < B) (n : ℤ) : (n%B).toNat < B := by
  have hp : (0 : ℤ) < B := by omega
  have hm := Int.emod_lt_of_pos n hp
  omega

lemma below_subBorrow (hB : 1 < B) (hx : Below B xs) : Below B (subBorrow B num xs) := by
  induction xs generalizing num with
  | nil => exact below_nil
  | cons x xs ih =>
    simp only [subBorrow]
    split_ifs
    · exact hx
    · exact below_cons.mpr ⟨toNat_emod_lt hB _,ih (below_cons.mp hx).2⟩

lemma below_subLoop (hB : 1 < B) (hx : Below B xs) : Below B (subLoop B num xs ys) := by
  induction xs generalizing num ys with
  | nil => exact below_subBorrow hB hx
  | cons x xs ih =>
    cases ys with
    | nil => exact below_subBorrow hB hx
    | cons y ys => exact below_cons.mpr ⟨toNat_emod_lt hB _,ih (below_cons.mp hx).2⟩

lemma below_subDigits (hB : 1 < B) (hx : Below B xs) (hy : Below B ys) :
    Below B (subDigits B xs ys).2 := by
  unfold subDigits
  split_ifs
  · exact below_subLoop hB hy
  · exact below_subLoop hB hx

/-- One position of a subtraction: the digit and the next borrow, and that the
rest of the subtraction does not become negative. -/
lemma borrow_step (hB : 1 < B) {n rest : ℤ} (hlo : -B ≤ n) (hh : n < B) (hr : 0 ≤ n+B*rest) :
    (((n%B).toNat : ℕ) : ℤ)=n%B ∧ -1 ≤ n/B ∧ n/B ≤ 0 ∧ 0 ≤ n/B+rest := by
  have hp : (0 : ℤ) < B := by omega
  have hm := Int.emod_nonneg n hp.ne'
  have hm' := Int.emod_lt_of_pos n hp
  have hd := Int.emod_add_mul_ediv n B
  refine ⟨Int.toNat_of_nonneg hm,?_,?_,?_⟩
  · exact Int.le_ediv_of_mul_le hp (by omega)
  · have hlt : n/B < 1 := Int.ediv_lt_of_lt_mul hp (by omega)
    omega
  · by_contra hneg
    have hl : n/B+rest ≤ -1 := by omega
    have hmu : (B : ℤ)*(n/B+rest) ≤ B*-1 := mul_le_mul_of_nonneg_left hl hp.le
    have hs : n+B*rest=n%B+B*(n/B+rest) := by linarith [mul_add (B : ℤ) (n/B) rest]
    omega

lemma subBorrow_spec (hB : 1 < B) (hl : -1 ≤ num) (hh : num ≤ 0)
    (hx : Below B xs) (hp : 0 ≤ num+(Nat.ofDigits B xs : ℕ)) :
    ((Nat.ofDigits B (subBorrow B num xs) : ℕ) : ℤ)=num+(Nat.ofDigits B xs : ℕ) := by
  induction xs generalizing num with
  | nil =>
    simp only [ofDigits_nil] at hp
    simp only [subBorrow]
    omega
  | cons x xs ih =>
    rw [below_cons] at hx
    rw [ofDigits_cons] at hp
    simp only [subBorrow]
    split_ifs with hz
    · subst hz
      ring
    · simp only [cast_add,cast_mul] at hp
      have hr : 0 ≤ num+x+B*ofDigits B xs := by linarith
      obtain ⟨hc,hl',hh',hp'⟩ := borrow_step hB (by omega) (by omega) hr
      have hv := ih hl' hh' hx.2 hp'
      rw [ofDigits_cons,ofDigits_cons]
      simp only [cast_add,cast_mul]
      rw [hc,hv]
      have hd := Int.emod_add_mul_ediv (num+x) B
      linear_combination hd

lemma subLoop_spec (hB : 1 < B) (hl : -1 ≤ num) (hh : num ≤ 0)
    (hle : ys.length ≤ xs.length) (hx : Below B xs) (hy : Below B ys)
    (hp : 0 ≤ num+((Nat.ofDigits B xs : ℕ)-(Nat.ofDigits B ys : ℕ))) :
    ((Nat.ofDigits B (subLoop B num xs ys) : ℕ) : ℤ) =
        num+((Nat.ofDigits B xs : ℕ)-(Nat.ofDigits B ys : ℕ)) := by
  induction xs generalizing num ys with
  | nil =>
    obtain rfl : ys=[] := length_eq_zero_iff.mp (by simpa using hle)
    exact subBorrow_spec hB hl hh hx hp
  | cons x xs ih =>
    cases ys with
    | nil =>
      exact subBorrow_spec hB hl hh hx hp
    | cons y ys =>
      rw [below_cons] at hx hy
      simp only [length_cons] at hle
      rw [ofDigits_cons,ofDigits_cons] at hp
      simp only [cast_add,cast_mul] at hp
      have hr : 0 ≤ (num+((x : ℤ)-y))+
          B*(ofDigits B xs-ofDigits B ys) := by linarith
      obtain ⟨hc,hl',hh',hp'⟩ := borrow_step hB (by omega) (by omega) hr
      have hv := ih hl' hh' (by omega) hx.2 hy.2 hp'
      rw [subLoop,ofDigits_cons,ofDigits_cons,ofDigits_cons]
      simp only [cast_add,cast_mul]
      rw [hc,hv]
      have hd := Int.emod_add_mul_ediv (num+((x : ℤ)-y)) B
      linear_combination hd

lemma top_lt {x y : ℕ} (hB : 1 < B) (hl : xs.length=ys.length) (hx : Below B xs) (hxy : x < y) :
    Nat.ofDigits B (xs++[x]) < Nat.ofDigits B (ys++[y]) := by
  have hlt := ofDigits_lt_base_pow_length hB hx
  rw [ofDigits_concat,ofDigits_concat,← hl]
  have hm : B^xs.length*(x+1) ≤ B^xs.length*y := mul_le_mul_left _ hxy
  rw [mul_add] at hm
  omega

lemma lessFromTop_iff (hB : 1 < B) (hl : xs.length=ys.length)
    (hx : Below B xs) (hy : Below B ys) :
    lessFromTop xs ys=true ↔ Nat.ofDigits B xs.reverse < Nat.ofDigits B ys.reverse := by
  induction xs generalizing ys with
  | nil =>
    obtain rfl : ys=[] := length_eq_zero_iff.mp hl.symm
    simp [lessFromTop]
  | cons x xs ih =>
    cases ys with
    | nil => simp at hl
    | cons y ys =>
      rw [below_cons] at hx hy
      simp only [length_cons,add_right_cancel_iff] at hl
      have hl' : xs.reverse.length=ys.reverse.length := by simpa using hl
      have hx' : Below B xs.reverse := fun d hd => hx.2 d (mem_reverse.mp hd)
      have hy' : Below B ys.reverse := fun d hd => hy.2 d (mem_reverse.mp hd)
      simp only [lessFromTop,reverse_cons]
      split_ifs with hg hlt
      · have := top_lt hB hl'.symm hy' hg
        simp only [false_iff]
        omega
      · simp only [true_iff]
        exact top_lt hB hl' hx' hlt
      · have hxy : x=y := by omega
        rw [ih hl hx.2 hy.2,ofDigits_concat,ofDigits_concat,hxy,hl']
        omega

def Full (B : ℕ) (ds : List ℕ) : Prop := 1 < ds.length → B^(ds.length-1) ≤ Nat.ofDigits B ds

/-- The comparison by lengths and then by digits finds the larger number, if the
top digit of a longer number counts. -/
lemma le_of_not_subSwaps (hB : 1 < B) (hxs : Below B xs) (hys : Below B ys)
    (hf : ys.length < xs.length → Full B xs) (h : subSwaps xs ys=false) :
    ys.length ≤ xs.length ∧ Nat.ofDigits B ys ≤ Nat.ofDigits B xs := by
  unfold subSwaps at h
  split_ifs at h with hlt he
  · have hl : xs.reverse.length=ys.reverse.length := by simpa using he
    have hxs' : Below B xs.reverse := fun d hd => hxs d (mem_reverse.mp hd)
    have hys' : Below B ys.reverse := fun d hd => hys d (mem_reverse.mp hd)
    have hi := lessFromTop_iff hB hl hxs' hys'
    rw [h,reverse_reverse,reverse_reverse] at hi
    simp only [Bool.false_eq_true,false_iff] at hi
    omega
  · refine ⟨by omega,?_⟩
    have hy := ofDigits_lt_base_pow_length hB hys
    by_cases ho : 1 < xs.length
    · have hx := hf (by omega) ho
      have hp : B^ys.length ≤ B^(xs.length-1) := Nat.pow_le_pow_right (by omega) (by omega)
      omega
    · have hz : ys.length=0 := by omega
      rw [hz,pow_zero] at hy
      omega

lemma lt_of_subSwaps (hB : 1 < B) (hx : Below B xs) (hy : Below B ys)
    (hf : xs.length < ys.length → Full B ys) (h : subSwaps xs ys=true) :
    xs.length ≤ ys.length ∧ Nat.ofDigits B xs ≤ Nat.ofDigits B ys := by
  by_cases hlt : xs.length < ys.length
  · have hb : subSwaps ys xs=false := by
      rw [subSwaps,if_neg (by omega),if_neg (by omega)]
    exact le_of_not_subSwaps hB hy hx hf hb
  · rw [subSwaps] at h
    split_ifs at h with he
    have hl : xs.reverse.length=ys.reverse.length := by simpa using he
    have hx' : Below B xs.reverse := fun d hd => hx d (mem_reverse.mp hd)
    have hy' : Below B ys.reverse := fun d hd => hy d (mem_reverse.mp hd)
    have hi := (lessFromTop_iff hB hl hx' hy').mp h
    rw [reverse_reverse,reverse_reverse] at hi
    omega

def signed (B : ℕ) (sign : Bool) (ds : List ℕ) : ℤ :=
  if sign then (Nat.ofDigits B ds : ℕ) else -(Nat.ofDigits B ds : ℕ)

lemma subDigits_spec (hB : 1 < B) (hx : Below B xs) (hy : Below B ys)
    (hxf : ys.length < xs.length → Full B xs) (hyf : xs.length < ys.length → Full B ys) :
    signed B (subDigits B xs ys).1 (subDigits B xs ys).2 =
        (Nat.ofDigits B xs : ℕ)-(Nat.ofDigits B ys : ℕ) := by
  by_cases hs : subSwaps xs ys=true
  · obtain ⟨hl,hle⟩ := lt_of_subSwaps hB hx hy hyf hs
    have hv := subLoop_spec hB (by decide) le_rfl hl hy hx (by omega)
    rw [subDigits,if_pos hs]
    change -((ofDigits B (subLoop B 0 ys xs) : ℕ) : ℤ)=_
    rw [hv]
    ring
  · rw [Bool.not_eq_true] at hs
    obtain ⟨hl,hle⟩ := le_of_not_subSwaps hB hx hy hxf hs
    have hv := subLoop_spec hB (by decide) le_rfl hl hx hy (by omega)
    rw [subDigits,hs]
    change ((ofDigits B (subLoop B 0 xs ys) : ℕ) : ℤ)=_
    rw [hv]
    ring

/-- One row: `dd` times the second number, added to the digits of the result that
start at the position of `dd`. What is left to carry replaces the digit after
the row. -/
def mulRow (B dd : ℕ) : ℕ → List ℕ → List ℕ → List ℕ
  | n,[],zs => if n=0 then zs else zs.set 0 (n%B)
  | _,_::_,[] => []
  | n,y::ys,z::zs =>
    let ee := wide B (n+dd*y)
    let n' := wide B (z+ee)
    (if ee=0 then z else n'%B)::mulRow B dd (n'/B) ys zs

/-- The rows of all digits of the first number, each one position further on. -/
def mulRows (B : ℕ) (ys : List ℕ) : List ℕ → List ℕ → List ℕ
  | [],zs => zs
  | dd::xs,zs =>
    match (if dd=0 then zs else mulRow B dd 0 ys zs) with
    | [] => []
    | z::rest => z::mulRows B ys xs rest

def mulDigits (B : ℕ) (xs ys : List ℕ) : List ℕ :=
  mulRows B ys xs (List.replicate (xs.length+ys.length+1) 0)

variable (hB : 1 < B)
include hB

lemma wide_mul {n dd y z : ℕ} (hn : n < B) (hd : dd < B) (hy : y < B) (hz : z < B) :
    wide B (n+dd*y)=n+dd*y ∧ wide B (z+(n+dd*y))=z+(n+dd*y) ∧ (z+(n+dd*y))/B < B := by
  have hp : dd*y ≤ (B-1)*(B-1) := Nat.mul_le_mul (by omega) (by omega)
  have hs : (B-1)*(B-1)+2*(B-1)+1=B*B := by
    obtain ⟨b,rfl⟩ : ∃ b, B=b+1 := ⟨B-1,by omega⟩
    simp only [Nat.add_sub_cancel]
    ring
  have hl : z+(n+dd*y) < B*B := by omega
  exact ⟨wide_of_lt (by omega),wide_of_lt hl,Nat.div_lt_of_lt_mul hl⟩

/-- A row adds its product, leaves the digits beyond it alone and fits the base,
when the digit after the row is still zero. -/
lemma mulRow_spec {dd n k : ℕ} {ys zs : List ℕ} (hdd : dd < B) (hn : n < B)
    (hy : Below B ys) (hzs : Below B zs) (hl : zs.length=ys.length) :
    ∃ ws, mulRow B dd n ys (zs++List.replicate (k+1) 0)=ws++List.replicate k 0 ∧
      ws.length=ys.length+1 ∧ Below B ws ∧
      Nat.ofDigits B ws=n+dd*Nat.ofDigits B ys+Nat.ofDigits B zs := by
  induction ys generalizing n zs with
  | nil =>
    obtain rfl : zs=[] := length_eq_zero_iff.mp hl
    refine ⟨[n],?_,rfl,below_cons.mpr ⟨hn,below_nil⟩,by simp⟩
    simp only [mulRow]
    split_ifs with hz
    · rw [hz]
      rfl
    · rw [mod_eq_of_lt hn]
      rfl
  | cons y ys ih =>
    cases zs with
    | nil => simp at hl
    | cons z zs =>
      rw [below_cons] at hy hzs
      simp only [length_cons,add_right_cancel_iff] at hl
      obtain ⟨hw₁,hw₂,hc⟩ := wide_mul hB hn hdd hy.1 hzs.1
      obtain ⟨ws,hr,hws,hb,hv⟩ := ih hc hy.2 hzs.2 hl
      refine ⟨(z+(n+dd*y))%B::ws,?_,by simp [hws],?_,?_⟩
      · simp only [cons_append,mulRow,hw₁,hw₂,hr]
        split_ifs with hz
        · rw [hz,add_zero,mod_eq_of_lt hzs.1]
        · rfl
      · exact below_cons.mpr ⟨mod_lt _ (by omega),hb⟩
      · rw [ofDigits_cons,hv]
        have hd := mod_add_div (z+(n+dd*y)) B
        calc (z+(n+dd*y))%B+
              B*((z+(n+dd*y))/B+dd*ofDigits B ys+ofDigits B zs)
            = (z+(n+dd*y))%B+B*((z+(n+dd*y))/B)+
                B*(dd*ofDigits B ys+ofDigits B zs) := by ring
          _=n+dd*(y+B*ofDigits B ys)+(z+B*ofDigits B zs) := by rw [hd]; ring

/-- The result so far: the digits of one row's length, and zeros that no row has
reached. -/
lemma mulRows_spec {xs ys zs : List ℕ} {k : ℕ} (hx : Below B xs) (hy : Below B ys)
    (hz : Below B zs) (hl : zs.length=ys.length) :
    Nat.ofDigits B (mulRows B ys xs (zs++List.replicate (xs.length+k) 0)) =
        Nat.ofDigits B xs*Nat.ofDigits B ys+Nat.ofDigits B zs ∧
      Below B (mulRows B ys xs (zs++List.replicate (xs.length+k) 0)) := by
  induction xs generalizing zs with
  | nil =>
    simp only [zero_add,ofDigits_nil,zero_mul]
    refine ⟨ofDigits_append_replicate_zero zs,below_append.mpr ⟨hz,?_⟩⟩
    intro d hd
    rw [eq_of_mem_replicate hd]
    omega
  | cons dd xs ih =>
    rw [below_cons] at hx
    have hs : (dd::xs).length+k=xs.length+k+1 := by simp only [length_cons]; omega
    obtain ⟨ws,hr,hw,hb,hv⟩ : ∃ ws, (if dd=0 then zs++replicate (xs.length+k+1) 0
            else mulRow B dd 0 ys (zs++replicate (xs.length+k+1) 0)) =
            ws++replicate (xs.length+k) 0 ∧ ws.length=ys.length+1 ∧ Below B ws ∧
            ofDigits B ws=dd*ofDigits B ys+ofDigits B zs := by
      split_ifs with hze
      · refine ⟨zs++[0],by simp [replicate_succ],by simp [hl],?_,?_⟩
        · exact below_append.mpr ⟨hz,by simp; omega⟩
        · rw [ofDigits_concat,hze]
          ring
      · obtain ⟨ws,hr,hw,hb,hv⟩ :=
          mulRow_spec hB (n := 0) hx.1 (by omega) hy hz hl
        exact ⟨ws,hr,hw,hb,by rw [hv]; ring⟩
    rw [hs]
    simp only [mulRows]
    rw [hr]
    cases ws with
    | nil => simp at hw
    | cons w ws =>
      rw [below_cons] at hb
      simp only [length_cons,add_right_cancel_iff] at hw
      obtain ⟨ihvalue,ihbelow⟩ := ih hx.2 hb.2 hw
      refine ⟨?_,below_cons.mpr ⟨hb.1,ihbelow⟩⟩
      rw [ofDigits_cons] at hv
      simp only [cons_append]
      rw [ofDigits_cons,ihvalue,ofDigits_cons]
      linear_combination hv

lemma mulDigits_spec {xs ys : List ℕ} (hx : Below B xs) (hy : Below B ys) :
    Nat.ofDigits B (mulDigits B xs ys)=Nat.ofDigits B xs*Nat.ofDigits B ys ∧
      Below B (mulDigits B xs ys) := by
  have hz : Below B (replicate ys.length 0) := by
    intro d hd
    rw [eq_of_mem_replicate hd]
    omega
  obtain ⟨hv,hb⟩ := mulRows_spec hB hx hy hz length_replicate
  have hl : xs.length+ys.length+1=ys.length+(xs.length+1) := by omega
  rw [mulDigits,hl,replicate_add]
  exact ⟨by rw [hv,ofDigits_replicate_zero]; ring,hb⟩

end Subtraction

variable {ds : List ℕ}

def truncTop : List ℕ → List ℕ
  | d::e::ds => if d=0 then truncTop (e::ds) else d::e::ds
  | ds => ds

def trunc (ds : List ℕ) : List ℕ := (truncTop ds.reverse).reverse

lemma truncTop_spec (ds : List ℕ) : ∃ k, ds=List.replicate k 0++truncTop ds ∧
      (1 < (truncTop ds).length → (truncTop ds).head? ≠ some 0) ∧ (ds ≠ [] → truncTop ds ≠ []) := by
  induction ds with
  | nil => exact ⟨0,by simp [truncTop]⟩
  | cons d ds ih =>
    cases ds with
    | nil => exact ⟨0,by simp [truncTop]⟩
    | cons e ds =>
      simp only [truncTop]
      split_ifs with hz
      · obtain ⟨k,hk,hh,hn⟩ := ih
        refine ⟨k+1,?_,hh,fun _ => hn (by simp)⟩
        rw [replicate_succ,cons_append,← hk,hz]
      · exact ⟨0,by simp,by simp [hz],by simp⟩

lemma length_trunc_le (ds : List ℕ) : (trunc ds).length ≤ ds.length := by
  obtain ⟨k,hk,-⟩ := truncTop_spec ds.reverse
  have hl := congrArg length hk
  rw [length_append,length_reverse] at hl
  rw [trunc,length_reverse]
  omega

lemma trunc_eq (h : ds.getLast? ≠ some 0) : trunc ds=ds := by
  rw [← head?_reverse] at h
  have ht : truncTop ds.reverse=ds.reverse := by
    match hr : ds.reverse with
    | [] => rfl
    | [d] => rfl
    | d::e::rest =>
      rw [hr] at h
      rw [truncTop,if_neg fun hz => h (congrArg some hz)]
  rw [trunc,ht,reverse_reverse]

lemma trunc_spec (h : Below B ds) :
    Nat.ofDigits B (trunc ds)=Nat.ofDigits B ds ∧ Below B (trunc ds) ∧
      (1 < (trunc ds).length → (trunc ds).getLast? ≠ some 0) ∧ (ds ≠ [] → trunc ds ≠ []) := by
  obtain ⟨k,hk,hh,hn⟩ := truncTop_spec ds.reverse
  have hs : ds=trunc ds++replicate k 0 := by
    rw [trunc]
    calc ds=ds.reverse.reverse := ds.reverse_reverse.symm
      _=(replicate k 0++truncTop ds.reverse).reverse := by rw [← hk]
      _=_ := by rw [reverse_append,reverse_replicate]
  refine ⟨?_,?_,?_,?_⟩
  · have hv := ofDigits_append_replicate_zero (b := B) (k := k) (trunc ds)
    rw [← hs] at hv
    exact hv.symm
  · intro d hd
    apply h d
    rw [hs]
    exact mem_append_left _ hd
  · intro hl
    rw [trunc,getLast?_reverse]
    exact hh (by simpa [trunc] using hl)
  · intro hds
    simpa [trunc] using hn (by simpa using hds)

end MacRuby.Digits
