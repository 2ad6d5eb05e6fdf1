import MacRuby.Digits

/-!
# Digits of a fixed width, highest first

Texts of numbers are written with the highest digit first. `lowDigits` cuts a
number to a given width and keeps its zeros, `significant` removes the zeros at
the top, and `horner` reads the digits back from the left.
-/
namespace MacRuby.RadixDigits
open Digits List Nat

/-- The lowest `len` digits of a number. -/
def lowDigits (b : ℕ) : ℕ → ℕ → List ℕ
  | 0,_ => []
  | len+1,x => lowDigits b len (x/b)++[x%b]

def significant (ds : List ℕ) : List ℕ := ds.dropWhile (· == 0)

def accumulate (b v : ℕ) (ds : List ℕ) : ℕ := ds.foldl (fun v d => v*b+d) v

def horner (b : ℕ) (ds : List ℕ) : ℕ := accumulate b 0 ds

variable {b : ℕ}

lemma below_lowDigits (hb : 0 < b) (len x : ℕ) : Below b (lowDigits b len x) := by
  induction len generalizing x with
  | zero => exact below_nil
  | succ len ih =>
    rw [lowDigits,below_append]
    exact ⟨ih (x/b),below_cons.mpr ⟨mod_lt _ hb,below_nil⟩⟩

lemma lowDigits_zero (len : ℕ) : lowDigits b len 0=List.replicate len 0 := by
  induction len with
  | zero => rfl
  | succ len ih => rw [lowDigits,Nat.zero_div,zero_mod,ih,← replicate_succ']

lemma lowDigits_add (high low x : ℕ) :
    lowDigits b (high+low) x=lowDigits b high (x/b^low)++lowDigits b low x := by
  induction low generalizing x with
  | zero => rw [pow_zero,Nat.div_one,add_zero,lowDigits,append_nil]
  | succ low ih =>
    rw [← add_assoc,lowDigits,ih,lowDigits,← append_assoc,Nat.div_div_eq_div_mul, pow_succ']

lemma lowDigits_mod {len low : ℕ} (x : ℕ) (h : low ≤ len) :
    lowDigits b low (x%b^len)=lowDigits b low x := by
  induction low generalizing x len with
  | zero => rfl
  | succ low ih =>
    obtain ⟨len,rfl⟩ : ∃ k, len=k+1 := ⟨len-1,by omega⟩
    have hd : x%b^(len+1)/b=x/b%b^len := by rw [pow_succ',mod_mul_right_div_self]
    have hm : x%b^(len+1)%b=x%b := mod_mod_of_dvd _ (dvd_pow_self b (by omega))
    rw [lowDigits,hd,hm,ih (x/b) (by omega),lowDigits]

lemma le_accumulate (hb : 0 < b) (v : ℕ) (ds : List ℕ) : v ≤ accumulate b v ds := by
  induction ds generalizing v with
  | nil => exact le_rfl
  | cons d ds ih =>
    have hs : v*1 ≤ v*b := mul_le_mul_left v hb
    exact (show v ≤ v*b+d by omega).trans (ih (v*b+d))

@[simp] lemma horner_nil : horner b []=0 := rfl

@[simp] lemma horner_concat (ds : List ℕ) (d : ℕ) : horner b (ds++[d])=horner b ds*b+d := by
  rw [horner,accumulate,foldl_append]
  rfl

lemma horner_lt {ds : List ℕ} (hds : Below b ds) : horner b ds < b^ds.length := by
  induction ds using reverseRecOn with
  | nil => exact one_pos
  | append_singleton ds d ih =>
    obtain ⟨hl,hd⟩ := below_append.mp hds
    have hdi : d < b := (below_cons.mp hd).1
    have hs : (horner b ds+1)*b ≤ b^ds.length*b := mul_le_mul_right b (ih hl)
    rw [horner_concat,length_append,length_singleton,pow_succ]
    rw [add_mul] at hs
    omega

lemma horner_lowDigits (len x : ℕ) : horner b (lowDigits b len x)=x%b^len := by
  induction len generalizing x with
  | zero => rw [lowDigits,horner_nil,pow_zero,mod_one]
  | succ len ih => rw [lowDigits,horner_concat,ih,pow_succ',mod_mul,mul_comm,add_comm]

lemma horner_cons_zero (ds : List ℕ) : horner b (0::ds)=horner b ds := by
  rw [horner,accumulate,foldl_cons,zero_mul]
  rfl

lemma le_horner_cons {d : ℕ} (hd : 0 < d) (ds : List ℕ) : b^ds.length ≤ horner b (d::ds) := by
  induction ds using reverseRecOn with
  | nil =>
    simp only [horner,accumulate,foldl_cons,zero_mul,zero_add]
    exact hd
  | append_singleton ds e ih =>
    have hs := mul_le_mul_right b ih
    rw [← cons_append,horner_concat,length_append,length_singleton,pow_succ]
    omega

variable {ds es : List ℕ}

lemma significant_cons_zero : significant (0::ds)=significant ds := rfl

lemma significant_cons {d : ℕ} (hd : d ≠ 0) : significant (d::ds)=d::ds := by
  rw [significant,dropWhile_cons_of_neg (by simpa using hd)]

lemma significant_replicate_append (n : ℕ) :
    significant (List.replicate n 0++ds)=significant ds := by
  induction n with
  | zero => rfl
  | succ n ih => rw [replicate_succ,cons_append,significant_cons_zero,ih]

lemma significant_replicate (n : ℕ) : significant (List.replicate n 0)=[] := by
  rw [← append_nil (replicate n 0),significant_replicate_append]
  rfl

lemma significant_append :
    significant (ds++es)=if significant ds=[] then significant es else significant ds++es := by
  induction ds with
  | nil => rfl
  | cons d ds ih =>
    by_cases hd : d=0
    · rw [hd,cons_append,significant_cons_zero,significant_cons_zero,ih]
    · rw [cons_append,significant_cons hd,significant_cons hd,if_neg (cons_ne_nil _ _), cons_append]

lemma horner_significant (b : ℕ) (ds : List ℕ) : horner b (significant ds)=horner b ds := by
  induction ds with
  | nil => rfl
  | cons d ds ih =>
    by_cases hd : d=0
    · rw [hd,significant_cons_zero,horner_cons_zero,ih]
    · rw [significant_cons hd]

lemma below_significant (h : Below b ds) : Below b (significant ds) :=
  fun d hd => h d (dropWhile_subset _ hd)

lemma significant_cases (ds : List ℕ) :
    significant ds=[] ∨ ∃ d es, significant ds=d::es ∧ d ≠ 0 := by
  induction ds with
  | nil => exact .inl rfl
  | cons d ds ih =>
    by_cases hd : d=0
    · rw [hd]
      exact ih
    · exact .inr ⟨d,ds,significant_cons hd,hd⟩

lemma significant_lowDigits_of_div {low len x : ℕ} (hl : low ≤ len) (h : x/b^low=0) :
    significant (lowDigits b len x)=significant (lowDigits b low x) := by
  obtain ⟨high,rfl⟩ := Nat.exists_eq_add_of_le' hl
  rw [lowDigits_add,h,lowDigits_zero,significant_replicate_append]

end MacRuby.RadixDigits
