import MacRuby.LowestTerms
import MacRuby.RationalParts
import Mathlib.Algebra.Order.Field.Basic
import Mathlib.Data.Nat.Prime.Basic

/-!
# Arithmetic of Rational

A Rational has an integer numerator and denominator. The constructor reduces them;
the operations cancel common divisors before they multiply and do not reduce the
result again. `represent` is the one Rational in lowest terms of a rational number,
and every result is compared with it as data.

The products are those of `*`, which loses a multiple of `2^62` for some factors of 32
bits, and powers that are too large for `**` become Floats. The conditions below
say for which operands this changes the result.
-/
namespace MacRuby.RationalArithmetic
open Integers IntegerMethods IntegerPowers FixnumPowers RationalParts LowestTerms Int

structure RRational where
  num : Integer
  den : Integer

inductive Number
  | integer (n : Integer)
  | rational (r : RRational)

def positiveDen (num den : Integer) : Except Failure (Integer × Integer) :=
  if fCmp den zero = -1 then .ok (negate num,negate den)
  else if fCmp den zero=0 then .error .zeroDivision
  else .ok (num,den)

def nuratSCanonicalizeInternal (num den : Integer) : Except Failure RRational := do
  let (num,den) ← positiveDen num den
  let gcd ← fGcd num den
  let num ← fIdiv num gcd
  let den ← fIdiv den gcd
  .ok ⟨num,den⟩

def nuratSCanonicalizeInternalNoReduce (num den : Integer) : Except Failure RRational := do
  let (num,den) ← positiveDen num den
  .ok ⟨num,den⟩

/-- `nurat_s_new` of one or two integers. -/
def nuratSNew (num : Integer) (den : Option Integer) : Except Failure RRational :=
  nuratSCanonicalizeInternal num (den.getD one)

/-- The four `long`s, if all parts are Fixnums. -/
def fixnums : Integer → Integer → Integer → Integer → Option (ℤ × ℤ × ℤ × ℤ)
  | .fixnum an,.fixnum ad,.fixnum bn,.fixnum bd =>
    some (fix2long an,fix2long ad,fix2long bn,fix2long bd)
  | _,_,_,_ => none

/-- The end of `f_addsub`, after the products of the numerators. -/
def addsubReduced (add : Bool) (aden bden a b g : Integer) : Except Failure RRational := do
  let c := if add then fAdd a b else fSub a b
  let b ← fIdiv aden g
  let g ← fGcd c g
  let num ← fIdiv c g
  let a ← fIdiv bden g
  nuratSCanonicalizeInternalNoReduce num (fMul a b)

def fAddsub (anum aden bnum bden : Integer) (add : Bool) : Except Failure RRational :=
  match fixnums anum aden bnum bden with
  | some (an,ad,bn,bd) =>
    let ig := iGcd ad bd
    addsubReduced add aden bden (fImul an (bd.tdiv ig)) (fImul bn (ad.tdiv ig)) (rbInt2inum ig)
  | none => do
    let g ← fGcd aden bden
    let a ← fIdiv bden g
    let b ← fIdiv aden g
    addsubReduced add aden bden (fMul anum a) (fMul bnum b) g

def nuratAdd (self : RRational) : Number → Except Failure RRational
  | .integer n => fAddsub self.num self.den n one true
  | .rational r => fAddsub self.num self.den r.num r.den true

def nuratSub (self : RRational) : Number → Except Failure RRational
  | .integer n => fAddsub self.num self.den n one false
  | .rational r => fAddsub self.num self.den r.num r.den false

/-- `f_muldiv` after the exchange for a division. -/
def mulCrossed (anum aden bnum bden : Integer) : Except Failure RRational :=
  match fixnums anum aden bnum bden with
  | some (an,ad,bn,bd) =>
    let g1 := iGcd an bd
    let g2 := iGcd ad bn
    nuratSCanonicalizeInternalNoReduce (fImul (an.tdiv g1) (bn.tdiv g2))
      (fImul (ad.tdiv g2) (bd.tdiv g1))
  | none => do
    let g1 ← fGcd anum bden
    let g2 ← fGcd aden bnum
    let an ← fIdiv anum g1
    let bn ← fIdiv bnum g2
    let ad ← fIdiv aden g2
    let bd ← fIdiv bden g1
    nuratSCanonicalizeInternalNoReduce (fMul an bn) (fMul ad bd)

def fMuldiv (anum aden bnum bden : Integer) (div : Bool) : Except Failure RRational :=
  if div then
    if fNegativeP bnum then mulCrossed (negate anum) aden bden (negate bnum)
    else mulCrossed anum aden bden bnum
  else mulCrossed anum aden bnum bden

def nuratMul (self : RRational) : Number → Except Failure RRational
  | .integer n => fMuldiv self.num self.den n one false
  | .rational r => fMuldiv self.num self.den r.num r.den false

def nuratDiv (self : RRational) : Number → Except Failure RRational
  | .integer n =>
    if fZeroP n then .error .zeroDivision else fMuldiv self.num self.den n one true
  | .rational r =>
    if fZeroP r.num then .error .zeroDivision
    else if fOneP self.num && fOneP self.den then
      nuratSCanonicalizeInternalNoReduce r.den r.num
    else fMuldiv self.num self.den r.num r.den true

/-- The result of `**`. -/
inductive Result
  | rational (r : RRational)
  | float

/-- The Rational of two powers. A power that is a Float is infinite, and the loop of
`f_gcd` does not end for it: the remainders are not Fixnums and become NaN. -/
def ofPowers : Power → Power → Except Failure Result
  | .integer num,.integer den => do
    let r ← nuratSCanonicalizeInternal num den
    .ok (.rational r)
  | _,_ => .error .endless

/-- `nurat_expt` of a Fixnum. -/
def exptFixnum (self : RRational) (e : Integer) : Except Failure Result :=
  if fCmp e zero=1 then ofPowers (pow self.num e) (pow self.den e)
  else if fCmp e zero = -1 then ofPowers (pow self.den (negate e)) (pow self.num (negate e))
  else ofPowers (.integer one) (.integer one)

/-- `nurat_expt` after the test for an integral Rational. -/
def exptNumber (self : RRational) : Number → Except Failure Result
  | .integer (.fixnum e) => exptFixnum self (.fixnum e)
  | .integer (.bignum _) => .ok .float
  | .rational _ => .ok .float

/-- `k_exact_zero_p`. -/
def exactZeroP : Number → Bool
  | .integer n => fZeroP n
  | .rational r => fZeroP r.num

def nuratExpt (self : RRational) (other : Number) : Except Failure Result :=
  if exactZeroP other then .ok (.rational ⟨one,one⟩)
  else match other with
    | .integer n => exptNumber self (.integer n)
    | .rational r =>
      if fOneP r.den then exptNumber self (.integer r.num) else exptNumber self (.rational r)

/-- `nurat_cmp` of two Rationals. -/
def cmpRational (self other : RRational) : ℤ :=
  match fixnums self.num self.den other.num other.den with
  | some (an,ad,bn,bd) => fCmp (fSub (fImul an bd) (fImul bn ad)) zero
  | none => fCmp (fSub (fMul self.num other.den) (fMul other.num self.den)) zero

def nuratCmp (self : RRational) : Number → ℤ
  | .integer n => if fOneP self.den then fCmp self.num n else cmpRational self ⟨n,one⟩
  | .rational r => cmpRational self r

def nuratEqeqP (self : RRational) : Number → Bool
  | .integer n =>
    if fZeroP self.num && fZeroP n then true
    else if fOneP self.den then fEqeqP self.num n
    else false
  | .rational r =>
    if fZeroP self.num && fZeroP r.num then true
    else fEqeqP self.num r.num && fEqeqP self.den r.den

variable {b n d : ℤ} {q : ℚ}

def represent (q : ℚ) : RRational := ⟨canonical q.num,canonical q.den⟩

lemma represent_num (q : ℚ) : (represent q).num=canonical q.num := by rw [represent]

lemma represent_den (q : ℚ) : (represent q).den=canonical q.den := by rw [represent]

lemma represent_intCast (n : ℤ) : represent n=⟨canonical n,one⟩ := by
  rw [represent,Rat.num_intCast,Rat.den_intCast,Nat.cast_one,one_eq]

inductive Other
  | integer (n : ℤ)
  | rational (q : ℚ)

def Other.value : Other → ℚ
  | .integer n => n
  | .rational q => q

def Other.number : Other → Number
  | .integer n => .integer (canonical n)
  | .rational q => .rational (represent q)

lemma canonical_inj {a : ℤ} : canonical a=canonical b ↔ a=b := by
  refine ⟨fun h => ?_,congrArg canonical⟩
  rw [← canonical_toInt a,← canonical_toInt b,h]

lemma represent_eq_iff :
    (⟨canonical n,canonical d⟩ : RRational)=represent q ↔ n=q.num ∧ d=q.den := by
  rw [represent,RRational.mk.injEq,canonical_inj,canonical_inj]

lemma positiveDen_canonical (a b : ℤ) : positiveDen (canonical a) (canonical b) =
      if b < 0 then .ok (canonical (-a),canonical (-b)) else if b=0 then .error .zeroDivision
      else .ok (canonical a,canonical b) := by
  rw [positiveDen,zero_eq,fCmp_canonical,sub_zero,negate_canonical,negate_canonical]
  rcases lt_trichotomy b 0 with hn | hz | hp
  · rw [sign_eq_neg_one_of_neg hn,if_pos rfl,if_pos hn]
  · rw [hz]
    rfl
  · rw [sign_eq_one_of_pos hp,if_neg (by decide),if_neg (by decide),if_neg (by omega),
      if_neg (by omega)]

lemma noReduce_eq_represent_iff :
    nuratSCanonicalizeInternalNoReduce (canonical n) (canonical d)=.ok (represent q) ↔
      (n=q.num ∧ d=q.den) ∨ (-n=q.num ∧ -d=q.den) := by
  have hd := q.den_pos
  have hr {m e : ℤ} : (.ok ⟨canonical m,canonical e⟩ : Except Failure RRational)=.ok (represent q) ↔
      m=q.num ∧ e=q.den := by rw [Except.ok.injEq,represent_eq_iff]
  rw [nuratSCanonicalizeInternalNoReduce,positiveDen_canonical]
  split_ifs with hn hz
  · refine hr.trans ?_
    omega
  · exact iff_of_false (fun h => by cases h) (by omega)
  · refine hr.trans ?_
    omega

lemma reduced_num_den (a : ℤ) (hb : 0 < b) :
    ((a : ℚ)/b).num=a/Int.gcd a b ∧ (((a : ℚ)/b).den : ℤ)=b/Int.gcd a b := by
  rw [← Rat.divInt_eq_div,Rat.num_divInt,Rat.den_divInt,if_neg hb.ne',sign_eq_one_of_pos hb,
    one_mul,Int.gcd_comm b a]
  refine ⟨rfl,?_⟩
  rw [natCast_div,natAbs_of_nonneg hb.le]

lemma reduce_eq (a : ℤ) (hb : 0 < b) : (do
      let gcd ← fGcd (canonical a) (canonical b)
      let num ← fIdiv (canonical a) gcd
      let den ← fIdiv (canonical b) gcd
      .ok ⟨num,den⟩ : Except Failure RRational)=.ok (represent ((a : ℚ)/b)) := by
  have hg : (Int.gcd a b : ℤ) ≠ 0 := by
    exact_mod_cast (gcd_pos_of_ne_zero_right a hb.ne').ne'
  obtain ⟨hn,hd⟩ := reduced_num_den a hb
  rw [represent,hn,hd,fGcd_canonical,ok_bind,fIdiv_of_dvd hg (Int.gcd_dvd_left ..),ok_bind,
    fIdiv_of_dvd hg (Int.gcd_dvd_right ..),ok_bind]

lemma canonicalize_canonical (a b : ℤ) : nuratSCanonicalizeInternal (canonical a) (canonical b) =
      if b=0 then .error .zeroDivision else .ok (represent ((a : ℚ)/b)) := by
  rw [nuratSCanonicalizeInternal,positiveDen_canonical]
  rcases lt_trichotomy b 0 with hn | hz | hp
  · rw [if_pos hn,if_neg (by omega)]
    refine (reduce_eq (-a) (by omega)).trans ?_
    push_cast
    rw [neg_div_neg_eq]
  · rw [if_neg (by omega),if_pos hz,if_pos hz]
    rfl
  · rw [if_neg (by omega),if_neg (by omega),if_neg (by omega)]
    exact reduce_eq a hp

def AllFix (p q : ℚ) : Prop :=
  Fixable p.num ∧ Fixable p.den ∧ Fixable q.num ∧ Fixable q.den

instance (p q : ℚ) : Decidable (AllFix p q) := inferInstanceAs (Decidable (_ ∧ _))

lemma fixnums_represent (p q : ℚ) :
    fixnums (canonical p.num) (canonical p.den) (canonical q.num) (canonical q.den) =
      if AllFix p q then some (p.num,(p.den : ℤ),q.num,(q.den : ℤ)) else none := by
  split_ifs with hf
  · obtain ⟨hpn,hp,hqn,hq⟩ := id hf
    rw [canonical_of_fixable hpn,canonical_of_fixable hp,canonical_of_fixable hqn,
      canonical_of_fixable hq,fixnums,fix2long_long2fix hpn,fix2long_long2fix hp,
      fix2long_long2fix hqn,fix2long_long2fix hq]
  · unfold canonical
    split_ifs with hpn hp hqn hq <;> first
      | rfl
      | exact absurd ⟨hpn,hp,hqn,hq⟩ hf

lemma fit_of_overflow {x y : ℤ} (h : overflow x y ≠ 0) :
    FitSqrtLong x ∧ FitSqrtLong y ∧ ¬Fixable (x*y) := by
  by_contra hnot
  exact h (if_neg hnot)

lemma not_dvd_of_overflow {x y : ℤ} (hx : 0 < x) (hy : 0 < y) (h : overflow x y ≠ 0) :
    ¬y ∣ 2^62 := by
  obtain ⟨hf,hfy,hno⟩ := fit_of_overflow h
  have hxy : 0 < x*y := mul_pos hx hy
  unfold FitSqrtLong at hf hfy
  unfold Fixable at hno
  have hl : 2^30 < y := by
    by_contra hle
    have := mul_le_mul (show x ≤ 2^31-1 by omega) (show y ≤ 2^30 by omega) hy.le (by norm_num)
    omega
  intro hd
  have hn : y.natAbs ∣ 2^62 := by
    have := natAbs_dvd_natAbs.mpr hd
    simpa using this
  obtain ⟨k,-,hk⟩ := (Nat.dvd_prime_pow Nat.prime_two).mp hn
  by_cases hk30 : k ≤ 30
  · have := Nat.pow_le_pow_right (show 0 < 2 by norm_num) hk30
    omega
  · have := Nat.pow_le_pow_right (show 0 < 2 by norm_num) (show 31 ≤ k by omega)
    omega

lemma product_of_pos {x y : ℤ} (hx : 0 < x) (hy : 0 < y) (h : overflow x y ≠ 0) :
    product x y=x*y-2^62 ∧ x*y < 2^62 := by
  have hf := fit_of_overflow h
  have hxy : 0 < x*y := mul_pos hx hy
  constructor
  · rw [product,overflow,if_pos hf,sign_eq_one_of_pos hxy,mul_one]
  · obtain ⟨hfx,hfy,-⟩ := hf
    unfold FitSqrtLong at hfx hfy
    have := mul_le_mul (show x ≤ 2^31-1 by omega) (show y ≤ 2^31-1 by omega) hy.le (by norm_num)
    omega

lemma noReduce_product_iff {n x y : ℤ} {q : ℚ} (hx : 0 < x) (hy : 0 < y) (hd : y ∣ (q.den : ℤ)) :
    nuratSCanonicalizeInternalNoReduce (canonical n) (canonical (product x y)) = .ok (represent q) ↔
      overflow x y=0 ∧ n=q.num ∧ x*y=q.den := by
  have hxy : 0 < x*y := mul_pos hx hy
  rw [noReduce_eq_represent_iff]
  by_cases ho : overflow x y=0
  · rw [product_of_overflow ho]
    omega
  · obtain ⟨hv,hl⟩ := product_of_pos hx hy ho
    rw [hv]
    refine ⟨fun h => ?_,fun h => absurd h.1 ho⟩
    rcases h with ⟨-,h⟩ | ⟨-,h⟩
    · omega
    · refine absurd ?_ (not_dvd_of_overflow hx hy ho)
      rw [← h] at hd
      have hs : (2 : ℤ)^62 = -(x*y-2^62)+x*y := by ring
      rw [hs]
      exact dvd_add hd (dvd_mul_left y x)

variable (p q : ℚ)

lemma denominators_spec :
    fGcd (canonical p.den) (canonical q.den)=.ok (canonical (p.den.gcd q.den : ℕ)) ∧
      fIdiv (canonical q.den) (canonical (p.den.gcd q.den : ℕ)) =
        .ok (canonical (q.den/p.den.gcd q.den : ℕ)) ∧
      fIdiv (canonical p.den) (canonical (p.den.gcd q.den : ℕ)) =
        .ok (canonical (p.den/p.den.gcd q.den : ℕ)) := by
  have hg : (p.den.gcd q.den : ℤ) ≠ 0 := by
    exact_mod_cast (Nat.gcd_pos_of_pos_left _ p.den_pos).ne'
  refine ⟨?_,?_,?_⟩
  · rw [fGcd_canonical,Int.gcd_natCast_natCast]
  · rw [fIdiv_of_dvd hg (by exact_mod_cast Nat.gcd_dvd_right _ _)]
    norm_cast
  · rw [fIdiv_of_dvd hg (by exact_mod_cast Nat.gcd_dvd_left _ _)]
    norm_cast

lemma addsubReduced_eq (add : Bool) (a b : ℤ) :
    addsubReduced add (canonical p.den) (canonical q.den) (canonical a) (canonical b)
        (canonical (p.den.gcd q.den : ℕ)) =
      (let c := if add then a+b else a-b
      let g := Int.gcd c (p.den.gcd q.den : ℕ)
      nuratSCanonicalizeInternalNoReduce (canonical (c/g))
        (canonical (product (q.den/g : ℕ) (p.den/p.den.gcd q.den : ℕ)))) := by
  have hc : (if add then fAdd (canonical a) (canonical b) else fSub (canonical a) (canonical b)) =
      canonical (if add then a+b else a-b) := by
    cases add
    · exact fSub_canonical a b
    · exact fAdd_canonical a b
  have hgp : 0 < p.den.gcd q.den := Nat.gcd_pos_of_pos_left _ p.den_pos
  rw [addsubReduced,hc,(denominators_spec p q).2.2]
  generalize (if add then a+b else a-b)=c
  have hg : 0 < Int.gcd c (p.den.gcd q.den) :=
    gcd_pos_of_ne_zero_right _ (by exact_mod_cast hgp.ne')
  have hg' : (Int.gcd c (p.den.gcd q.den) : ℤ) ≠ 0 := by exact_mod_cast hg.ne'
  have hd : (Int.gcd c (p.den.gcd q.den) : ℤ) ∣ q.den :=
    (Int.gcd_dvd_right ..).trans (by exact_mod_cast Nat.gcd_dvd_right _ _)
  rw [ok_bind,fGcd_canonical,ok_bind,fIdiv_of_dvd hg' (Int.gcd_dvd_left ..),ok_bind,
    fIdiv_of_dvd hg' hd,ok_bind,fMul_canonical]
  norm_cast

/-- The sum is right exactly if its numerator over the common denominator is, and the
product of the denominators does not wrap. -/
lemma reduced_sum_iff (c : ℤ) :
    nuratSCanonicalizeInternalNoReduce (canonical (c/Int.gcd c (p.den.gcd q.den : ℕ)))
        (canonical (product (q.den/Int.gcd c (p.den.gcd q.den : ℕ) : ℕ)
          (p.den/p.den.gcd q.den : ℕ)))=.ok (represent (p+q)) ↔
      c=sumNum p q ∧ overflow (q.den/sumGcd p q : ℕ) (p.den/p.den.gcd q.den : ℕ)=0 := by
  obtain ⟨hn,hd⟩ := add_num_den p q
  have hgp : 0 < p.den.gcd q.den := Nat.gcd_pos_of_pos_left _ p.den_pos
  have hy : 0 < p.den/p.den.gcd q.den :=
    Nat.div_pos (Nat.le_of_dvd p.den_pos (Nat.gcd_dvd_left _ _)) hgp
  have hg : 0 < Int.gcd c (p.den.gcd q.den) :=
    gcd_pos_of_ne_zero_right _ (by exact_mod_cast hgp.ne')
  have hdv : Int.gcd c (p.den.gcd q.den) ∣ q.den := by
    have : (Int.gcd c (p.den.gcd q.den) : ℤ) ∣ q.den :=
      (Int.gcd_dvd_right ..).trans (by exact_mod_cast Nat.gcd_dvd_right _ _)
    exact_mod_cast this
  have hx : 0 < q.den/Int.gcd c (p.den.gcd q.den) :=
    Nat.div_pos (Nat.le_of_dvd q.den_pos hdv) hg
  have hs : c=sumNum p q → Int.gcd c (p.den.gcd q.den)=sumGcd p q := by
    intro hc
    rw [hc,sumGcd,Int.gcd,natAbs_natCast]
  have hm : (p.den/p.den.gcd q.den : ℤ) ∣ (p+q).den := by
    rw [hd]
    exact natCast_dvd_natCast.mpr (dvd_mul_left _ _)
  rw [noReduce_product_iff (natCast_pos.mpr hx) (natCast_pos.mpr hy) hm, hn,hd]
  refine ⟨fun h => ?_,fun h => ?_⟩
  · obtain ⟨ho,hq,hp⟩ := h
    have hdi : q.den/Int.gcd c (p.den.gcd q.den)=q.den/sumGcd p q :=
      Nat.eq_of_mul_eq_mul_right hy (by exact_mod_cast hp)
    have hgc : Int.gcd c (p.den.gcd q.den)=sumGcd p q := by
      have h1 := Nat.div_mul_cancel hdv
      have h2 := Nat.div_mul_cancel (sumGcd_dvd_den p q)
      rw [← hdi] at h2
      exact Nat.eq_of_mul_eq_mul_left hx (h1.trans h2.symm)
    refine ⟨?_,by rw [← hdi]; exact ho⟩
    have h1 := Int.ediv_mul_cancel (Int.gcd_dvd_left (a := c) (b := p.den.gcd q.den))
    have h2 := Int.ediv_mul_cancel (sumGcd_dvd_num p q)
    rw [← h1,← h2,hq,hgc]
  · obtain ⟨hc,ho⟩ := h
    rw [hs hc]
    refine ⟨ho,by rw [hc],by push_cast; rfl⟩

/-- The product of a numerator and a denominator, as the addition forms it. -/
def scaled (p q : ℚ) (n : ℤ) (d : ℕ) : ℤ := if AllFix p q then n*d else product n d

lemma fAddsub_represent (add : Bool) :
    fAddsub (canonical p.num) (canonical p.den) (canonical q.num) (canonical q.den) add =
      addsubReduced add (canonical p.den) (canonical q.den)
        (canonical (scaled p q p.num (q.den/p.den.gcd q.den)))
        (canonical (scaled p q q.num (p.den/p.den.gcd q.den)))
        (canonical (p.den.gcd q.den : ℕ)) := by
  obtain ⟨hg,hb,ha⟩ := denominators_spec p q
  rw [fAddsub,fixnums_represent,scaled,scaled]
  split_ifs with hf
  · obtain ⟨hpn,hp,hqn,hq⟩ := id hf
    have hig : iGcd p.den q.den=p.den.gcd q.den := by
      rw [iGcd_eq hp hq,Int.gcd_natCast_natCast]
    have hi := rbInt2inum_iGcd hp hq
    rw [Int.gcd_natCast_natCast,hig] at hi
    have hqdi : ((q.den : ℤ)).tdiv (p.den.gcd q.den)=(q.den/p.den.gcd q.den : ℕ) :=
      (ofNat_tdiv _ _).symm
    have hpdi : ((p.den : ℤ)).tdiv (p.den.gcd q.den)=(p.den/p.den.gcd q.den : ℕ) :=
      (ofNat_tdiv _ _).symm
    have hqle := Nat.div_le_self q.den (p.den.gcd q.den)
    have hple := Nat.div_le_self p.den (p.den.gcd q.den)
    unfold Fixable at hpn hp hqn hq
    have hql : ((q.den/p.den.gcd q.den : ℕ) : ℤ).natAbs < 2^62 := by
      rw [natAbs_natCast]
      omega
    have hpl : ((p.den/p.den.gcd q.den : ℕ) : ℤ).natAbs < 2^62 := by
      rw [natAbs_natCast]
      omega
    dsimp only
    rw [hig,hi,hqdi,hpdi,fImul_eq (by omega) hql,fImul_eq (by omega) hpl]
  · rw [hg,ok_bind,hb,ok_bind,ha,ok_bind,fMul_canonical,fMul_canonical]

/-- The operands of a sum that is right: the products for the numerator do not wrap, or
their wraps cancel, and the product for the denominator does not wrap. -/
def AddSafe : Prop :=
  (AllFix p q ∨ overflow p.num (q.den/p.den.gcd q.den : ℕ)+
      overflow q.num (p.den/p.den.gcd q.den : ℕ)=0) ∧
    overflow (q.den/sumGcd p q : ℕ) (p.den/p.den.gcd q.den : ℕ)=0

def SubSafe : Prop :=
  (AllFix p q ∨ overflow p.num (q.den/p.den.gcd q.den : ℕ) =
      overflow q.num (p.den/p.den.gcd q.den : ℕ)) ∧
    overflow (q.den/sumGcd p (-q) : ℕ) (p.den/p.den.gcd q.den : ℕ)=0

lemma fAddsub_add_iff :
    fAddsub (canonical p.num) (canonical p.den) (canonical q.num) (canonical q.den) true =
      .ok (represent (p+q)) ↔ AddSafe p q := by
  rw [fAddsub_represent,addsubReduced_eq]
  rw [if_pos rfl,reduced_sum_iff]
  refine and_congr_left fun _ => ?_
  rw [scaled,scaled,sumNum]
  split_ifs with hf
  · exact iff_of_true rfl (.inl hf)
  · rw [product,product,or_iff_right hf]
    constructor <;> intro h <;> linarith

lemma fAddsub_sub_iff :
    fAddsub (canonical p.num) (canonical p.den) (canonical q.num) (canonical q.den) false =
      .ok (represent (p-q)) ↔ SubSafe p q := by
  have hs := reduced_sum_iff p (-q)
  simp only [Rat.neg_den,← sub_eq_add_neg] at hs
  rw [fAddsub_represent,addsubReduced_eq]
  rw [if_neg Bool.false_ne_true,hs]
  refine and_congr_left fun _ => ?_
  rw [scaled,scaled,sumNum,Rat.neg_den,Rat.neg_num]
  split_ifs with hf
  · exact iff_of_true (by ring) (.inl hf)
  · rw [product,product,or_iff_right hf]
    constructor <;> intro h <;> linarith

def MulSafe : Prop :=
  AllFix p q ∨
    overflow (p.num/crossGcd p q) (q.num/crossGcd q p)=0 ∧
      overflow (p.den/crossGcd q p : ℕ) (q.den/crossGcd p q : ℕ)=0

lemma mulCrossed_iff :
    mulCrossed (canonical p.num) (canonical p.den) (canonical q.num) (canonical q.den) =
      .ok (represent (p*q)) ↔ MulSafe p q := by
  obtain ⟨hnum,hd⟩ := mul_num_den p q
  have hp := crossGcd_pos p q
  have hp' := crossGcd_pos q p
  have hg : Int.gcd p.num q.den=crossGcd p q := by rw [crossGcd,Int.gcd,natAbs_natCast]
  have hg' : gcd p.den q.num=crossGcd q p := by
    rw [crossGcd,Int.gcd,natAbs_natCast,Nat.gcd_comm]
  have hne : (crossGcd p q : ℤ) ≠ 0 := by exact_mod_cast hp.ne'
  have hne' : (crossGcd q p : ℤ) ≠ 0 := by exact_mod_cast hp'.ne'
  rw [mulCrossed,fixnums_represent,MulSafe]
  split_ifs with hf
  · obtain ⟨hpn,hpd,hqn,hq⟩ := id hf
    have hi := iGcd_eq hpn hq
    have hi' := iGcd_eq hpd hqn
    rw [hg] at hi
    rw [hg'] at hi'
    have hs : ∀ n (g : ℕ), Fixable n → (n.tdiv g).natAbs < 2^62 := by
      intro n g hn
      have hl := Nat.div_le_self n.natAbs (g : ℤ).natAbs
      have ha : (n.tdiv g).natAbs=n.natAbs/(g : ℤ).natAbs := natAbs_tdiv n g
      unfold Fixable at hn
      omega
    refine iff_of_true ?_ (.inl hf)
    dsimp only
    rw [hi,hi',fImul_eq (hs _ _ hpn) (hs _ _ hqn),
      fImul_eq (hs _ _ hpd) (hs _ _ hq),noReduce_eq_represent_iff,hnum,hd,
      tdiv_eq_ediv_of_dvd (crossGcd_dvd_num p q),
      tdiv_eq_ediv_of_dvd (crossGcd_dvd_num q p)]
    exact .inl ⟨rfl,(natCast_mul _ _).symm⟩
  · have hx : 0 < p.den/crossGcd q p :=
      Nat.div_pos (Nat.le_of_dvd p.den_pos (crossGcd_dvd_den q p)) hp'
    have hy : 0 < q.den/crossGcd p q :=
      Nat.div_pos (Nat.le_of_dvd q.den_pos (crossGcd_dvd_den p q)) hp
    have hm : (q.den/crossGcd p q : ℤ) ∣ (p*q).den := by
      rw [hd]
      exact natCast_dvd_natCast.mpr (dvd_mul_left _ _)
    rw [or_iff_right hf]
    rw [fGcd_canonical,ok_bind,fGcd_canonical,ok_bind,hg,hg',
      fIdiv_of_dvd hne (crossGcd_dvd_num p q),ok_bind,
      fIdiv_of_dvd hne' (crossGcd_dvd_num q p),ok_bind,
      fIdiv_of_dvd hne' (natCast_dvd_natCast.mpr (crossGcd_dvd_den q p)),ok_bind,
      fIdiv_of_dvd hne (natCast_dvd_natCast.mpr (crossGcd_dvd_den p q)),ok_bind,
      fMul_canonical,fMul_canonical,← natCast_div,← natCast_div,
      noReduce_product_iff (natCast_pos.mpr hx) (natCast_pos.mpr hy) hm, hnum,hd,product]
    constructor
    · rintro ⟨ho,hpr,-⟩
      refine ⟨?_,ho⟩
      linarith
    · rintro ⟨hnu,ho⟩
      refine ⟨ho,?_,(natCast_mul _ _).symm⟩
      rw [hnu,mul_zero,sub_zero]

def DivSafe : Prop := q=0 ∨ MulSafe (if q < 0 then -p else p) |q|⁻¹

lemma abs_inv_num_den (hq : q ≠ 0) : (|q|⁻¹).num=q.den ∧ (|q|⁻¹).den=q.num.natAbs := by
  refine num_den_of_coprime (natAbs_pos.mpr (Rat.num_ne_zero.mpr hq)) ?_ ?_
  · exact q.reduced.symm
  · have ha : |q| = q.num.natAbs/q.den := by
      conv_lhs => rw [← Rat.num_div_den q,abs_div,Nat.abs_cast]
      rw [Nat.cast_natAbs,cast_abs]
    rw [ha,inv_div]
    norm_cast

lemma fMuldiv_div_iff (hq : q ≠ 0) :
    fMuldiv (canonical p.num) (canonical p.den) (canonical q.num) (canonical q.den) true =
      .ok (represent (p/q)) ↔ DivSafe p q := by
  obtain ⟨hnu,hd⟩ := abs_inv_num_den q hq
  rw [fMuldiv,DivSafe,or_iff_right hq]
  by_cases hn : q < 0
  · have hc := mulCrossed_iff (-p) |q|⁻¹
    have hv : -p*|q|⁻¹=p/q := by
      rw [abs_of_neg hn,inv_neg,neg_mul_neg,div_eq_mul_inv]
    have hqn := Rat.num_neg.mpr hn
    have ha : -q.num=q.num.natAbs := by omega
    rw [hv,hnu,hd,← ha] at hc
    rw [if_pos ((fNegativeP_canonical _).mpr hqn),if_pos hn,negate_canonical, negate_canonical]
    exact hc
  · have hc := mulCrossed_iff p |q|⁻¹
    have hp : 0 ≤ q := not_lt.mp hn
    have hv : p*|q|⁻¹=p/q := by rw [abs_of_nonneg hp,div_eq_mul_inv]
    have hqp := Rat.num_nonneg.mpr hp
    have ha : q.num.natAbs=q.num := by omega
    rw [hv,hnu,hd,ha] at hc
    rw [if_neg fun h => absurd ((fNegativeP_canonical _).mp h) (by omega),if_neg hn]
    exact hc

lemma divSafe_one : DivSafe 1 q := by
  refine or_iff_not_imp_left.mpr fun _ => .inr ?_
  have ho : ∀ r, r=1 ∨ r = -1 → ∀ s, overflow (r.num/crossGcd r s) (s.num/crossGcd s r)=0 ∧
        overflow (r.den/crossGcd s r) (s.den/crossGcd r s)=0 := by
    intro r hr s
    have hnu : r.num.natAbs=1 := by rcases hr with h | h <;> rw [h] <;> rfl
    have hd : r.den=1 := by rcases hr with h | h <;> rw [h] <;> rfl
    have hc : crossGcd r s=1 := by rw [crossGcd,hnu,Nat.gcd_one_left]
    have hc' : crossGcd s r=1 := by rw [crossGcd,hd,Nat.gcd_one_right]
    rw [hc,hc',hd]
    refine ⟨overflow_of_natAbs_le_one ?_ _,overflow_of_natAbs_le_one (by decide) _⟩
    simp [hnu]
  split_ifs with hn
  · exact ho (-1) (.inr rfl) _
  · exact ho 1 (.inl rfl) _

lemma noReduce_inv (hq : q ≠ 0) :
    nuratSCanonicalizeInternalNoReduce (canonical q.den) (canonical q.num) =
      .ok (represent (1/q)) := by
  obtain ⟨hnu,hd⟩ := abs_inv_num_den q hq
  rw [noReduce_eq_represent_iff,one_div]
  by_cases hn : q < 0
  · have hqn := Rat.num_neg.mpr hn
    have hi : q⁻¹ = -|q|⁻¹ := by rw [abs_of_neg hn,inv_neg,neg_neg]
    rw [hi,Rat.neg_num,Rat.neg_den,hnu]
    exact .inr ⟨rfl,by omega⟩
  · have hqp := Rat.num_nonneg.mpr (not_lt.mp hn)
    rw [abs_of_nonneg (not_lt.mp hn)] at hnu hd
    rw [hnu]
    exact .inl ⟨rfl,by omega⟩

/-- What `<=>` is to return. -/
def order : ℤ := if p < q then -1 else if p=q then 0 else 1

lemma order_eq_sign : order p q=(p.num*q.den-q.num*p.den).sign := by
  have hl : p < q ↔ p.num*q.den < q.num*p.den := Rat.lt_iff p q
  have he : p=q ↔ p.num*q.den=q.num*p.den := Rat.eq_iff_mul_eq_mul
  rw [order]
  split_ifs with h h'
  · rw [sign_eq_neg_one_of_neg (by have := hl.mp h; omega)]
  · rw [he.mp h',sub_self,sign_zero]
  · have hne : p.num*q.den ≠ q.num*p.den := fun hm => h' (he.mpr hm)
    have hn : ¬p.num*q.den < q.num*p.den := mt hl.mpr h
    rw [sign_eq_one_of_pos (by omega)]

def Between (y x : ℤ) : Prop := 0 < y ∧ y < x ∨ x < y ∧ y < 0

/-- The operands of a comparison that is right: a product that wraps is not farther from
zero than the other one on the same side. -/
def CmpSafe : Prop :=
  AllFix p q ∨
    ¬(overflow p.num q.den ≠ 0 ∧ Between (q.num*p.den) (p.num*q.den)) ∧
      ¬(overflow q.num p.den ≠ 0 ∧ Between (p.num*q.den) (q.num*p.den))

lemma sign_eq_sign_iff {x y : ℤ} (hx : x ≠ 0) (hy : y ≠ 0) : x.sign=y.sign ↔ (0 < x ↔ 0 < y) := by
  rcases lt_or_gt_of_ne hx with hx | hx <;> rcases lt_or_gt_of_ne hy with hy | hy
  · rw [sign_eq_neg_one_of_neg hx,sign_eq_neg_one_of_neg hy]
    exact iff_of_true rfl (by omega)
  · rw [sign_eq_neg_one_of_neg hx,sign_eq_one_of_pos hy]
    exact iff_of_false (by decide) (by omega)
  · rw [sign_eq_one_of_pos hx,sign_eq_neg_one_of_neg hy]
    exact iff_of_false (by decide) (by omega)
  · rw [sign_eq_one_of_pos hx,sign_eq_one_of_pos hy]
    exact iff_of_true rfl (by omega)

lemma product_wrapped {n y : ℤ} (hy : 0 < y) (ho : overflow n y ≠ 0) :
    (2^61 < n*y ∧ n*y < 2^62 ∧ product n y=n*y-2^62) ∨
      (-2^62 < n*y ∧ n*y < -2^61 ∧ product n y=n*y+2^62) := by
  have hf := fit_of_overflow ho
  rcases lt_trichotomy n 0 with hne | hz | hpo
  · have hny : n*y < 0 := mul_neg_of_neg_of_pos hne hy
    have hp : product n y=n*y+2^62 := by
      rw [product,overflow,if_pos hf,sign_eq_neg_one_of_neg hny]
      ring
    obtain ⟨hfn,hfy,hn⟩ := hf
    unfold FitSqrtLong at hfn hfy
    unfold Fixable at hn
    have hb := mul_le_mul (show -n ≤ 2^31 by omega) (show y ≤ 2^31-1 by omega) hy.le (by norm_num)
    rw [neg_mul] at hb
    exact .inr ⟨by omega,by omega,hp⟩
  · rw [hz] at ho
    exact absurd (overflow_of_natAbs_le_one (by decide) y) ho
  · obtain ⟨hp,hlt⟩ := product_of_pos hpo hy ho
    have hl : 2^61 ≤ n*y := by
      have hny := mul_pos hpo hy
      have hn := hf.2.2
      unfold Fixable at hn
      omega
    have hpow : n*y ≠ 2^61 := by
      intro he
      refine not_dvd_of_overflow hpo hy ho ?_
      have hd : y ∣ 2^61 := ⟨n,by rw [← he,mul_comm]⟩
      exact hd.trans (pow_dvd_pow 2 (by norm_num))
    exact .inl ⟨by omega,hlt,hp⟩

lemma sign_wrapped_iff {n y z : ℤ} (hy : 0 < y) (ho : overflow n y ≠ 0)
    (hz : z ≤ -2^61 ∨ 2^61 ≤ z) (hn : n*y ≠ z) :
    (product n y-z).sign=(n*y-z).sign ↔ ¬Between z (n*y) := by
  unfold Between
  rcases product_wrapped hy ho with ⟨hl,hh,hp⟩ | ⟨hl,hh,hp⟩
  all_goals
    rw [sign_eq_sign_iff (by omega) (by omega)]
    omega

lemma natAbs_mul_ge {m d : ℤ} (hm : m ≠ 0) (hd : 0 < d) (h : ¬(Fixable m ∧ Fixable d)) :
    m*d ≤ -2^61 ∨ 2^61 ≤ m*d := by
  have ha : 2^61 ≤ (m*d).natAbs := by
    rw [natAbs_mul]
    have hmp : 0 < m.natAbs := natAbs_pos.mpr hm
    have hdp : 0 < d.natAbs := by omega
    by_cases hf : Fixable m
    · have hl : 2^61 ≤ d.natAbs := by
        by_contra hlt
        refine h ⟨hf,?_⟩
        unfold Fixable
        omega
      exact hl.trans (Nat.le_mul_of_pos_left _ hmp)
    · have hl : 2^61 ≤ m.natAbs := by
        unfold Fixable at hf
        omega
      exact hl.trans (Nat.le_mul_of_pos_right _ hdp)
  omega

lemma fixable_of_fit {n : ℤ} (h : FitSqrtLong n) : Fixable n := by
  unfold FitSqrtLong at h
  unfold Fixable
  omega

lemma other_beyond (hf : ¬AllFix p q) (ho : overflow p.num q.den ≠ 0) :
    (q.num*p.den ≤ -2^61 ∨ 2^61 ≤ q.num*p.den) ∧ overflow q.num p.den=0 ∧
      p.num*q.den ≠ q.num*p.den := by
  obtain ⟨hp,hqd,-⟩ := fit_of_overflow ho
  have hn : ¬(Fixable q.num ∧ Fixable p.den) := fun h =>
    hf ⟨fixable_of_fit hp,h.2,h.1,fixable_of_fit hqd⟩
  have hqnu : q.num ≠ 0 := by
    intro hz
    have hq : q=0 := Rat.num_eq_zero.mp hz
    rw [hq,overflow_comm] at ho
    exact ho (overflow_of_natAbs_le_one (by decide) _)
  refine ⟨natAbs_mul_ge hqnu (by exact_mod_cast p.den_pos) hn,?_,?_⟩
  · by_contra hother
    obtain ⟨hqn,hpd,-⟩ := fit_of_overflow hother
    exact hn ⟨fixable_of_fit hqn,fixable_of_fit hpd⟩
  · intro hm
    have hpq : p=q := Rat.eq_iff_mul_eq_mul.mpr hm
    rw [hpq] at hp
    rw [← hpq] at hqd
    exact hn ⟨fixable_of_fit hp,fixable_of_fit hqd⟩

lemma cmpRational_iff : cmpRational (represent p) (represent q)=order p q ↔ CmpSafe p q := by
  rw [order_eq_sign,cmpRational]
  simp only [represent]
  rw [fixnums_represent]
  split_ifs with hf
  · refine iff_of_true ?_ (.inl hf)
    obtain ⟨hpn,hp,hqn,hq⟩ := id hf
    unfold Fixable at hpn hp hqn hq
    dsimp only
    rw [fImul_eq (by omega) (by omega),fImul_eq (by omega) (by omega),fSub_canonical,zero_eq,
      fCmp_canonical,sub_zero]
  · rw [CmpSafe,or_iff_right hf]
    rw [fMul_canonical,fMul_canonical,fSub_canonical,zero_eq,fCmp_canonical,sub_zero]
    by_cases ho : overflow p.num q.den=0
    · by_cases ho' : overflow q.num p.den=0
      · rw [product_of_overflow ho,product_of_overflow ho']
        exact iff_of_true rfl ⟨fun h => h.1 ho,fun h => h.1 ho'⟩
      · have hf' : ¬AllFix q p := fun h => hf ⟨h.2.2.1,h.2.2.2,h.1,h.2.1⟩
        obtain ⟨hz,-,hn⟩ := other_beyond q p hf' ho'
        have hs := sign_wrapped_iff (by exact_mod_cast p.den_pos) ho' hz hn
        rw [product_of_overflow ho,← neg_sub,sign_neg,← neg_sub (q.num*p.den),
          sign_neg,neg_inj,hs]
        simp [ho,ho']
    · obtain ⟨hz,ho',hn⟩ := other_beyond p q hf ho
      have hs := sign_wrapped_iff (by exact_mod_cast q.den_pos) ho hz hn
      rw [product_of_overflow ho',hs]
      simp [ho,ho']

variable {e : ℤ}

/-- What `**` is to return for an integral exponent. -/
def exptExact (e : ℤ) : Except Failure Result :=
  if p=0 ∧ e < 0 then .error .zeroDivision else .ok (.rational (represent (p^e)))

/-- The powers that come out right: the exponent is a Fixnum, and the powers of both
parts are small enough for `**`. -/
def ExptSafe (e : ℤ) : Prop :=
  e=0 ∨ Fixable e ∧ PowFits p.num e.natAbs ∧ PowFits p.den e.natAbs

lemma ofPowers_pow (a b : ℤ) {k : ℕ} (hk : 0 < k) : (PowFits a k ∧ PowFits b k →
      ofPowers (pow (canonical a) (canonical k)) (pow (canonical b) (canonical k)) =
        if b^k=0 then .error .zeroDivision
        else .ok (.rational (represent (((a^k : ℤ) : ℚ)/((b^k : ℤ) : ℚ))))) ∧
      (¬(PowFits a k ∧ PowFits b k) →
        ofPowers (pow (canonical a) (canonical k)) (pow (canonical b) (canonical k)) =
          .error .endless) := by
  obtain ⟨ha,ha'⟩ := pow_canonical a hk
  obtain ⟨hb,hb'⟩ := pow_canonical b hk
  refine ⟨fun h => ?_,fun h => ?_⟩
  · rw [ha h.1,hb h.2,ofPowers,canonicalize_canonical]
    split_ifs with hz
    · rfl
    · rfl
  · by_cases hf : PowFits a k
    · rw [ha hf,hb' fun hf' => h ⟨hf,hf'⟩]
      rfl
    · rw [ha' hf]
      rfl

lemma exptExact_ne (e : ℤ) : exptExact p e ≠ .error .endless ∧ exptExact p e ≠ .ok .float := by
  rw [exptExact]
  split_ifs <;> exact ⟨fun h => (by cases h),fun h => by cases h⟩

lemma ofPowers_iff {a b : ℤ} {k : ℕ} (hk : 0 < k) (h : exptExact p e=if b^k=0 then .error .zeroDivision
      else .ok (.rational (represent (((a^k : ℤ) : ℚ)/((b^k : ℤ) : ℚ))))) :
    ofPowers (pow (canonical a) (canonical k)) (pow (canonical b) (canonical k))=exptExact p e ↔
      PowFits a k ∧ PowFits b k := by
  obtain ⟨hr,hw⟩ := ofPowers_pow a b hk
  by_cases hf : PowFits a k ∧ PowFits b k
  · exact iff_of_true ((hr hf).trans h.symm) hf
  · refine iff_of_false ?_ hf
    rw [hw hf]
    exact (exptExact_ne p e).1.symm

lemma exptFixnum_iff (hne : e ≠ 0) : exptFixnum (represent p) (canonical e)=exptExact p e ↔
      PowFits p.num e.natAbs ∧ PowFits p.den e.natAbs := by
  have hk : 0 < e.natAbs := natAbs_pos.mpr hne
  have hv := Rat.num_div_den p
  rw [exptFixnum,zero_eq,fCmp_canonical,sub_zero,negate_canonical]
  simp only [represent]
  rcases lt_or_gt_of_ne hne with hneg | hpo
  · have ha : -e=e.natAbs := by omega
    rw [sign_eq_neg_one_of_neg hneg,if_neg (by decide),if_pos rfl,ha,
      and_comm]
    refine ofPowers_iff p hk ?_
    have hz : p.num^e.natAbs=0 ↔ p=0 ∧ e < 0 := by
      rw [pow_eq_zero_iff hk.ne',Rat.num_eq_zero,and_iff_left hneg]
    have hp : ((p.den^e.natAbs : ℤ))/((p.num^e.natAbs : ℤ))=p^e := by
      have he : e = -e.natAbs := by omega
      conv_rhs => rw [he,zpow_neg,zpow_natCast,← hv]
      push_cast
      rw [div_pow,inv_div]
    rw [hp,exptExact]
    simp only [hz]
  · have ha : e=e.natAbs := by omega
    have hp : ((p.num^e.natAbs : ℤ))/((p.den^e.natAbs : ℤ))=p^e := by
      conv_rhs => rw [ha,zpow_natCast,← hv]
      push_cast
      rw [div_pow]
    have hnz : (p.den : ℤ)^e.natAbs ≠ 0 := pow_ne_zero _ (by exact_mod_cast p.den_ne_zero)
    have ho := ofPowers_iff (e := e) p hk (by
      rw [exptExact,if_neg hnz,if_neg fun h => absurd h.2 (by omega),hp])
    rw [← ha] at ho
    rw [sign_eq_one_of_pos hpo]
    exact ho

lemma exptNumber_iff (hn : e ≠ 0) :
    exptNumber (represent p) (.integer (canonical e))=exptExact p e ↔ ExptSafe p e := by
  rw [ExptSafe,or_iff_right hn]
  have he := exptFixnum_iff p hn
  by_cases hf : Fixable e
  · rw [canonical_of_fixable hf] at he ⊢
    rw [exptNumber,he,and_iff_right hf]
  · rw [canonical_of_not_fixable hf]
    exact iff_of_false (exptExact_ne p e).2.symm fun h => hf h.1

lemma nuratExpt_integer_iff (e : ℤ) :
    nuratExpt (represent p) (.integer (canonical e))=exptExact p e ↔ ExptSafe p e := by
  rw [nuratExpt,exactZeroP]
  by_cases hz : e=0
  · rw [if_pos ((fZeroP_canonical e).mpr hz),exptExact,hz,
      if_neg fun h => absurd h.2 (by decide),zpow_zero]
    refine iff_of_true ?_ (.inl rfl)
    rw [one_eq]
    rfl
  · rw [if_neg (mt (fZeroP_canonical e).mp hz)]
    exact exptNumber_iff p hz

lemma nuratExpt_rational_iff (e : ℤ) :
    nuratExpt (represent p) (.rational (represent e))=exptExact p e ↔ ExptSafe p e := by
  rw [← nuratExpt_integer_iff,nuratExpt,nuratExpt,exactZeroP,exactZeroP]
  simp only [represent,Rat.num_intCast,Rat.den_intCast,Nat.cast_one]
  rw [if_pos ((fOneP_canonical 1).mpr rfl)]

variable (o : Other)

/-- An integer is taken as the Rational with the denominator one. -/
lemma number_eq (f : Number → Except Failure RRational)
    (h : ∀ n, f (.integer n)=f (.rational ⟨n,one⟩)) :
    f o.number=f (.rational (represent o.value)) := by
  cases o with
  | rational q => rfl
  | integer n =>
    rw [Other.value,represent_intCast]
    exact h _

lemma nuratAdd_iff :
    nuratAdd (represent p) o.number=.ok (represent (p+o.value)) ↔ AddSafe p o.value := by
  rw [number_eq o (nuratAdd _) fun _ => rfl]
  simp only [nuratAdd,represent_den]
  exact fAddsub_add_iff p o.value

lemma nuratSub_iff :
    nuratSub (represent p) o.number=.ok (represent (p-o.value)) ↔ SubSafe p o.value := by
  rw [number_eq o (nuratSub _) fun _ => rfl]
  simp only [nuratSub,represent_den]
  exact fAddsub_sub_iff p o.value

lemma nuratMul_iff :
    nuratMul (represent p) o.number=.ok (represent (p*o.value)) ↔ MulSafe p o.value := by
  rw [number_eq o (nuratMul _) fun _ => rfl]
  simp only [nuratMul,represent_den]
  exact mulCrossed_iff p o.value

lemma nuratDiv_zero {o : Other} (h : o.value=0) :
    nuratDiv (represent p) o.number=.error .zeroDivision := by
  cases o with
  | rational q =>
    exact if_pos ((fZeroP_canonical _).mpr (Rat.num_eq_zero.mpr h))
  | integer n =>
    exact if_pos ((fZeroP_canonical _).mpr (cast_eq_zero.mp h))

lemma nuratDiv_iff {o : Other} (h : o.value ≠ 0) :
    nuratDiv (represent p) o.number=.ok (represent (p/o.value)) ↔ DivSafe p o.value := by
  cases o with
  | rational q =>
    have hn : ¬fZeroP (canonical q.num)=true := fun hz =>
      h (Rat.num_eq_zero.mp ((fZeroP_canonical _).mp hz))
    have hs : (fOneP (canonical p.num) && fOneP (canonical p.den))=true ↔ p=1 := by
      rw [Bool.and_eq_true,fOneP_canonical,fOneP_canonical,Nat.cast_eq_one]
      exact ⟨fun ho => Rat.ext ho.1 ho.2,fun ho => by rw [ho]; exact ⟨rfl,rfl⟩⟩
    rw [Other.number,nuratDiv,represent_num,represent_den,represent_num,
      represent_den,if_neg hn]
    by_cases ho : p=1
    · rw [ho]
      exact iff_of_true (noReduce_inv q h) (divSafe_one q)
    · rw [if_neg (mt hs.mp ho)]
      exact fMuldiv_div_iff p q h
  | integer n =>
    have hze : ¬fZeroP (canonical n)=true := fun hz =>
      h (cast_eq_zero.mpr ((fZeroP_canonical _).mp hz))
    have hd := fMuldiv_div_iff p n h
    rw [Rat.den_intCast] at hd
    rw [Other.number,nuratDiv,represent_den,if_neg hze]
    exact hd

lemma nuratCmp_iff : nuratCmp (represent p) o.number=order p o.value ↔ CmpSafe p o.value := by
  cases o with
  | rational q =>
    exact cmpRational_iff p q
  | integer n =>
    have hc := cmpRational_iff p n
    rw [represent_intCast] at hc
    rw [Other.number,Other.value,nuratCmp,represent_num,represent_den]
    by_cases ho : (p.den : ℤ)=1
    · rw [if_pos ((fOneP_canonical _).mpr ho),fCmp_canonical]
      have hs := order_eq_sign p n
      rw [Rat.den_intCast,ho,Nat.cast_one,mul_one,mul_one] at hs
      refine iff_of_true hs.symm ?_
      refine .inr ⟨fun h => h.1 ?_,fun h => h.1 ?_⟩
      · rw [Rat.den_intCast,overflow_comm]
        exact overflow_of_natAbs_le_one (by decide) _
      · rw [ho,overflow_comm]
        exact overflow_of_natAbs_le_one (by decide) _
    · rw [if_neg (mt (fOneP_canonical _).mp ho)]
      exact hc

lemma nuratEqeqP_iff : nuratEqeqP (represent p) o.number=true ↔ p=o.value := by
  cases o with
  | rational q =>
    rw [Other.number,nuratEqeqP,represent_num,represent_den,represent_num,
      represent_den]
    split_ifs with hz
    · rw [Bool.and_eq_true,fZeroP_canonical,fZeroP_canonical,Rat.num_eq_zero, Rat.num_eq_zero] at hz
      exact iff_of_true rfl (hz.1.trans hz.2.symm)
    · rw [Bool.and_eq_true,fEqeqP_canonical,fEqeqP_canonical,Nat.cast_inj]
      exact ⟨fun h => Rat.ext h.1 h.2,fun h => by rw [h]; exact ⟨rfl,rfl⟩⟩
  | integer n =>
    rw [Other.number,Other.value,nuratEqeqP,represent_num,represent_den]
    by_cases hz : (fZeroP (canonical p.num) && fZeroP (canonical n))=true
    · rw [if_pos hz]
      rw [Bool.and_eq_true,fZeroP_canonical,fZeroP_canonical,Rat.num_eq_zero] at hz
      refine iff_of_true rfl ?_
      rw [hz.1,hz.2,cast_zero]
    · rw [if_neg hz]
      by_cases ho : (p.den : ℤ)=1
      · rw [if_pos ((fOneP_canonical _).mpr ho),fEqeqP_canonical]
        refine ⟨fun h => Rat.ext ?_ ?_,fun h => by rw [h,Rat.num_intCast]⟩
        · exact h
        · exact_mod_cast ho
      · rw [if_neg (mt (fOneP_canonical _).mp ho)]
        refine iff_of_false Bool.false_ne_true fun h => ho ?_
        rw [h,Rat.den_intCast,Nat.cast_one]

/-- The constructor and `==` are exact for all integers and Rationals, and a division by
zero always raises. The other operations give the mathematical result in lowest terms
exactly for the operands that the conditions name. -/
theorem rational_exact_iff_safe (a b e : ℤ) (p : ℚ) (o : Other) :
    nuratSNew (canonical a) (some (canonical b)) =
      (if b = 0 then .error .zeroDivision else .ok (represent ((a : ℚ)/b))) ∧
    nuratSNew (canonical a) none = .ok (represent a) ∧
    (nuratAdd (represent p) o.number = .ok (represent (p+o.value)) ↔ AddSafe p o.value) ∧
    (nuratSub (represent p) o.number = .ok (represent (p-o.value)) ↔ SubSafe p o.value) ∧
    (nuratMul (represent p) o.number = .ok (represent (p*o.value)) ↔ MulSafe p o.value) ∧
    (nuratDiv (represent p) o.number =
        (if o.value = 0 then .error .zeroDivision else .ok (represent (p/o.value))) ↔
      DivSafe p o.value) ∧
    (nuratExpt (represent p) (.integer (canonical e)) = exptExact p e ↔ ExptSafe p e) ∧
    (nuratExpt (represent p) (.rational (represent e)) = exptExact p e ↔ ExptSafe p e) ∧
    (nuratCmp (represent p) o.number = order p o.value ↔ CmpSafe p o.value) ∧
    (nuratEqeqP (represent p) o.number = true ↔ p = o.value) := by
  refine ⟨canonicalize_canonical a b,?_,nuratAdd_iff p o,nuratSub_iff p o,nuratMul_iff p o,?_,
    nuratExpt_integer_iff p e,nuratExpt_rational_iff p e,nuratCmp_iff p o,nuratEqeqP_iff p o⟩
  · refine (canonicalize_canonical a 1).trans ?_
    rw [if_neg (by decide),cast_one,div_one]
  · split_ifs with hz
    · exact iff_of_true (nuratDiv_zero p hz) (.inl hz)
    · exact nuratDiv_iff p hz

def unitFraction (d : ℕ) : ℚ := 1/d

lemma unitFraction_num_den {d : ℕ} (hd : 0 < d) :
    (unitFraction d).num=1 ∧ (unitFraction d).den=d :=
  num_den_of_coprime hd (Nat.coprime_one_left d) (by rw [unitFraction,cast_one])

lemma not_addSafe_unitFractions :
    ¬AddSafe (unitFraction 2147483647) (unitFraction 2147483629) := by
  rintro ⟨-,ho⟩
  revert ho
  decide +kernel

lemma not_powFits_three : ¬PowFits 3 100000000 := by
  have hs : Squarings 3 5 := by
    refine ⟨fun i hi => ?_,by norm_num⟩
    have hle : 2^i ≤ 2^4 := Nat.pow_le_pow_right (by decide) (by omega)
    exact (Nat.pow_le_pow_right (by decide) hle).trans_lt (by norm_num)
  rintro (hle | ⟨-,s,hs',hl⟩ | ⟨hn,-⟩)
  · exact absurd hle (by decide)
  · rw [← squarings_unique hs hs'] at hl
    revert hl
    unfold Leaves
    have hli : biglenLimit=131072 := by decide
    omega
  · exact hn (by decide)

/-- The sum of `1/2147483647` and `1/2147483629` is not the sum, zero to the power
`-2**64` is a Float and raises nothing, and `Rational(3)**100000000` does not return. -/
theorem rational_not_exact : nuratAdd (represent (unitFraction 2147483647))
        (.rational (represent (unitFraction 2147483629))) ≠
      .ok (represent (unitFraction 2147483647+unitFraction 2147483629)) ∧
    nuratExpt (represent 0) (.integer (canonical (-2^64))) = .ok .float ∧
    nuratExpt (represent 3) (.integer (canonical 100000000)) = .error .endless := by
  refine ⟨fun h => ?_,?_,?_⟩
  · have hi := nuratAdd_iff (unitFraction 2147483647) (.rational (unitFraction 2147483629))
    exact not_addSafe_unitFractions (hi.mp h)
  · have hz : ¬fZeroP (canonical (-2^64))=true := fun h =>
      absurd ((fZeroP_canonical _).mp h) (by decide)
    rw [nuratExpt,exactZeroP,if_neg hz,canonical_of_not_fixable (by decide),exptNumber]
  · have hz : ¬fZeroP (canonical 100000000)=true := fun h =>
      absurd ((fZeroP_canonical _).mp h) (by decide)
    have hp := (ofPowers_pow 3 1 (by decide)).2 fun h => not_powFits_three h.1
    have hf : Fixable 100000000 := by decide
    rw [nuratExpt,canonical_of_fixable hf,exptNumber,exptFixnum,represent_den]
    exact hp

end MacRuby.RationalArithmetic
