import Mathlib.Data.Rat.Floor

/-!
# Random samples of an array

`rb_ary_sample` chooses up to three positions by cases and up to nine with a sorted table
of the positions that are taken. From ten elements on it draws like a shuffle, but does
not exchange the elements, so that a position can be drawn again. A draw is a number in
[0,1); its product with a length is taken to be exact.
-/
namespace MacRuby.ArraySamples
open List

variable (draws : ℕ → ℚ) (len : ℕ)

/-- `rb_genrand_real() * len` as a long, for one of the draws. -/
def genrand (i len : ℕ) : ℕ := ⌊draws i*len⌋₊

def two : List ℕ :=
  let i := genrand draws 0 len
  let j := genrand draws 1 (len-1)
  [i,if i ≤ j then j+1 else j]

def three : List ℕ :=
  let i := genrand draws 0 len
  let j := genrand draws 1 (len-1)
  let k := genrand draws 2 (len-2)
  let third := fun l g => if l ≤ k then if g ≤ k+1 then k+2 else k+1 else k
  if i ≤ j then [i,j+1,third i (j+1)] else [i,j,third j i]

/-- The search in the sorted table, and the table with the position that was found. -/
def place : ℕ → List ℕ → ℕ × List ℕ
  | k,[] => (k,[k])
  | k,s::sorted =>
    if k < s then (k,k::s::sorted)
    else
      let r := place (k+1) sorted
      (r.1,s::r.2)

/-- The sorted table and the positions in the order of the draws, `i+1` of them. -/
def small : ℕ → List ℕ × List ℕ
  | 0 =>
    let k := genrand draws 0 len
    ([k],[k])
  | i+1 =>
    let r := place (genrand draws (i+1) (len-(i+1))) (small i).1
    (r.2,(small i).2 ++ [r.1])

def large (n : ℕ) : List ℕ := (List.range n).map fun i => genrand draws i (len-i)+i

def positions (n : ℕ) : List ℕ :=
  match min n len with
  | 0 => []
  | 1 => [genrand draws 0 len]
  | 2 => two draws len
  | 3 => three draws len
  | n => if n < 10 then (small draws len (n-1)).2 else large draws len n

def rbArySample {α : Type} (nil : α) (ary : List α) (n : ℕ) : List α :=
  (positions draws ary.length n).map (ary.getD · nil)

variable {draws} {len}

lemma genrand_lt {i : ℕ} (h : 0 ≤ draws i ∧ draws i < 1) (hl : 0 < len) :
    genrand draws i len < len := by
  have hp : (0 : ℚ) < len := Nat.cast_pos.mpr hl
  rw [genrand,Nat.floor_lt (mul_nonneg h.1 hp.le)]
  exact mul_lt_of_lt_one_left hp h.2

lemma place_spec {k : ℕ} {sorted : List ℕ} (h : sorted.Pairwise (· < ·)) :
    (k ≤ (place k sorted).1 ∧ (place k sorted).1 ≤ k+sorted.length) ∧
      (place k sorted).2.Pairwise (· < ·) ∧ (place k sorted).2.Perm ((place k sorted).1::sorted) := by
  induction sorted generalizing k with
  | nil => simp [place]
  | cons s sorted ih =>
    obtain ⟨hs,hso⟩ := pairwise_cons.mp h
    simp only [place]
    split_ifs with hk
    · refine ⟨⟨le_refl k,Nat.le_add_right k _⟩,pairwise_cons.mpr ⟨?_,h⟩,Perm.refl _⟩
      rw [forall_mem_cons]
      exact ⟨hk,fun x hx => hk.trans (hs x hx)⟩
    · obtain ⟨⟨hl,hg⟩,hpa,hp⟩ := ih hso
      refine ⟨⟨by omega,by rw [length_cons]; omega⟩,pairwise_cons.mpr ⟨?_,hpa⟩,?_⟩
      · intro x hx
        rcases mem_cons.mp (hp.mem_iff.mp hx) with rfl | hx
        · omega
        · exact hs x hx
      · exact (hp.cons s).trans (Perm.swap _ _ _)

variable (h : ∀ i, 0 ≤ draws i ∧ draws i < 1)
include h

lemma small_spec (i : ℕ) (hi : i < len) : (small draws len i).1.Pairwise (· < ·) ∧
    (small draws len i).1.Perm (small draws len i).2 ∧ (small draws len i).2.length=i+1 ∧
      ∀ p ∈ (small draws len i).2, p < len := by
  induction i with
  | zero => simp [small,genrand_lt (h 0) hi]
  | succ i ih =>
    obtain ⟨hpa,hpe,hl,hb⟩ := ih (by omega)
    obtain ⟨⟨-,hle⟩,hpa',hpe'⟩ :=
      place_spec hpa
    have hk := genrand_lt (h (i+1)) (show 0 < len-(i+1) by omega)
    rw [hpe.length_eq] at hle
    refine ⟨hpa',?_,by simp [small,hl],?_⟩
    · exact hpe'.trans ((hpe.cons _).trans (perm_append_singleton _ _).symm)
    · intro p hp
      rcases mem_append.mp hp with hp | hp
      · exact hb p hp
      · rw [mem_singleton.mp hp]
        omega

lemma two_spec (hl : 2 ≤ len) : (two draws len).length=2 ∧
    (∀ p ∈ two draws len, p < len) ∧ (two draws len).Nodup := by
  have hi := genrand_lt (h 0) (show 0 < len by omega)
  have hj := genrand_lt (h 1) (show 0 < len-1 by omega)
  simp only [two]
  split_ifs
  all_goals
    simp
    omega

lemma three_spec (hl : 3 ≤ len) : (three draws len).length=3 ∧
    (∀ p ∈ three draws len, p < len) ∧ (three draws len).Nodup := by
  have hi := genrand_lt (h 0) (show 0 < len by omega)
  have hj := genrand_lt (h 1) (show 0 < len-1 by omega)
  have hk := genrand_lt (h 2) (show 0 < len-2 by omega)
  simp only [three]
  split_ifs
  all_goals
    simp
    omega

lemma large_spec {n : ℕ} (hn : n ≤ len) : (large draws len n).length=n ∧
    ∀ p ∈ large draws len n, p < len := by
  constructor
  · simp [large]
  · intro p hp
    obtain ⟨i,hi,rfl⟩ := mem_map.mp hp
    rw [mem_range] at hi
    have := genrand_lt (h i) (show 0 < len-i by omega)
    omega

variable (len) in
lemma positions_spec (n : ℕ) : (positions draws len n).length=min n len ∧
    (∀ p ∈ positions draws len n, p < len) ∧
    ((positions draws len n).Nodup ↔ min n len < 10 ∨ (large draws len (min n len)).Nodup) := by
  have hle : min n len ≤ len := min_le_right n len
  rw [positions]
  generalize min n len=m at hle
  match m with
  | 0 => simp
  | 1 => simp [genrand_lt (h 0) hle]
  | 2 =>
    obtain ⟨hl,hb,hn⟩ := two_spec h hle
    exact ⟨hl,hb,iff_of_true hn (.inl (by decide))⟩
  | 3 =>
    obtain ⟨hl,hb,hn⟩ := three_spec h hle
    exact ⟨hl,hb,iff_of_true hn (.inl (by decide))⟩
  | m+4 =>
    by_cases hm : m+4 < 10
    · obtain ⟨hp,hpe,hl,hb⟩ := small_spec h (m+3) hle
      have hn : (small draws len (m+3)).2.Nodup :=
        hpe.nodup_iff.mp (hp.imp ne_of_lt)
      simp only [if_pos hm]
      exact ⟨hl,hb,iff_of_true hn (.inl hm)⟩
    · obtain ⟨hl,hb⟩ := large_spec h hle
      simp only [hm,if_false,false_or]
      exact ⟨hl,hb,trivial⟩

end MacRuby.ArraySamples
