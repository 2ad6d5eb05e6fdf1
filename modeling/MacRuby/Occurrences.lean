import Mathlib.Data.List.Infix
import Mathlib.Data.Nat.Find

/-!
# Occurrences of one list in another

A search gives what lies before and after the first occurrence. Searching again in
what lies after it, all the way to the end, gives the occurrences that a reader from
left to right meets, none overlapping the one before.
-/
namespace MacRuby.Occurrences
open List

variable {α : Type*} [DecidableEq α] {i l p s : List α}

/-- What lies before and after the first occurrence of `i`. Nothing is not found. -/
def find (i l : List α) : Option (List α × List α) := if i=[] then none else l.dropInfix? i

lemma find_eq_some_iff : find i l=some (p,s) ↔
    i≠[] ∧ l=p++i++s ∧ ∀ q t, l=q++i++t → p.length ≤ q.length := by
  rw [find]
  split_ifs with h
  · simp [h]
  · rw [dropInfix?_eq_some_iff]
    simp only [beq_iff_eq,exists_eq_right,ge_iff_le,h,ne_eq,not_false_eq_true,true_and]
    aesop

lemma find_nil (l : List α) : find [] l=none := if_pos rfl

/-- The first occurrence in the reversed list is the last one. -/
lemma find_reverse (h : find i.reverse l.reverse=some (s,p)) :
    l=p.reverse++i++s.reverse ∧ ∀ q t, l=q++i++t → s.length ≤ t.length := by
  obtain ⟨-,hl,hmin⟩ := find_eq_some_iff.mp h
  refine ⟨?_,?_⟩
  · rw [← reverse_inj,hl]
    simp
  · rintro q t rfl
    have hle := hmin t.reverse q.reverse (by simp)
    rwa [length_reverse] at hle

lemma find_eq_none_iff (hi : i≠[]) : find i l=none ↔ ¬i <:+: l := by
  constructor
  · classical
    rintro h ⟨q,t,hl⟩
    -- the shortest beginning before an occurrence is one that the search gives
    have hex : ∃ n q t, l=q++i++t ∧ q.length=n := ⟨_,q,t,hl.symm,rfl⟩
    obtain ⟨q,t,hl,hq⟩ := Nat.find_spec hex
    have hf : find i l=some (q,t) := by
      refine find_eq_some_iff.mpr ⟨hi,hl,fun q' t' h => ?_⟩
      exact hq ▸ Nat.find_min' hex ⟨q',t',h,rfl⟩
    rw [h] at hf
    cases hf
  · intro h
    by_contra hn
    obtain ⟨⟨p,s⟩,hf⟩ := Option.ne_none_iff_exists'.mp hn
    exact h ⟨p,s,(find_eq_some_iff.mp hf).2.1.symm⟩

lemma find_length (h : find i l=some (p,s)) : s.length < l.length := by
  obtain ⟨hi,rfl,-⟩ := find_eq_some_iff.mp h
  have hp := length_pos_of_ne_nil hi
  simp only [length_append]
  omega

/-- Before the end of the first occurrence there is no other one. -/
lemma not_infix_of_find (h : find i l=some (p,s)) : ¬i <:+: (p++i).dropLast := by
  obtain ⟨hi,rfl,hmin⟩ := find_eq_some_iff.mp h
  rintro ⟨q,t,he⟩
  have hne := append_ne_nil_of_right_ne_nil p hi
  have hle := hmin q (t++[(p++i).getLast hne]++s) (by
    rw [← append_assoc,← append_assoc,he,dropLast_append_getLast])
  have hlen := congrArg length he
  have hp := length_pos_of_ne_nil hi
  simp only [length_append,length_dropLast] at hlen
  omega

/-- The occurrences from left to right; after each one `gap` elements are left out. -/
def search (gap : ℕ) (i l : List α) : List (List α × List α) :=
  match _h : find i l with
  | none => []
  | some (p,s) => (p,s)::search gap i (s.drop gap)
termination_by l.length
decreasing_by
  have := find_length _h
  simp only [length_drop]
  omega

lemma search_of_none (gap : ℕ) (h : find i l=none) : search gap i l=[] := by
  rw [search]
  split
  · rfl
  · simp_all

lemma search_of_some (gap : ℕ) (h : find i l=some (p,s)) :
    search gap i l=(p,s)::search gap i (s.drop gap) := by
  rw [search]
  split <;> simp_all

example : search 0 [2,3] [1,2,3,2,3]=[([1],[2,3]),([],[])] := by decide +kernel

end MacRuby.Occurrences
