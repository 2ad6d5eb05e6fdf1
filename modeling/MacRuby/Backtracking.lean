import Mathlib.Data.List.Lex
import Mathlib.Data.List.GetD

/-!
# Enumerations of sequences of numbers

All sequences with a property, in lexicographic order, put together by their first entries.
-/
namespace MacRuby.Backtracking
open List Nat

/-- The list has the sequences with the property, each once and in lexicographic order. -/
def Enumerates (l : List (List ℕ)) (P : List ℕ → Prop) : Prop :=
  l.Pairwise (· < ·) ∧ ∀ p, p ∈ l ↔ P p

def branch (firsts : List ℕ) (rest : ℕ → List (List ℕ)) : List (List ℕ) :=
  firsts.flatMap fun x => (rest x).map (x::·)

variable {firsts : List ℕ} {rest : ℕ → List (List ℕ)} {P : ℕ → List ℕ → Prop}

lemma enumerates_nil : Enumerates [[]] (·=[]) :=
  ⟨pairwise_singleton _ _,fun _ => mem_singleton⟩

lemma Enumerates.congr {l : List (List ℕ)} {P Q : List ℕ → Prop} (h : Enumerates l P)
    (hif : ∀ p, P p ↔ Q p) : Enumerates l Q :=
  ⟨h.1,fun p => (h.2 p).trans (hif p)⟩

lemma mem_branch {p : List ℕ} :
    p ∈ branch firsts rest ↔ ∃ x q, p=x::q ∧ x ∈ firsts ∧ q ∈ rest x := by
  simp only [branch,mem_flatMap,mem_map]
  constructor
  · rintro ⟨x,hx,q,hq,rfl⟩
    exact ⟨x,q,rfl,hx,hq⟩
  · rintro ⟨x,q,rfl,hx,hq⟩
    exact ⟨x,hx,q,hq,rfl⟩

lemma enumerates_branch (hf : firsts.Pairwise (· < ·))
    (h : ∀ x ∈ firsts, Enumerates (rest x) (P x)) :
    Enumerates (branch firsts rest) fun p => ∃ x q, p=x::q ∧ x ∈ firsts ∧ P x q := by
  constructor
  · rw [branch,pairwise_flatMap]
    constructor
    · intro x hx
      rw [pairwise_map]
      apply (h x hx).1.imp
      intro p q hpq
      exact Lex.cons hpq
    · apply hf.imp
      intro x y hxy p hp q hq
      obtain ⟨p,-,rfl⟩ := mem_map.mp hp
      obtain ⟨q,-,rfl⟩ := mem_map.mp hq
      exact Lex.rel hxy
  · intro p
    rw [mem_branch]
    constructor
    · rintro ⟨x,q,rfl,hx,hq⟩
      exact ⟨x,q,rfl,hx,((h x hx).2 q).mp hq⟩
    · rintro ⟨x,q,rfl,hx,hq⟩
      exact ⟨x,q,rfl,hx,((h x hx).2 q).mpr hq⟩

end MacRuby.Backtracking
