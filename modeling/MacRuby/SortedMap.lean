import Mathlib

/-!
# Finite maps kept in key order

The entries of a map are a list of pairs whose keys increase strictly, so a key
occurs once and a traversal meets the keys in order. `insert` follows the
convention of ordered containers: it does nothing when the key is present.
`assign` overwrites.
-/
namespace MacRuby
open List

/-- A finite map as its list of entries in strictly increasing key order. -/
structure SortedMap (K V : Type*) [LinearOrder K] where
  entries : List (K × V)
  sorted : entries.Pairwise (fun a b => a.1 < b.1)

namespace SortedMap
variable {K V : Type*} [LinearOrder K]

instance [DecidableEq V] : DecidableEq (SortedMap K V) := fun m n =>
  decidable_of_iff (m.entries=n.entries) ⟨fun h => by cases m; cases n; congr,fun h => h ▸ rfl⟩

def empty : SortedMap K V := ⟨[],.nil⟩

instance : EmptyCollection (SortedMap K V) := ⟨empty⟩

def size (m : SortedMap K V) : ℕ := m.entries.length

/-- The first entry of a list whose key is `k`. -/
def findIn (k : K) : List (K × V) → Option V
  | [] => none
  | e::es => if e.1=k then some e.2 else findIn k es

def find (m : SortedMap K V) (k : K) : Option V := findIn k m.entries

def assignIn (k : K) (v : V) : List (K × V) → List (K × V)
  | [] => [(k,v)]
  | e::es => if k < e.1 then (k,v)::e::es else if k=e.1 then (k,v)::es else e::assignIn k v es

lemma mem_assignIn {k : K} {v : V} {x : K × V} {es : List (K × V)}
    (h : x ∈ assignIn k v es) : x=(k,v) ∨ x ∈ es := by
  induction es with
  | nil => simpa [assignIn] using h
  | cons e es ih =>
    simp only [assignIn] at h
    split_ifs at h <;> grind

lemma assignIn_sorted (k : K) (v : V) {es : List (K × V)}
    (h : es.Pairwise (fun a b => a.1 < b.1)) :
    (assignIn k v es).Pairwise (fun a b => a.1 < b.1) := by
  induction es with
  | nil => simp [assignIn]
  | cons e es ih =>
    obtain ⟨he,hes⟩ := pairwise_cons.mp h
    simp only [assignIn]
    split_ifs with h₁ h₂
    · refine pairwise_cons.mpr ⟨?_,h⟩
      intro x hx
      rcases mem_cons.mp hx with rfl | hx
      · exact h₁
      · exact h₁.trans (he x hx)
    · subst h₂
      exact pairwise_cons.mpr ⟨he,hes⟩
    · refine pairwise_cons.mpr ⟨?_,ih hes⟩
      intro x hx
      rcases mem_assignIn hx with rfl | hx
      · exact lt_of_le_of_ne (not_lt.mp h₁) (Ne.symm h₂)
      · exact he x hx

/-- `m[k] = v`: the entry of `k` is created or overwritten. -/
def assign (m : SortedMap K V) (k : K) (v : V) : SortedMap K V :=
  ⟨assignIn k v m.entries,assignIn_sorted k v m.sorted⟩

/-- `m.insert({k, v})`: an entry that is present wins. -/
def insert (m : SortedMap K V) (k : K) (v : V) : SortedMap K V :=
  if (m.find k).isSome then m else m.assign k v

/-- `m.erase(k)`. -/
def erase (m : SortedMap K V) (k : K) : SortedMap K V :=
  ⟨m.entries.filter (fun e => e.1 ≠ k),m.sorted.filter _⟩

@[simp] lemma find_empty (k : K) : (∅ : SortedMap K V).find k=none := rfl

lemma findIn_assignIn (k j : K) (v : V) (es : List (K × V)) :
    findIn j (assignIn k v es)=if j=k then some v else findIn j es := by
  induction es with
  | nil => simp [assignIn,findIn,eq_comm]
  | cons e es ih =>
    simp only [assignIn]
    split_ifs with h₁ h₂ h₃ h₃ h₃ <;> simp only [findIn] <;> grind

lemma find_assign (m : SortedMap K V) (k j : K) (v : V) :
    (m.assign k v).find j=if j=k then some v else m.find j := findIn_assignIn k j v m.entries

lemma find_insert (m : SortedMap K V) (k j : K) (v : V) :
    (m.insert k v).find j=if j=k ∧ m.find k=none then some v else m.find j := by
  unfold insert
  split_ifs with h₁ h₂ h₂
  · simp [h₂.2] at h₁
  · rfl
  · rw [find_assign,if_pos h₂.1]
  · rw [find_assign,if_neg]
    intro h
    exact h₂ ⟨h,by simpa using h₁⟩

lemma findIn_filter (k j : K) (es : List (K × V)) :
    findIn j (es.filter (fun e => e.1 ≠ k))=if j=k then none else findIn j es := by
  induction es with
  | nil => simp [findIn]
  | cons e es ih =>
    by_cases h : e.1=k
    · simp only [findIn]
      split_ifs <;> grind
    · simp only [ne_eq,h,not_false_eq_true,decide_true,filter_cons_of_pos,findIn]
      split_ifs <;> grind

lemma find_erase (m : SortedMap K V) (k j : K) :
    (m.erase k).find j=if j=k then none else m.find j := findIn_filter k j m.entries

lemma findIn_eq_none {k : K} {es : List (K × V)} : findIn k es=none ↔ ∀ e ∈ es, e.1 ≠ k := by
  induction es with
  | nil => simp [findIn]
  | cons e es ih =>
    simp only [findIn]
    split_ifs with h <;> simp [h,ih]

lemma find_eq_some {m : SortedMap K V} {k : K} {v : V} : m.find k=some v ↔ (k,v) ∈ m.entries := by
  unfold find
  obtain ⟨es,hs⟩ := m
  induction es with
  | nil => simp [findIn]
  | cons e es ih =>
    obtain ⟨he,hes⟩ := pairwise_cons.mp hs
    simp only [findIn,mem_cons]
    split_ifs with h
    · subst h
      constructor
      · rintro ⟨rfl⟩; exact .inl rfl
      · rintro (h | h)
        · rw [← h]
        · exact ((he _ h).ne rfl).elim
    · rw [ih hes]
      constructor
      · exact .inr
      · rintro (rfl | h')
        · exact (h rfl).elim
        · exact h'

lemma size_assignIn_of_absent {k : K} {v : V} {es : List (K × V)} (h : findIn k es=none) :
    (assignIn k v es).length=es.length+1 := by
  induction es with
  | nil => rfl
  | cons e es ih =>
    rw [findIn_eq_none] at h
    simp only [assignIn]
    have he := h e (by simp)
    have hes : findIn k es=none := findIn_eq_none.mpr fun x hx => h x (by simp [hx])
    split_ifs with h₁ h₂
    · simp
    · exact (he h₂.symm).elim
    · simp [ih hes]

lemma size_insert_of_absent {m : SortedMap K V} {k : K} (v : V) (h : m.find k=none) :
    (m.insert k v).size=m.size+1 := by
  simp only [insert,h]
  exact size_assignIn_of_absent h

lemma nodup_keys (m : SortedMap K V) : (m.entries.map Prod.fst).Nodup :=
  pairwise_map.mpr (m.sorted.imp fun h => h.ne)

end SortedMap
end MacRuby
