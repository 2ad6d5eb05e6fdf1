import Mathlib.Data.List.Basic
import Mathlib.Data.List.TakeWhile

/-!
# Searching tables in a fixed order

A lookup that tries one table after the other is the first entry along the list
of the tables' keys. These are the changes under which such a lookup keeps its
result: an entry goes away that is not the one found, or more keys are tried
after a key that the search does not pass.
-/
namespace MacRuby.SearchPath
open Function List

variable {κ α : Type*}

def holder (entry : κ → Option α) (path : List κ) : Option κ :=
  path.find? fun k => (entry k).isSome

def passed (entry : κ → Option α) (path : List κ) : List κ :=
  path.takeWhile fun k => (entry k).isNone

lemma findSome_eq_holder (entry : κ → Option α) (path : List κ) :
    path.findSome? entry=(holder entry path).bind entry := by
  induction path with
  | nil => rfl
  | cons k path ih =>
    rw [holder,find?_cons,findSome?_cons]
    cases hk : entry k with
    | some a => simp [hk]
    | none => exact ih

lemma findSome_remove [DecidableEq κ] {entry : κ → Option α} {path : List κ} {c : κ}
    (h : holder entry path ≠ some c) :
    path.findSome? (update entry c none)=path.findSome? entry := by
  induction path with
  | nil => rfl
  | cons k path ih =>
    rw [holder,find?_cons] at h
    rw [findSome?_cons,findSome?_cons]
    cases hk : entry k with
    | some a =>
      simp only [hk] at h
      have hkc : k ≠ c := fun hkc => h (congrArg some hkc)
      rw [update_of_ne hkc,hk]
    | none =>
      simp only [hk] at h
      have hn : update entry c none k=none := by
        by_cases hkc : k=c
        · rw [hkc,update_self]
        · rw [update_of_ne hkc,hk]
      rw [hn]
      exact ih h

lemma findSome_add [DecidableEq κ] {entry : κ → Option α} {path : List κ} {c : κ}
    (h : path.findSome? entry=none) (hc : c ∈ path) (a : α) :
    path.findSome? (update entry c (some a))=some a := by
  induction path with
  | nil => simp at hc
  | cons k path ih =>
    rw [findSome?_eq_none_iff] at h
    rw [findSome?_cons]
    by_cases hk : k=c
    · rw [hk,update_self]
    · rw [update_of_ne hk,h k mem_cons_self]
      apply ih
      · exact findSome?_eq_none_iff.mpr fun j hj => h j (mem_cons_of_mem k hj)
      · exact (mem_cons.mp hc).resolve_left (Ne.symm hk)

lemma findSome_flatMap {ι : Type*} (entry : κ → Option α) (f : ι → List κ) (l : List ι) :
    (l.flatMap f).findSome? entry=l.findSome? fun i => (f i).findSome? entry := by
  induction l with
  | nil => rfl
  | cons i l ih =>
    rw [flatMap_cons,findSome?_append,findSome?_cons,ih]
    cases (f i).findSome? entry <;> rfl

/-- More keys, all with the property `S`, are tried after some occurrences of `c`. -/
inductive Expands (c : κ) (S : κ → Prop) : List κ → List κ → Prop
  | nil : Expands c S [] []
  | keep {k : κ} {l l' : List κ} : Expands c S l l' → Expands c S (k::l) (k::l')
  | insert {ins l l' : List κ} :
      (∀ m ∈ ins, S m) → Expands c S l l' → Expands c S (c::l) (c::(ins++l'))

variable {c : κ} {S : κ → Prop}

lemma Expands.refl (l : List κ) : Expands c S l l := by
  induction l with
  | nil => exact .nil
  | cons k l ih => exact .keep ih

lemma Expands.append {l₁ l₁' l₂ l₂' : List κ} (h₁ : Expands c S l₁ l₁')
    (h₂ : Expands c S l₂ l₂') : Expands c S (l₁++l₂) (l₁'++l₂') := by
  induction h₁ with
  | nil => exact h₂
  | keep _ ih => exact .keep ih
  | insert hi _ ih =>
    rw [cons_append,cons_append,append_assoc]
    exact .insert hi ih

lemma Expands.flatMap {ι : Type*} {l : List ι} {f f' : ι → List κ}
    (h : ∀ k ∈ l, Expands c S (f k) (f' k)) : Expands c S (l.flatMap f) (l.flatMap f') := by
  induction l with
  | nil => exact .nil
  | cons k l ih =>
    exact (h k mem_cons_self).append (ih fun j hj => h j (mem_cons_of_mem k hj))

/-- The search gives the same when it does not pass `c`, or when what is tried in
addition has no entries. -/
lemma Expands.findSome {entry : κ → Option α} {l l' : List κ} (h : Expands c S l l')
    (he : c ∉ passed entry l ∨ ∀ m, S m → entry m=none) : l'.findSome? entry=l.findSome? entry := by
  induction h with
  | nil => rfl
  | @keep k l l' _ ih =>
    rw [findSome?_cons,findSome?_cons]
    cases hk : entry k with
    | some a => rfl
    | none =>
      apply ih
      apply he.imp_left
      intro hc hme
      apply hc
      rw [passed,takeWhile_cons,if_pos (by simp [hk])]
      exact mem_cons_of_mem k hme
  | @insert ins l l' hi _ ih =>
    rw [findSome?_cons,findSome?_cons]
    cases hk : entry c with
    | some a => rfl
    | none =>
      have hc : c ∈ passed entry (c::l) := by
        rw [passed,takeWhile_cons,if_pos (by simp [hk])]
        exact mem_cons_self
      have hn := he.resolve_left fun hno => hno hc
      have hs : ins.findSome? entry=none :=
        findSome?_eq_none_iff.mpr fun m hm => hn m (hi m hm)
      rw [findSome?_append,hs]
      exact ih (.inr hn)

end MacRuby.SearchPath
