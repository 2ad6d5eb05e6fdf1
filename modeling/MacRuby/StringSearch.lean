import MacRuby.Occurrences

/-!
# Searching a string for a string

`scan` of a string, for a string as the pattern. A string is the list of its UTF-16
units. The search of the string library is literal and does not find the empty string.
-/
namespace MacRuby.StringSearch
open List Occurrences

variable {α : Type*}

/-- The search range `r` lies inside the string. -/
def Inside (str : List α) (r : ℕ × ℤ) : Prop := 0 ≤ r.2 ∧ r.1+r.2 ≤ str.length

lemma inside_iff (str : List α) (start : ℕ) :
    Inside str (start,str.length-start) ↔ start ≤ str.length := by
  unfold Inside
  omega

variable [DecidableEq α]

/-- `scan_once`: the result and the new `start`. A range that begins behind the end is
searched like an empty one. -/
def scanOnce (str pat : List α) (start : ℕ) : Option (List α × ℕ) :=
  (find pat (str.drop start)).map fun r =>
    let location := start+r.1.length
    ((str.drop location).take pat.length,location+pat.length+1)

lemma scanOnce_eq_some {str pat : List α} {start next : ℕ} {result : List α}
    (h : scanOnce str pat start=some (result,next)) : ∃ p s,
      find pat (str.drop start)=some (p,s) ∧ result=pat ∧ start < next ∧ start ≤ str.length ∧
        str.drop next=s.drop 1 ∧ (next ≤ str.length ↔ s≠[]) := by
  obtain ⟨⟨p,s⟩,hf,he⟩ := Option.map_eq_some_iff.mp h
  obtain ⟨hi,hd,-⟩ := find_eq_some_iff.mp hf
  cases he
  dsimp only
  have hlen := congrArg length hd
  have hp := length_pos_of_ne_nil hi
  simp only [length_append,length_drop] at hlen
  refine ⟨p,s,hf,?_,by omega,by omega,?_,?_⟩
  · simp [← drop_drop,hd]
  · simp [← drop_drop,hd]
  · rw [← length_pos_iff]
    omega

/-- The loop of `rb_str_scan`: the results, pushed to the array or yielded one after the
other, and the search ranges, the last of which finds nothing. -/
def scanLoop (str pat : List α) (start : ℕ) : List (List α) × List (ℕ × ℤ) :=
  match _h : scanOnce str pat start with
  | none => ([],[(start,str.length-start)])
  | some (result,next) =>
    let r := scanLoop str pat next
    (result::r.1,(start,str.length-start)::r.2)
termination_by str.length+1-start
decreasing_by
  obtain ⟨_,_,_,_,_,_,_⟩ := scanOnce_eq_some _h
  omega

def rbStrScan (str pat : List α) : List (List α) × List (ℕ × ℤ) := scanLoop str pat 0

lemma scanLoop_eq (str pat : List α) (start : ℕ) :
    (scanLoop str pat start).1=replicate (search 1 pat (str.drop start)).length pat ∧
    ((∀ r ∈ (scanLoop str pat start).2, Inside str r) ↔
      start ≤ str.length ∧ ∀ o ∈ search 1 pat (str.drop start), o.2≠[]) := by
  fun_induction scanLoop str pat start with
  | case1 start h =>
    rw [search_of_none 1 (Option.map_eq_none_iff.mp h)]
    simp [inside_iff]
  | case2 start result next h r ih =>
    obtain ⟨p,s,hf,rfl,-,hs,hd,hn⟩ := scanOnce_eq_some h
    rw [search_of_some 1 hf,← hd]
    refine ⟨?_,?_⟩
    · rw [ih.1,length_cons,replicate_succ]
    · rw [forall_mem_cons,forall_mem_cons,ih.2,hn]
      simp [inside_iff,hs]

end MacRuby.StringSearch
