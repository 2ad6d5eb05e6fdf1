import MacRuby.Occurrences
import Mathlib.Data.List.DropRight

/-!
# The pieces of a string

`split` with a string separator. The loop searches for the separator from where the last
occurrence ended, so the search range always reaches the end of the string; here it is
the rest of the string.
-/
namespace MacRuby.StringPieces
open List Occurrences

variable {α : Type*}

/-- The pieces and the rest, joined again, and no separator in a piece. -/
structure Cuts (spat str : List α) (r : List (List α) × List α) : Prop where
  join : spat.intercalate (r.1++[r.2])=str
  free : ∀ p ∈ r.1, ¬spat <:+: p

lemma cuts_rest (spat rest : List α) : Cuts spat rest ([],rest) := ⟨by simp,by simp⟩

variable [DecidableEq α]

/-- What the loop of `rb_str_split_m` pushes for one piece. With `awkSplit` it is trimmed
(`CFStringTrimWhitespace`) and left out if nothing remains. -/
def pushed (white : α → Bool) (awkSplit : Bool) (substr : List α) : List (List α) :=
  if awkSplit then [(substr.dropWhile white).rdropWhile white].filter (· ≠ []) else [substr]

/-- The loop of `rb_str_split_m`: the pieces and the rest. -/
def splitLoop (white : α → Bool) (awkSplit : Bool) (spat : List α) (limit : Option ℤ)
    (rest : List α) : List (List α) × List α :=
  match _h : find spat rest with
  | none => ([],rest)
  | some (substr,next) =>
    let more limit := let r := splitLoop white awkSplit spat limit next
      (pushed white awkSplit substr++r.1,r.2)
    match limit with
    | none => more none
    | some lim => if lim-1 > 1 then more (some (lim-1)) else (pushed white awkSplit substr,next)
termination_by rest.length
decreasing_by all_goals exact find_length _h

/-- `rb_str_split_m` for a string separator. Without a second argument `lim` is 0. -/
def rbStrSplitM (white : α → Bool) (space : α) (str spat : List α) (lim : ℤ) : List (List α) :=
  if lim=1 then if str=[] then [] else [str]
  else
    let limit := if lim ≤ 0 then none else some lim
    let r := splitLoop white (decide (spat=[space])) spat limit str
    let result := if str≠[] ∧ (limit≠none ∨ r.2≠[] ∨ lim < 0) then r.1++[r.2] else r.1
    if limit=none ∧ lim=0 then result.rdropWhile (· = []) else result

lemma Cuts.cons {spat rest substr next : List α} {r : List (List α) × List α}
    (h : Cuts spat next r) (hf : find spat rest=some (substr,next)) :
    Cuts spat rest (substr::r.1,r.2) := by
  obtain ⟨hs,rfl,-⟩ := find_eq_some_iff.mp hf
  refine ⟨?_,forall_mem_cons.mpr ⟨fun hi => ?_,h.free⟩⟩
  · rw [cons_append,intercalate_cons_of_ne_nil (by simp),h.join]
  · have hn := not_infix_of_find hf
    rw [dropLast_append_of_ne_nil hs] at hn
    exact hn (hi.trans (prefix_append ..).isInfix)

lemma splitLoop_cuts (white : α → Bool) (spat : List α) (limit : Option ℤ) (rest : List α) :
    Cuts spat rest (splitLoop white false spat limit rest) ∧
    ∀ lim, limit=some lim → 1 < lim → (splitLoop white false spat limit rest).1.length < lim := by
  fun_induction splitLoop white false spat limit rest with
  | case1 limit rest h => exact ⟨cuts_rest spat rest,fun lim _ hl => by simp; omega⟩
  | case2 rest substr next h more ih => exact ⟨(ih none).1.cons h,nofun⟩
  | case3 rest substr next h more lim hl ih =>
    obtain ⟨hc,hlen⟩ := ih (some (lim-1))
    refine ⟨hc.cons h,?_⟩
    rintro _ ⟨⟩ -
    have hlt := hlen _ rfl hl
    change ((substr::(splitLoop white false spat (some (lim-1)) next).1).length : ℤ) < lim
    rw [length_cons]
    omega
  | case4 rest substr next h lim hl =>
    refine ⟨(cuts_rest spat next).cons h,?_⟩
    rintro _ ⟨⟩ hlim
    exact hlim

lemma splitLoop_nil (white : α → Bool) (spat : List α) (limit : Option ℤ) :
    (splitLoop white false spat limit []).1=[] := by
  rw [splitLoop]
  split
  · rfl
  · next hf => exact absurd (find_length hf) (Nat.not_lt_zero _)

/-- With a limit other than 0 and 1 nothing is left out, unless the string is empty. -/
lemma rbStrSplitM_eq (white : α → Bool) {space : α} (str : List α) {spat : List α}
    (hsp : spat≠[space]) {lim : ℤ} (h₀ : lim≠0) (h₁ : lim≠1) {limit : Option ℤ}
    (hl : (if lim ≤ 0 then none else some lim)=limit) :
    rbStrSplitM white space str spat lim=if str=[] then [] else
      (splitLoop white false spat limit str).1++[(splitLoop white false spat limit str).2] := by
  have hc : limit≠none ∨ lim < 0 := by
    rw [← hl]
    split_ifs
    · exact .inr (by omega)
    · exact .inl (by simp)
  rw [rbStrSplitM,if_neg h₁,decide_eq_false hsp,hl]
  dsimp only
  rw [if_neg (by omega)]
  split_ifs with he hs hs
  · exact absurd hs he.1
  · rfl
  · rw [hs,splitLoop_nil]
  · tauto

end MacRuby.StringPieces
