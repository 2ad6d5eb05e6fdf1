import MacRuby.FormatArguments

/-!
# The types of the arguments of a format string

After a directive with a star the scan does not return to the text, and characters of
literal text count as conversions.
-/
namespace MacRuby.FormatTypes
open FormatArguments List

def kind (c : Char) : Option OcType := (conversion [] false c).map Prod.fst

def modifiers : List Char := "#-+ 0123456789.*".toList

/-- The parts of a format string: a character, two percent signs, or a directive. -/
inductive Piece
  | text (c : Char) (h : c ≠ '%')
  | percent
  | directive (mods : List Char) (conv : Char) (hmods : mods ⊆ modifiers)
      (hconv : (kind conv).isSome ∧ conv ≠ '*')

namespace Piece

def chars : Piece → List Char
  | text c _ => [c]
  | percent => ['%','%']
  | directive mods conv .. => '%'::mods++[conv]

/-- The arguments that are used for a part: one for each star and each conversion. -/
def types : Piece → List OcType
  | directive mods conv .. => (mods++[conv]).filterMap kind
  | _ => []

def starred : Piece → Bool
  | directive mods .. => mods.contains '*'
  | _ => false

end Piece

/-- Behind a directive with a star the characters of conversions are those of directives. -/
def Plain : List Piece → Prop
  | [] => True
  | p::ps => if p.starred then (ps.flatMap Piece.chars).filterMap kind = ps.flatMap Piece.types
      else Plain ps

def entries (mode : Mode) (before cs : List Char) : List OcType :=
  (tokens mode before cs).map Token.type

variable {sharp star : Bool} {before cs mods : List Char} {c : Char} {type : OcType}

lemma kind_eq (before : List Char) (sharp : Bool) (c : Char) :
    (conversion before sharp c).map Prod.fst=kind c := by
  unfold kind conversion
  split <;> rfl

lemma entries_skip (h : kind c=none) : entries (.directive sharp star) before (c::cs) =
    entries (.directive (sharp || c == '#') star) (c::before) cs := by
  rw [← kind_eq before sharp,Option.map_eq_none_iff] at h
  rw [entries,tokens,h]
  rfl

lemma entries_take (h : kind c=some type) : entries (.directive sharp star) before (c::cs) =
    type::entries (.after sharp star c) (c::before) cs := by
  rw [← kind_eq before sharp] at h
  obtain ⟨⟨_,touch⟩,hc,rfl⟩ := Option.map_eq_some_iff.mp h
  rw [entries,tokens,hc]
  rfl

lemma entries_after_star : entries (.directive sharp true) before cs=cs.filterMap kind := by
  induction cs generalizing sharp before with
  | nil => rfl
  | cons c cs ih =>
    cases hk : kind c with
    | none => rw [entries_skip hk,ih,filterMap_cons_none hk]
    | some type =>
      rw [entries_take hk,filterMap_cons_some hk]
      exact congrArg (type::·) ih

/-- A directive ends at its conversion, or not at all. -/
lemma entries_directive (sharp : Bool) (before cs : List Char) (hm : mods ⊆ modifiers)
    (hc : (kind c).isSome ∧ c ≠ '*') :
    ∃ before', entries (.directive sharp false) before (mods++c::cs)=(mods++[c]).filterMap kind++
      if mods.contains '*' then cs.filterMap kind else entries .text before' cs := by
  induction mods generalizing sharp before with
  | nil =>
    obtain ⟨type,hk⟩ := Option.isSome_iff_exists.mp hc.1
    refine ⟨c::before,?_⟩
    rw [nil_append,nil_append,entries_take hk,filterMap_cons_some hk,Mode.after]
    simp [hc.2]
  | cons d mods ih =>
    obtain ⟨hd,hm⟩ := cons_subset.mp hm
    by_cases hs : d = '*'
    · subst hs
      refine ⟨before,?_⟩
      rw [if_pos (by simp),← filterMap_append,append_assoc]
      exact (entries_take rfl).trans (congrArg (OcType.int::·) entries_after_star)
    · have hk : modifiers.all fun d => d == '*' || kind d == none := by decide
      have hk : kind d=none := by simpa [hs] using all_eq_true.mp hk d hd
      obtain ⟨before',h⟩ := ih (sharp || d == '#') (d::before) hm
      refine ⟨before',?_⟩
      rw [cons_append,entries_skip hk,h,cons_append,filterMap_cons_none hk]
      simp [Ne.symm hs]

lemma entries_iff (ps : List Piece) (before : List Char) :
    entries .text before (ps.flatMap Piece.chars)=ps.flatMap Piece.types ↔ Plain ps := by
  induction ps generalizing before with
  | nil => exact iff_of_true rfl trivial
  | cons p ps ih =>
    cases p with
    | text c h =>
      have ht : entries .text before (c::ps.flatMap Piece.chars) =
          entries .text (c::before) (ps.flatMap Piece.chars) := by
        rw [entries,tokens.eq_def]
        simp only [if_neg h]
        rfl
      exact (iff_of_eq (congrArg (·=_) ht)).trans (ih _)
    | percent => exact ih _
    | directive mods c hm hc =>
      obtain ⟨before',h⟩ := entries_directive false ('%'::before) (ps.flatMap Piece.chars) hm hc
      have hn : ∀ cs', mods++c::ps.flatMap Piece.chars ≠ '%'::cs' := by
        intro cs' he
        cases mods with
        | nil =>
          cases he
          cases hc.1
        | cons d mods =>
          cases he
          exact absurd (hm mem_cons_self) (by decide)
      have hd : (Piece.directive mods c hm hc::ps).flatMap Piece.chars =
        '%'::(mods++c::ps.flatMap Piece.chars) := by simp [Piece.chars]
      have ht : entries .text before ('%'::(mods++c::ps.flatMap Piece.chars)) =
          entries (.directive false false) ('%'::before) (mods++c::ps.flatMap Piece.chars) := by
        rw [entries,tokens]
        · rfl
        · exact hn
      rw [hd,ht,h,flatMap_cons,Piece.types,append_cancel_left_eq,Plain,Piece.starred]
      split_ifs
      · exact Iff.rfl
      · exact ih _

variable {V E : Type} (env : Env V E) (fmt : List Char) (len : ℕ)

lemma touchArg_keeps (s : Scan V) (t : Touch) : (touchArg env s t).1.j=s.j ∧
    (touchArg env s t).1.types=s.types ∧ (touchArg env s t).2 ≠ some .tooMuchTokens := by
  cases t with
  | nothing | clear => exact ⟨rfl,rfl,fun h => by cases h⟩
  | binary sharp upper =>
    cases h : env.toBinary sharp upper (s.args s.j) <;> simp [touchArg,h]

/-- How the scan ends, unless a conversion raises. -/
lemma consume_types (ts : List Token) (s : Scan V) (hj : s.j ≤ len) :
    ((consume env fmt len ts s).2=some .tooMuchTokens → len < s.j+ts.length) ∧
      ((consume env fmt len ts s).2=none → (consume env fmt len ts s).1.j=s.j+ts.length ∧
        (consume env fmt len ts s).1.types=s.types++ts.map Token.type) := by
  induction ts generalizing s with
  | nil => simp [consume]
  | cons t ts ih =>
    obtain ⟨hj',ht,hn⟩ := touchArg_keeps env s t.touch
    rw [consume,token,← ht,← hj']
    generalize touchArg env s t.touch=r at hj hn ⊢
    obtain ⟨s',e⟩ := r
    cases e with
    | some e => exact ⟨fun h => (hn h).elim,fun h => by cases h⟩
    | none =>
      dsimp only at hj ⊢
      split_ifs with hl
      · refine ⟨fun _ => ?_,fun h => by cases h⟩
        rw [length_cons]
        omega
      · have hi := ih {setAt fmt s' t with types := s'.types++[t.type],j := s'.j+1} (by
          change s'.j+1 ≤ len
          omega)
        rw [append_assoc,Nat.add_right_comm] at hi
        exact hi

/-- With the arguments that the directives use, or more, the list of types is that of the
directives, and text has no entry, exactly if no text behind a directive with a star has a
character of a conversion, unless the argument of a `%b` raises. -/
theorem types_match_iff (ps : List Piece) (extra : ℕ) (args : ℕ → V) :
    let types := ps.flatMap Piece.types
    let result := getTypesForFormatStr env (ps.flatMap Piece.chars) (types.length+extra) args
    (result.2 = none ∧ result.1.j = types.length ∧ result.1.types = types++replicate extra .id) ∨
      (∃ e, result.2 = some (.conversion e)) ↔
        Plain ps ∨ ∃ e, result.2 = some (.conversion e) := by
  intro types result
  obtain ⟨hm,hs⟩ := consume_types env (ps.flatMap Piece.chars) (types.length+extra)
    (tokens .text [] (ps.flatMap Piece.chars)) ⟨0,args,[],none,[],[]⟩ (Nat.zero_le _)
  refine or_congr_left' fun hr => ?_
  rw [← entries_iff ps []]
  change _ ↔ entries .text [] (ps.flatMap Piece.chars)=types
  subst result
  rw [getTypesForFormatStr,scan_eq_consume] at hr ⊢
  generalize consume env _ _ (tokens ..) ⟨0,args,[],none,[],[]⟩=r at hm hs hr ⊢
  obtain ⟨s,e⟩ := r
  cases e with
  | some e =>
    cases e with
    | conversion e => exact (hr ⟨e,rfl⟩).elim
    | tooMuchTokens =>
      refine iff_of_false (fun h => by cases h.1) fun he => ?_
      have hl := hm rfl
      have he := congrArg length he
      rw [entries,length_map] at he
      dsimp only at hl
      omega
  | none =>
    obtain ⟨hj,ht⟩ := hs rfl
    dsimp only at hj ht ⊢
    constructor
    · rintro ⟨-,hl,he⟩
      rw [hl,Nat.add_sub_cancel_left,ht] at he
      exact append_cancel_right he
    · intro he
      have hl : s.j=types.length := by rw [hj,← he,entries,length_map,Nat.zero_add]
      refine ⟨rfl,hl,?_⟩
      rw [hl,Nat.add_sub_cancel_left,ht,← he]
      rfl

/-- The letters behind `%*d` take arguments. -/
theorem text_behind_star : (getTypesForFormatStr
      (⟨(),fun _ => false,fun _ => .ok (),fun _ => .ok (),fun _ _ => ()⟩ : Env Unit Empty)
      "%*d of".toList 4 fun _ => ()).1.types = [.int,.int,.int,.dbl] := by
  decide

end MacRuby.FormatTypes
