import MacRuby.ArrayFlatten
import MacRuby.FuelledRecursion

/-!
# Arrays that contain themselves

`rb_exec_recursive` should tell a function that it has come back to an object that it is
already working on. It does not: it always calls the function with `recur` false. So
inspect and join follow every array that they meet, and `<=>` and `eql?` every pair of
arrays, and they come to an end only if there is no way to go on forever. The answers of
the other objects are parameters.
-/
namespace MacRuby.RecursiveArrays
open ArrayFlatten FuelledRecursion List Option

inductive Cmp where
  | value (c : ℤ)
  | nil
  | raises

structure Answers (α : Type) where
  inspect : α → String
  asString : α → String
  cmp : α → Elt α → Cmp
  eql : α → Elt α → Bool

def rbExecRecursive {X β γ : Type} (func : X → β → Bool → γ) (obj : X) (arg : β) : γ :=
  func obj arg false

section Model
variable {α : Type} (A : Answers α) (h : Heap α)

def eltText (leaf : α → String) (array : ℕ → Option String) : Elt α → Option String
  | .leaf v => some (leaf v)
  | .array id => array id

def appendTexts (text : Elt α → Option String) (sep : String) :
    List (Elt α) → ℕ → String → Option String
  | [],_,str => some str
  | e::es,i,str => do
    let s ← text e
    appendTexts text sep es (i+1) ((if 0 < i then str ++ sep else str) ++ s)

def inspectAry (inspect : ℕ → Option String) (ary : ℕ) (_ : Unit) (recur : Bool) : Option String :=
  if recur then some "[...]"
  else (appendTexts (eltText A.inspect inspect) ", " (h.get ary) 0 "[").map (· ++ "]")

def rbAryInspect (inspect : ℕ → Option String) (ary : ℕ) : Option String :=
  if (h.get ary).isEmpty then some "[]" else rbExecRecursive (inspectAry A h inspect) ary ()

def recursiveJoin (join : ℕ → Option String) (_ : ℕ) (arg : ℕ) (recur : Bool) : Option String :=
  if recur then some "[...]" else join arg

def rbAryJoin (sep : String) (join : ℕ → Option String) (ary : ℕ) : Option String :=
  if (h.get ary).isEmpty then some ""
  else appendTexts (eltText A.asString fun id => rbExecRecursive (recursiveJoin join) ary id) sep
    (h.get ary) 0 ""

/-- Two elements: one that is not an array answers for itself, and an array is not
compared with anything else. -/
def eltCompare {γ : Type} (leaf : α → Elt α → γ) (other : γ) (arrays : ℕ × ℕ → Option γ) :
    Elt α → Elt α → Option γ
  | .leaf v,e => some (leaf v e)
  | .array _,.leaf _ => some other
  | .array a,.array b => arrays (a,b)

/-- The loop over two arrays, up to the first elements that are not equal. -/
def firstDifference {γ : Type} (compare : Elt α → Elt α → Option γ) (equal : γ → Bool) :
    List (Elt α) → List (Elt α) → Option (Option γ)
  | a::as,b::bs => do
    let v ← compare a b
    if equal v then firstDifference compare equal as bs else some (some v)
  | _,_ => some none

def Cmp.isZero : Cmp → Bool
  | .value 0 => true
  | _ => false

def rbObjsCmp (cmp : ℕ × ℕ → Option Cmp) : Elt α → Elt α → Option Cmp :=
  eltCompare A.cmp .raises cmp

/-- `Qundef` is `some none`. -/
def recursiveCmp (cmp : ℕ × ℕ → Option Cmp) (ary1 ary2 : ℕ) (recur : Bool) : Option (Option Cmp) :=
  if recur then some (some .nil)
  else firstDifference (rbObjsCmp A cmp) Cmp.isZero (h.get ary1) (h.get ary2)

def rbAryCmp (cmp : ℕ × ℕ → Option Cmp) (p : ℕ × ℕ) : Option Cmp :=
  if p.1=p.2 then some (.value 0)
  else (rbExecRecursive (recursiveCmp A h cmp) p.1 p.2).map fun
    | some v => v
    | none =>
      let len := ((h.get p.1).length : ℤ)-(h.get p.2).length
      .value (if len=0 then 0 else if 0 < len then 1 else -1)

def rbEql (eql : ℕ × ℕ → Option Bool) : Elt α → Elt α → Option Bool := eltCompare A.eql false eql

def recursiveEql (eql : ℕ × ℕ → Option Bool) (ary1 ary2 : ℕ) (recur : Bool) : Option Bool :=
  if recur then some false
  else (firstDifference (rbEql A eql) id (h.get ary1) (h.get ary2)).map Option.isNone

def rbAryEql (eql : ℕ × ℕ → Option Bool) (p : ℕ × ℕ) : Option Bool :=
  if p.1=p.2 then some true
  else if (h.get p.1).length ≠ (h.get p.2).length then some false
  else rbExecRecursive (recursiveEql A h eql) p.1 p.2

def ids (es : List (Elt α)) : List ℕ := es.filterMap fun
  | .leaf _ => none
  | .array id => some id

def Grounded (ary : ℕ) : Prop := Acc (fun b a => b ∈ ids (h.get a)) ary

variable {A h} {leaf : α → String} {sep : String} {ary : ℕ}
variable {f : ℕ → Option String} {es : List (Elt α)} {i : ℕ}

lemma answers_appendTexts {str : String} :
    (∃ s, appendTexts (eltText leaf f) sep es i str=some s) ↔ ∀ id ∈ ids es, ∃ s, f id=some s := by
  induction es generalizing i str with
  | nil => simp [appendTexts,ids]
  | cons e es ih =>
    cases e with
    | leaf v => simp [appendTexts,eltText,ih,ids]
    | array id =>
      cases hf : f id with
      | none => simp [appendTexts,eltText,ids,hf]
      | some s => simp [appendTexts,eltText,ih,ids,hf]

lemma extends_appendTexts {g : ℕ → Option String} (hf : Extends f g)
    {str s : String} (hs : appendTexts (eltText leaf f) sep es i str=some s) :
    appendTexts (eltText leaf g) sep es i str=some s := by
  induction es generalizing i str with
  | nil => exact hs
  | cons e es ih =>
    simp only [appendTexts,bind_eq_bind,bind_eq_some_iff] at hs ⊢
    obtain ⟨t,ht,hs⟩ := hs
    refine ⟨t,?_,ih hs⟩
    cases e with
    | leaf v => exact ht
    | array id => exact hf id t ht

lemma answers_inspect :
    (∃ s, rbAryInspect A h f ary=some s) ↔ ∀ id ∈ ids (h.get ary), ∃ s, f id=some s := by
  unfold rbAryInspect
  split_ifs with he
  · simp [isEmpty_iff.mp he,ids]
  · have ht : (∃ s, appendTexts (eltText A.inspect f) ", " (h.get ary) 0 "[" = some s) ↔ _ :=
      answers_appendTexts
    rw [← ht]
    simp [rbExecRecursive,inspectAry]

lemma answers_join :
    (∃ s, rbAryJoin A h sep f ary=some s) ↔ ∀ id ∈ ids (h.get ary), ∃ s, f id=some s := by
  unfold rbAryJoin
  split_ifs with he
  · simp [isEmpty_iff.mp he,ids]
  · exact answers_appendTexts

lemma monotone_inspect : Monotone (rbAryInspect A h) := by
  intro f g hf ary s hs
  unfold rbAryInspect at hs ⊢
  split_ifs at hs ⊢ with he
  · exact hs
  · obtain ⟨t,ht,rfl⟩ := map_eq_some_iff.mp hs
    exact map_eq_some_iff.mpr ⟨t,extends_appendTexts hf ht,rfl⟩

lemma monotone_join : Monotone (rbAryJoin A h sep) := by
  intro f g hf ary s hs
  unfold rbAryJoin at hs ⊢
  split_ifs at hs ⊢ with he
  · exact hs
  · exact extends_appendTexts hf hs

end Model

variable {α γ : Type} {A : Answers α} {h : Heap α} {leaf : α → Elt α → γ} {other : γ}
variable {equal : γ → Bool} {as bs : List (Elt α)}

lemma mem_ids_cons {e : Elt α} {x : ℕ} (hx : x ∈ ids as) : x ∈ ids (e::as) := by
  cases e with
  | leaf v => exact hx
  | array id => exact mem_cons_of_mem id hx

lemma answers_firstDifference {f : ℕ × ℕ → Option γ}
    (hf : ∀ a ∈ ids as, ∀ b ∈ ids bs, ∃ c, f (a,b)=some c) :
    ∃ r, firstDifference (eltCompare leaf other f) equal as bs=some r := by
  induction as generalizing bs with
  | nil => exact ⟨none,rfl⟩
  | cons a as ih =>
    cases bs with
    | nil => exact ⟨none,rfl⟩
    | cons b bs =>
      have hh : ∃ v, eltCompare leaf other f a b=some v := by
        cases a with
        | leaf v => exact ⟨_,rfl⟩
        | array i =>
          cases b with
          | leaf v => exact ⟨_,rfl⟩
          | array j => exact hf i mem_cons_self j mem_cons_self
      obtain ⟨v,hv⟩ := hh
      simp only [firstDifference,hv,bind_eq_bind,bind_some]
      split_ifs
      · exact ih fun i hi j hj => hf i (mem_ids_cons hi) j (mem_ids_cons hj)
      · exact ⟨_,rfl⟩

lemma extends_firstDifference {f g : ℕ × ℕ → Option γ} (hf : Extends f g) {r : Option γ}
    (hr : firstDifference (eltCompare leaf other f) equal as bs=some r) :
    firstDifference (eltCompare leaf other g) equal as bs=some r := by
  induction as generalizing bs with
  | nil => exact hr
  | cons a as ih =>
    cases bs with
    | nil => exact hr
    | cons b bs =>
      simp only [firstDifference,bind_eq_bind,bind_eq_some_iff] at hr ⊢
      obtain ⟨v,hv,hr⟩ := hr
      refine ⟨v,?_,?_⟩
      · cases a with
        | leaf x => exact hv
        | array i =>
          cases b with
          | leaf y => exact hv
          | array j => exact hf (i,j) v hv
      · split_ifs at hr ⊢
        · exact ih hr
        · exact hr

def pairs (h : Heap α) (p : ℕ × ℕ) : List (ℕ × ℕ) := (ids (h.get p.1)).product (ids (h.get p.2))

lemma needs_cmp : Needs (rbAryCmp A h) (pairs h) := by
  intro f p hf
  unfold rbAryCmp
  split_ifs
  · exact ⟨_,rfl⟩
  · obtain ⟨r,hr⟩ : ∃ r, firstDifference (eltCompare A.cmp .raises f) Cmp.isZero (h.get p.1)
        (h.get p.2)=some r :=
      answers_firstDifference fun a ha b hb => hf (a,b) (pair_mem_product.mpr ⟨ha,hb⟩)
    exact ⟨_,map_eq_some_iff.mpr ⟨r,hr,rfl⟩⟩

lemma needs_eql : Needs (rbAryEql A h) (pairs h) := by
  intro f p hf
  unfold rbAryEql
  split_ifs
  · exact ⟨_,rfl⟩
  · exact ⟨_,rfl⟩
  · obtain ⟨r,hr⟩ : ∃ r, firstDifference (eltCompare A.eql false f) id (h.get p.1) (h.get p.2) =
        some r :=
      answers_firstDifference fun a ha b hb => hf (a,b) (pair_mem_product.mpr ⟨ha,hb⟩)
    exact ⟨_,map_eq_some_iff.mpr ⟨r,hr,rfl⟩⟩

lemma monotone_cmp : Monotone (rbAryCmp A h) := by
  intro f g hf p c hc
  unfold rbAryCmp at hc ⊢
  split_ifs at hc ⊢
  · exact hc
  · obtain ⟨r,hr,rfl⟩ := map_eq_some_iff.mp hc
    exact map_eq_some_iff.mpr ⟨r,extends_firstDifference hf hr,rfl⟩

lemma monotone_eql : Monotone (rbAryEql A h) := by
  intro f g hf p c hc
  unfold rbAryEql at hc ⊢
  split_ifs at hc ⊢
  · exact hc
  · exact hc
  · obtain ⟨r,hr,rfl⟩ := map_eq_some_iff.mp hc
    exact map_eq_some_iff.mpr ⟨r,extends_firstDifference hf hr,rfl⟩

lemma acc_pairs {a b : ℕ} (hg : Grounded h a ∨ Grounded h b) :
    Acc (fun q p => q ∈ pairs h p) (a,b) := by
  have hm {p q : ℕ × ℕ} (hq : q ∈ pairs h p) : q.1 ∈ ids (h.get p.1) ∧ q.2 ∈ ids (h.get p.2) :=
    pair_mem_product.mp hq
  rcases hg with hg | hg
  · exact Subrelation.accessible (fun hq => (hm hq).1) (InvImage.accessible (a := (a,b)) Prod.fst hg)
  · exact Subrelation.accessible (fun hq => (hm hq).2) (InvImage.accessible (a := (a,b)) Prod.snd hg)

variable (A h) (sep : String)

def loops : Heap ℕ where
  arrays := [[.array 0],[.array 1]]
  closed := by simp

def zeros : Answers ℕ where
  inspect _ := "0"
  asString _ := "0"
  cmp _ _ := .value 0
  eql _ _ := true

end MacRuby.RecursiveArrays
