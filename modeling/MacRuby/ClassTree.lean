import Mathlib.Data.List.Basic
import Mathlib.Order.Nat

/-!
# Single inheritance

Classes are numbered in the order in which they are created, and a class is
created with a superclass that already exists. So following superclasses goes
to smaller numbers and ends. `chain` lists a class and the classes above it,
the class itself first; `nearest` is the first entry that a table per class
has along that list.
-/
namespace MacRuby
open List

/-- A forest of classes given by the superclass of each class. -/
structure ClassTree where
  superclass : ℕ → Option ℕ
  superclass_lt : ∀ {k s}, superclass k=some s → s < k

namespace ClassTree

def pair : ClassTree where
  superclass k := if k=1 then some 0 else none
  superclass_lt := by
    intro k s h
    split_ifs at h with hk
    cases h
    omega

def discrete : ClassTree := ⟨fun _ => none,nofun⟩

variable (T : ClassTree)

/-- At most `fuel` classes, from `k` upwards. -/
def walk : ℕ → ℕ → List ℕ
  | 0,_ => []
  | fuel+1,k => k::match T.superclass k with
      | none => []
      | some s => walk fuel s

/-- The class `k` and the classes above it, nearest first. -/
def chain (k : ℕ) : List ℕ := T.walk (k+1) k

lemma walk_fuel {m n k : ℕ} (hm : k < m) (hn : k < n) : T.walk m k=T.walk n k := by
  induction k using Nat.strong_induction_on generalizing m n with
  | _ k ih =>
    obtain ⟨m,rfl⟩ : ∃ m', m=m'+1 := ⟨m-1,by omega⟩
    obtain ⟨n,rfl⟩ : ∃ n', n=n'+1 := ⟨n-1,by omega⟩
    simp only [walk]
    cases hs : T.superclass k with
    | none => rfl
    | some s =>
      have hl := T.superclass_lt hs
      exact congrArg (k::·) (ih s hl (by omega) (by omega))

lemma chain_eq (k : ℕ) : T.chain k=k::match T.superclass k with
      | none => []
      | some s => T.chain s := by
  unfold chain
  rw [walk]
  cases hs : T.superclass k with
  | none => rfl
  | some s => simp only [T.walk_fuel (T.superclass_lt hs) (Nat.lt_succ_self s)]

lemma chain_root {k : ℕ} (h : T.superclass k=none) : T.chain k=[k] := by
  rw [chain_eq,h]

lemma chain_step {k s : ℕ} (h : T.superclass k=some s) : T.chain k=k::T.chain s := by
  rw [chain_eq,h]

lemma chain_congr {T T' : ClassTree} {n k : ℕ}
    (h : ∀ j < n, T.superclass j=T'.superclass j) (hk : k < n) : T.chain k=T'.chain k := by
  induction k using Nat.strong_induction_on with
  | _ k ih =>
    rw [T.chain_eq,T'.chain_eq,← h k hk]
    cases hs : T.superclass k with
    | none => rfl
    | some s =>
      have hl := T.superclass_lt hs
      exact congrArg (k::·) (ih s hl (hl.trans hk))

@[simp] lemma self_mem_chain (k : ℕ) : k ∈ T.chain k := by
  exact mem_cons_self

lemma chain_induction {P : ℕ → Prop} (root : ∀ k, T.superclass k=none → P k)
    (step : ∀ k s, T.superclass k=some s → P s → P k) (k : ℕ) : P k := by
  induction k using Nat.strong_induction_on with
  | _ k ih =>
    cases hs : T.superclass k with
    | none => exact root k hs
    | some s => exact step k s hs (ih s (T.superclass_lt hs))

lemma le_of_mem_chain {c k : ℕ} (h : c ∈ T.chain k) : c ≤ k := by
  induction k using T.chain_induction with
  | root k hs => simp only [T.chain_root hs,mem_singleton] at h; omega
  | step k s hs ih =>
    rw [T.chain_step hs] at h
    rcases mem_cons.mp h with rfl | h
    · exact le_rfl
    · exact (ih h).trans (T.superclass_lt hs).le

lemma chain_split {c k : ℕ} (h : c ∈ T.chain k) :
    ∃ below, T.chain k=below++T.chain c ∧ ∀ d ∈ below, c < d := by
  induction k using T.chain_induction with
  | root k hs =>
    simp only [T.chain_root hs,mem_singleton] at h
    subst h
    exact ⟨[],by simp,by simp⟩
  | step k s hs ih =>
    by_cases hck : c=k
    · subst hck
      exact ⟨[],by simp,by simp⟩
    · rw [T.chain_step hs] at h ⊢
      have hc : c ∈ T.chain s := (mem_cons.mp h).resolve_left hck
      obtain ⟨below,hb,hl⟩ := ih hc
      refine ⟨k::below,by rw [hb]; rfl,?_⟩
      intro d hd
      rcases mem_cons.mp hd with rfl | hd
      · exact (T.le_of_mem_chain hc).trans_lt (T.superclass_lt hs)
      · exact hl d hd

lemma chain_trans {a b c : ℕ} (ha : a ∈ T.chain b) (hbc : b ∈ T.chain c) : a ∈ T.chain c := by
  obtain ⟨below,hb,_⟩ := T.chain_split hbc
  rw [hb]
  exact mem_append_right _ ha

lemma chain_antisymm {a b : ℕ} (ha : a ∈ T.chain b) (hb : b ∈ T.chain a) : a=b :=
  le_antisymm (T.le_of_mem_chain ha) (T.le_of_mem_chain hb)

lemma chain_total {a b c : ℕ} (ha : a ∈ T.chain c) (hb : b ∈ T.chain c) :
    a ∈ T.chain b ∨ b ∈ T.chain a := by
  induction c using T.chain_induction with
  | root c hs =>
    simp only [T.chain_root hs,mem_singleton] at ha hb
    rw [ha,hb]
    exact .inl (T.self_mem_chain c)
  | step c s hs ih =>
    have ha' := ha
    have hb' := hb
    rw [T.chain_step hs,mem_cons] at ha' hb'
    rcases ha' with rfl | ha'
    · exact .inr hb
    rcases hb' with rfl | hb'
    · exact .inl ha
    exact ih ha' hb'

lemma chain_nodup (k : ℕ) : (T.chain k).Nodup := by
  induction k using T.chain_induction with
  | root k hs => simp [T.chain_root hs]
  | step k s hs ih =>
    rw [T.chain_step hs]
    refine nodup_cons.mpr ⟨?_,ih⟩
    intro hk
    have hl := T.le_of_mem_chain hk
    have hlt := T.superclass_lt hs
    omega

/-- Proper subclasses of `c`. -/
def ProperlyBelow (c k : ℕ) : Prop := c ∈ T.chain k ∧ k ≠ c

section Nearest
variable {α : Type*}
variable (entry : ℕ → Option α) {k : ℕ} {a : α}

/-- The first class of the chain that has an entry, with that entry. -/
def nearest (entry : ℕ → Option α) (k : ℕ) : Option (ℕ × α) :=
  (T.chain k).findSome? fun c => (entry c).map (c,·)

lemma nearest_root (h : T.superclass k=none) : T.nearest entry k=(entry k).map (k,·) := by
  unfold nearest
  rw [T.chain_root h,findSome?_singleton]

lemma nearest_own (h : entry k=some a) : T.nearest entry k=some (k,a) := by
  unfold nearest
  rw [chain_eq,findSome?_cons,h]
  rfl

lemma nearest_step {s : ℕ} (hk : entry k=none)
    (hs : T.superclass k=some s) : T.nearest entry k=T.nearest entry s := by
  unfold nearest
  rw [T.chain_step hs,findSome?_cons,hk]
  rfl

lemma nearest_congr {entry entry' : ℕ → Option α}
    (h : ∀ c ∈ T.chain k, entry c=entry' c) : T.nearest entry k=T.nearest entry' k := by
  induction k using T.chain_induction with
  | root k hs => rw [T.nearest_root _ hs,T.nearest_root _ hs,h k (T.self_mem_chain k)]
  | step k s hs ih =>
    have hk := h k (T.self_mem_chain k)
    have hsu : ∀ c ∈ T.chain s, entry c=entry' c := by
      intro c hc
      apply h c
      rw [T.chain_step hs]
      exact mem_cons_of_mem k hc
    cases ho : entry k with
    | none => rw [T.nearest_step _ ho hs,T.nearest_step _ (hk ▸ ho) hs,ih hsu]
    | some a => rw [T.nearest_own _ ho,T.nearest_own _ (hk ▸ ho)]

lemma nearest_eq_none {entry : ℕ → Option α} :
    T.nearest entry k=none ↔ ∀ c ∈ T.chain k, entry c=none := by
  simp [nearest]

/-- What is found belongs to a class of the chain, and no class below that one
has an entry. -/
lemma nearest_eq_some {entry : ℕ → Option α} {c : ℕ} : T.nearest entry k=some (c,a) ↔
      c ∈ T.chain k ∧ entry c=some a ∧ ∀ d ∈ T.chain k, c ∈ T.chain d → d ≠ c → entry d=none := by
  constructor
  · intro h
    induction k using T.chain_induction with
    | root k hs =>
      rw [T.nearest_root entry hs] at h
      obtain ⟨b,hb,he⟩ := Option.map_eq_some_iff.mp h
      obtain ⟨rfl,rfl⟩ := Prod.mk.inj he
      refine ⟨T.self_mem_chain k,hb,?_⟩
      intro d hd _ hn
      rw [T.chain_root hs,mem_singleton] at hd
      exact (hn hd).elim
    | step k s hs ih =>
      cases hk : entry k with
      | some b =>
        rw [T.nearest_own entry hk] at h
        obtain ⟨rfl,rfl⟩ := Prod.mk.inj (Option.some.inj h)
        refine ⟨T.self_mem_chain k,hk,?_⟩
        intro d hd hkd hn
        exact (hn (T.chain_antisymm hd hkd)).elim
      | none =>
        rw [T.nearest_step entry hk hs] at h
        obtain ⟨hc,ha,hbe⟩ := ih h
        have hsk : s ∈ T.chain k := by rw [T.chain_step hs]; simp
        refine ⟨T.chain_trans hc hsk,ha,?_⟩
        intro d hd hcd hn
        rw [T.chain_step hs] at hd
        rcases mem_cons.mp hd with rfl | hd
        · exact hk
        · exact hbe d hd hcd hn
  · rintro ⟨hc,ha,hbe⟩
    induction k using T.chain_induction with
    | root k hs =>
      rw [T.chain_root hs,mem_singleton] at hc
      subst hc
      exact T.nearest_own entry ha
    | step k s hs ih =>
      by_cases hck : k=c
      · subst hck
        exact T.nearest_own entry ha
      · have hk : entry k=none := hbe k (T.self_mem_chain k) hc hck
        rw [T.nearest_step entry hk hs]
        rw [T.chain_step hs] at hc hbe
        refine ih ((mem_cons.mp hc).resolve_left (Ne.symm hck)) ?_
        intro d hd
        exact hbe d (mem_cons_of_mem k hd)

/-- The search from `k` gets as far as `c`. -/
def Tried (entry : ℕ → Option α) (k c : ℕ) : Prop :=
  c ∈ T.chain k ∧ ∀ d ∈ T.chain k, c ∈ T.chain d → d ≠ c → entry d=none

lemma nearest_congr_of_tried {entry entry' : ℕ → Option α}
    (h : ∀ c, T.Tried entry k c → entry' c=entry c) : T.nearest entry' k=T.nearest entry k := by
  cases hnea : T.nearest entry k with
  | none =>
    have hn := T.nearest_eq_none.mp hnea
    rw [nearest_eq_none]
    intro c hc
    rw [h c ⟨hc,fun d hd _ _ => hn d hd⟩]
    exact hn c hc
  | some found =>
    obtain ⟨c,a⟩ := found
    obtain ⟨hc,ha,hbe⟩ := T.nearest_eq_some.mp hnea
    rw [nearest_eq_some]
    refine ⟨hc,(h c ⟨hc,hbe⟩).trans ha,?_⟩
    intro d hd hcd hne
    have hn := hbe d hd hcd hne
    rw [← hn]
    apply h d ⟨hd,?_⟩
    intro b hb hdb hne'
    apply hbe b hb (T.chain_trans hcd hdb)
    rintro rfl
    exact hne (T.chain_antisymm hdb hcd)

end Nearest
end ClassTree
end MacRuby
