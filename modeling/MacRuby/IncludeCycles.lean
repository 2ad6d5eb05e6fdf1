import MacRuby.AncestorCache

/-!
# Modules that include each other

The lists of included modules and of ancestors are computed by going from a class
to the modules it includes, from each of them to those that it includes, and so
on. Nothing in `rb_include_module2` keeps a module from being included in one that
it includes itself, and then there is no end. The walk ends from every class as
long as an included module does not lead back to the class that includes it.

A walk is accessible when it ends. The first section is about relations in
general: what new edges out of one point do to accessibility.
-/
namespace MacRuby.IncludeCycles
open Runs AncestorCache Function List
open MethodTables.Core (joinPaths)
open Relation (ReflTransGen TransGen)

variable {α : Type*} {r : α → α → Prop} {k : α} {new : α → Prop} {x : α}

/-- `r b a` is an edge from `a` to `b`. There are new edges from `k`. -/
def WithEdges (r : α → α → Prop) (k : α) (new : α → Prop) (b a : α) : Prop := r b a ∨ a=k ∧ new b

lemma acc_withEdges_of_unreachable (h : Acc r x) (hk : ¬ReflTransGen (flip r) x k) :
    Acc (WithEdges r k new) x := by
  induction h with
  | intro x _ ih =>
    refine Acc.intro x ?_
    rintro y (hy | ⟨rfl,-⟩)
    · exact ih y hy fun hr => hk (.head hy hr)
    · exact (hk .refl).elim

lemma not_cycle (h : Acc r x) : ¬TransGen (flip r) x x := by
  induction h with
  | intro x _ ih =>
    intro hc
    obtain ⟨y,hy,hb⟩ := TransGen.head'_iff.mp hc
    exact ih y hy (.tail' hb hy)

lemma acc_withEdges_iff (h : ∀ x, Acc r x) :
    (∀ x, Acc (WithEdges r k new) x) ↔ ∀ b, new b → ¬ReflTransGen (flip r) b k := by
  constructor
  · intro ha b hb hba
    have hl : ReflTransGen (flip (WithEdges r k new)) b k :=
      ReflTransGen.mono (fun _ _ he => .inl he) b k hba
    exact not_cycle (ha k) (.head' (.inr ⟨rfl,hb⟩) hl)
  · intro hs x
    have hx := h x
    induction hx with
    | intro x _ ih =>
      refine Acc.intro x ?_
      rintro y (hy | ⟨-,hy⟩)
      · exact ih y hy
      · exact acc_withEdges_of_unreachable (h y) (hs y hy)

variable (C : Classes) (inc : ℕ → List ℕ)

/-- `rb_mod_included_modules`, for a stack of the given depth. -/
def rbModIncludedModules (stack mod : ℕ) : Option (List ℕ) :=
  joinPaths (includedModulesNosuper C inc stack) (C.path mod)

def Next (q p : ℕ) : Prop := ∃ imod ∈ inc p, q ∈ C.path imod

variable {C inc}

lemma joinPaths_isSome {f : ℕ → Option (List ℕ)} {xs : List ℕ} :
    (joinPaths f xs).isSome=true ↔ ∀ x ∈ xs, (f x).isSome=true := by
  induction xs with
  | nil => simp [joinPaths]
  | cons x xs ih =>
    rw [forall_mem_cons,← ih,joinPaths]
    cases f x <;> cases joinPaths f xs <;> simp

lemma isSome_nosuper_succ (n p : ℕ) : (includedModulesNosuper C inc (n+1) p).isSome=true ↔
    ∀ q, Next C inc q p → (includedModulesNosuper C inc n q).isSome=true := by
  rw [includedModulesNosuper]
  simp only [Option.isSome_map,joinPaths_isSome]
  constructor
  · rintro h q ⟨imod,hi,hq⟩
    exact h imod hi q hq
  · intro h imod hi q hq
    exact h q ⟨imod,hi,hq⟩

lemma nosuper_stack (m n p : ℕ) :
    includedModulesNosuper {C with stack := m} inc n p=includedModulesNosuper C inc n p := by
  induction n generalizing p with
  | zero => rfl
  | succ n ih =>
    have hr : includedModulesNosuper {C with stack := m} inc n=includedModulesNosuper C inc n :=
      funext ih
    rw [includedModulesNosuper,hr]
    rfl

lemma isSome_nosuper_mono {m n : ℕ} (hm : m ≤ n) {p : ℕ}
    (h : (includedModulesNosuper C inc m p).isSome=true) :
    (includedModulesNosuper C inc n p).isSome=true := by
  induction m generalizing n p with
  | zero => cases h
  | succ m ih =>
    obtain ⟨n,rfl⟩ : ∃ n', n=n'+1 := ⟨n-1,by omega⟩
    rw [isSome_nosuper_succ] at h ⊢
    exact fun q hq => ih (by omega) (h q hq)

lemma exists_depth {ps : List ℕ}
    (h : ∀ p ∈ ps, ∃ n, (includedModulesNosuper C inc n p).isSome=true) :
    ∃ n, ∀ p ∈ ps, (includedModulesNosuper C inc n p).isSome=true := by
  induction ps with
  | nil => exact ⟨0,nofun⟩
  | cons p ps ih =>
    rw [forall_mem_cons] at h
    obtain ⟨m,hm⟩ := h.1
    obtain ⟨n,hn⟩ := ih h.2
    refine ⟨max m n,forall_mem_cons.mpr ⟨?_,?_⟩⟩
    · exact isSome_nosuper_mono (le_max_left m n) hm
    · exact fun q hq => isSome_nosuper_mono (le_max_right m n) (hn q hq)

lemma exists_depth_iff_acc (p : ℕ) :
    (∃ n, (includedModulesNosuper C inc n p).isSome=true) ↔ Acc (Next C inc) p := by
  constructor
  · rintro ⟨n,hn⟩
    induction n generalizing p with
    | zero => cases hn
    | succ n ih =>
      rw [isSome_nosuper_succ] at hn
      exact Acc.intro p fun q hq => ih q (hn q hq)
  · intro h
    induction h with
    | intro p _ ih =>
      have ha : ∀ q ∈ (inc p).flatMap C.path,
          ∃ n, (includedModulesNosuper C inc n q).isSome=true := by
        intro q hq
        obtain ⟨imod,hi,hq⟩ := mem_flatMap.mp hq
        exact ih q ⟨imod,hi,hq⟩
      obtain ⟨n,hn⟩ := exists_depth ha
      refine ⟨n+1,(isSome_nosuper_succ n p).mpr ?_⟩
      rintro q ⟨imod,hi,hq⟩
      exact hn q (mem_flatMap.mpr ⟨imod,hi,hq⟩)

variable (C)

def rbIncludeModule2 (s : State) (klass mod : ℕ) (check : Bool) : State :=
  if (check=true ∧ C.isModule mod=false) ∨ mod ∈ s.includedModules klass then s
  else
    { includedModules := update s.includedModules klass (mod::s.includedModules klass)
      ancestors := update s.ancestors klass none }

inductive Op
  | includeModule (klass mod : ℕ) (check : Bool)
  | query (mod stack : ℕ)
deriving DecidableEq

/-- Ancestors that are asked for are cached, unless the stack overflows. -/
def step (s : State) : Op → State
  | .includeModule klass mod check => rbIncludeModule2 C s klass mod check
  | .query mod stack => match s.rbModAncestorsNocopy {C with stack := stack} mod with
      | some (_,s') => s'
      | none => s

def start : State := ⟨fun _ => [],fun _ => none⟩

/-- With enough stack both lists are computed, for every class and module. -/
structure Terminates (s : State) : Prop where
  includedModules : ∀ mod, ∃ stack, (rbModIncludedModules C s.includedModules stack mod).isSome=true
  ancestors : ∀ mod, ∃ stack, (s.rbModAncestorsNocopy {C with stack := stack} mod).isSome=true

/-- A module that is included does not lead to the class that includes it. -/
def Safe (s : State) : Op → Prop
  | .includeModule klass mod check => (check=true → C.isModule mod=true) →
      mod ∉ s.includedModules klass →
      ∀ q ∈ C.path mod, ¬ReflTransGen (flip (Next C s.includedModules)) q klass
  | .query _ _ => True

variable {C} {s : State}

lemma terminates_iff_acc : Terminates C s ↔ ∀ p, Acc (Next C s.includedModules) p := by
  constructor
  · intro h p
    obtain ⟨stack,hs⟩ := h.includedModules p
    rw [rbModIncludedModules,joinPaths_isSome] at hs
    have hse : p ∈ C.path p := by
      unfold Classes.path
      rw [ClassTree.chain_eq,cut]
      split_ifs <;> exact mem_cons_self
    exact (exists_depth_iff_acc p).mp ⟨stack,hs p hse⟩
  · intro h
    have hd : ∀ mod, ∃ n, ∀ p ∈ C.path mod,
        (includedModulesNosuper C s.includedModules n p).isSome=true :=
      fun mod => exists_depth fun p _ => (exists_depth_iff_acc p).mpr (h p)
    constructor
    · intro mod
      obtain ⟨n,hn⟩ := hd mod
      exact ⟨n,joinPaths_isSome.mpr hn⟩
    · intro mod
      obtain ⟨n,hn⟩ := hd mod
      refine ⟨n,?_⟩
      unfold State.rbModAncestorsNocopy
      cases s.ancestors mod with
      | some l => rfl
      | none =>
        rw [Option.isSome_map,recomputed,joinPaths_isSome]
        intro p hp
        rw [Option.isSome_map,nosuper_stack]
        exact hn p hp

lemma next_update (inc : ℕ → List ℕ) (klass mod : ℕ) :
    Next C (update inc klass (mod::inc klass)) = WithEdges (Next C inc) klass (· ∈ C.path mod) := by
  funext q p
  rw [eq_iff_iff]
  unfold Next WithEdges
  by_cases hp : p=klass
  · subst hp
    rw [update_self]
    constructor
    · rintro ⟨imod,hi,hq⟩
      cases mem_cons.mp hi with
      | inl he => exact .inr ⟨rfl,he ▸ hq⟩
      | inr hm => exact .inl ⟨imod,hm,hq⟩
    · rintro (⟨imod,hi,hq⟩ | ⟨-,hq⟩)
      · exact ⟨imod,mem_cons_of_mem mod hi,hq⟩
      · exact ⟨mod,mem_cons_self,hq⟩
  · rw [update_of_ne hp]
    simp only [hp,false_and,or_false]

lemma terminates_include (h : Terminates C s) (klass mod : ℕ) (check : Bool) :
    Terminates C (rbIncludeModule2 C s klass mod check) ↔
      Safe C s (.includeModule klass mod check) := by
  unfold rbIncludeModule2
  split_ifs with hs
  · refine ⟨fun _ hmo hf => ?_,fun _ => h⟩
    rcases hs with ⟨hc,hn⟩ | hm
    · rw [hmo hc] at hn
      cases hn
    · exact (hf hm).elim
  · rw [not_or] at hs
    rw [terminates_iff_acc] at h ⊢
    rw [next_update,acc_withEdges_iff h]
    constructor
    · intro hb _ _
      exact hb
    · intro hsa
      refine hsa ?_ hs.2
      intro hc
      exact Bool.eq_true_of_not_eq_false fun hn => hs.1 ⟨hc,hn⟩

lemma includedModules_query (s : State) (mod stack : ℕ) :
    (step C s (.query mod stack)).includedModules=s.includedModules := by
  unfold step State.rbModAncestorsNocopy
  dsimp only
  cases s.ancestors mod with
  | some l => rfl
  | none => cases recomputed {C with stack := stack} s.includedModules mod <;> rfl

lemma terminates_step (s : State) (op : Op) (h : Terminates C s) :
    Terminates C (step C s op) ↔ Safe C s op := by
  cases op with
  | includeModule klass mod check => exact terminates_include h klass mod check
  | query mod stack =>
    refine iff_of_true ?_ trivial
    rw [terminates_iff_acc] at h ⊢
    rw [includedModules_query]
    exact h

lemma terminates_start (C : Classes) : Terminates C start := by
  rw [terminates_iff_acc]
  intro p
  refine Acc.intro p ?_
  rintro q ⟨imod,hi,-⟩
  cases hi

/-- The lists are computed in all states of a run exactly when no inclusion leads back. -/
theorem terminates_iff_safe (C : Classes) (ops : List Op) :
    (∀ l, l <+: ops → Terminates C (run (step C) start l)) ↔ Along (step C) (Safe C) start ops :=
  invariant_iff_along (J := fun _ => True) (fun _ _ _ _ => trivial)
    (fun s op _ => terminates_step s op) trivial (terminates_start C) ops

def twoModules : Classes := ⟨.discrete,fun _ => true,0⟩

def circle : List Op := [.includeModule 0 1 true,.includeModule 1 0 true]

/-- No depth of the stack is enough for a module that includes itself through another. -/
theorem circle_does_not_terminate :
    (∀ stack, rbModIncludedModules twoModules (run (step twoModules) start circle).includedModules
      stack 0 = none) ∧ ¬Terminates twoModules (run (step twoModules) start circle) := by
  have hz : (run (step twoModules) start circle).includedModules 0=[1] := by decide
  have ho : (run (step twoModules) start circle).includedModules 1=[0] := by decide
  have hw : ∀ stack, includedModulesNosuper twoModules
        (run (step twoModules) start circle).includedModules stack 0=none ∧
      includedModulesNosuper twoModules
        (run (step twoModules) start circle).includedModules stack 1=none := by
    intro stack
    induction stack with
    | zero => exact ⟨rfl,rfl⟩
    | succ stack ih =>
      have hp : ∀ k, twoModules.path k=[k] := fun k => path_of_module rfl
      simp only [includedModulesNosuper,hz,ho,joinPaths_singleton,hp,ih.1,ih.2,
        Option.map_none,and_self]
  have hn : ∀ stack, rbModIncludedModules twoModules
      (run (step twoModules) start circle).includedModules stack 0=none := by
    intro stack
    rw [rbModIncludedModules,joinPaths_path rfl]
    exact (hw stack).1
  refine ⟨hn,?_⟩
  intro h
  obtain ⟨stack,hs⟩ := h.includedModules 0
  rw [hn] at hs
  cases hs
end MacRuby.IncludeCycles
