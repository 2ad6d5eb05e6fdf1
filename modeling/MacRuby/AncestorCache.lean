import MacRuby.MethodTables
import MacRuby.Runs

/-!
# The cached list of ancestors

A class or module keeps its list of ancestors once it was asked for. The list goes
through the superclasses and, for each of them, through the included modules and
theirs. Including a module drops the list of the class that it is included in, and
of no other class.

Nothing prevents modules from including each other in a circle; the recursion
then exceeds the stack and there is no list.
-/
namespace MacRuby.AncestorCache
open List Option
open MethodTables.Core (joinPaths)
open Function
open Runs

structure Classes where
  tree : ClassTree
  isModule : ℕ → Bool
  stack : ℕ

/-- `idIncludedModules` and `idAncestors` of each class and module. -/
structure State where
  includedModules : ℕ → List ℕ
  ancestors : ℕ → Option (List ℕ)

variable (C : Classes)

/-- The rounds of a loop over superclasses, which ends at a module. -/
def cut (isModule : ℕ → Bool) : List ℕ → List ℕ
  | [] => []
  | p::ps => if isModule p then [p] else p::cut isModule ps

def Classes.path (k : ℕ) : List ℕ := cut C.isModule (C.tree.chain k)

variable (inc : ℕ → List ℕ)

/-- `rb_mod_included_modules_nosuper`, for a stack of the given depth. -/
def includedModulesNosuper : ℕ → ℕ → Option (List ℕ)
  | 0,_ => none
  | n+1,mod => joinPaths
      (fun imod => (joinPaths (includedModulesNosuper n) (C.path imod)).map (imod::·)) (inc mod)

def recomputed (mod : ℕ) : Option (List ℕ) :=
  joinPaths (fun p => (includedModulesNosuper C inc C.stack p).map (p::·)) (C.path mod)

/-- `rb_mod_ancestors_nocopy`; without a result when the stack overflows. -/
def State.rbModAncestorsNocopy (s : State) (mod : ℕ) : Option (List ℕ × State) :=
  match s.ancestors mod with
  | some l => some (l,s)
  | none => (recomputed C s.includedModules mod).map fun l =>
    (l,{s with ancestors := update s.ancestors mod (some l)})

/-- `rb_include_module`; what is no module is refused. -/
def State.rbIncludeModule (s : State) (klass mod : ℕ) : State :=
  if ¬C.isModule mod ∨ mod ∈ s.includedModules klass then s
  else
    { includedModules := update s.includedModules klass (mod::s.includedModules klass)
      ancestors := update s.ancestors klass none }

inductive Op
  | includeModule (klass mod : ℕ)
  | query (mod : ℕ)
deriving DecidableEq

def step (s : Option State) : Op → Option State
  | .includeModule klass mod => s.map (·.rbIncludeModule C klass mod)
  | .query mod => s.bind fun s => (s.rbModAncestorsNocopy C mod).map Prod.snd

def start : Option State := some ⟨fun _ => [],fun _ => none⟩

/-- For every class and module the list that is returned is the one computed from scratch. -/
def Current (s : Option State) : Prop := ∀ t, s=some t → ∀ mod,
  (t.rbModAncestorsNocopy C mod).map Prod.fst=recomputed C t.includedModules mod

/-- No other class or module has a cached list in which the class occurs. -/
def Safe (s : Option State) : Op → Prop
  | .includeModule klass mod => ∀ t, s=some t → C.isModule mod=true →
      mod ∉ t.includedModules klass → ∀ k ≠ klass, ∀ l, t.ancestors k=some l → klass ∉ l
  | .query _ => True

variable {k : ℕ}

variable {f g : ℕ → Option (List ℕ)} {xs : List ℕ} {l : List ℕ}

lemma joinPaths_cons {x : ℕ} : joinPaths f (x::xs)=some l ↔
    ∃ a b, f x=some a ∧ joinPaths f xs=some b ∧ l=a++b := by
  simp only [joinPaths]
  cases f x with
  | none => simp
  | some a =>
    cases joinPaths f xs with
    | none => simp
    | some b => simp [eq_comm]

lemma joinPaths_singleton (x : ℕ) : joinPaths f [x]=f x := by
  simp only [joinPaths]
  cases f x with
  | none => rfl
  | some a => exact congrArg some (append_nil a)

lemma joinPaths_of_notMem (h : joinPaths f xs=some l) (hk : k ∉ l)
    (hf : ∀ x ∈ xs, ∀ a, f x=some a → k ∉ a → g x=some a) : joinPaths g xs=some l := by
  induction xs generalizing l with
  | nil => exact h
  | cons x xs ih =>
    obtain ⟨a,b,ha,hb,rfl⟩ := joinPaths_cons.mp h
    rw [mem_append,not_or] at hk
    refine joinPaths_cons.mpr ⟨a,b,hf x (by simp) a ha hk.1,?_,rfl⟩
    exact ih hb hk.2 fun y hy => hf y (by simp [hy])

lemma joinPaths_longer (h : joinPaths g xs=some l) (hf : ∀ x ∈ xs, ∀ a, g x=some a →
      ∃ b, f x=some b ∧ b.length ≤ a.length ∧ (k ∈ b → b.length < a.length)) :
    ∃ l', joinPaths f xs=some l' ∧ l'.length ≤ l.length ∧ (k ∈ l' → l'.length < l.length) := by
  induction xs generalizing l with
  | nil =>
    cases h
    exact ⟨[],rfl,le_rfl,nofun⟩
  | cons x xs ih =>
    obtain ⟨a,b,ha,hb,rfl⟩ := joinPaths_cons.mp h
    obtain ⟨a',ha',hle,hl⟩ := hf x (by simp) a ha
    obtain ⟨b',hb',hle',hl'⟩ := ih hb fun y hy => hf y (by simp [hy])
    refine ⟨a'++b',joinPaths_cons.mpr ⟨a',b',ha',hb',rfl⟩,?_,?_⟩
    · simp only [length_append]
      omega
    · intro hk
      simp only [length_append]
      cases mem_append.mp hk with
      | inl hk =>
        have := hl hk
        omega
      | inr hk =>
        have := hl' hk
        omega

variable {C inc} {klass mod : ℕ}

lemma path_of_module (h : C.isModule k=true) : C.path k=[k] := by
  exact if_pos h

lemma joinPaths_path {f : ℕ → Option (List ℕ)} (h : C.isModule k=true) :
    joinPaths f (C.path k)=f k := by
  rw [path_of_module h,joinPaths_singleton]

lemma includedModulesNosuper_of_notMem (hin : ∀ k, ∀ m ∈ inc k, C.isModule m=true) (n : ℕ)
    (ms : List ℕ) (h : includedModulesNosuper C inc n k=some l) (hk : klass ∉ k::l) :
    includedModulesNosuper C (update inc klass ms) n k=some l := by
  induction n generalizing k l with
  | zero => cases h
  | succ n ih =>
    rw [mem_cons,not_or] at hk
    unfold includedModulesNosuper at h ⊢
    rw [update_of_ne (Ne.symm hk.1)]
    refine joinPaths_of_notMem h hk.2 ?_
    intro imod hi a ha hka
    rw [joinPaths_path (hin k imod hi)] at ha ⊢
    obtain ⟨b,hb,rfl⟩ := map_eq_some_iff.mp ha
    rw [ih hb hka]
    rfl

lemma recomputed_of_notMem (hi : ∀ k, ∀ m ∈ inc k, C.isModule m=true) (ms : List ℕ)
    (h : recomputed C inc k=some l) (hk : klass ∉ l) :
    recomputed C (update inc klass ms) k=some l := by
  refine joinPaths_of_notMem h hk ?_
  intro p _ a ha hka
  obtain ⟨b,hb,rfl⟩ := map_eq_some_iff.mp ha
  rw [includedModulesNosuper_of_notMem hi C.stack ms hb hka]
  rfl

lemma includedModulesNosuper_longer (hin : ∀ k, ∀ m ∈ inc k, C.isModule m=true) (n : ℕ)
    (h : includedModulesNosuper C (update inc klass (mod::inc klass)) n k=some l) :
    ∃ l', includedModulesNosuper C inc n k=some l' ∧ l'.length ≤ l.length ∧
      (klass ∈ k::l' → l'.length < l.length) := by
  induction n generalizing k l with
  | zero => cases h
  | succ n ih =>
    unfold includedModulesNosuper at h
    have hp : ∀ imod ∈ inc k, ∀ a,
        (joinPaths (includedModulesNosuper C (update inc klass (mod::inc klass)) n)
          (C.path imod)).map (imod::·)=some a →
        ∃ b, (joinPaths (includedModulesNosuper C inc n) (C.path imod)).map (imod::·)=some b ∧
          b.length ≤ a.length ∧ (klass ∈ b → b.length < a.length) := by
      intro imod hi a ha
      rw [joinPaths_path (hin k imod hi)] at ha ⊢
      obtain ⟨b,hb,rfl⟩ := map_eq_some_iff.mp ha
      obtain ⟨b',hb',hle,hlt⟩ := ih hb
      refine ⟨imod::b',by rw [hb']; rfl,Nat.succ_le_succ hle,fun hm => ?_⟩
      exact Nat.succ_lt_succ (hlt hm)
    by_cases hk : k=klass
    · subst hk
      rw [update_self] at h
      obtain ⟨a,b,ha,hb,rfl⟩ := joinPaths_cons.mp h
      obtain ⟨l',hl',hle,_⟩ := joinPaths_longer hb hp
      obtain ⟨a',_,rfl⟩ := map_eq_some_iff.mp ha
      refine ⟨l',hl',?_,fun _ => ?_⟩
      · simp only [length_append]
        omega
      · simp only [length_append,length_cons]
        omega
    · rw [update_of_ne hk] at h
      obtain ⟨l',hl',hle,hlt⟩ := joinPaths_longer h hp
      refine ⟨l',hl',hle,fun hm => ?_⟩
      exact hlt ((mem_cons.mp hm).resolve_left (Ne.symm hk))

lemma recomputed_longer (hi : ∀ k, ∀ m ∈ inc k, C.isModule m=true)
    (h : recomputed C (update inc klass (mod::inc klass)) k=some l) :
    ∃ l', recomputed C inc k=some l' ∧ l'.length ≤ l.length ∧
      (klass ∈ l' → l'.length < l.length) := by
  refine joinPaths_longer h ?_
  intro p _ a ha
  obtain ⟨b,hb,rfl⟩ := map_eq_some_iff.mp ha
  obtain ⟨b',hb',hl,hlt⟩ := includedModulesNosuper_longer hi C.stack hb
  refine ⟨p::b',by rw [hb']; rfl,Nat.succ_le_succ hl,fun hm => ?_⟩
  exact Nat.succ_lt_succ (hlt hm)

variable {t : State}
variable {s : Option State}

/-- The cached lists are those computed from scratch, and only modules are included. -/
structure Good (C : Classes) (t : State) : Prop where
  modules : ∀ k, ∀ m ∈ t.includedModules k, C.isModule m=true
  cached : ∀ k l, t.ancestors k=some l → recomputed C t.includedModules k=some l

lemma cached_of_current (h : Current C (some t)) (k : ℕ) (l : List ℕ)
    (hl : t.ancestors k=some l) : recomputed C t.includedModules k=some l := by
  have hk := h t rfl k
  unfold State.rbModAncestorsNocopy at hk
  rw [hl] at hk
  exact hk.symm

lemma current_of_cached
    (h : ∀ k l, t.ancestors k=some l → recomputed C t.includedModules k=some l) :
    Current C (some t) := by
  rintro _ ⟨⟩ k
  unfold State.rbModAncestorsNocopy
  cases hl : t.ancestors k with
  | some l => exact (h k l hl).symm
  | none =>
    cases recomputed C t.includedModules k <;> rfl

lemma modules_include (h : Good C t) (klass mod : ℕ) :
    ∀ k, ∀ m ∈ (t.rbIncludeModule C klass mod).includedModules k, C.isModule m=true := by
  intro k m hm
  unfold State.rbIncludeModule at hm
  split at hm
  · exact h.modules k m hm
  · rename_i hd
    rw [not_or,not_not] at hd
    change m ∈ update t.includedModules klass (mod::t.includedModules klass) k at hm
    by_cases hk : k=klass
    · rw [hk,update_self] at hm
      cases mem_cons.mp hm with
      | inl he =>
        rw [he]
        exact hd.1
      | inr hm => exact h.modules klass m hm
    · rw [update_of_ne hk] at hm
      exact h.modules k m hm

lemma current_include_iff (h : Good C t) (klass mod : ℕ) :
    Current C (some (t.rbIncludeModule C klass mod)) ↔
      Safe C (some t) (.includeModule klass mod) := by
  by_cases hs : ¬C.isModule mod=true ∨ mod ∈ t.includedModules klass
  · have hsam : t.rbIncludeModule C klass mod=t := if_pos hs
    rw [hsam]
    refine ⟨?_,fun _ => current_of_cached h.cached⟩
    rintro _ _ ⟨⟩ hmo hn
    exact hs.elim (absurd hmo) hn.elim
  · have hd := hs
    rw [not_or,not_not] at hd
    have hi : t.rbIncludeModule C klass mod =
        ⟨update t.includedModules klass (mod::t.includedModules klass),
          update t.ancestors klass none⟩ := if_neg hs
    rw [hi]
    constructor
    · rintro hc _ ⟨⟩ _ _ k hk l hl hm
      have hca := cached_of_current hc k l ((update_of_ne hk _ _).trans hl)
      obtain ⟨l',hl',_,hlt⟩ := recomputed_longer h.modules hca
      rw [h.cached k l hl] at hl'
      cases hl'
      exact lt_irrefl _ (hlt hm)
    · intro hsa
      refine current_of_cached fun k l hl => ?_
      change update t.ancestors klass none k=some l at hl
      have hk : k ≠ klass := by
        rintro rfl
        rw [update_self] at hl
        cases hl
      rw [update_of_ne hk] at hl
      exact recomputed_of_notMem h.modules _ (h.cached k l hl) (hsa t rfl hd.1 hd.2 k hk l hl)

lemma good_query (h : Good C t) {mod : ℕ} {l : List ℕ} {t' : State}
    (hq : t.rbModAncestorsNocopy C mod=some (l,t')) : Good C t' := by
  unfold State.rbModAncestorsNocopy at hq
  cases hl : t.ancestors mod with
  | some _ =>
    rw [hl] at hq
    cases hq
    exact h
  | none =>
    rw [hl] at hq
    obtain ⟨l,hn,he⟩ := map_eq_some_iff.mp hq
    cases he
    refine ⟨h.modules,fun k l' hl' => ?_⟩
    change update t.ancestors mod (some l) k=some l' at hl'
    by_cases hk : k=mod
    · rw [hk,update_self] at hl'
      cases hl'
      rw [hk]
      exact hn
    · rw [update_of_ne hk] at hl'
      exact h.cached k l' hl'

def Sound (C : Classes) (s : Option State) : Prop := ∀ t, s=some t → Good C t

lemma current_step_iff (h : Sound C s) (op : Op) : Current C (step C s op) ↔ Safe C s op := by
  cases s with
  | none =>
    cases op with
    | includeModule klass mod => exact ⟨fun _ => nofun,fun _ => nofun⟩
    | query mod => exact ⟨fun _ => trivial,fun _ => nofun⟩
  | some t =>
    cases op with
    | includeModule klass mod => exact current_include_iff (h t rfl) klass mod
    | query mod =>
      refine ⟨fun _ => trivial,fun _ => ?_⟩
      change Current C ((t.rbModAncestorsNocopy C mod).map Prod.snd)
      cases hq : t.rbModAncestorsNocopy C mod with
      | none => exact nofun
      | some r => exact current_of_cached (good_query (h t rfl) hq).cached

lemma sound_step (h : Sound C s) (op : Op) (ho : Safe C s op) : Sound C (step C s op) := by
  intro t' ht'
  have hc := (current_step_iff h op).mpr ho
  rw [ht'] at hc
  refine ⟨?_,cached_of_current hc⟩
  cases s with
  | none => cases op <;> cases ht'
  | some t =>
    cases op with
    | includeModule klass mod =>
      cases ht'
      exact modules_include (h t rfl) klass mod
    | query mod =>
      obtain ⟨r,hr,rfl⟩ := map_eq_some_iff.mp ht'
      exact (good_query (h t rfl) hr).modules

lemma along_current_iff (h : Sound C s) (ops : List Op) :
    Along (step C) (fun s op => Current C (step C s op)) s ops ↔ Along (step C) (Safe C) s ops := by
  induction ops generalizing s with
  | nil => exact Iff.rfl
  | cons op ops ih =>
    rw [along_cons,current_step_iff h op]
    exact and_congr_right fun ho => ih (sound_step h op ho)

lemma sound_start (C : Classes) : Sound C start := by
  rintro _ ⟨⟩
  exact ⟨fun _ _ => nofun,fun _ _ => nofun⟩

/-- From the start on, in every state of a run every list of ancestors that is returned is the one
computed from scratch, exactly when no module is included in a class that occurs in the cached list
of another class or module. -/
theorem ancestors_current_iff (C : Classes) (ops : List Op) :
    Along (step C) (fun s op => Current C (step C s op)) start ops ↔
      Along (step C) (Safe C) start ops :=
  along_current_iff (sound_start C) ops

def classAndModule : Classes := ⟨.pair,fun k => k == 2,3⟩

/-- The subclass is asked for its ancestors, and then the module is included in its superclass. -/
def askedBefore : List Op := [.query 1,.includeModule 0 2]

/-- The module is missing from the list that is returned for the subclass. -/
theorem list_of_subclass_is_stale : (run (step classAndModule) start askedBefore).map
        (fun t => ((t.rbModAncestorsNocopy classAndModule 1).map Prod.fst,
          recomputed classAndModule t.includedModules 1)) = some (some [1,0],some [1,0,2]) ∧
      ¬Along (step classAndModule) (fun s op => Current classAndModule (step classAndModule s op))
        start askedBefore := by
  have hli : (run (step classAndModule) start askedBefore).map
      (fun t => ((t.rbModAncestorsNocopy classAndModule 1).map Prod.fst,
        recomputed classAndModule t.includedModules 1))=some (some [1,0],some [1,0,2]) := by
    decide
  refine ⟨hli,fun h => ?_⟩
  obtain ⟨t,ht,hl⟩ := map_eq_some_iff.mp hli
  have hc := h.2.1 t ht 1
  rw [Prod.mk.injEq,hc] at hl
  exact absurd (hl.1.symm.trans hl.2) (by decide)

end MacRuby.AncestorCache
