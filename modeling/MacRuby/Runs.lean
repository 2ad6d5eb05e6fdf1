import Mathlib.Data.List.Basic

/-!
# Runs of a deterministic step function

A machine here is a total step function from states and actions to states. A
run is a finite list of actions, executed from left to right. Conditions that
a run has to meet are conditions on every single step: on the action and the
state in which that action is taken. Nothing in this module fixes what the
states or the actions are.
-/
namespace MacRuby.Runs
open List

variable {S T A : Type*}

def run (step : S → A → S) (s : S) (as : List A) : S := as.foldl step s

@[simp] lemma run_nil (step : S → A → S) (s : S) : run step s []=s := rfl

@[simp] lemma run_cons (step : S → A → S) (s : S) (a : A) (as : List A) :
    run step s (a::as)=run step (step s a) as := rfl

lemma run_append (step : S → A → S) (s : S) (as bs : List A) :
    run step s (as++bs)=run step (run step s as) bs := foldl_append

/-- Every step of the run is taken in a state in which it meets `P`. -/
def Along (step : S → A → S) (P : S → A → Prop) : S → List A → Prop
  | _,[] => True
  | s,a::as => P s a ∧ Along step P (step s a) as

@[simp] lemma along_nil (step : S → A → S) (P : S → A → Prop) (s : S) :
    Along step P s [] := trivial

@[simp] lemma along_cons (step : S → A → S) (P : S → A → Prop) (s : S) (a : A) (as : List A) :
    Along step P s (a::as) ↔ P s a ∧ Along step P (step s a) as := Iff.rfl

lemma along_append (step : S → A → S) (P : S → A → Prop) (s : S) (as bs : List A) :
    Along step P s (as++bs) ↔ Along step P s as ∧ Along step P (run step s as) bs := by
  induction as generalizing s with
  | nil => simp
  | cons a as ih => simp only [cons_append,along_cons,run_cons,ih,and_assoc]

lemma along_true (step : S → A → S) (s : S) (as : List A) : Along step (fun _ _ => True) s as := by
  induction as generalizing s with
  | nil => trivial
  | cons a as ih => exact ⟨trivial,ih (step s a)⟩

instance decidableAlong (step : S → A → S) (P : S → A → Prop) [∀ s a, Decidable (P s a)] :
    (s : S) → (as : List A) → Decidable (Along step P s as)
  | _,[] => isTrue trivial
  | s,a::as =>
    have := decidableAlong step P (step s a) as
    inferInstanceAs (Decidable (P s a ∧ Along step P (step s a) as))

/-- An invariant kept by every step that meets `P` survives every run whose
steps all meet `P`. -/
lemma run_invariant {step : S → A → S} {P : S → A → Prop} {I : S → Prop}
    (keep : ∀ s a, I s → P s a → I (step s a)) {s : S} {as : List A}
    (hs : I s) (ha : Along step P s as) : I (run step s as) := by
  induction as generalizing s with
  | nil => exact hs
  | cons a as ih => exact ih (keep s a hs ha.1) ha.2

/-- Two machines driven by the same actions stay related, as long as every
step of the first meets `P`. -/
lemma run_simulation {step : S → A → S} {step' : T → A → T} {P : S → A → Prop}
    {R : S → T → Prop} (keep : ∀ s t a, R s t → P s a → R (step s a) (step' t a))
    {s : S} {t : T} {as : List A} (hs : R s t) (ha : Along step P s as) :
    R (run step s as) (run step' t as) := by
  induction as generalizing s t with
  | nil => exact hs
  | cons a as ih => exact ih (keep s t a hs ha.1) ha.2

/-- An invariant `I` that a step keeps exactly when it meets `P` holds all along a run exactly
when every step of the run meets `P`. What is known besides, as long as `I` holds, is `J`. -/
lemma invariant_iff_along {step : S → A → S} {P : S → A → Prop} {I J : S → Prop}
    (known : ∀ s a, J s → I s → J (step s a)) (keep : ∀ s a, J s → I s → (I (step s a) ↔ P s a))
    {s : S} (hk : J s) (hs : I s) (as : List A) :
    (∀ l, l <+: as → I (run step s l)) ↔ Along step P s as := by
  induction as generalizing s with
  | nil =>
    constructor
    · intro
      trivial
    · intro _ l hl
      rw [prefix_nil.mp hl]
      exact hs
  | cons a as ih =>
    have hn := known s a hk hs
    constructor
    · intro h
      have hf : I (step s a) := h [a] (cons_prefix_cons.mpr ⟨rfl, nil_prefix⟩)
      have hr := (ih hn hf).mp fun l hl => h (a::l) (cons_prefix_cons.mpr ⟨rfl,hl⟩)
      exact ⟨(keep s a hk hs).mp hf,hr⟩
    · intro h l hl
      cases l with
      | nil => exact hs
      | cons b l =>
        obtain ⟨rfl,hr⟩ := cons_prefix_cons.mp hl
        exact (ih hn ((keep s b hk hs).mpr h.1)).mpr h.2 l hr

end MacRuby.Runs
