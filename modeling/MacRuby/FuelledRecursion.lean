import Mathlib.Order.WellFounded

/-!
# Recursion without a base case

A function that calls itself is run with some fuel. Where the calls that it needs have no
infinite descent, some amount of fuel is enough; and where it needs all of its calls, it
is enough nowhere else.
-/
namespace MacRuby.FuelledRecursion

variable {X β : Type}

def eval (body : (X → Option β) → X → Option β) : ℕ → X → Option β
  | 0,_ => none
  | n+1,x => body (eval body n) x

/-- Where the first function has an answer, the second one has the same. -/
def Extends (f g : X → Option β) : Prop := ∀ x b, f x=some b → g x=some b

variable (body : (X → Option β) → X → Option β)

def Halts (x : X) : Prop := ∃ n b, eval body n x=some b

def Monotone : Prop := ∀ f g, Extends f g → Extends (body f) (body g)

def Needs (calls : X → List X) : Prop :=
  ∀ f x, (∀ y ∈ calls x, ∃ b, f y=some b) → ∃ b, body f x=some b

variable {body} {calls : X → List X} {x : X}

lemma extends_eval (hbo : Monotone body) {m n : ℕ} (h : m ≤ n) :
    Extends (eval body m) (eval body n) := by
  induction m generalizing n with
  | zero => exact fun x b hb => by cases hb
  | succ m ih =>
    obtain ⟨n,rfl⟩ := Nat.exists_eq_add_of_le' h
    exact hbo _ _ (ih (Nat.le_add_left m n))

lemma exists_fuel (hbo : Monotone body) {l : List X} (h : ∀ y ∈ l, Halts body y) :
    ∃ n, ∀ y ∈ l, ∃ b, eval body n y=some b := by
  induction l with
  | nil => exact ⟨0,nofun⟩
  | cons y l ih =>
    rw [List.forall_mem_cons] at h
    obtain ⟨m,b,hb⟩ := h.1
    obtain ⟨n,hn⟩ := ih h.2
    refine ⟨max m n,List.forall_mem_cons.mpr ⟨⟨b,?_⟩,fun z hz => ?_⟩⟩
    · exact extends_eval hbo (le_max_left m n) y b hb
    · obtain ⟨c,hc⟩ := hn z hz
      exact ⟨c,extends_eval hbo (le_max_right m n) z c hc⟩

lemma halts_of_acc (hbo : Monotone body) (hne : Needs body calls)
    (h : Acc (fun y x => y ∈ calls x) x) : Halts body x := by
  induction h with
  | intro x _ ih =>
    obtain ⟨n,hn⟩ := exists_fuel hbo ih
    obtain ⟨b,hb⟩ := hne _ x hn
    exact ⟨n+1,b,hb⟩

lemma acc_of_halts
    (ha : ∀ f x b, body f x=some b → ∀ y ∈ calls x, ∃ c, f y=some c) (h : Halts body x) :
    Acc (fun y x => y ∈ calls x) x := by
  obtain ⟨n,b,hb⟩ := h
  induction n generalizing x b with
  | zero => cases hb
  | succ n ih =>
    constructor
    intro y hy
    obtain ⟨c,hc⟩ := ha _ x b hb y hy
    exact ih c hc

lemma not_halts (h : ∀ f : X → Option β, f x=none → body f x=none) : ¬Halts body x := by
  rintro ⟨n,b,hb⟩
  have hn (n : ℕ) : eval body n x=none := by
    induction n with
    | zero => rfl
    | succ n ih => exact h _ ih
  rw [hn] at hb
  cases hb

end MacRuby.FuelledRecursion
