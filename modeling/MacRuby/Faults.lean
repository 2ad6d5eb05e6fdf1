import Mathlib.Data.Int.Init

/-!
# Computations that log requests and may fault

A computation on a state returns a value, raises an error, faults (leaves what
the language defines) or needs more rounds than it was given. On the way it logs
requests: the numbers it took on trust. `Returns` describes a run that ends with
a value. `Guarded` says that faults come from requests that do not fit, and from
nothing else; its rules follow the ways computations are put together.
-/
namespace MacRuby.Faults
open List

inductive End (ε α σ : Type)
  | ok (a : α) (s : σ)
  | raised (e : ε)
  | fault
  /-- The rounds did not suffice. -/
  | more

def Comp (ρ ε σ α : Type) : Type := σ → List ρ × End ε α σ

variable {ρ ε σ α β : Type}

namespace Comp

protected def pure (a : α) : Comp ρ ε σ α := fun s => ([],.ok a s)

protected def bind (m : Comp ρ ε σ α) (f : α → Comp ρ ε σ β) : Comp ρ ε σ β := fun s =>
  match m s with
  | (log,.ok a s) => (log++(f a s).1,(f a s).2)
  | (log,.raised e) => (log,.raised e)
  | (log,.fault) => (log,.fault)
  | (log,.more) => (log,.more)

instance : Monad (Comp ρ ε σ) where
  pure := Comp.pure
  bind := Comp.bind

end Comp

def raise (e : ε) : Comp ρ ε σ α := fun _ => ([],.raised e)

def fault : Comp ρ ε σ α := fun _ => ([],.fault)

def more : Comp ρ ε σ α := fun _ => ([],.more)

def request (r : ρ) : Comp ρ ε σ Unit := fun s => ([r],.ok () s)

def state : Comp ρ ε σ σ := fun s => ([],.ok s s)

def update (f : σ → σ) : Comp ρ ε σ Unit := fun s => ([],.ok () (f s))

/-- `while (len--)`: a negative count is counted down too. -/
def whileDown (body : Comp ρ ε σ Unit) : ℕ → ℤ → Comp ρ ε σ Unit
  | fuel,len =>
    if len=0 then pure ()
    else
      match fuel with
      | 0 => more
      | fuel+1 => do
        body
        whileDown body fuel (len-1)

lemma whileDown_zero (body : Comp ρ ε σ Unit) (fuel : ℕ) : whileDown body fuel 0=pure () := by
  cases fuel <;> rw [whileDown,if_pos rfl]

variable {m : Comp ρ ε σ α} {f : α → Comp ρ ε σ β} {s s' : σ} {log : List ρ}

lemma bind_of_ok {a : α} (h : m s=(log,.ok a s')) : (m >>= f) s=(log++(f a s').1,(f a s').2) := by
  change Comp.bind m f s=_
  rw [Comp.bind,h]

lemma bind_of_raised {e : ε} (h : m s=(log,.raised e)) : (m >>= f) s=(log,.raised e) := by
  change Comp.bind m f s=_
  rw [Comp.bind,h]

lemma bind_of_fault (h : m s=(log,.fault)) : (m >>= f) s=(log,.fault) := by
  change Comp.bind m f s=_
  rw [Comp.bind,h]

lemma bind_of_more (h : m s=(log,.more)) : (m >>= f) s=(log,.more) := by
  change Comp.bind m f s=_
  rw [Comp.bind,h]

/-- The run from `s` ends with the value `a` in the state `s'`. -/
def Returns (m : Comp ρ ε σ α) (s : σ) (a : α) (s' : σ) : Prop := (m s).2=.ok a s'

variable {m : Comp ρ ε σ α} {f : α → Comp ρ ε σ β} {s s' s'' : σ} {a : α} {b : β}

lemma returns_pure : Returns (pure a : Comp ρ ε σ α) s a s := rfl

lemma returns_state : Returns (state : Comp ρ ε σ σ) s s s := rfl

lemma returns_update {g : σ → σ} : Returns (update g : Comp ρ ε σ Unit) s () (g s) := rfl

lemma returns_request {r : ρ} : Returns (request r : Comp ρ ε σ Unit) s () s := rfl

lemma Returns.bind (hm : Returns m s a s') (hf : Returns (f a) s' b s'') :
    Returns (m >>= f) s b s'' := by
  rcases hr : m s with ⟨log,out⟩
  rw [Returns,hr] at hm
  change out=.ok a s' at hm
  rw [hm] at hr
  rw [Returns,bind_of_ok hr]
  exact hf

lemma Returns.unique {a' : α} (h : Returns m s a s') (h' : Returns m s a' s'') :
    a=a' ∧ s'=s'' := by
  have he : End.ok a s'=.ok a' s'' := h.symm.trans h'
  cases he
  exact ⟨rfl,rfl⟩

lemma Returns.of_bind (h : Returns (m >>= f) s b s'') :
    ∃ a s', Returns m s a s' ∧ Returns (f a) s' b s'' := by
  rcases hr : m s with ⟨log,out⟩
  rw [Returns] at h
  cases out with
  | ok a s' =>
    rw [bind_of_ok hr] at h
    exact ⟨a,s',by rw [Returns,hr],h⟩
  | raised e =>
    rw [bind_of_raised hr] at h
    exact nomatch h
  | fault =>
    rw [bind_of_fault hr] at h
    exact nomatch h
  | more =>
    rw [bind_of_more hr] at h
    exact nomatch h

variable {fits : ρ → Prop}

/-- The run from `s` faults exactly when it makes a request that does not fit. -/
def GuardedAt (fits : ρ → Prop) (m : Comp ρ ε σ α) (s : σ) : Prop :=
  (m s).2=.fault ↔ ∃ r ∈ (m s).1, ¬fits r

def Guarded (fits : ρ → Prop) (m : Comp ρ ε σ α) : Prop := ∀ s, GuardedAt fits m s

variable {m : Comp ρ ε σ α} {f : α → Comp ρ ε σ β}

lemma GuardedAt.bind (hm : GuardedAt fits m s)
    (hf : ∀ a s', Returns m s a s' → GuardedAt fits (f a) s') : GuardedAt fits (m >>= f) s := by
  rcases hru : m s with ⟨log,out⟩
  rw [GuardedAt,hru] at hm
  rw [GuardedAt]
  cases out with
  | ok a s' =>
    have hl : ¬∃ r ∈ log, ¬fits r := fun hl => nomatch hm.mpr hl
    have hn : Returns m s a s' := by rw [Returns,hru]
    have hre : (f a s').2=.fault ↔ ∃ r ∈ (f a s').1, ¬fits r := hf a s' hn
    rw [bind_of_ok hru,hre]
    constructor
    · intro hb
      obtain ⟨r,hr,hfi⟩ := hb
      exact ⟨r,mem_append_right _ hr,hfi⟩
    · intro hb
      obtain ⟨r,hr,hfi⟩ := hb
      rcases mem_append.mp hr with hr | hr
      · exact absurd ⟨r,hr,hfi⟩ hl
      · exact ⟨r,hr,hfi⟩
  | raised e =>
    rw [bind_of_raised hru]
    exact ⟨nofun,fun h => nomatch hm.mpr h⟩
  | fault =>
    rw [bind_of_fault hru]
    exact ⟨fun _ => hm.mp rfl,fun _ => rfl⟩
  | more =>
    rw [bind_of_more hru]
    exact ⟨nofun,fun h => nomatch hm.mpr h⟩

lemma Guarded.bind (hm : Guarded fits m) (hf : ∀ a, Guarded fits (f a)) :
    Guarded fits (m >>= f) :=
  fun s => (hm s).bind fun a s' _ => hf a s'

lemma guarded_of_quiet (hl : ∀ s, (m s).1=[]) (he : ∀ s, (m s).2 ≠ .fault) : Guarded fits m := by
  refine fun s => ⟨fun h => absurd h (he s),fun h => ?_⟩
  obtain ⟨r,hr,-⟩ := h
  rw [hl s] at hr
  exact absurd hr not_mem_nil

lemma guarded_pure (a : α) : Guarded fits (pure a : Comp ρ ε σ α) :=
  guarded_of_quiet (fun _ => rfl) fun _ => nofun

lemma guarded_raise (e : ε) : Guarded fits (raise e : Comp ρ ε σ α) :=
  guarded_of_quiet (fun _ => rfl) fun _ => nofun

lemma guarded_more : Guarded fits (more : Comp ρ ε σ α) :=
  guarded_of_quiet (fun _ => rfl) fun _ => nofun

lemma guarded_state : Guarded fits (state : Comp ρ ε σ σ) :=
  guarded_of_quiet (fun _ => rfl) fun _ => nofun

lemma guarded_update (g : σ → σ) : Guarded fits (update g : Comp ρ ε σ Unit) :=
  guarded_of_quiet (fun _ => rfl) fun _ => nofun

lemma Guarded.ite {c : Prop} [Decidable c] {m' : Comp ρ ε σ α} (hm : Guarded fits m)
    (hm' : Guarded fits m') : Guarded fits (if c then m else m') := by
  split
  · exact hm
  · exact hm'

lemma guardedAt_request {r : ρ} (hg : fits r → GuardedAt fits m s)
    (hb : ¬fits r → m s=([],.fault)) : GuardedAt fits (request r >>= fun _ => m) s := by
  have hru : (request r : Comp ρ ε σ Unit) s=([r],.ok () s) := rfl
  rw [GuardedAt,bind_of_ok hru]
  by_cases hf : fits r
  · have hre : (m s).2=.fault ↔ ∃ r ∈ (m s).1, ¬fits r := hg hf
    rw [hre]
    constructor
    · intro h
      obtain ⟨r',hr',hb'⟩ := h
      exact ⟨r',mem_cons_of_mem _ hr',hb'⟩
    · intro h
      obtain ⟨r',hr',hb'⟩ := h
      rcases mem_cons.mp hr' with hr' | hr'
      · rw [hr'] at hb'
        exact absurd hf hb'
      · exact ⟨r',hr',hb'⟩
  · rw [hb hf]
    exact ⟨fun _ => ⟨r,mem_cons_self,hf⟩,fun _ => rfl⟩

lemma guarded_whileDown {body : Comp ρ ε σ Unit} (h : Guarded fits body) (fuel : ℕ) (len : ℤ) :
    Guarded fits (whileDown body fuel len) := by
  induction fuel generalizing len with
  | zero =>
    exact (guarded_pure ()).ite guarded_more
  | succ fuel ih =>
    exact (guarded_pure ()).ite (h.bind fun _ => ih (len-1))

end MacRuby.Faults
