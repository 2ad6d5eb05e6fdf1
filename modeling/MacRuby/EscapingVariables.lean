import Mathlib.Data.List.Basic

/-!
# Variables that outlive their frame

`rb_vm_keep_vars` gives every variable of a frame a cell in the heap and walks through the
blocks and bindings that are registered for the frame. What is not alive any more is passed
over; a weak reference to it reads NULL.
-/
namespace MacRuby.EscapingVariables
open List Function

section Source

inductive Use
  | block (b : ℕ)
  | binding (b : ℕ)
deriving DecidableEq

/-- `rb_vm_add_lvar_use`: the newest chunk of at most `VM_LVAR_USES_SIZE` uses comes first. -/
def addLvarUse (uses : List (List Use)) (use : Use) : List (List Use) :=
  match uses with
  | [] => [[use]]
  | chunk::chunks => if chunk.length=8 then [use]::chunk::chunks else (chunk++[use])::chunks

/-- What the walk reads and writes. A local of a list is a node with an address. -/
structure Memory (V : Type*) where
  value : ℕ → V
  /-- Where `xmalloc` goes on. -/
  next : ℕ
  dvars : ℕ → List ℕ
  hasParents : ℕ → Bool
  locals : Use → List ℕ
  target : ℕ → ℕ

structure KeptLocal where
  stackAddress : ℕ
  newAddress : ℕ

variable {V : Type*}

def keepLocals : List ℕ → Memory V → List KeptLocal × Memory V
  | [],m => ([],m)
  | a::as,m =>
    let r := keepLocals as {m with next := m.next+1,value := update m.value m.next (m.value a)}
    (⟨a,m.next⟩::r.1,r.2)

/-- The loop over the variables, which stops at the first match. -/
def redirect (kept : List KeptLocal) (r : ℕ) : ℕ :=
  match kept.find? (·.stackAddress=r) with
  | some k => k.newAddress
  | none => r

def retarget (kept : List KeptLocal) (nodes : List ℕ) (target : ℕ → ℕ) : ℕ → ℕ :=
  nodes.foldl (fun target l => update target l (redirect kept (target l))) target

def keepUse (kept : List KeptLocal) (m : Memory V) (use : Use) : Memory V :=
  let m := match use with
    | .block b => {m with
        dvars := update m.dvars b ((m.dvars b).map (redirect kept))
        hasParents := update m.hasParents b false}
    | .binding _ => m
  {m with target := retarget kept (m.locals use) m.target}

/-- The walk to the first use that is alive; chunks without one are freed. -/
def useFound (alive : Use → Bool) : List (List Use) → List (List Use)
  | [] => []
  | chunk::chunks =>
    match chunk.dropWhile (!alive ·) with
    | [] => useFound alive chunks
    | uses => uses::chunks

/-- `rb_vm_keep_vars` with the stack addresses of the variables. -/
def keepVars (alive : Use → Bool) (uses : List (List Use)) (lvars : List ℕ) (m : Memory V) :
    Memory V :=
  match useFound alive uses with
  | [] => m
  | chunks =>
    let (kept,m) := keepLocals lvars m
    chunks.foldl (fun m chunk =>
      chunk.foldl (fun m use => if alive use then keepUse kept m use else m) m) m

end Source

section Walk

variable {V : Type*} {kept : List KeptLocal} {alive : Use → Bool} {m : Memory V}

lemma mem_flatten_addLvarUse (uses : List (List Use)) (use u : Use) :
    u ∈ (addLvarUse uses use).flatten ↔ u ∈ uses.flatten ∨ u=use := by
  unfold addLvarUse
  split
  · simp
  · split_ifs
    · rw [flatten_cons,mem_append,mem_singleton,or_comm]
    · simp only [flatten_cons,mem_append,mem_singleton,or_right_comm]

lemma mem_registered (us : List Use) (uses : List (List Use)) (u : Use) :
    u ∈ (us.foldl addLvarUse uses).flatten ↔ u ∈ uses.flatten ∨ u ∈ us := by
  induction us generalizing uses with
  | nil => simp
  | cons use us ih => rw [foldl_cons,ih,mem_flatten_addLvarUse,mem_cons,or_assoc]

lemma filter_dropWhile (alive : Use → Bool) (us : List Use) :
    (us.dropWhile (!alive ·)).filter alive=us.filter alive := by
  induction us with
  | nil => rfl
  | cons u us ih => cases h : alive u <;> simp [h,ih]

/-- The part of the walk that is left has all uses that are alive. -/
lemma filter_useFound (uses : List (List Use)) :
    (useFound alive uses).flatten.filter alive=uses.flatten.filter alive := by
  induction uses with
  | nil => rfl
  | cons chunk chunks ih =>
    have hd := filter_dropWhile alive chunk
    rw [useFound,flatten_cons,filter_append,← hd]
    split
    · next h => rw [h,ih]; rfl
    · rw [flatten_cons,filter_append]

/-- The walk over chunks is one over the uses that are alive. -/
lemma foldl_chunks (chunks : List (List Use)) :
    chunks.foldl (fun m chunk =>
      chunk.foldl (fun m use => if alive use then keepUse kept m use else m) m) m =
      (chunks.flatten.filter alive).foldl (keepUse kept) m := by
  rw [foldl_filter,foldl_flatten]

variable (hk : ∀ r, redirect kept (redirect kept r)=redirect kept r)
include hk

lemma retarget_apply (nodes : List ℕ) (target : ℕ → ℕ) (l : ℕ) :
    retarget kept nodes target l=if l ∈ nodes then redirect kept (target l) else target l := by
  induction nodes generalizing target with
  | nil => rfl
  | cons n nodes ih =>
    rw [retarget,foldl_cons,← retarget,ih]
    by_cases h : l=n
    · subst h
      simp [hk]
    · simp [h]

/-- After the walk the references of the uses are redirected, those of others are as before. -/
lemma foldl_keepUse (us : List Use) (m : Memory V) :
    let m' := us.foldl (keepUse kept) m
    (∀ b, m'.dvars b=if .block b ∈ us then (m.dvars b).map (redirect kept) else m.dvars b) ∧
    (∀ l, m'.target l=
      if ∃ u ∈ us, l ∈ m.locals u then redirect kept (m.target l) else m.target l) ∧
    m'.locals=m.locals ∧ m'.value=m.value := by
  induction us generalizing m with
  | nil => simp
  | cons u us ih =>
    obtain ⟨hd,ht,hl,hv⟩ := ih (keepUse kept m u)
    have hu : (keepUse kept m u).locals=m.locals ∧ (keepUse kept m u).value=m.value ∧
        (keepUse kept m u).target=retarget kept (m.locals u) m.target := by
      cases u <;> exact ⟨rfl,rfl,rfl⟩
    refine ⟨fun b => ?_,fun l => ?_,hl.trans hu.1,hv.trans hu.2.1⟩
    · have hr : redirect kept ∘ redirect kept=redirect kept := funext hk
      rw [foldl_cons,hd]
      cases u with
      | block b' =>
        by_cases h : b=b'
        · subst h
          simp [keepUse,hr]
        · simp [keepUse,h]
      | binding b' => simp [keepUse]
    · rw [foldl_cons,ht,hu.1,hu.2.2,retarget_apply hk]
      by_cases h : l ∈ m.locals u <;> simp [h,hk]

end Walk

section Kept

variable {V : Type*} (lvars : List ℕ) (m : Memory V)

lemma redirect_keepLocals (r : ℕ) :
    redirect (keepLocals lvars m).1 r=if r ∈ lvars then m.next+lvars.idxOf r else r := by
  induction lvars generalizing m with
  | nil => rfl
  | cons a as ih =>
    have h' := ih {m with next := m.next+1,value := update m.value m.next (m.value a)}
    by_cases h : a=r
    · simp [redirect,keepLocals,h]
    · rw [redirect,keepLocals,find?_cons_of_neg (by simpa using h),← redirect,h']
      by_cases hr : r ∈ as
      · simp [hr,idxOf_cons_ne _ h]
        omega
      · simp [hr,Ne.symm h]

/-- Only the memory of the new cells is written, and each has the value of its variable. -/
lemma keepLocals_value (h : ∀ a ∈ lvars, a < m.next) :
    (∀ a < m.next, (keepLocals lvars m).2.value a=m.value a) ∧
    (∀ a ∈ lvars, (keepLocals lvars m).2.value (m.next+lvars.idxOf a)=m.value a) ∧
    (keepLocals lvars m).2.dvars=m.dvars ∧ (keepLocals lvars m).2.target=m.target ∧
    (keepLocals lvars m).2.locals=m.locals := by
  induction lvars generalizing m with
  | nil => simp [keepLocals]
  | cons a as ih =>
    rw [forall_mem_cons] at h
    obtain ⟨hv,hc,hs⟩ := ih {m with next := m.next+1,value := update m.value m.next (m.value a)}
      fun a' h' => Nat.lt_succ_of_lt (h.2 a' h')
    refine ⟨fun x hx => ?_,fun x hx => ?_,hs⟩
    · exact (hv x (Nat.lt_succ_of_lt hx)).trans (update_of_ne (Nat.ne_of_lt hx) _ _)
    · by_cases he : a=x
      · subst he
        rw [idxOf_cons_self]
        exact (hv m.next (Nat.lt_succ_self _)).trans (update_self _ _ _)
      · have hx' := mem_of_ne_of_mem (Ne.symm he) hx
        rw [idxOf_cons_ne _ he,Nat.add_succ,← Nat.succ_add]
        exact (hc x hx').trans (update_of_ne (Nat.ne_of_lt (h.2 x hx')) _ _)

end Kept

variable {V : Type*} (alive : Use → Bool) (us : List Use) (m : Memory V)

/-- There is a cell for every variable of the frame, with its value. The references in what
is registered and alive are changed exactly if they are to such a variable, and then to its
cell; no other reference is changed. -/
theorem variables_redirected (lvars : List (Fin m.next)) :
    ∃ cell : ℕ → ℕ,
      let vars := lvars.map Fin.val
      let m' := keepVars alive (us.foldl addLvarUse []) vars m
      let moved := fun r => if r ∈ vars then cell r else r
      ((∃ u ∈ us, alive u) → ∀ a ∈ vars, m'.value (cell a) = m.value a ∧ m.next ≤ cell a) ∧
      (∀ b, m'.dvars b =
        if .block b ∈ us ∧ alive (.block b) then (m.dvars b).map moved else m.dvars b) ∧
      ∀ l, m'.target l =
        if ∃ u ∈ us, alive u ∧ l ∈ m.locals u then moved (m.target l) else m.target l := by
  refine ⟨fun a => m.next+(lvars.map Fin.val).idxOf a,?_⟩
  have hb : ∀ a ∈ lvars.map Fin.val, a < m.next := by
    intro a ha
    obtain ⟨i,-,rfl⟩ := mem_map.mp ha
    exact i.isLt
  generalize lvars.map Fin.val=vars at hb
  have hm : ∀ u, u ∈ (useFound alive (us.foldl addLvarUse [])).flatten.filter alive ↔
      u ∈ us ∧ alive u := fun u => by
    rw [filter_useFound,mem_filter,mem_registered]
    simp
  unfold keepVars
  split
  · next h =>
    have hn : ∀ u ∈ us, ¬alive u := fun u hu ha => by simpa [h] using (hm u).mpr ⟨hu,ha⟩
    refine ⟨fun ⟨u,hu,ha⟩ => absurd ha (hn u hu),fun b => ?_,fun l => ?_⟩
    · rw [if_neg fun hu => hn _ hu.1 hu.2]
    · rw [if_neg fun ⟨u,hu,ha,_⟩ => hn u hu ha]
  · have hr := redirect_keepLocals vars m
    obtain ⟨-,hc,hd,ht,hl⟩ := keepLocals_value vars m hb
    have hk : ∀ r, redirect (keepLocals vars m).1 (redirect (keepLocals vars m).1 r)=
        redirect (keepLocals vars m).1 r := by
      intro r
      rw [hr r]
      split_ifs with h
      · rw [hr,if_neg fun h' => absurd (hb _ h') (by omega)]
      · rw [hr,if_neg h]
    dsimp only
    rw [foldl_chunks]
    obtain ⟨wd,wt,-,wv⟩ := foldl_keepUse hk
      ((useFound alive (us.foldl addLvarUse [])).flatten.filter alive) (keepLocals vars m).2
    refine ⟨fun _ a ha => ⟨by rw [wv,hc a ha],Nat.le_add_right _ _⟩,fun b => ?_,fun l => ?_⟩
    · rw [wd,hd,funext hr]
      simp only [hm]
    · rw [wt,hl,ht,hr]
      simp only [hm,and_assoc]

end MacRuby.EscapingVariables
