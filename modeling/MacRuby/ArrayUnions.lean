import MacRuby.ArrayDifference

/-!
# Union, intersection and uniq

`|` and `&` put the elements into a CFDictionary and take each key out when they first
meet it. `uniq` erases, for one element after the other, all later elements that are
equal to it: with `rb_equal_fast` in a RubyArray, and with `CFEqual` otherwise. As for
differences, `CFEqual` and the hashes of CFDictionary are other code. They are assumed
to recognize an element that equals itself, and nothing that does not answer `==` with
true.
-/
namespace MacRuby.ArrayUnions
open ArrayDifference List

variable {α : Type} (same : α → α → Bool)

/-- The keys of a dictionary, each equal to none of those before it. -/
def hashAset (keys : List α) (key : α) : List α :=
  if keys.any (same · key) then keys else keys ++ [key]

def hashDeleteKey (keys : List α) (key : α) : Option (List α) :=
  if keys.any (same · key) then some (keys.eraseP (same · key)) else none

def aryMakeHash (ary1 ary2 : List α) : List α :=
  ary2.foldl (hashAset same) (ary1.foldl (hashAset same) [])

def filterDiff : List α → List α → List α × List α
  | [],keys => ([],keys)
  | v::ary1,keys =>
    match hashDeleteKey same keys v with
    | some keys => (v::(filterDiff ary1 keys).1,(filterDiff ary1 keys).2)
    | none => filterDiff ary1 keys

def rbAryAnd (ary1 ary2 : List α) : List α :=
  let hash := aryMakeHash same ary2 []
  if hash.isEmpty then [] else (filterDiff same ary1 hash).1

def rbAryOr (ary1 ary2 : List α) : List α :=
  let r := filterDiff same ary1 (aryMakeHash same ary1 ary2)
  r.1 ++ (filterDiff same ary2 r.2).1

/-- `rary_index_of_item`. -/
def indexOfItem (equal : α → Bool) (ary : List α) (origin : ℕ) : Option ℕ :=
  ((ary.drop origin).findIdx? equal).map (origin+·)

/-- The inner loop, which goes on at the position of the item that it erased; no more
items than there are can be erased. -/
def eraseEqual (equal : α → Bool) : ℕ → ℕ → List α → List α
  | 0,_,ary => ary
  | fuel+1,pos,ary =>
    if pos < ary.length then
      match indexOfItem equal ary pos with
      | some pos => eraseEqual equal fuel pos (ary.eraseIdx pos)
      | none => ary
    else ary

def uniqLoop (equal : α → α → Bool) : ℕ → ℕ → List α → List α
  | 0,_,ary => ary
  | fuel+1,i,ary =>
    match ary[i]? with
    | some item => uniqLoop equal fuel (i+1) (eraseEqual (equal item) ary.length (i+1) ary)
    | none => ary

def rbAryUniq (equal : α → α → Bool) (ary : List α) : List α := uniqLoop equal ary.length 0 ary

variable [DecidableEq α] {same} {keys ary a b : List α} {v : α}

lemma any_same (h : ∀ k ∈ keys, same k v=(k == v)) : keys.any (same · v)=decide (v ∈ keys) := by
  rw [Bool.eq_iff_iff,any_eq_true,decide_eq_true_eq]
  constructor
  · rintro ⟨k,hk,hs⟩
    rw [h k hk,beq_iff_eq] at hs
    exact hs ▸ hk
  · intro hv
    exact ⟨v,hv,by rw [h v hv,beq_self_eq_true]⟩

lemma eraseP_same (h : ∀ k ∈ keys, same k v=(k == v)) : keys.eraseP (same · v)=keys.erase v := by
  induction keys with
  | nil => rfl
  | cons k keys ih =>
    rw [forall_mem_cons] at h
    rw [eraseP_cons,erase_cons,h.1,ih h.2,cond_eq_ite]

lemma filterDiff_eq (hke : keys.Nodup)
    (h : ∀ k ∈ keys, ∀ v ∈ ary, same k v=(k == v)) : filterDiff same ary keys =
      ((ary.filter (· ∈ keys)).eraseDups,keys.filter (· ∉ ary)) := by
  induction ary generalizing keys with
  | nil => simp [filterDiff]
  | cons v ary ih =>
    have hv : ∀ k ∈ keys, same k v=(k == v) := fun k hk => h k hk v mem_cons_self
    rw [filterDiff,hashDeleteKey,any_same hv,eraseP_same hv]
    by_cases hm : v ∈ keys
    · have hi := ih (hke.erase v) fun k hk u hu =>
        h k (mem_of_mem_erase hk) u (mem_cons_of_mem v hu)
      simp only [hm,decide_true,if_true,hi,hke.mem_erase_iff,filter_cons,
        eraseDups_cons,filter_filter]
      rw [hke.erase_eq_filter,filter_filter]
      congr 4
      · funext x
        simp
        rfl
      · funext x
        by_cases hx : x=v <;> simp [hx]
    · have hi := ih hke fun k hk u hu => h k hk u (mem_cons_of_mem v hu)
      simp only [hm,decide_false,Bool.false_eq_true,if_false,hi,filter_cons,Prod.mk.injEq, true_and]
      apply filter_congr
      intro x hx
      simp [ne_of_mem_of_not_mem hx hm]

lemma makeHash_spec {l : List α} (hke : keys.Nodup)
    (h : ∀ k ∈ keys ++ l, ∀ v ∈ l, same k v=(k == v)) : (l.foldl (hashAset same) keys).Nodup ∧
      ∀ x, x ∈ l.foldl (hashAset same) keys ↔ x ∈ keys ++ l := by
  induction l generalizing keys with
  | nil => simp [hke]
  | cons v l ih =>
    rw [foldl_cons,hashAset,any_same fun k hk => h k (mem_append_left _ hk) v mem_cons_self]
    by_cases hm : v ∈ keys
    · simp only [hm]
      obtain ⟨hn,hi⟩ := ih hke fun k hk u hu =>
        h k (by simp at hk ⊢; tauto) u (mem_cons_of_mem v hu)
      refine ⟨hn,fun x => (hi x).trans ?_⟩
      simp only [mem_append,mem_cons]
      constructor
      · tauto
      · rintro (hx | rfl | hx)
        · exact .inl hx
        · exact .inl hm
        · exact .inr hx
    · simp only [hm]
      obtain ⟨hn,hi⟩ := ih (nodup_append.mpr ⟨hke,nodup_singleton v,by
          simpa using fun x hx => ne_of_mem_of_not_mem hx hm⟩) fun k hk u hu =>
        h k (by simpa using hk) u (mem_cons_of_mem v hu)
      exact ⟨hn,fun x => (hi x).trans (by simp)⟩

omit [DecidableEq α] in
lemma take_append_filter {pos : ℕ} (p : α → Bool) (h : ary.length ≤ pos) :
    ary.take pos ++ (ary.drop pos).filter p=ary := by
  rw [take_of_length_le h,drop_of_length_le h,filter_nil,append_nil]

omit [DecidableEq α] in
lemma eraseEqual_eq (equal : α → Bool) (fuel pos : ℕ) (ary : List α) (h : ary.length ≤ pos+fuel) :
    eraseEqual equal fuel pos ary=ary.take pos ++ (ary.drop pos).filter (!equal ·) := by
  induction fuel generalizing pos ary with
  | zero => exact (take_append_filter _ h).symm
  | succ fuel ih =>
    rw [eraseEqual]
    split_ifs with hp
    · rw [indexOfItem]
      cases hf : (ary.drop pos).findIdx? equal with
      | none =>
        rw [findIdx?_eq_none_iff] at hf
        have ha : (ary.drop pos).filter (!equal ·)=ary.drop pos := by
          rw [filter_eq_self]
          exact fun x hx => by rw [hf x hx]; rfl
        rw [ha,take_append_drop]
        rfl
      | some j =>
        obtain ⟨hj,he,hb⟩ := findIdx?_eq_some_iff_getElem.mp hf
        have hlen : j < ary.length-pos := by simpa using hj
        have hfi : ((ary.drop pos).take j).filter (!equal ·)=(ary.drop pos).take j := by
          rw [filter_eq_self]
          intro x hx
          obtain ⟨k,hk,rfl⟩ := mem_iff_getElem.mp hx
          simp at hk ⊢
          simpa using hb k hk.1
        have hs : (ary.drop pos).filter (!equal ·) =
            (ary.drop pos).take j ++ (ary.drop (pos+j+1)).filter (!equal ·) := by
          conv_lhs => rw [← take_append_drop j (ary.drop pos),drop_eq_getElem_cons hj]
          rw [filter_append,hfi,filter_cons,he,drop_drop]
          rfl
        have hl : (ary.take (pos+j)).length=pos+j := length_take_of_le (by omega)
        simp only [Option.map_some]
        rw [ih _ _ (by rw [length_eraseIdx_of_lt (by omega)]; omega),
          eraseIdx_eq_take_drop_succ,take_left' hl,drop_left' hl,hs, take_add,append_assoc]
    · rw [take_append_filter _ (by omega)]

lemma uniqLoop_eq {equal : α → α → Bool} (fuel i : ℕ)
    (h : ∀ x ∈ ary, ∀ y ∈ ary, equal x y=(x == y)) (hf : ary.length ≤ i+fuel) :
    uniqLoop equal fuel i ary=ary.take i ++ (ary.drop i).eraseDups := by
  induction fuel generalizing i ary with
  | zero =>
    rw [add_zero] at hf
    rw [take_of_length_le hf,drop_of_length_le hf]
    simp [uniqLoop]
  | succ fuel ih =>
    rw [uniqLoop]
    by_cases hi : i < ary.length
    · rw [getElem?_eq_getElem hi]
      simp only
      have hfi : (ary.drop (i+1)).filter (!equal ary[i] ·) =
          (ary.drop (i+1)).filter (!· == ary[i]) := by
        apply filter_congr
        intro x hx
        rw [h _ (getElem_mem hi) x (mem_of_mem_drop hx),Bool.beq_comm]
      have hl : (ary.take (i+1)).length=i+1 := length_take_of_le hi
      have hs {x : α} (hx : x ∈ ary.take (i+1) ++ (ary.drop (i+1)).filter (!· == ary[i])) :
          x ∈ ary := by
        rcases mem_append.mp hx with hx | hx
        · exact mem_of_mem_take hx
        · exact mem_of_mem_drop (mem_filter.mp hx).1
      rw [eraseEqual_eq _ _ _ _ (by omega),hfi,ih,take_left' hl,drop_left' hl,
        take_succ_eq_append_getElem hi,drop_eq_getElem_cons hi,eraseDups_cons, append_assoc]
      · rfl
      · exact fun x hx y hy => h x (hs hx) y (hs hy)
      · have hc := length_filter_le (!· == ary[i]) (ary.drop (i+1))
        rw [length_drop] at hc
        rw [length_append]
        omega
    · rw [getElem?_eq_none (by omega),take_of_length_le (by omega),
        drop_of_length_le (by omega)]
      simp

lemma aryMakeHash_spec (h : ∀ k ∈ a ++ b, ∀ v ∈ a ++ b, same k v=(k == v)) :
    (aryMakeHash same a b).Nodup ∧ ∀ x, x ∈ aryMakeHash same a b ↔ x ∈ a ++ b := by
  have hf := makeHash_spec (l := a ++ b) nodup_nil h
  rw [foldl_append] at hf
  exact hf

lemma or_eq (h : ∀ k ∈ a ++ b, ∀ v ∈ a ++ b, same k v=(k == v)) :
    rbAryOr same a b=(a ++ b).eraseDups := by
  obtain ⟨hn,hm⟩ := aryMakeHash_spec h
  have hke : ∀ k ∈ aryMakeHash same a b, k ∈ a ++ b := fun k hk => (hm k).mp hk
  have ha : a.filter (· ∈ aryMakeHash same a b)=a := by
    rw [filter_eq_self]
    intro x hx
    simp [hm,hx]
  have hb : b.filter (· ∈ (aryMakeHash same a b).filter (· ∉ a))=b.removeAll a := by
    apply filter_congr
    intro x hx
    simp [hm,hx]
  rw [rbAryOr,filterDiff_eq hn fun k hk v hv => h k (hke k hk) v (mem_append_left b hv),
    filterDiff_eq (hn.filter _) fun k hk v hv =>
      h k (hke k (mem_of_mem_filter hk)) v (mem_append_right a hv)]
  rw [ha,hb,eraseDups_append]

lemma and_eq (h : ∀ k ∈ a ++ b, ∀ v ∈ a ++ b, same k v=(k == v)) :
    rbAryAnd same a b=(a.filter (· ∈ b)).eraseDups := by
  have hb : ∀ k ∈ b ++ [], ∀ v ∈ b ++ [], same k v=(k == v) := fun k hk v hv => by
    rw [append_nil] at hk hv
    exact h k (mem_append_right a hk) v (mem_append_right a hv)
  obtain ⟨hn,hm⟩ := aryMakeHash_spec hb
  simp only [append_nil] at hm
  rw [rbAryAnd]
  split_ifs with he
  · rw [List.isEmpty_iff] at he
    have hb : b=[] := eq_nil_iff_forall_not_mem.mpr fun x hx => by
      simpa [he] using (hm x).mpr hx
    simp [hb]
  · rw [filterDiff_eq hn]
    · simp only [hm]
    · intro k hk v hv
      exact h k (mem_append_right a ((hm k).mp hk)) v (mem_append_left b hv)

variable {σ : Type} [DecidableEq σ] {toDouble : ℤ → BitVec 64}

/-- `CFEqual`, and whether the hashes of two keys are the same. -/
structure Comparison (σ : Type) [DecidableEq σ] (toDouble : ℤ → BitVec 64) where
  cfEqual : Elem σ → Elem σ → Bool
  sameHash : Elem σ → Elem σ → Bool
  self : ∀ x, x.isNaN=false → cfEqual x x=true ∧ sameHash x x=true
  only : ∀ x y, cfEqual x y=true → opEq toDouble x y=true

variable (C : Comparison σ toDouble)

def Comparison.sameKey (x y : Elem σ) : Bool := C.sameHash x y && C.cfEqual x y

def Comparison.equal (ary : Arr σ) : Elem σ → Elem σ → Bool :=
  if ary.rary then rbEqualFast toDouble else C.cfEqual

instance : LawfulBEq (Elem σ) := inferInstance

/-- The three operations list the elements in order of their first occurrence. -/
def Agree (a b : Arr σ) : Prop :=
  rbAryOr C.sameKey a.items b.items=(a.items ++ b.items).eraseDups ∧
  rbAryAnd C.sameKey a.items b.items=(a.items.filter (· ∈ b.items)).eraseDups ∧
  rbAryUniq (C.equal a) a.items=rbAryOr C.sameKey a.items [] ∧
  rbAryOr C.sameKey a.items []=rbAryAnd C.sameKey a.items a.items

def Separate (toDouble : ℤ → BitVec 64) (l : List (Elem σ)) : Prop :=
  (∀ x ∈ l, x.isNaN=false) ∧ ∀ x ∈ l, ∀ y ∈ l, x ≠ y → opEq toDouble x y=false

variable {C} {l : List (Elem σ)} {x y : Elem σ}

lemma Comparison.cfEqual_false (C : Comparison σ toDouble) (h : opEq toDouble x y=false) :
    C.cfEqual x y=false := by
  rw [Bool.eq_false_iff]
  intro he
  rw [C.only x y he] at h
  cases h

lemma Separate.sameKey_eq (h : Separate toDouble l) (hx : x ∈ l) (hy : y ∈ l) :
    C.sameKey x y=(x == y) ∧ C.cfEqual x y=(x == y) := by
  by_cases he : x=y
  · subst he
    obtain ⟨hequ,hh⟩ := C.self x (h.1 x hx)
    rw [Comparison.sameKey,hequ,hh,beq_self_eq_true]
    exact ⟨rfl,rfl⟩
  · rw [Comparison.sameKey,C.cfEqual_false (h.2 x hx y hy he),Bool.and_false,beq_eq_false_iff_ne.mpr he]
    exact ⟨rfl,rfl⟩

lemma Separate.equal_eq (h : Separate toDouble l) (hx : x ∈ l) (hy : y ∈ l) (ary : Arr σ) :
    C.equal ary x y=(x == y) := by
  unfold Comparison.equal
  split_ifs
  · unfold rbEqualFast rbEqual
    by_cases he : x=y
    · simp [he]
    · simp [he,h.2 x hx y hy he]
  · exact (h.sameKey_eq hx hy).2

def identity (σ : Type) [DecidableEq σ] (toDouble : ℤ → BitVec 64) : Comparison σ toDouble where
  cfEqual x y := decide (x=y) && !x.isNaN
  sameHash _ _ := true
  self x h := by simp [h]
  only x y h := by
    rw [Bool.and_eq_true,decide_eq_true_eq,Bool.not_eq_true'] at h
    exact h.1 ▸ opEq_self h.2

end MacRuby.ArrayUnions
