import MacRuby.MarshalCopy

/-!
# The walk behind a dump

A depth-first walk meets the values of a graph one after the other and enters an
object when it meets it for the first time. The records of a dump follow from
the values that are met: each value has one record, a link where its object was
met before.
-/
namespace MacRuby.MarshalWalk
open MarshalFormat MarshalValues MarshalIntegers MarshalDump MarshalCopy Integers List Nat

variable {D : Type}

def addNew {α : Type} [DecidableEq α] (l : List α) (x : α) : List α := if x ∈ l then l else l++[x]

def objectsOf (vs : List (Val D)) : List ℕ :=
  vs.foldl (fun l v =>
    match v with
    | .ref a => addNew l a
    | _ => l) []

/-- The names of the symbols in the order in which they are first met. -/
def namesOf (vs : List (Val D)) : List Bytes :=
  vs.foldl (fun l v =>
    match v with
    | .symbol name => addNew l name
    | _ => l) []

def children : Node D → List (Val D)
  | .string _ => []
  | .array vs => vs
  | .hash es => es.flatMap fun e => [e.1,e.2]

variable (g : Graph D)

def walk : ℕ → List (Val D) → Val D → List (Val D)
  | 0,seen,v => seen++[v]
  | fuel+1,seen,v =>
    match v with
    | .ref a =>
      if a ∈ objectsOf seen then seen++[v]
      else ((g.nodes[a]?.map children).getD []).foldl (walk fuel) (seen++[v])
    | v => seen++[v]

def visits : List (Val D) := walk g (g.nodes.length+1) [] g.root

def recordOf (seen : List (Val D)) : Val D → Record D
  | .nil => .nil
  | .true => .true
  | .false => .false
  | .integer x => .integer x
  | .float d => .float d
  | .boxed d => .boxed d
  | .symbol name =>
    if name ∈ namesOf seen then .symlink ((namesOf seen).idxOf name) else .symbol name
  | .ref a =>
    if a ∈ objectsOf seen then .link ((objectsOf seen).idxOf a)
    else (g.nodes[a]?.map header).getD (.array 0)

def recordsOf : List (Val D) → List (Val D) → List (Record D)
  | _,[] => []
  | seen,v::vs => recordOf g seen v::recordsOf (seen++[v]) vs

variable {g}
variable (vs : List (Val D)) {v : Val D}

lemma objectsOf_ref (a : ℕ) : objectsOf (vs++[.ref a])=addNew (objectsOf vs) a := foldl_append

lemma namesOf_symbol (name : Bytes) :
    namesOf (vs++[.symbol name])=addNew (namesOf vs) name := foldl_append

lemma objectsOf_other (h : ∀ a, v ≠ .ref a) : objectsOf (vs++[v])=objectsOf vs := by
  rw [objectsOf,foldl_append]
  cases v with
  | ref a => exact absurd rfl (h a)
  | _ => rfl

lemma namesOf_other (h : ∀ name, v ≠ .symbol name) : namesOf (vs++[v])=namesOf vs := by
  rw [namesOf,foldl_append]
  cases v with
  | symbol name => exact absurd rfl (h name)
  | _ => rfl

lemma objectsOf_symbol (name : Bytes) :
    objectsOf (vs++[.symbol name])=objectsOf vs := objectsOf_other vs nofun

lemma namesOf_ref (a : ℕ) : namesOf (vs++[.ref a])=namesOf vs :=
  namesOf_other vs nofun

lemma recordsOf_append (seen vs : List (Val D)) (v : Val D) :
    recordsOf g seen (vs++[v])=recordsOf g seen vs++[recordOf g (seen++vs) v] := by
  induction vs generalizing seen with
  | nil =>
    rw [append_nil]
    rfl
  | cons u vs ih =>
    rw [cons_append,recordsOf,ih,append_assoc]
    rfl

def beforeFloat : List (Record D) → ℕ
  | [] => 0
  | .float _::_ => 0
  | r::rs => beforeFloat rs+if isObject r then 1 else 0

/-- A record that the format has room for. A String has an `int` for its length. -/
def Writable : Record D → Prop
  | .boxed _ => False
  | .symbol name => name.length < 2^31
  | .symlink num => num < 2^31
  | .link num => num < 2^31
  | .string s => 0 ≤ (s.len : ℤ).bmod (2^32)
  | .array len => len < 2^31
  | .hash len => len < 2^31
  | _ => True

lemma numbered_range {i k j : ℕ} {rs : List (Record D)} (h : (numbered i rs)[k]? = some (.ref j)) :
    j ≤ i+k := by
  induction rs generalizing i k with
  | nil => exact nomatch h
  | cons r rs ih =>
    have ho : (Val.ref i::numbered (i+1) rs)[k]? = some (.ref j) → j ≤ i+k := by
      intro h
      cases k with
      | zero =>
        cases h
        exact le_rfl
      | succ k =>
        have hr := ih h
        omega
    cases r with
    | float d =>
      cases k with
      | zero => exact nomatch h
      | succ k =>
        have hr := ih h
        omega
    | string | array | hash => exact ho h
    | _ => exact ih h

lemma numbered_iff (i k : ℕ) (rs : List (Record D)) :
    (numbered i rs)[k]? = some (.ref (i+k)) ↔ k < beforeFloat rs := by
  induction rs generalizing i k with
  | nil => exact ⟨nofun,nofun⟩
  | cons r rs ih =>
    have ho : (Val.ref i::numbered (i+1) rs)[k]? = some (.ref (i+k)) ↔ k < beforeFloat rs+1 := by
      cases k with
      | zero => exact ⟨fun _ => succ_pos _,fun _ => rfl⟩
      | succ k =>
        have hr := ih (i+1) k
        rw [show i+1+k=i+k+1 by omega] at hr
        exact hr.trans succ_lt_succ_iff.symm
    cases r with
    | float d =>
      refine ⟨fun h => ?_,fun h => absurd h not_lt_zero⟩
      cases k with
      | zero => exact nomatch h
      | succ k =>
        have hl := numbered_range (k := k) h
        omega
    | string | array | hash => exact ho
    | _ => exact ih i k

variable {pf : Platform D}
variable {seen : List (Val D)} {c c' : Copy D} {a : ℕ} {node : Node D}

/-- The values met so far account for the tables and the records of the writer. -/
structure Tracks (g : Graph D) (seen : List (Val D)) (c : Copy D) : Prop where
  records : c.records=recordsOf g [] seen
  objects : c.objects=objectsOf seen
  names : c.names=namesOf seen
  ok : ∀ v ∈ seen, Val.Ok g.nodes.length v

variable (g) in
def walkPart (fuel : ℕ) (t : Piece D) (seen : List (Val D)) : List (Val D) :=
  t.sources.foldl (walk g fuel) seen

lemma Tracks.setHeap (h : Tracks g seen c) (heap : Heap D) :
    Tracks g seen {c with heap := heap} :=
  ⟨h.records,h.objects,h.names,h.ok⟩

lemma Tracks.step (h : Tracks g seen c)
    (hv : Val.Ok g.nodes.length v) (hr : c'.records=c.records++[recordOf g seen v])
    (ho : c'.objects=objectsOf (seen++[v])) (hn : c'.names=namesOf (seen++[v])) :
    Tracks g (seen++[v]) c' where
  records := by
    rw [hr,h.records,recordsOf_append]
    rfl
  objects := ho
  names := hn
  ok u hu := by
    rcases mem_append.mp hu with hu | hu
    · exact h.ok u hu
    · rw [mem_singleton.mp hu]
      exact hv

lemma walk_value (h : ∀ a, v ≠ .ref a) (fuel : ℕ) (seen : List (Val D)) :
    walk g fuel seen v=seen++[v] := by
  cases fuel with
  | zero => rfl
  | succ fuel =>
    cases v with
    | ref a => exact absurd rfl (h a)
    | _ => rfl

lemma walk_met (h : a ∈ objectsOf seen) (fuel : ℕ) :
    walk g fuel seen (.ref a)=seen++[.ref a] := by
  cases fuel with
  | zero => rfl
  | succ fuel => exact if_pos h

lemma walk_new (h : a ∉ objectsOf seen) (hn : g.nodes[a]? = some node) (fuel : ℕ) :
    walk g (fuel+1) seen (.ref a)=(children node).foldl (walk g fuel) (seen++[.ref a]) := by
  simp only [walk]
  rw [if_neg h,hn]
  rfl

lemma Tracks.atom (h : Tracks g seen c)
    (hv : Val.Ok g.nodes.length v) (hre : ∀ a, v ≠ .ref a) (hsy : ∀ name, v ≠ .symbol name)
    (hr : c'.records=c.records++[recordOf g seen v]) (ho : c'.objects=c.objects)
    (hn : c'.names=c.names) (fuel : ℕ) : Tracks g (walkPart g fuel (.value v) seen) c' := by
  have hs := h.step hv hr (by rw [ho,h.objects,objectsOf_other seen hre])
    (by rw [hn,h.names,namesOf_other seen hsy])
  rw [← walk_value hre fuel seen] at hs
  exact hs

lemma Tracks.enter (h : Tracks g seen c)
    (ha : a ∉ c.objects) {node' : Node D} (hn : g.nodes[a]? = some node) :
    Tracks g (seen++[.ref a]) (c.enter a (header node) node') := by
  rw [h.objects] at ha
  refine h.step (List.getElem?_eq_some_iff.mp hn).1 ?_ ?_ ?_
  · rw [recordOf,if_neg ha,hn]
    rfl
  · rw [objectsOf_ref,addNew,if_neg ha,← h.objects]
    rfl
  · rw [namesOf_ref,← h.names]
    rfl

lemma copies_tracks {t : Piece D} {ws : List (Val D)} (h : Copies pf g t c ws c')
    (hi : Inv g c) (ht : Tracks g seen c)
    (ho : ∀ v ∈ t.sources, Val.Ok g.nodes.length v) {fuel : ℕ} (hf : unseen g c < fuel) :
    Tracks g (walkPart g fuel t seen) c' := by
  induction h generalizing seen fuel with
  | @atom v r c hr =>
    apply ht.atom (ho v mem_cons_self)
    · rintro a rfl
      exact nomatch hr
    · rintro name rfl
      exact nomatch hr
    · cases v <;> cases hr <;> rfl
    · rfl
    · rfl
  | @float d c | @boxed d c => apply ht.atom (ho _ mem_cons_self) nofun nofun <;> rfl
  | @symbol name c h =>
    rw [ht.names] at h
    change Tracks g (walk g fuel seen (.symbol name)) _
    rw [walk_value (v := .symbol name) nofun]
    apply ht.step (ho _ mem_cons_self)
    · rw [recordOf,if_neg h]
      rfl
    · rw [objectsOf_symbol,← ht.objects]
      rfl
    · rw [namesOf_symbol,addNew,if_neg h,← ht.names]
  | @symlink name s c h hs =>
    rw [ht.names] at h
    change Tracks g (walk g fuel seen (.symbol name)) _
    rw [walk_value (v := .symbol name) nofun]
    apply ht.step (ho _ mem_cons_self)
    · rw [recordOf,if_pos h,ht.names]
      rfl
    · rw [objectsOf_symbol,← ht.objects]
      rfl
    · rw [namesOf_symbol,addNew,if_pos h,← ht.names]
      rfl
  | @link a v c h hv =>
    rw [ht.objects] at h
    change Tracks g (walk g fuel seen (.ref a)) _
    rw [walk_met h fuel]
    apply ht.step (ho _ mem_cons_self)
    · rw [recordOf,if_pos h,ht.objects]
      rfl
    · rw [objectsOf_ref,addNew,if_pos h,← ht.objects]
      rfl
    · rw [namesOf_ref,← ht.names]
      rfl
  | @string a s c h hn =>
    obtain ⟨fuel,rfl⟩ : ∃ k, fuel=k+1 := ⟨fuel-1,by omega⟩
    have hne := walk_new (ht.objects ▸ h) hn fuel
    change Tracks g (walk g (fuel+1) seen (.ref a)) _
    rw [hne]
    exact ht.enter h hn
  | @array a vs ws c c' h hn hel ih =>
    obtain ⟨fuel,rfl⟩ : ∃ k, fuel=k+1 := ⟨fuel-1,by omega⟩
    have he := hi.enter_array h hn
    have hu := unseen_enter he
    have hne := walk_new (ht.objects ▸ h) hn fuel
    change Tracks g (walk g (fuel+1) seen (.ref a)) _
    rw [hne]
    exact ih he (ht.enter h hn) (g.nodes_ok _ (mem_of_getElem? hn)) (by omega)
  | @hash a es ws c c' h hn hen ih =>
    obtain ⟨fuel,rfl⟩ : ∃ k, fuel=k+1 := ⟨fuel-1,by omega⟩
    have he := hi.enter_hash h hn
    have hu := unseen_enter he
    have hne := walk_new (ht.objects ▸ h) hn fuel
    change Tracks g (walk g (fuel+1) seen (.ref a)) _
    rw [hne]
    exact ih he (ht.enter h hn) (sources_ok hn) (by omega)
  | elements_nil | entries_nil => exact ht
  | elements_cons hv hvs ihv ihvs =>
    have hl := (copies_extends hv).unseen_le (g := g)
    have hfi := ihv hi ht (fun v hv => ho v (mem_singleton.mp hv ▸ mem_cons_self)) hf
    exact ihvs ((copies_inv hv hi).push _ _) (hfi.setHeap _)
      (fun v hv => ho v (mem_cons_of_mem _ hv)) (lt_of_le_of_lt hl hf)
  | entries_cons hk hv hes ihk ihv ihes =>
    have hi₁ := copies_inv hk hi
    have hl₁ := (copies_extends hk).unseen_le (g := g)
    have hl₂ := (copies_extends hv).unseen_le (g := g)
    have hfi := ihk hi ht (fun v hv => ho v (mem_singleton.mp hv ▸ mem_cons_self)) hf
    have hse := ihv hi₁ hfi (fun v hv => ho v
      (mem_cons_of_mem _ (mem_singleton.mp hv ▸ mem_cons_self))) (lt_of_le_of_lt hl₁ hf)
    exact ihes ((copies_inv hv hi₁).aset _ _ _) (hse.setHeap _)
      (fun v hv => ho v (mem_cons_of_mem _ (mem_cons_of_mem _ hv)))
      (lt_of_le_of_lt (hl₂.trans hl₁) hf)

variable {α : Type} {x : α} {num : ℕ}

def isFloat : Val D → Bool
  | .float _ => true
  | _ => false

def Shared (vs : List (Val D)) : Prop :=
  ∀ seen a rest, vs=seen++.ref a::rest → .ref a ∈ seen → .ref a ∈ vs.takeWhile (!isFloat ·)

lemma mem_addNew [DecidableEq α] {l : List α} {y : α} : y ∈ addNew l x ↔ y ∈ l ∨ y=x := by
  rw [addNew]
  split_ifs with h
  · refine ⟨.inl,fun hy => hy.elim id ?_⟩
    rintro rfl
    exact h
  · rw [mem_append,mem_singleton]

lemma addNew_extends [DecidableEq α] (l : List α) (x : α) : l <+: addNew l x := by
  rw [addNew]
  split_ifs
  · exact prefix_rfl
  · exact prefix_append _ _

lemma ref_or_not (v : Val D) : (∃ a, v=.ref a) ∨ ∀ a, v ≠ .ref a := by
  by_cases h : ∃ a, v=.ref a
  · exact .inl h
  · exact .inr fun a ha => h ⟨a,ha⟩

lemma mem_objectsOf {a : ℕ} (vs : List (Val D)) : a ∈ objectsOf vs ↔ .ref a ∈ vs := by
  induction vs using reverseRecOn with
  | nil => exact ⟨nofun,nofun⟩
  | append_singleton vs v ih =>
    rw [mem_append,mem_singleton]
    rcases ref_or_not v with ⟨b,rfl⟩ | hv
    · rw [objectsOf_ref,mem_addNew,ih]
      exact or_congr_right ⟨congrArg _,Val.ref.inj⟩
    · rw [objectsOf_other vs hv,ih]
      exact ⟨.inl,fun h => h.elim id fun he => absurd he.symm (hv a)⟩

lemma objectsOf_extends (vs us : List (Val D)) : objectsOf vs <+: objectsOf (vs++us) := by
  induction us using reverseRecOn with
  | nil =>
    rw [append_nil]
  | append_singleton us v ih =>
    rw [← append_assoc]
    rcases ref_or_not v with ⟨b,rfl⟩ | hv
    · rw [objectsOf_ref]
      exact ih.trans (addNew_extends _ b)
    · rw [objectsOf_other _ hv]
      exact ih

lemma header_ne_link (node : Node D) (num : ℕ) : header node ≠ .link num := by
  cases node <;> exact nofun

lemma recordOf_eq_link : recordOf g seen v=.link num ↔
      ∃ a, v=.ref a ∧ .ref a ∈ seen ∧ num=(objectsOf seen).idxOf a := by
  constructor
  · intro h
    cases v with
    | ref a =>
      rw [recordOf] at h
      split_ifs at h with hm
      · cases h
        exact ⟨a,rfl,(mem_objectsOf seen).mp hm,rfl⟩
      · cases hn : g.nodes[a]? with
        | none =>
          rw [hn] at h
          exact nomatch h
        | some node =>
          rw [hn] at h
          exact absurd h (header_ne_link node num)
    | symbol name =>
      rw [recordOf] at h
      split_ifs at h
    | _ => exact nomatch h
  · rintro ⟨a,rfl,hm,rfl⟩
    rw [recordOf,if_pos ((mem_objectsOf seen).mpr hm)]

lemma recordOf_eq_integer {x : Integer} (h : recordOf g seen v=.integer x) : v=.integer x := by
  cases v with
  | integer y =>
    cases h
    rfl
  | symbol name =>
    rw [recordOf] at h
    split_ifs at h
  | ref a =>
    rw [recordOf] at h
    split_ifs at h
    cases hn : g.nodes[a]? with
    | none =>
      rw [hn] at h
      exact nomatch h
    | some node =>
      rw [hn] at h
      cases node <;> exact nomatch h
  | _ => exact nomatch h

lemma integer_mem_recordsOf {x : Integer} {vs : List (Val D)}
    (h : .integer x ∈ recordsOf g seen vs) : .integer x ∈ vs := by
  induction vs generalizing seen with
  | nil => exact nomatch h
  | cons v vs ih =>
    rcases mem_cons.mp h with h | h
    · rw [recordOf_eq_integer h.symm]
      exact mem_cons_self
    · exact mem_cons_of_mem _ (ih h)

lemma link_mem_recordsOf (seen vs : List (Val D)) :
    .link num ∈ recordsOf g seen vs ↔ ∃ pre a post, vs=pre++.ref a::post ∧ .ref a ∈ seen++pre ∧
      num=(objectsOf (seen++pre)).idxOf a := by
  induction vs generalizing seen with
  | nil =>
    refine ⟨nofun,?_⟩
    rintro ⟨pre,a,post,he,-⟩
    exact absurd he.symm (by simp)
  | cons v vs ih =>
    rw [recordsOf,mem_cons,eq_comm,recordOf_eq_link,ih]
    constructor
    · rintro (⟨a,rfl,hm,rfl⟩ | ⟨pre,a,post,rfl,hm,rfl⟩)
      · exact ⟨[],a,vs,rfl,by rwa [append_nil],by rw [append_nil]⟩
      · rw [append_assoc] at hm ⊢
        exact ⟨v::pre,a,post,rfl,hm,rfl⟩
    · rintro ⟨pre,a,post,he,hm,rfl⟩
      cases pre with
      | nil =>
        rw [append_nil] at hm ⊢
        cases he
        exact .inl ⟨a,rfl,hm,rfl⟩
      | cons u pre =>
        cases he
        refine .inr ⟨pre,a,post,rfl,?_,?_⟩ <;> rw [append_assoc]
        · exact hm
        · rfl

lemma isObject_header (node : Node D) : isObject (header node)=true := by
  cases node <;> rfl

lemma length_objectsOf_append (seen : List (Val D)) (v : Val D) : (objectsOf (seen++[v])).length =
      (objectsOf seen).length+if isObject (recordOf g seen v) then 1 else 0 := by
  cases v with
  | ref a =>
    rw [objectsOf_ref,addNew,recordOf]
    split_ifs with hm ho ho
    · exact nomatch ho
    · rfl
    · exact length_append
    · cases hn : g.nodes[a]? with
      | none =>
        rw [hn] at ho
        exact absurd rfl ho
      | some node =>
        rw [hn] at ho
        exact absurd (isObject_header node) ho
  | symbol name =>
    rw [objectsOf_symbol,recordOf]
    split_ifs with hm ho ho
    · exact nomatch ho
    · rfl
    · exact nomatch ho
    · rfl
  | _ => exact congrArg length (objectsOf_other seen (by intro _ h; cases h))

lemma beforeFloat_cons {r : Record D} (h : ∀ d, r ≠ .float d) (rs : List (Record D)) :
    beforeFloat (r::rs)=beforeFloat rs+if isObject r then 1 else 0 := by
  cases r with
  | float d => exact absurd rfl (h d)
  | _ => rfl

lemma recordOf_ne_float (h : isFloat v=false) (d : D) : recordOf g seen v ≠ .float d := by
  cases v with
  | float d => exact nomatch h
  | symbol name =>
    rw [recordOf]
    split_ifs <;> exact nofun
  | ref a =>
    rw [recordOf]
    split_ifs
    · exact nofun
    · cases g.nodes[a]? with
      | none => exact nofun
      | some node => cases node <;> exact nofun
  | _ => exact nofun

lemma beforeFloat_recordsOf (seen vs : List (Val D)) :
    (objectsOf seen).length+beforeFloat (recordsOf g seen vs) =
      (objectsOf (seen++vs.takeWhile (!isFloat ·))).length := by
  induction vs generalizing seen with
  | nil => rw [recordsOf,beforeFloat,takeWhile_nil,append_nil,add_zero]
  | cons v vs ih =>
    rw [recordsOf,takeWhile_cons]
    cases hf : isFloat v with
    | true =>
      have hv : beforeFloat (recordOf g seen v::recordsOf g (seen++[v]) vs)=0 := by
        cases v with
        | float d => rfl
        | _ => exact nomatch hf
      rw [hv,if_neg (by decide),append_nil,add_zero]
    | false =>
      have hn := ih (seen++[v])
      rw [length_objectsOf_append,append_assoc] at hn
      rw [beforeFloat_cons (recordOf_ne_float hf),add_comm (beforeFloat _), ← add_assoc]
      exact hn

lemma idxOf_of_extends [DecidableEq α] {l l' : List α} (h : l <+: l') (hx : x ∈ l) :
    l'.idxOf x=l.idxOf x := by
  obtain ⟨t,rfl⟩ := h
  exact idxOf_append_of_mem hx

lemma idxOf_lt_iff_of_extends [DecidableEq α] {l l' : List α} (h : l <+: l') :
    l'.idxOf x < l.length ↔ x ∈ l := by
  constructor
  · intro hl
    by_contra hx
    obtain ⟨t,rfl⟩ := h
    rw [idxOf_append_of_notMem hx] at hl
    omega
  · intro hx
    rw [idxOf_of_extends h hx]
    exact idxOf_lt_length_of_mem hx

lemma links_iff (vs : List (Val D)) :
    (∀ num, .link num ∈ recordsOf g [] vs → num < beforeFloat (recordsOf g [] vs)) ↔ Shared vs := by
  have hc : beforeFloat (recordsOf g [] vs)=(objectsOf (vs.takeWhile (!isFloat ·))).length := by
    have h := beforeFloat_recordsOf (g := g) [] vs
    exact (zero_add _).symm.trans h
  have hs : objectsOf (vs.takeWhile (!isFloat ·)) <+: objectsOf vs := by
    have h := objectsOf_extends (vs.takeWhile (!isFloat ·)) (vs.dropWhile (!isFloat ·))
    rwa [takeWhile_append_dropWhile] at h
  -- the number of an object is its place among all objects
  have hn : ∀ {seen a rest}, vs=seen++.ref a::rest → .ref a ∈ seen →
      ((objectsOf seen).idxOf a < beforeFloat (recordsOf g [] vs) ↔ .ref a ∈ vs.takeWhile (!isFloat ·)) := by
    intro seen a rest he hm
    have hse : objectsOf seen <+: objectsOf vs := he ▸ objectsOf_extends _ _
    rw [hc,← idxOf_of_extends hse ((mem_objectsOf _).mpr hm),idxOf_lt_iff_of_extends hs,
      mem_objectsOf]
  constructor
  · intro h seen a rest he hm
    exact (hn he hm).mp (h _ ((link_mem_recordsOf [] vs).mpr ⟨seen,a,rest,he,hm,rfl⟩))
  · intro h num hnu
    obtain ⟨seen,a,rest,he,hm,rfl⟩ := (link_mem_recordsOf [] vs).mp hnu
    exact (hn he hm).mpr (h seen a rest he hm)

end MacRuby.MarshalWalk
