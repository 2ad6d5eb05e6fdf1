import MacRuby.MarshalRebuild
import MacRuby.MarshalWalk

/-!
# Sharing after a dump and a load

A loaded graph is isomorphic to the original when a relation pairs their objects
one to one and pairs the contents of paired objects. Immediate Floats have no
number for the writer and one for the reader, so a link behind a Float resolves
to another object. The graph is isomorphic exactly when every object that occurs
again first occurs before the first Float, no record is beyond the format, and
no Hash is given a key that it already has.
-/
namespace MacRuby.MarshalSharing
open List Nat
open MarshalFormat MarshalLoad MarshalValues MarshalIntegers MarshalDump MarshalCopy MarshalRebuild
open MarshalWalk Integers

section Isomorphism
variable {D : Type} (R : ℕ → ℕ → Prop)

inductive SameVal : Val D → Val D → Prop
  | nil : SameVal .nil .nil
  | true : SameVal .true .true
  | false : SameVal .false .false
  | integer (x : Integer) : SameVal (.integer x) (.integer x)
  | float (d : D) : SameVal (.float d) (.float d)
  | symbol (name : Bytes) : SameVal (.symbol name) (.symbol name)
  | ref {a b : ℕ} (h : R a b) : SameVal (.ref a) (.ref b)

/-- Contents that are paired; a String is loaded as the C string of what was written. -/
inductive SameNode : Node D → Node D → Prop
  | string {s t : Str} (h : t.ptr=cstr (cut s.ptr s.len)) : SameNode (.string s) (.string t)
  | array {vs ws : List (Val D)} (h : List.Forall₂ (SameVal R) vs ws) : SameNode (.array vs) (.array ws)
  | hash {es fs : List (Val D × Val D)}
      (h : List.Forall₂ (fun e f => SameVal R e.1 f.1 ∧ SameVal R e.2 f.2) es fs) :
      SameNode (.hash es) (.hash fs)

/-- Two positions of the one graph hold the same object exactly when the corresponding
positions of the other do. -/
structure Isomorphism (nodes nodes' : List (Node D)) (v w : Val D) : Prop where
  root : SameVal R v w
  right_unique : ∀ {a b b'}, R a b → R a b' → b=b'
  left_unique : ∀ {a a' b}, R a b → R a' b → a=a'
  contents : ∀ {a b}, R a b → ∃ node node', nodes[a]? = some node ∧ nodes'[b]? = some node' ∧
    SameNode R node node'

variable {pf : Platform D} {g : Graph D} {b j : ℕ} {ws vs : List (Val D)} {h : Heap D}
variable {t : Piece D}

def Piece.target : Piece D → Option ℕ
  | .value _ => none
  | .elements b _ => some b
  | .entries b _ => some b

lemma length_enter (c : Copy D) (a : ℕ) (r : Record D) (node : Node D) :
    (c.enter a r node).heap.nodes.length=c.heap.nodes.length+1 := length_append

lemma copies_length {c c' : Copy D} (h : Copies pf g t c ws c')
    (hi : Inv g c) : c.heap.nodes.length ≤ c'.heap.nodes.length := by
  rw [hi.heap,(copies_inv h hi).heap]
  exact (copies_extends h).objects.length_le

lemma push_getElem?_of_ne (hn : j ≠ b) (v : Val D) : (h.push b v).nodes[j]? = h.nodes[j]? := by
  change (h.nodes.modify b _)[j]? = _
  simp only [getElem?_modify,if_neg hn.symm]
  exact Option.map_id'

lemma aset_getElem?_of_ne (hn : j ≠ b) (k v : Val D) :
    (h.aset pf b k v).nodes[j]? = h.nodes[j]? := by
  rw [Heap.aset]
  split
  · exact getElem?_set_ne hn.symm
  · rfl

lemma copies_frame {c c' : Copy D} (h : Copies pf g t c ws c')
    (hi : Inv g c) (hj : j < c.heap.nodes.length) (hne : Piece.target t ≠ some j) :
    c'.heap.nodes[j]? = c.heap.nodes[j]? := by
  induction h with
  | string _ _ => exact getElem?_append_left hj
  | array h hn _ ih =>
    rw [ih (hi.enter_array h hn) (by rw [length_enter]; omega)
      fun he => absurd (Option.some.inj he) (ne_of_gt hj)]
    exact getElem?_append_left hj
  | hash h hn _ ih =>
    rw [ih (hi.enter_hash h hn) (by rw [length_enter]; omega)
      fun he => absurd (Option.some.inj he) (ne_of_gt hj)]
    exact getElem?_append_left hj
  | @elements_cons b v w vs ws c c₁ c' hv hvs ihv ihvs =>
    have hjb : j ≠ b := fun he => hne (congrArg some he.symm)
    have hl := copies_length hv hi
    rw [ihvs ((copies_inv hv hi).push _ _) (by rw [length_push]; omega) hne]
    exact (push_getElem?_of_ne hjb w).trans (ihv hi hj nofun)
  | @entries_cons b k v k' v' es ws c c₁ c₂ c' hk hv hes ihk ihv ihes =>
    have hjb : j ≠ b := fun he => hne (congrArg some he.symm)
    have hi₁ := copies_inv hk hi
    have hl₁ := copies_length hk hi
    have hl₂ := copies_length hv hi₁
    rw [ihes ((copies_inv hv hi₁).aset _ _ _) (by rw [length_aset]; omega) hne]
    exact (aset_getElem?_of_ne hjb k' v').trans ((ihv hi₁ (by omega) nofun).trans (ihk hi hj nofun))
  | _ => rfl

lemma frame_push {w : Val D} {c c' : Copy D}
    (h : Copies pf g (.elements b vs) {c with heap := c.heap.push b w} ws c') (hi : Inv g c)
    (hj : j < c.heap.nodes.length) (hn : j ≠ b) : c'.heap.nodes[j]? = c.heap.nodes[j]? :=
  (copies_frame h (hi.push b w) (by rwa [length_push])
    fun he => hn (Option.some.inj he).symm).trans (push_getElem?_of_ne hn w)

lemma frame_aset {k v : Val D} {es : List (Val D × Val D)}
    {c c' : Copy D} (h : Copies pf g (.entries b es) {c with heap := c.heap.aset pf b k v} ws c')
    (hi : Inv g c) (hj : j < c.heap.nodes.length) (hn : j ≠ b) :
    c'.heap.nodes[j]? = c.heap.nodes[j]? :=
  (copies_frame h (hi.aset b k v) (by rwa [length_aset])
    fun he => hn (Option.some.inj he).symm).trans (aset_getElem?_of_ne hn k v)

lemma copies_elements {us : List (Val D)} {c c' : Copy D}
    (h : Copies pf g (.elements b vs) c ws c') (hi : Inv g c)
    (hn : c.heap.nodes[b]? = some (.array us)) : c'.heap.nodes[b]? = some (.array (us++ws)) := by
  induction vs generalizing us ws c with
  | nil =>
    cases h
    rw [append_nil]
    exact hn
  | cons v vs ih =>
    cases h with
    | @elements_cons _ _ w _ ws _ c₁ _ hv hvs =>
      have hl := (List.getElem?_eq_some_iff.mp hn).1
      have hf := (copies_frame hv hi hl nofun).trans hn
      have hp : (c₁.heap.push b w).nodes[b]? = some (.array (us++[w])) := by
        change (c₁.heap.nodes.modify b _)[b]? = _
        simp only [getElem?_modify,hf]
        rfl
      have hr := ih hvs ((copies_inv hv hi).push _ _) hp
      rw [hr,append_assoc]
      rfl

def pairUp : List (Val D) → List (Val D × Val D)
  | k::v::ws => (k.throughHash,v.throughHash)::pairUp ws
  | _ => []

lemma setValue_spec (same : Val D → Bool) (k v : Val D) (es : List (Val D × Val D)) :
    ((setValue same k v es).2=false → (setValue same k v es).1=es++[(k,v)]) ∧
      ((setValue same k v es).2=true → (setValue same k v es).1.length=es.length) := by
  induction es with
  | nil => exact ⟨fun _ => rfl,nofun⟩
  | cons e es ih =>
    rw [setValue]
    split_ifs with hs
    · exact ⟨nofun,fun _ => rfl⟩
    · exact ⟨fun h => congrArg (e::·) (ih.1 h),fun h => congrArg (·+1) (ih.2 h)⟩

variable (pf) in
lemma aset_cases {fs : List (Val D × Val D)} (hn : h.nodes[b]? = some (.hash fs)) (k v : Val D) :
    (h.aset pf b k v).nodes[b]? = some (.hash (fs++[(k.throughHash,v.throughHash)])) ∧
        (h.aset pf b k v).merged=h.merged ∨
      (∃ fs', (h.aset pf b k v).nodes[b]? = some (.hash fs') ∧ fs'.length=fs.length) ∧
        (h.aset pf b k v).merged=true := by
  have hl := (List.getElem?_eq_some_iff.mp hn).1
  have hs := setValue_spec (fun k' => pf.sameKey h.nodes k' k.throughHash) k.throughHash v.throughHash fs
  rw [Heap.aset,hn]
  dsimp only
  cases hm : (setValue (fun k' => pf.sameKey h.nodes k' k.throughHash) k.throughHash v.throughHash fs).2 with
  | false =>
    refine .inl ⟨?_,Bool.or_false _⟩
    rw [getElem?_set_self hl,hs.1 hm]
  | true =>
    refine .inr ⟨⟨_,getElem?_set_self hl,hs.2 hm⟩,Bool.or_true _⟩

/-- Either all entries end up in the Hash in order, or it has fewer and was given a key twice. -/
lemma copies_entries {es fs : List (Val D × Val D)} {c c' : Copy D}
    (h : Copies pf g (.entries b es) c ws c') (hi : Inv g c)
    (hn : c.heap.nodes[b]? = some (.hash fs)) :
    c'.heap.nodes[b]? = some (.hash (fs++pairUp ws)) ∧ (pairUp ws).length=es.length ∨
      (∃ fs', c'.heap.nodes[b]? = some (.hash fs') ∧ fs'.length < fs.length+es.length) ∧
        c'.heap.merged=true := by
  induction es generalizing fs ws c with
  | nil =>
    cases h
    left
    rw [pairUp,append_nil]
    · exact ⟨hn,rfl⟩
    · exact nofun
  | cons e es ih =>
    cases h with
    | @entries_cons _ k v k' v' _ ws _ c₁ c₂ _ hk hv he =>
      have hi₁ := copies_inv hk hi
      have hl := (List.getElem?_eq_some_iff.mp hn).1
      have hle := copies_length hk hi
      have hfr := (copies_frame hv hi₁ (by omega) nofun).trans
        ((copies_frame hk hi hl nofun).trans hn)
      have hi₂ : Inv g {c₂ with heap := c₂.heap.aset pf b k' v'} := (copies_inv hv hi₁).aset _ _ _
      rw [length_cons]
      rcases aset_cases pf hfr k' v' with ⟨hs,-⟩ | ⟨⟨fs',hs,hfs'⟩,hm⟩
      · rcases ih he hi₂ hs with ⟨ha,hc⟩ | ⟨⟨fs',hf,hl'⟩,hm⟩
        · left
          rw [ha,append_assoc,pairUp,length_cons,hc]
          exact ⟨rfl,rfl⟩
        · right
          rw [length_append,length_singleton] at hl'
          exact ⟨⟨fs',hf,by omega⟩,hm⟩
      · right
        refine ⟨?_,(copies_extends he).merged hm⟩
        rcases ih he hi₂ hs with ⟨ha,hc⟩ | ⟨⟨fs'',hf,hl'⟩,-⟩
        · exact ⟨_,ha,by rw [length_append]; omega⟩
        · exact ⟨fs'',hf,by omega⟩

variable {f : Copy D}
variable {R} {c c' : Copy D} {a : ℕ} {r : Record D}
variable {node : Node D}

lemma getElem?_of_extends {α : Type} {l l' : List α} {i : ℕ} {x : α} (h : l <+: l') (hx : l[i]? = some x) :
    l'[i]? = some x := by
  obtain ⟨t,rfl⟩ := h
  rw [getElem?_append_left (List.getElem?_eq_some_iff.mp hx).1]
  exact hx

/-- The object at an address of the heap is the copy of the object with that number. -/
def CopyOf (f : Copy D) (a b : ℕ) : Prop := f.objects[b]? = some a

lemma copyOf_enter (hi : Inv g c)
    (h : Extends (c.enter a r node) f) : CopyOf f a c.heap.nodes.length := by
  refine getElem?_of_extends h.objects ?_
  rw [hi.heap]
  exact getElem?_concat_length

/-- If every link resolves and every record is written, each value is loaded as itself or as the
copy of its object. -/
lemma copies_same (h : Copies pf g t c ws c')
    (hi : Inv g c) (he : Extends c' f) (hw : ∀ r ∈ f.records, Writable r)
    (hl : ∀ num, .link num ∈ f.records → f.data[num]? = some (.ref num)) :
    List.Forall₂ (SameVal (CopyOf f)) t.sources ws := by
  have ho : ∀ {v w : Val D}, SameVal (CopyOf f) v w → Forall₂ (SameVal (CopyOf f)) [v] [w] :=
    fun h => .cons h .nil
  have hrec : ∀ {c : Copy D} {r : Record D}, Extends (c.note r) f → r ∈ f.records :=
    fun h => h.records.subset (mem_append_right _ mem_cons_self)
  induction h with
  | @atom v r c hr =>
    refine ho ?_
    cases v <;> cases hr <;> constructor
  | float => exact ho (.float _)
  | @boxed d c => exact absurd (hw _ (hrec he)) id
  | @symbol name c h =>
    have hm : Record.symbol name ∈ f.records :=
      he.records.subset (mem_append_right _ mem_cons_self)
    rw [cut_self (hw _ hm)]
    exact ho (.symbol name)
  | @symlink name s c h hs =>
    have hm : Record.symbol name ∈ f.records :=
      ((extends_note c _).trans he).records.subset (hi.names name h)
    have heq := (hi.loaded_some h).symm.trans hs
    rw [cut_self (hw _ hm)] at heq
    cases heq
    exact ho (.symbol name)
  | @link a v c h hv =>
    have hd := getElem?_of_extends he.data hv
    rw [hl _ (hrec he)] at hd
    cases hd
    refine ho (.ref (getElem?_of_extends he.objects ?_))
    change c.objects[c.objects.idxOf a]? = some a
    rw [getElem?_eq_getElem (idxOf_lt_length_of_mem h),getElem_idxOf]
  | string h hn => exact ho (.ref (copyOf_enter hi he))
  | array h hn hel ih => exact ho (.ref (copyOf_enter hi ((copies_extends hel).trans he)))
  | hash h hn hen ih => exact ho (.ref (copyOf_enter hi ((copies_extends hen).trans he)))
  | elements_nil | entries_nil => exact .nil
  | elements_cons hv hvs ihv ihvs =>
    have hre := (extends_push _ _ _).trans ((copies_extends hvs).trans he)
    obtain ⟨⟩ | ⟨hsa,-⟩ := ihv hi hre
    exact .cons hsa (ihvs ((copies_inv hv hi).push _ _) he)
  | entries_cons hk hv hes ihk ihv ihes =>
    have hi₁ := copies_inv hk hi
    have hre := (extends_aset _ _ _ _).trans ((copies_extends hes).trans he)
    obtain ⟨⟩ | ⟨hke,-⟩ := ihk hi ((copies_extends hv).trans hre)
    obtain ⟨⟩ | ⟨hva,-⟩ := ihv hi₁ hre
    exact .cons hke (.cons hva (ihes ((copies_inv hv hi₁).aset _ _ _) he))

lemma throughHash_same {v w : Val D} (h : SameVal R v w)
    (hv : v.throughHash=v) : w.throughHash=w := by
  cases h <;> first
    | rfl
    | exact hv

lemma pairUp_same {b : ℕ} {es : List (Val D × Val D)}
    (h : List.Forall₂ (SameVal R) (Piece.entries b es).sources ws)
    (hes : ∀ e ∈ es, e.1.throughHash=e.1 ∧ e.2.throughHash=e.2) :
    List.Forall₂ (fun e f => SameVal R e.1 f.1 ∧ SameVal R e.2 f.2) es (pairUp ws) := by
  induction es generalizing ws with
  | nil =>
    cases h
    exact .nil
  | cons e es ih =>
    obtain ⟨hke,hva⟩ := hes e mem_cons_self
    cases h with
    | cons hk h =>
      cases h with
      | cons hv h =>
        have hr := ih h fun e he => hes e (mem_cons_of_mem _ he)
        rw [pairUp,throughHash_same hk hke,throughHash_same hv hva]
        exact .cons ⟨hk,hv⟩ hr

lemma sameNode_string (pf : Platform D) (s : Str) :
    SameNode R (.string s) (loadedString pf s) := by
  have hp : ∀ u, u=cstr (cut s.ptr s.len) →
      SameNode R (.string s : Node D) (.string ⟨u,pf.units u,pf.units_le u⟩) := fun u hu => .string hu
  exact hp _ rfl

def Paired (g : Graph D) (f c : Copy D) (j : ℕ) : Prop :=
  ∃ a node node', f.objects[j]? = some a ∧ g.nodes[a]? = some node ∧ c.heap.nodes[j]? = some node' ∧
    SameNode (CopyOf f) node node'

lemma Paired.congr (h : Paired g f c j)
    (he : c'.heap.nodes[j]? = c.heap.nodes[j]?) : Paired g f c' j := by
  obtain ⟨a,node,node',ho,hn,hn',hs⟩ := h
  exact ⟨a,node,node',ho,hn,he.trans hn',hs⟩

lemma enter_getElem? (c : Copy D) (a : ℕ) (r : Record D) (node : Node D) :
    (c.enter a r node).heap.nodes[c.heap.nodes.length]? = some node := List.getElem?_concat_length

lemma target_enter (b : ℕ)
    (hb : some c.heap.nodes.length=some b) : b < (c.enter a r node).heap.nodes.length := by
  cases hb
  rw [length_enter]
  exact lt_succ_self _

/-- If besides no Hash is given a key twice, the new objects have the contents they should. -/
lemma copies_paired (h : Copies pf g t c ws c')
    (hi : Inv g c) (hex : Extends c' f) (hw : ∀ r ∈ f.records, Writable r)
    (hl : ∀ num, .link num ∈ f.records → f.data[num]? = some (.ref num)) (hm : f.heap.merged=false)
    (ht : ∀ b, Piece.target t=some b → b < c.heap.nodes.length)
    (hj : c.heap.nodes.length ≤ j) (hj' : j < c'.heap.nodes.length) : Paired g f c' j := by
  induction h with
  | @string a s c h hn =>
    rw [length_enter] at hj'
    obtain rfl : j=c.heap.nodes.length := by omega
    exact ⟨a,_,_,copyOf_enter hi hex,hn,enter_getElem? _ _ _ _,sameNode_string pf s⟩
  | @array a vs ws c c' h hn hel ih =>
    have hen := hi.enter_array h hn
    rcases lt_or_eq_of_le hj with hlt | rfl
    · exact ih hen hex target_enter (by rwa [length_enter]) hj'
    · have hsa := copies_same hel hen hex hw hl
      have hfi := copies_elements hel hen (enter_getElem? _ _ _ _)
      exact ⟨a,_,_,copyOf_enter hi ((copies_extends hel).trans hex),hn,hfi,.array hsa⟩
  | @hash a es ws c c' h hn hent ih =>
    have hen := hi.enter_hash h hn
    rcases lt_or_eq_of_le hj with hlt | rfl
    · exact ih hen hex target_enter (by rwa [length_enter]) hj'
    · have hsa := copies_same hent hen hex hw hl
      have ho : ∀ e ∈ es, e.1.throughHash=e.1 ∧ e.2.throughHash=e.2 :=
        fun e he => (g.nodes_ok _ (mem_of_getElem? hn) e he).2.2
      rcases copies_entries hent hen (enter_getElem? _ _ _ _) with ⟨hfi,-⟩ | ⟨-,htw⟩
      · exact ⟨a,_,_,copyOf_enter hi ((copies_extends hent).trans hex),hn,hfi,
          .hash (pairUp_same hsa ho)⟩
      · rw [hex.merged htw] at hm
        exact nomatch hm
  | @elements_cons b v w vs ws c c₁ c' hv hvs ihv ihvs =>
    have hb := ht b rfl
    have hle := copies_length hv hi
    have hi₁ := copies_inv hv hi
    by_cases hne : j < c₁.heap.nodes.length
    · have hf := ihv hi ((extends_push _ _ _).trans ((copies_extends hvs).trans hex)) nofun hj hne
      exact hf.congr (frame_push hvs hi₁ hne (by omega))
    · refine ihvs (hi₁.push b w) hex (fun b' hb' => ?_) (by rw [length_push]; omega) hj'
      cases hb'
      rw [length_push]
      omega
  | @entries_cons b k v k' v' es ws c c₁ c₂ c' hk hv hes ihk ihv ihes =>
    have hb := ht b rfl
    have hi₁ := copies_inv hk hi
    have hi₂ := copies_inv hv hi₁
    have hle₁ := copies_length hk hi
    have hle₂ := copies_length hv hi₁
    have hr := (extends_aset c₂ b k' v').trans ((copies_extends hes).trans hex)
    by_cases hf : j < c₁.heap.nodes.length
    · have hp := ihk hi ((copies_extends hv).trans hr) nofun hj hf
      exact (hp.congr (copies_frame hv hi₁ hf nofun)).congr
        (frame_aset hes hi₂ (by omega) (by omega))
    by_cases hs : j < c₂.heap.nodes.length
    · have hp := ihv hi₁ hr nofun (by omega) hs
      exact hp.congr (frame_aset hes hi₂ hs (by omega))
    · refine ihes (hi₂.aset b k' v') hex (fun b' hb' => ?_) (by rw [length_aset]; omega) hj'
      cases hb'
      rw [length_aset]
      omega
  | _ => exact absurd hj' (Nat.not_lt_of_le hj)

variable {b : ℕ}
variable {nodes nodes' : List (Node D)}

/-- Nothing has gone wrong yet: registered objects are paired with what was loaded for them, links
resolve, and no key was given twice. -/
structure Intact (R : ℕ → ℕ → Prop) (c : Copy D) : Prop where
  paired : ∀ {i a : ℕ}, c.objects[i]? = some a → R a i
  links : ∀ num, .link num ∈ c.records → c.data[num]? = some (.ref num)
  symbols : ∀ name, .symbol name ∈ c.records → name.length < 2^31
  unmerged : c.heap.merged=false

lemma Intact.note (h : Intact R c) (hr : ∀ num, r=.link num → c.data[num]? = some (.ref num))
    (hs : ∀ name, r=.symbol name → name.length < 2^31) : Intact R (c.note r) where
  paired := h.paired
  symbols name hn := by
    rcases mem_append.mp hn with hn | hn
    · exact h.symbols name hn
    · exact hs name (mem_singleton.mp hn).symm
  links num hnu := by
    rcases mem_append.mp hnu with hnu | hnu
    · exact h.links num hnu
    · exact hr num (mem_singleton.mp hnu).symm
  unmerged := h.unmerged

lemma Intact.enter (h : Intact R c) (hin : Inv g c)
    (hr : isObject r=true) (ha : R a c.heap.nodes.length) : Intact R (c.enter a r node) where
  paired {i a'} hi := by
    by_cases hlt : i < c.objects.length
    · change (c.objects++[a])[i]? = _ at hi
      rw [getElem?_append_left hlt] at hi
      exact h.paired hi
    · have hl := (List.getElem?_eq_some_iff.mp hi).1
      change i < (c.objects++[a]).length at hl
      rw [length_append,length_singleton] at hl
      obtain rfl : i=c.objects.length := by omega
      have he : some a=some a' := getElem?_concat_length.symm.trans hi
      cases he
      rw [hin.heap] at ha
      exact ha
  links num hnu := by
    rcases mem_append.mp hnu with hnu | hnu
    · exact getElem?_of_extends (prefix_append _ _) (h.links num hnu)
    · rw [← mem_singleton.mp hnu] at hr
      exact nomatch hr
  symbols name hn := by
    rcases mem_append.mp hn with hn | hn
    · exact h.symbols name hn
    · rw [← mem_singleton.mp hn] at hr
      exact nomatch hr
  unmerged := h.unmerged

lemma Intact.setHeap (h : Intact R c) {heap : Heap D}
    (hm : heap.merged=c.heap.merged) : Intact R {c with heap := heap} :=
  ⟨h.paired,h.links,h.symbols,hm.trans h.unmerged⟩

/-- What an isomorphism asks of a part: its values are paired with what is loaded, and a Hash
gets an entry for each. -/
def Expected (R : ℕ → ℕ → Prop) (t : Piece D) (c : Copy D) (ws : List (Val D)) (c' : Copy D) : Prop :=
  List.Forall₂ (SameVal R) t.sources ws ∧
    match t with
    | .entries b es => ∃ fs fs', c.heap.nodes[b]? = some (.hash fs) ∧
        c'.heap.nodes[b]? = some (.hash fs') ∧ fs'.length=fs.length+es.length
    | _ => True

lemma sameVal_throughHash {v w : Val D} (h : SameVal R v w.throughHash) : SameVal R v w := by
  cases w with
  | float d => exact nomatch h
  | _ => exact h

lemma pairUp_sources {es : List (Val D × Val D)}
    (hl : ws.length=(Piece.entries b es).sources.length)
    (h : List.Forall₂ (fun e f => SameVal R e.1 f.1 ∧ SameVal R e.2 f.2) es (pairUp ws)) :
    List.Forall₂ (SameVal R) (Piece.entries b es).sources ws := by
  induction es generalizing ws with
  | nil =>
    rw [length_eq_zero_iff.mp hl]
    exact .nil
  | cons e es ih =>
    cases ws with
    | nil => exact nomatch hl
    | cons k ws =>
      cases ws with
      | nil => exact nomatch hl
      | cons v ws =>
        cases h with
        | cons he hes =>
          exact .cons (sameVal_throughHash he.1) (.cons (sameVal_throughHash he.2)
            (ih (succ.inj (succ.inj hl)) hes))

lemma copies_sources_length (h : Copies pf g t c ws c') : ws.length=t.sources.length := by
  induction h with
  | elements_cons _ _ _ ih => exact congrArg (·+1) ih
  | entries_cons _ _ _ _ _ ih => exact congrArg (·+2) ih
  | elements_nil | entries_nil => rfl
  | _ => exact length_singleton

def Final (nodes : List (Node D)) (c c' : Copy D) : Prop :=
  ∀ j, c.heap.nodes.length ≤ j → j < c'.heap.nodes.length → nodes[j]? = c'.heap.nodes[j]?

lemma sameVal_symbol {name name' : Bytes} (h : SameVal R (.symbol name : Val D) (.symbol name')) :
    name'=name := by
  generalize hv : Val.symbol name'=v at h
  cases h
  exact Val.symbol.inj hv

lemma length_lt_of_cut {s : Bytes} (h : cut s s.length=s) : s.length < 2^31 := by
  have hl := congrArg length h
  have hle : 2*((s.length : ℤ).bmod (2^32)) < 2^32 := by
    have hb := Int.bmod_lt (x := s.length) (m := 2^32) (by decide)
    omega
  rw [cut,length_take] at hl
  omega

lemma Final.enter (h : Final nodes c c') : Final nodes (c.enter a r node) c' := by
  intro j hj hj'
  rw [length_enter] at hj
  exact h j (by omega) hj'

lemma Isomorphism.sameNode_array {v w : Val D}
    {vs : List (Val D)} (h : Isomorphism R nodes nodes' v w) (hR : R a b)
    (ha : nodes[a]? = some (.array vs)) (hb : nodes'[b]? = some (.array ws)) :
    List.Forall₂ (SameVal R) vs ws := by
  obtain ⟨node,node',hn,hn',hs⟩ := h.contents hR
  rw [ha] at hn
  rw [hb] at hn'
  cases hn
  cases hn'
  cases hs with
  | array hv => exact hv

lemma Isomorphism.sameNode_hash {v w : Val D}
    {es fs : List (Val D × Val D)} (h : Isomorphism R nodes nodes' v w) (hR : R a b)
    (ha : nodes[a]? = some (.hash es)) (hb : nodes'[b]? = some (.hash fs)) :
    List.Forall₂ (fun e f => SameVal R e.1 f.1 ∧ SameVal R e.2 f.2) es fs := by
  obtain ⟨node,node',hn,hn',hs⟩ := h.contents hR
  rw [ha] at hn
  rw [hb] at hn'
  cases hn
  cases hn'
  cases hs with
  | hash he => exact he

lemma copies_intact
    {v w : Val D} (his : Isomorphism R g.nodes nodes v w) (h : Copies pf g t c ws c') (hin : Inv g c)
    (hi : Intact R c) (hf : Final nodes c c')
    (ht : ∀ b, Piece.target t=some b → b < c.heap.nodes.length)
    (he : Expected R t c ws c') : Intact R c' := by
  induction h with
  | @atom v r c hr =>
    refine hi.note (fun num heq => ?_) fun name heq => ?_ <;> cases v <;> cases hr <;>
      exact nomatch heq
  | @float d c =>
    have hn := hi.note (r := .float d) nofun nofun
    exact ⟨hn.paired,fun num hnu => getElem?_of_extends (prefix_append _ _) (hn.links num hnu),
      hn.symbols,hn.unmerged⟩
  | boxed | symlink => exact hi.note nofun nofun
  | @symbol name c h =>
    obtain ⟨⟩ | ⟨hsa,-⟩ := he.1
    have hcu : cut name name.length=name := sameVal_symbol hsa
    have hn := hi.note (r := .symbol name) nofun fun name' heq => by
      cases heq
      exact length_lt_of_cut hcu
    exact ⟨hn.paired,hn.links,hn.symbols,hn.unmerged⟩
  | @link a v' c h hv =>
    refine hi.note (fun num heq => ?_) nofun
    cases heq
    obtain ⟨⟩ | ⟨hsa,-⟩ := he.1
    have hind : c.objects[c.objects.idxOf a]? = some a := by
      rw [getElem?_eq_getElem (idxOf_lt_length_of_mem h),getElem_idxOf]
    cases hsa with
    | ref hR => rw [hv,his.right_unique hR (hi.paired hind)]
  | @string a s c h hno =>
    obtain ⟨⟩ | ⟨hsa,-⟩ := he.1
    cases hsa with
    | ref hR => exact hi.enter hin rfl hR
  | @array a vs ws c c' h hno hel ih =>
    have hen := hin.enter_array h hno
    obtain ⟨⟩ | ⟨hsa,-⟩ := he.1
    cases hsa with
    | ref hR =>
      have hl := copies_elements hel hen (enter_getElem? _ _ _ _)
      have hla := (hf _ le_rfl (List.getElem?_eq_some_iff.mp hl).1).trans hl
      have hva := his.sameNode_array hR hno hla
      exact ih hen (hi.enter hin rfl hR) hf.enter target_enter ⟨hva,trivial⟩
  | @hash a es ws c c' h hno hent ih =>
    have hen := hin.enter_hash h hno
    obtain ⟨⟩ | ⟨hsa,-⟩ := he.1
    cases hsa with
    | ref hR =>
      rcases copies_entries hent hen (enter_getElem? _ _ _ _) with
        ⟨hl,hc⟩ | ⟨⟨fs,hl,hfe⟩,-⟩
      · have hla := (hf _ le_rfl (List.getElem?_eq_some_iff.mp hl).1).trans hl
        have hva := his.sameNode_hash hR hno hla
        refine ih hen (hi.enter hin rfl hR) hf.enter target_enter
          ⟨pairUp_sources (copies_sources_length hent) hva,?_⟩
        refine ⟨[],pairUp ws,enter_getElem? _ _ _ _,hl,?_⟩
        rw [hc,length_nil,zero_add]
      · have hla := (hf _ le_rfl (List.getElem?_eq_some_iff.mp hl).1).trans hl
        have hva := his.sameNode_hash hR hno hla
        rw [hva.length_eq,length_nil,zero_add] at hfe
        exact absurd hfe (lt_irrefl _)
  | elements_nil | entries_nil => exact hi
  | @elements_cons b v w vs ws c c₁ c' hv hvs ihv ihvs =>
    have hb := ht b rfl
    have hlen := copies_length hv hin
    have hin₁ := copies_inv hv hin
    have hlen' : c₁.heap.nodes.length ≤ c'.heap.nodes.length := by
      have hle := copies_length hvs (hin₁.push b w)
      rwa [length_push] at hle
    obtain ⟨⟩ | ⟨hsa,hre⟩ := he.1
    have hfi : Final nodes c c₁ := by
      intro j hj hj'
      rw [hf j hj (by omega)]
      exact frame_push hvs hin₁ hj' (by omega)
    have hi₁ := ihv hin hi hfi nofun ⟨.cons hsa .nil,trivial⟩
    refine ihvs (hin₁.push b w) (hi₁.setHeap rfl) (fun j hj hj' => ?_) (fun b' hb' => ?_) ⟨hre,trivial⟩
    · rw [length_push] at hj
      exact hf j (by omega) hj'
    · cases hb'
      rw [length_push]
      omega
  | @entries_cons b k v k' v' es ws c c₁ c₂ c' hk hv hes ihk ihv ihes =>
    have hb := ht b rfl
    have hin₁ := copies_inv hk hin
    have hin₂ := copies_inv hv hin₁
    have hlen₁ := copies_length hk hin
    have hlen₂ := copies_length hv hin₁
    have hlen₃ : c₂.heap.nodes.length ≤ c'.heap.nodes.length := by
      have hle := copies_length hes (hin₂.aset b k' v')
      rwa [length_aset] at hle
    obtain ⟨hva,fs,fs',hfs,hfs',hc⟩ := he
    obtain ⟨⟩ | ⟨hke,hva⟩ := hva
    obtain ⟨⟩ | ⟨hval,hre⟩ := hva
    have hsec : Final nodes c₁ c₂ := by
      intro j hj hj'
      rw [hf j (by omega) (by omega)]
      exact frame_aset hes hin₂ hj' (by omega)
    have hfi : Final nodes c c₁ := by
      intro j hj hj'
      rw [hf j hj (by omega)]
      exact (frame_aset hes hin₂ (by omega) (by omega)).trans (copies_frame hv hin₁ hj' nofun)
    have hi₁ := ihk hin hi hfi nofun ⟨.cons hke .nil,trivial⟩
    have hi₂ := ihv hin₁ hi₁ hsec nofun ⟨.cons hval .nil,trivial⟩
    have hfr := (copies_frame hv hin₁ (by omega) nofun).trans
      ((copies_frame hk hin hb nofun).trans hfs)
    rw [length_cons] at hc
    -- the final size leaves no room for a key that was there before
    rcases aset_cases pf hfr k' v' with ⟨hse,hm⟩ | ⟨⟨fs₂,hse,hsi⟩,-⟩
    · refine ihes (hin₂.aset b k' v') (hi₂.setHeap hm) (fun j hj hj' => ?_) (fun b' hb' => ?_)
        ⟨hre,_,fs',hse,hfs',?_⟩
      · rw [length_aset] at hj
        exact hf j (by omega) hj'
      · cases hb'
        rw [length_aset]
        omega
      · rw [length_append,length_singleton]
        omega
    · exfalso
      rcases copies_entries hes (hin₂.aset b k' v') hse with ⟨ha,hp⟩ | ⟨⟨fs₃,hfe,hlt⟩,-⟩
      · rw [hfs'] at ha
        cases ha
        rw [length_append] at hc
        omega
      · rw [hfs'] at hfe
        cases hfe
        omega

lemma render_ok_iff (rs : List (Record D)) :
    (∃ bs, render pf rs=.ok bs) ↔ ∀ r ∈ rs, ∃ bs, r.bytes pf=.ok bs := by
  induction rs with
  | nil => exact ⟨fun _ r hr => absurd hr not_mem_nil,fun _ => ⟨[],rfl⟩⟩
  | cons r rs ih =>
    rw [forall_mem_cons,← ih,render]
    constructor
    · rintro ⟨bs,h⟩
      obtain ⟨cs,hc,h⟩ := ok_of_bind h
      obtain ⟨ds,hd,-⟩ := ok_of_bind h
      exact ⟨⟨cs,hc⟩,ds,hd⟩
    · rintro ⟨⟨cs,hr⟩,ds,hrs⟩
      rw [hr,hrs]
      exact ⟨_,rfl⟩

lemma wCount_ok_iff (tag : Tag) (n : ℕ) : (∃ bs, wCount tag n=.ok bs) ↔ n < 2^31 := by
  constructor
  · rintro ⟨bs,h⟩
    obtain ⟨cs,hc,-⟩ := wCount_ok h
    have hr := (wLong_ok_iff n).mp ⟨cs,hc⟩
    omega
  · intro h
    obtain ⟨cs,hc⟩ := (wLong_ok_iff n).mpr ⟨by omega,by omega⟩
    rw [wCount,hc]
    exact ⟨_,rfl⟩

lemma wText_ok_iff (tag : Tag) (s : Bytes) (len : ℕ) :
    (∃ bs, wText tag s len=.ok bs) ↔ 0 ≤ (len : ℤ).bmod (2^32) := by
  constructor
  · rintro ⟨bs,h⟩
    obtain ⟨cs,hc,-⟩ := wText_ok h
    exact (wBytes_ok hc).1
  · intro h
    obtain ⟨cs,hc⟩ := wBytes_of_nonneg s h
    rw [wText,hc]
    exact ⟨_,rfl⟩

lemma bmod_of_lt {n : ℕ} (h : n < 2^31) : 0 ≤ (n : ℤ).bmod (2^32) := by
  rw [Int.bmod_eq_of_le_mul_two (by omega) (by omega)]
  omega

lemma bytes_of_writable (h : Writable r)
    (hi : ∀ x, r=.integer x → ∃ payload, x=.fixnum payload ∧ Short (fix2long payload)) :
    ∃ bs, r.bytes pf=.ok bs := by
  cases r with
  | nil | true | false => exact ⟨_,rfl⟩
  | integer x =>
    obtain ⟨payload,rfl,hs⟩ := hi x rfl
    have hp : long2fix (fix2long payload)=payload := BitVec.ofInt_toInt
    obtain ⟨bs,-,hb⟩ := wFixnum_of_short hs
    rw [hp] at hb
    exact ⟨_,hb⟩
  | float d =>
    have hl := pf.text_length d
    exact (wText_ok_iff _ _ _).mpr (bmod_of_lt (by omega))
  | boxed d => exact absurd h id
  | symbol name => exact (wText_ok_iff _ _ _).mpr (bmod_of_lt h)
  | symlink | link | array | hash => exact (wCount_ok_iff _ _).mpr h
  | string s => exact (wText_ok_iff _ _ _).mpr h

lemma writable_of_bytes (h : ∃ bs, r.bytes pf=.ok bs)
    (hs : ∀ name, r=.symbol name → name.length < 2^31) : Writable r := by
  cases r with
  | boxed d =>
    exact nomatch h
  | symbol name => exact hs name rfl
  | symlink | link | array | hash => exact (wCount_ok_iff _ _).mp h
  | string s => exact (wText_ok_iff _ _ _).mp h
  | _ => trivial

end Isomorphism

variable {D : Type} (pf : Platform D) (mach : Machine) (g : Graph D)
variable {w : Val D}
variable {f : Copy D}

def start : Copy D := ⟨[],[],[],[],[],⟨[],false⟩⟩

/-- `Marshal.load(Marshal.dump(root))` is isomorphic to the graph at the root. -/
def Preserves : Prop :=
  ∃ bs w arg R, marshalDump pf g=.ok bs ∧ loadPlain pf mach bs=.ok w arg ∧
    Isomorphism R g.nodes arg.world.nodes g.root w

/-- The graphs that survive: sizes and numbers have room in the format and no Float is boxed;
what is met again was met before the first Float; and at no store has the Hash a key that is
taken for the new one. -/
structure Preservable : Prop where
  writable : ∀ r ∈ recordsOf g [] (visits g), Writable r
  shared : Shared (visits g)
  keys : ∃ w c, Copies pf g (.value g.root) start [w] c ∧ c.heap.merged=false

variable {pf g}

lemma inv_start : Inv g (start : Copy D) :=
  ⟨nodup_nil,nofun,rfl,rfl,rfl,rfl,nofun⟩

lemma tracks_start : Tracks g [] (start : Copy D) :=
  ⟨rfl,rfl,rfl,fun _ hv => absurd hv not_mem_nil⟩

lemma root_sources : ∀ v ∈ (Piece.value g.root).sources, Val.Ok g.nodes.length v := by
  intro v hv
  rw [mem_singleton.mp hv]
  exact g.root_ok

lemma tracks_visits (h : Copies pf g (.value g.root) start [w] f) : Tracks g (visits g) f :=
  copies_tracks h inv_start tracks_start root_sources (lt_succ_self _)

lemma marshalDump_eq (h : Copies pf g (.value g.root) start [w] f) :
    marshalDump pf g=(render pf f.records).map fun bs => 4::8::bs := by
  obtain ⟨rs,hrs,hw⟩ := copies_writes h inv_start
  have hru := hw (g.nodes.length+1) (-1) (lt_succ_self _) (by decide) [4,8]
  have hr : f.records=rs := hrs
  rw [hr]
  change (wObject pf g _ _ _ _ >>= fun arg => pure arg.out)=_
  change wObject pf g (g.nodes.length+1) (-1) g.root ⟨[4,8],[],[]⟩=_ at hru
  rw [hru]
  cases render pf rs <;> rfl

lemma loadPlain_eq_ok (h : Copies pf g (.value g.root) start [w] f) {bs : Bytes}
    (hb : render pf f.records=.ok bs) :
    ∃ arg, loadPlain pf mach (4::8::bs)=.ok w arg ∧ arg.world=f.heap := by
  obtain ⟨rs,hrs,hre⟩ := copies_reads mach h inv_start root_sources
  have hr : f.records=rs := hrs
  rw [hr] at hb
  obtain ⟨w',hw',hrea⟩ := (hre bs hb).2 (bs.length+3) (by omega)
  cases hw'
  have hru := hrea (4::8::bs) 2 [] (append_nil bs).symm
  exact ⟨_,hru,rfl⟩

lemma links_of_shared (h : Copies pf g (.value g.root) start [w] f) :
    (∀ num, .link num ∈ f.records → f.data[num]? = some (.ref num)) ↔ Shared (visits g) := by
  have ht := tracks_visits h
  have hn : ∀ num, f.data[num]? = some (.ref num) ↔ num < beforeFloat f.records := by
    intro num
    have hi := numbered_iff 0 num f.records
    rwa [zero_add,← (copies_inv h inv_start).data] at hi
  rw [← links_iff,← ht.records]
  exact forall_congr' fun num => imp_congr_right fun _ => hn num

lemma isomorphism_copyOf (h : Copies pf g (.value g.root) start [w] f)
    (hw : ∀ r ∈ f.records, Writable r)
    (hl : ∀ num, .link num ∈ f.records → f.data[num]? = some (.ref num))
    (hm : f.heap.merged=false) : Isomorphism (CopyOf f) g.nodes f.heap.nodes g.root w := by
  have hi := copies_inv h inv_start
  refine ⟨?_,fun {a b b'} hb hb' => ?_,fun {a a' b} ha ha' => ?_,fun {a b} hab => ?_⟩
  · obtain ⟨⟩ | ⟨hr,-⟩ := copies_same h inv_start (Extends.refl f) hw hl
    exact hr
  · exact (getElem?_inj (List.getElem?_eq_some_iff.mp hb).1 hi.nodup).mp (hb.trans hb'.symm)
  · exact Option.some.inj (ha.symm.trans ha')
  · have hlt : b < f.heap.nodes.length := by
      rw [hi.heap]
      exact (List.getElem?_eq_some_iff.mp hab).1
    obtain ⟨a',node,node',ho,hn,hn',hs⟩ := copies_paired h inv_start (Extends.refl f)
      hw hl hm nofun (zero_le b) hlt
    have he : some a'=some a := ho.symm.trans hab
    cases he
    exact ⟨node,node',hn,hn',hs⟩

lemma Preserves.copy (h : Preserves pf mach g) (hc : Copies pf g (.value g.root) start [w] f) :
    (∃ bs, render pf f.records=.ok bs) ∧ ∃ R, Isomorphism R g.nodes f.heap.nodes g.root w := by
  obtain ⟨bs,w',arg,R,hd,hl,hi⟩ := h
  rw [marshalDump_eq hc] at hd
  cases hr : render pf f.records with
  | error e =>
    rw [hr] at hd
    exact nomatch hd
  | ok cs =>
    rw [hr] at hd
    cases hd
    obtain ⟨arg',hl',hh⟩ := loadPlain_eq_ok mach hc hr
    have he := hl.symm.trans hl'
    cases he
    rw [hh] at hi
    exact ⟨⟨cs,rfl⟩,R,hi⟩

lemma render_of_writable (hc : Copies pf g (.value g.root) start [w] f)
    (hw : ∀ r ∈ f.records, Writable r) : ∃ bs, render pf f.records=.ok bs := by
  have ht := tracks_visits hc
  refine (render_ok_iff _).mpr fun r hr => bytes_of_writable (hw r hr) fun x he => ?_
  rw [he,ht.records] at hr
  exact ht.ok _ (integer_mem_recordsOf hr)

variable (pf g)

/-- Sharing survives exactly for these graphs. -/
theorem sharing_preserved_iff : Preserves pf mach g ↔ Preservable pf g := by
  constructor
  · intro h
    have he : ∃ w f, Copies pf g (.value g.root) start [w] f := copies_total inv_start g.root_ok
    obtain ⟨w,f,hc⟩ := he
    obtain ⟨hre,R,his⟩ := h.copy mach hc
    have hi : Intact R f :=
      copies_intact his hc inv_start ⟨nofun,nofun,nofun,rfl⟩ (fun _ _ _ => rfl) nofun
        ⟨.cons his.root .nil,trivial⟩
    refine ⟨?_,(links_of_shared hc).mp hi.links,w,f,hc,hi.unmerged⟩
    rw [← (tracks_visits hc).records]
    intro r hr
    refine writable_of_bytes ((render_ok_iff _).mp hre r hr) fun name heq => ?_
    rw [heq] at hr
    exact hi.symbols name hr
  · intro h
    obtain ⟨w,f,hc,hm⟩ := h.keys
    have hw : ∀ r ∈ f.records, Writable r := by
      rw [(tracks_visits hc).records]
      exact h.writable
    obtain ⟨bs,hb⟩ := render_of_writable hc hw
    obtain ⟨arg,hl,hh⟩ := loadPlain_eq_ok mach hc hb
    refine ⟨4::8::bs,w,arg,CopyOf f,by rw [marshalDump_eq hc,hb]; rfl,hl,?_⟩
    rw [hh]
    exact isomorphism_copyOf hc hw ((links_of_shared hc).mpr h.shared) hm

lemma length_units (bs : Bytes) : bs.length ≤ bs.length := le_rfl

def oneDouble : Platform Unit where
  text _ := [49,46,53]
  parse _ := ()
  parse_text _ := rfl
  text_length _ := by decide
  units bs := bs.length
  units_le := length_units
  sameKey _ _ _ := false

/-- `s = "a"; [1.5, s, s]`. -/
def floatBeforeShared : Graph Unit where
  nodes := [.array [.float (),.ref 1,.ref 1],.string ⟨[97],1,Nat.one_pos⟩]
  root := .ref 0
  nodes_ok := by
    intro node hnode
    rcases mem_pair.mp hnode with rfl | rfl
    · intro v hv
      rcases mem_cons.mp hv with rfl | hv
      · trivial
      · rcases mem_pair.mp hv with rfl | rfl <;> exact Nat.lt_succ_self 1
    · trivial
  root_ok := Nat.two_pos

def floatBeforeSharedCopy : Copy Unit where
  objects := [0,1]
  names := []
  loaded := []
  records := [.array 3,.float (),.string ⟨[97],1,Nat.one_pos⟩,.link 1]
  data := [.ref 0,.boxed (),.ref 1]
  heap := ⟨[.array [.float (),.ref 1,.boxed ()],loadedString oneDouble ⟨[97],1,Nat.one_pos⟩],false⟩

lemma copies_floatBeforeShared :
    Copies oneDouble floatBeforeShared (.value (.ref 0)) start [.ref 0] floatBeforeSharedCopy :=
  .array not_mem_nil rfl (.elements_cons .float (.elements_cons (.string (by decide) rfl)
    (.elements_cons (.link (by decide) rfl) .elements_nil)))

/-- The second reference to the String is loaded as the Float. -/
theorem link_behind_float_resolves_to_float :
    (∀ mach, ∃ bs arg, marshalDump oneDouble floatBeforeShared = .ok bs ∧
      loadPlain oneDouble mach bs = .ok (.ref 0) arg ∧
      arg.world.nodes[0]? = some (.array [.float (),.ref 1,.boxed ()])) ∧
    (∀ mach, ¬Preserves oneDouble mach floatBeforeShared) := by
  constructor
  · intro mach
    obtain ⟨bs,hb⟩ := render_of_writable copies_floatBeforeShared (by
      intro r hr
      simp only [floatBeforeSharedCopy,mem_cons,not_mem_nil,or_false] at hr
      rcases hr with rfl | rfl | rfl | rfl
      · exact (by decide : 3 < 2^31)
      · trivial
      · exact (by decide : (0 : ℤ) ≤ (1 : ℤ).bmod 2^32)
      · exact (by decide : 1 < 2^31))
    obtain ⟨arg,hlo,hh⟩ := loadPlain_eq_ok mach copies_floatBeforeShared hb
    refine ⟨4::8::bs,arg,?_,hlo,by rw [hh]; rfl⟩
    rw [marshalDump_eq copies_floatBeforeShared,hb]
    rfl
  · intro mach h
    obtain ⟨-,R,hi⟩ := h.copy mach copies_floatBeforeShared
    cases hi.root with
    | ref hR =>
      have hv := hi.sameNode_array hR rfl rfl
      cases hv with
      | cons _ hv =>
        cases hv with
        | cons _ hv =>
          cases hv with
          | cons hl _ => exact nomatch hl
end MacRuby.MarshalSharing
