import Mathlib.Data.List.TakeWhile
import MacRuby.MarshalCopy

/-!
# The reader builds the copy

From the bytes of the records of a copy, `r_object0` reads the values of the
copy and leaves its tables and its heap.
-/
namespace MacRuby.MarshalRebuild
open List Nat
open Faults MarshalFormat MarshalLoad MarshalValues MarshalIntegers MarshalDump MarshalCopy Integers

section Reads
variable {D α β : Type}
variable {m : Load (Val D) (Heap D) Unit α}
variable {f : α → Load (Val D) (Heap D) Unit β}
variable {c c₁ c' : Copy D} {bs data : Bytes} {a : α} {b : β}

def Copy.at (c : Copy D) (src : Bytes) (offset : ℕ) : LoadArg (Val D) (Heap D) :=
  ⟨src,offset,c.loaded,c.data,c.heap⟩

/-- From one point to the next the reader takes these bytes and returns this value. -/
def Reads (m : Load (Val D) (Heap D) Unit α) (c : Copy D) (bs : Bytes) (a : α) (c' : Copy D) : Prop :=
  ∀ src offset rest, src.drop offset=bs++rest →
    Returns m (Copy.at c src offset) a (Copy.at c' src (offset+bs.length))

lemma Reads.bind  {bs' : Bytes} (h : Reads m c bs a c₁)
    (h' : Reads (f a) c₁ bs' b c') : Reads (m >>= f) c (bs++bs') b c' := by
  intro src offset rest hs
  rw [append_assoc] at hs
  have hr : src.drop (offset+bs.length)=bs'++rest := by
    rw [← drop_drop,hs,drop_left]
  have hn := h' src (offset+bs.length) rest hr
  rw [add_assoc,← length_append] at hn
  exact (h src offset (bs'++rest) hs).bind hn

lemma reads_silent
    (h : ∀ src offset, Returns m (Copy.at c src offset) a (Copy.at c' src offset)) :
    Reads m c [] a c' :=
  fun src offset _ _ => h src offset

lemma Reads.silent_bind  (h : Reads m c [] a c₁)
    (h' : Reads (f a) c₁ bs b c') : Reads (m >>= f) c bs b c' :=
  h.bind h'

lemma Reads.bind_silent  (h : Reads m c bs a c₁)
    (h' : Reads (f a) c₁ [] b c') : Reads (m >>= f) c bs b c' := by
  have hb := h.bind h'
  rwa [append_nil] at hb

variable {c c' : Copy D}

lemma reads_pure (a : α) : Reads (pure a) c [] a c := reads_silent fun _ _ => returns_pure

lemma reads_rLong {x : ℤ} (hw : wLong x=.ok bs) : Reads rLong c bs x c :=
  fun _ _ _ h => rLong_returns hw h

lemma reads_call {f : Call (Heap D) Unit α} {heap : Heap D} (h : f c.heap=.ok (a,heap)) :
    Reads (call f) c [] a {c with heap := heap} :=
  reads_silent fun _ _ => returns_call h

lemma cstr_append_nul (bs : Bytes) : cstr (bs++[0])=cstr bs := by
  induction bs with
  | nil => rfl
  | cons b bs ih =>
    simp only [cstr,cons_append,takeWhile_cons] at ih ⊢
    rw [ih]

lemma reads_rBytes0 (hn : data ≠ []) : Reads (rBytes0 data.length) c data (data++[0]) c :=
  fun _ _ _ h => rBytes0_returns hn h

lemma reads_readCstr (h : data=[] ∨ 0 ∈ data) : Reads (readCstr data) c [] (cstr data) c := by
  rw [readCstr,if_pos h]
  exact reads_pure _

lemma reads_rCstr {s : Bytes} {len : ℕ} (hl : len ≤ s.length) (hw : wBytes s len=.ok bs) :
    Reads rCstr c bs (cstr (cut s len)) c := by
  obtain ⟨hno,head,hh,rfl⟩ := wBytes_ok hw
  have hle := bmod_natCast_le len (2^32)
  have hc : (len : ℤ).bmod (2^32)=(cut s len).length := by
    rw [cut,length_take]
    omega
  rw [hc] at hh
  change Reads rCstr c (head++cut s len) _ c
  by_cases hn : cut s len=[]
  · rw [hn,append_nil]
    rw [hn] at hh
    exact ((reads_rLong hh).bind_silent (reads_pure [])).bind_silent (reads_readCstr (.inl rfl))
  · rw [← cstr_append_nul]
    exact ((reads_rLong hh).bind (reads_rBytes0 hn)).bind_silent
      (reads_readCstr (.inr (mem_append_right _ mem_cons_self)))

end Reads

variable {D : Type} {pf : Platform D} {mach : Machine} {c c' : Copy D} {fuel : ℕ}
variable {tag : Tag} {bs s cs name : Bytes} {n a len num b k : ℕ} {v : Val D} {c₁ : Copy D}

lemma reads_rObject {r : Loaded (Val D)}
    (h : Reads (rTag (plainEnv pf) mach fuel (rObject0 (plainEnv pf) mach fuel) false none tag) c bs r c') :
    Reads (rObject (plainEnv pf) mach (fuel+1)) c (tag.code::bs) r.value c' := by
  intro src offset rest hs
  have hre : src.drop (offset+1)=bs++rest := by
    rw [← drop_drop,hs]
    rfl
  have hr := h src (offset+1) rest hre
  rw [add_assoc,add_comm 1] at hr
  exact rObject_returns hs hr

lemma reads_plain {m : Load (Val D) (Heap D) Unit (Val D)}
    (ht : rTag (plainEnv pf) mach fuel (rObject0 (plainEnv pf) mach fuel) false none tag=plain none m)
    (h : Reads m c bs v c') : Reads (rObject (plainEnv pf) mach (fuel+1)) c (tag.code::bs) v c' := by
  have hp : Reads (plain none m) c bs ⟨v,true,none⟩ c' := h.bind_silent (reads_pure _)
  rw [← ht] at hp
  exact reads_rObject hp

lemma reads_rEntryLeave (v : Val D) :
    Reads (rEntryLeave (plainEnv pf) v) c [] v {c with data := c.data++[v.throughHash]} :=
  reads_silent fun _ _ => rEntryLeave_returns v

lemma reads_rEntry (v : Val D) :
    Reads (rEntry (plainEnv pf) v) c [] v {c with data := c.data++[v.throughHash]} :=
  reads_silent fun _ _ => rEntry_returns v

lemma reads_leave (v : Val D) : Reads (call ((plainEnv pf).leave v)) c [] v c :=
  reads_silent fun _ _ => rfl

lemma reads_integer {x : BitVec 62} (hx : Short (fix2long x)) (hw : wFixnum x=.ok bs) :
    Reads (rObject (plainEnv pf) mach (fuel+1)) c bs (.integer (.fixnum x)) c := by
  have hp : long2fix (fix2long x)=x := BitVec.ofInt_toInt
  obtain ⟨ds,hl,hf⟩ := wFixnum_of_short hx
  rw [hp] at hf
  have he : .ok bs=Except.ok (Tag.fixnum.code::ds) := hw.symm.trans hf
  cases he
  have hr : Reads (rFixnum (plainEnv pf)) c ds (.integer (.fixnum x)) c := by
    refine (reads_rLong hl).bind_silent ?_
    change Reads (call ((plainEnv pf).leave (.integer (.fixnum (long2fix (fix2long x)))))) c [] _ c
    rw [hp]
    exact reads_leave _
  exact reads_plain rfl hr

lemma wText_ok (h : wText tag s len=.ok bs) : ∃ cs, wBytes s len=.ok cs ∧ bs=tag.code::cs := by
  obtain ⟨cs,hc,h⟩ := ok_of_bind h
  cases h
  exact ⟨cs,hc,rfl⟩

lemma wCount_ok (h : wCount tag n=.ok bs) : ∃ cs, wLong n=.ok cs ∧ bs=tag.code::cs := by
  obtain ⟨cs,hc,h⟩ := ok_of_bind h
  cases h
  exact ⟨cs,hc,rfl⟩

lemma cut_self (h : s.length < 2^31) : cut s s.length=s := by
  have hb : (s.length : ℤ).bmod (2^32)=s.length :=
    Int.bmod_eq_of_le_mul_two (by omega) (by omega)
  rw [cut,hb,Int.toNat_natCast,take_length]

lemma cstr_eq (h : 0 ∉ s) : cstr s=s := by
  rw [cstr,takeWhile_eq_self_iff]
  exact fun b hb => decide_eq_true fun hz => h (hz ▸ hb)

lemma not_mem_cut (h : 0 ∉ s) : 0 ∉ cut s len :=
  fun hm => h (mem_of_mem_take hm)

lemma reads_float {d : D} (hw : wText .float (pf.text d) (pf.text d).length=.ok bs) :
    Reads (rObject (plainEnv pf) mach (fuel+1)) c bs (.float d)
      {c.note (.float d) with data := c.data++[.boxed d]} := by
  obtain ⟨cs,hc,rfl⟩ := wText_ok hw
  have hl := pf.text_length d
  have hr := reads_rCstr (c := c) le_rfl hc
  rw [cut_self (by omega)] at hr
  refine reads_plain rfl (hr.bind_silent (Reads.silent_bind (reads_call rfl) ?_))
  rw [pf.parse_text]
  exact reads_rEntryLeave (.float d)

lemma reads_symbol (hn : 0 ∉ name) (hw : wText .symbol name name.length=.ok bs) :
    Reads (rObject (plainEnv pf) mach (fuel+1)) c bs (.symbol (cut name name.length))
      {c.note (.symbol name) with
        names := c.names++[name]
        loaded := c.loaded++[cut name name.length]} := by
  obtain ⟨cs,hc,rfl⟩ := wText_ok hw
  have hr := reads_rCstr (c := c) le_rfl hc
  rw [cstr_eq (not_mem_cut hn)] at hr
  have hre : Reads rSymreal c cs (cut name name.length)
      {c with loaded := c.loaded++[cut name name.length]} :=
    hr.bind_silent (reads_silent fun _ _ => rfl)
  exact reads_rObject (r := ⟨_,true,none⟩) (hre.bind_silent (reads_silent fun _ _ => rfl))

lemma reads_symlink (hn : c.loaded[num]? = some name) (hw : wCount .symlink num=.ok bs) :
    Reads (rObject (plainEnv pf) mach (fuel+1)) c bs (.symbol name) (c.note (.symlink num)) := by
  obtain ⟨cs,hc,rfl⟩ := wCount_ok hw
  have hl : Reads rSymlink c cs name c := by
    refine (reads_rLong hc).bind_silent (reads_silent fun src offset => returns_state.bind ?_)
    have hs : (Copy.at c src offset).symbols[(num : ℤ).toNat]? = some name := by
      exact hn
    rw [hs]
    exact returns_pure
  exact reads_rObject (r := ⟨_,true,none⟩) (hl.bind_silent (reads_silent fun _ _ => rfl))

lemma reads_link (hv : c.data[num]? = some v)
    (hn : v.isNil=false) (hw : wCount .link num=.ok bs) :
    Reads (rObject (plainEnv pf) mach (fuel+1)) c bs v (c.note (.link num)) := by
  obtain ⟨cs,hc,rfl⟩ := wCount_ok hw
  have hl : Reads (rLink (plainEnv pf)) c cs v c := by
    refine (reads_rLong hc).bind_silent (reads_silent fun src offset => returns_state.bind ?_)
    have hd : (Copy.at c src offset).data[(num : ℤ).toNat]? = some v := by
      exact hv
    have hp : (plainEnv pf).nilP v=false := hn
    rw [hd]
    dsimp only
    rw [hp]
    exact returns_call rfl
  exact reads_plain rfl hl

lemma reads_string {s : Str} (hw : wText .string s.ptr s.len=.ok bs) :
    Reads (rObject (plainEnv pf) mach (fuel+1)) c bs (.ref c.heap.nodes.length)
      (c.enter a (.string s) (loadedString pf s)) := by
  obtain ⟨cs,hc,rfl⟩ := wText_ok hw
  refine reads_plain rfl ((reads_rCstr s.len_le hc).bind_silent (Reads.silent_bind (reads_call rfl) ?_))
  exact reads_rEntryLeave (.ref c.heap.nodes.length)

variable (pf mach fuel) in
/-- The loop of the reader over the elements of the Array at `b`. -/
def rElements (b k n : ℕ) : Load (Val D) (Heap D) Unit Unit :=
  whileDown (do
    let element ← rObject (plainEnv pf) mach fuel
    call ((plainEnv pf).aryPush (.ref b) element)) k n

variable (pf mach fuel) in
/-- The loop of the reader over the entries of the Hash at `b`. -/
def rEntries (b k n : ℕ) : Load (Val D) (Heap D) Unit Unit :=
  whileDown (do
    let key ← rObject (plainEnv pf) mach fuel
    let value ← rObject (plainEnv pf) mach fuel
    call ((plainEnv pf).hashAset (.ref b) key value)) k n

lemma reads_array (hw : wCount .array n=.ok bs)
    (h : Reads (rElements pf mach fuel c.heap.nodes.length fuel n) (c.enter a (.array n) (.array [])) cs
      () c') :
    Reads (rObject (plainEnv pf) mach (fuel+1)) c (bs++cs) (.ref c.heap.nodes.length) c' := by
  obtain ⟨ds,hd,rfl⟩ := wCount_ok hw
  obtain ⟨-,hl⟩ := (wLong_ok_iff n).mp ⟨ds,hd⟩
  have ha : Reads (assertAryLen n) c [] () c := by
    rw [assertAryLen,if_neg (by omega)]
    exact reads_pure _
  rw [cons_append]
  refine reads_plain rfl ((reads_rLong hd).bind (ha.silent_bind (Reads.silent_bind (reads_call rfl) ?_)))
  refine Reads.silent_bind (reads_rEntry (.ref c.heap.nodes.length)) (h.bind_silent ?_)
  exact reads_leave _

lemma reads_hash (hw : wCount .hash n=.ok bs)
    (h : Reads (rEntries pf mach fuel c.heap.nodes.length fuel n) (c.enter a (.hash n) (.hash [])) cs
      () c') :
    Reads (rObject (plainEnv pf) mach (fuel+1)) c (bs++cs) (.ref c.heap.nodes.length) c' := by
  obtain ⟨ds,hd,rfl⟩ := wCount_ok hw
  rw [cons_append]
  refine reads_plain rfl ((reads_rLong hd).bind (Reads.silent_bind (reads_call rfl) ?_))
  refine Reads.silent_bind (reads_rEntry (.ref c.heap.nodes.length)) (h.bind_silent ?_)
  exact reads_leave _

lemma rElements_zero (b k : ℕ) : Reads (rElements pf mach fuel b k 0) c [] () c := by
  rw [rElements,cast_zero,whileDown_zero]
  exact reads_pure _

lemma rElements_succ {w : Val D} (h : Reads (rObject (plainEnv pf) mach fuel) c bs w c₁)
    (h' : Reads (rElements pf mach fuel b k n) {c₁ with heap := c₁.heap.push b w} cs () c') :
    Reads (rElements pf mach fuel b (k+1) (n+1)) c (bs++cs) () c' := by
  have hc : ((n+1 : ℕ) : ℤ)-1=n := by omega
  rw [rElements,whileDown,if_neg (by omega),hc]
  exact (h.bind_silent (reads_call rfl)).bind h'

lemma rEntries_zero (b k : ℕ) : Reads (rEntries pf mach fuel b k 0) c [] () c := by
  rw [rEntries,cast_zero,whileDown_zero]
  exact reads_pure _

lemma rEntries_succ {key value : Val D} {ds : Bytes} {c₂ : Copy D}
    (hk : Reads (rObject (plainEnv pf) mach fuel) c bs key c₁)
    (hv : Reads (rObject (plainEnv pf) mach fuel) c₁ cs value c₂)
    (h : Reads (rEntries pf mach fuel b k n) {c₂ with heap := c₂.heap.aset pf b key value} ds () c') :
    Reads (rEntries pf mach fuel b (k+1) (n+1)) c ((bs++cs)++ds) () c' := by
  have hc : ((n+1 : ℕ) : ℤ)-1=n := by omega
  rw [rEntries,whileDown,if_neg (by omega),hc]
  exact (hk.bind (hv.bind_silent (reads_call rfl))).bind h

variable {g : Graph D} (mach) {r : Record D}

variable (pf) in
def ReadsPart (fuel : ℕ) (t : Piece D) (c : Copy D) (bs : Bytes) (ws : List (Val D)) (c' : Copy D) : Prop :=
  match t with
  | .value _ => ∃ w, ws=[w] ∧ Reads (rObject (plainEnv pf) mach fuel) c bs w c'
  | .elements b vs => ∀ k, vs.length ≤ k → Reads (rElements pf mach fuel b k vs.length) c bs () c'
  | .entries b es => ∀ k, es.length ≤ k → Reads (rEntries pf mach fuel b k es.length) c bs () c'

lemma render_singleton (h : render pf [r]=.ok bs) : r.bytes pf=.ok bs := by
  obtain ⟨cs,hc,h⟩ := ok_of_bind h
  change Except.ok (cs++[])=_ at h
  rw [append_nil] at h
  exact hc.trans h

lemma render_append_ok {rs ss : List (Record D)} (h : render pf (rs++ss)=.ok bs) :
    ∃ cs ds, render pf rs=.ok cs ∧ render pf ss=.ok ds ∧ bs=cs++ds := by
  rw [render_append] at h
  obtain ⟨cs,hc,h⟩ := ok_of_bind h
  obtain ⟨ds,hd,h⟩ := ok_of_bind h
  cases h
  exact ⟨cs,ds,hc,hd,rfl⟩

lemma wBignum_pos {b : Bignum} (h : wBignum b=.ok bs) : 0 < bs.length := by
  obtain ⟨head,-,h⟩ := ok_of_bind h
  cases h
  exact succ_pos _

lemma wInteger_pos {x : Integer} (h : wInteger x=.ok bs) : 0 < bs.length := by
  cases x with
  | bignum b => exact wBignum_pos h
  | fixnum x =>
    simp only [wInteger,wFixnum] at h
    split_ifs at h
    · obtain ⟨ds,-,h⟩ := ok_of_bind h
      cases h
      exact succ_pos _
    · exact wBignum_pos h

lemma record_bytes_pos (h : r.bytes pf=.ok bs) : 0 < bs.length := by
  have ht : ∀ {tag : Tag} {s : Bytes} {len : ℕ}, wText tag s len=.ok bs → 0 < bs.length := by
    intro tag s len h
    obtain ⟨cs,-,rfl⟩ := wText_ok h
    exact succ_pos _
  have hc : ∀ {tag : Tag} {n : ℕ}, wCount tag n=.ok bs → 0 < bs.length := by
    intro tag n h
    obtain ⟨cs,-,rfl⟩ := wCount_ok h
    exact succ_pos _
  cases r with
  | nil | true | false => cases h; exact succ_pos _
  | integer x => exact wInteger_pos h
  | float | symbol | string => exact ht h
  | boxed d => exact nomatch h
  | symlink | link | array | hash => exact hc h

lemma numbered_isNil {i : ℕ} {rs : List (Record D)} {v : Val D} (h : v ∈ numbered i rs) :
    v.isNil=false := by
  have hc : ∀ {v' : Val D} {vs : List (Val D)}, v ∈ v'::vs → v'.isNil=false →
      (v ∈ vs → v.isNil=false) → v.isNil=false := by
    intro v' vs h hv' hvs
    rcases mem_cons.mp h with rfl | h
    · exact hv'
    · exact hvs h
  induction rs generalizing i with
  | nil => exact absurd h not_mem_nil
  | cons r rs ih =>
    cases r <;> first
      | exact ih h
      | exact hc h rfl ih

lemma readsPart_record {v w : Val D} {c c' : Copy D} (hr : c'.records=c.records++[r])
    (h : ∀ bs fuel, r.bytes pf=.ok bs → Reads (rObject (plainEnv pf) mach (fuel+1)) c bs w c') :
    ∃ rs, c'.records=c.records++rs ∧ ∀ bs, render pf rs=.ok bs → 1 ≤ bs.length ∧
      ∀ fuel, bs.length ≤ fuel → ReadsPart pf mach fuel (.value v) c bs [w] c' := by
  refine ⟨[r],hr,fun bs hbs => ?_⟩
  have hb := render_singleton hbs
  have hp := record_bytes_pos hb
  refine ⟨hp,fun fuel hf => ⟨w,rfl,?_⟩⟩
  obtain ⟨fuel,rfl⟩ : ∃ k, fuel=k+1 := ⟨fuel-1,by omega⟩
  exact h bs fuel hb

lemma length_sources_entries (b : ℕ) (es : List (Val D × Val D)) :
    es.length ≤ (Piece.entries b es).sources.length := by
  induction es with
  | nil => exact le_rfl
  | cons e es ih => exact (succ_le_succ ih).trans (le_succ _)

lemma copies_reads {t : Piece D} {c c' : Copy D} {ws : List (Val D)} (h : Copies pf g t c ws c')
    (hi : Inv g c) (ho : ∀ v ∈ t.sources, Val.Ok g.nodes.length v) :
    ∃ rs, c'.records=c.records++rs ∧ ∀ bs, render pf rs=.ok bs → t.sources.length ≤ bs.length ∧
      ∀ fuel, bs.length ≤ fuel → ReadsPart pf mach fuel t c bs ws c' := by
  induction h with
  | @atom v r c hr =>
    refine readsPart_record mach rfl fun bs fuel hb => ?_
    cases v <;> cases hr
    · cases hb
      exact reads_plain rfl (reads_leave _)
    · cases hb
      exact reads_plain rfl (reads_leave _)
    · cases hb
      exact reads_plain rfl (reads_leave _)
    · obtain ⟨payload,rfl,hsh⟩ := ho _ mem_cons_self
      exact reads_integer hsh hb
  | float => exact readsPart_record mach rfl fun bs fuel hb => reads_float hb
  | boxed => exact readsPart_record mach rfl fun bs fuel hb => nomatch hb
  | symbol h =>
    exact readsPart_record mach rfl fun bs fuel hb => reads_symbol (ho _ mem_cons_self) hb
  | symlink h hs => exact readsPart_record mach rfl fun bs fuel hb => reads_symlink hs hb
  | link h hv =>
    have hni := mem_of_getElem? hv
    rw [hi.data] at hni
    exact readsPart_record mach rfl fun bs fuel hb => reads_link hv (numbered_isNil hni) hb
  | string h hn => exact readsPart_record mach rfl fun bs fuel hb => reads_string hb
  | @array a vs ws c c' h hn he ih =>
    have hno := g.nodes_ok _ (mem_of_getElem? hn)
    obtain ⟨rs,hrs,hrea⟩ := ih (hi.enter_array h hn) hno
    refine ⟨[.array vs.length]++rs,by rw [hrs,← append_assoc]; rfl,fun bs hb => ?_⟩
    obtain ⟨cs,ds,hc,hd,rfl⟩ := render_append_ok hb
    have hp := record_bytes_pos (render_singleton hc)
    obtain ⟨hco,hf⟩ := hrea ds hd
    rw [length_append]
    refine ⟨by change 1 ≤ _; omega,fun fuel hle => ⟨_,rfl,?_⟩⟩
    obtain ⟨fuel,rfl⟩ : ∃ k, fuel=k+1 := ⟨fuel-1,by omega⟩
    exact reads_array (render_singleton hc) (hf fuel (by omega) fuel (hco.trans (by omega)))
  | @hash a es ws c c' h hn hen ih =>
    obtain ⟨rs,hrs,hrea⟩ := ih (hi.enter_hash h hn) (sources_ok hn)
    refine ⟨[.hash es.length]++rs,by rw [hrs,← append_assoc]; rfl,fun bs hb => ?_⟩
    obtain ⟨cs,ds,hc,hd,rfl⟩ := render_append_ok hb
    have hp := record_bytes_pos (render_singleton hc)
    obtain ⟨hco,hf⟩ := hrea ds hd
    have hl := length_sources_entries c.heap.nodes.length es
    rw [length_append]
    refine ⟨by change 1 ≤ _; omega,fun fuel hle => ⟨_,rfl,?_⟩⟩
    obtain ⟨fuel,rfl⟩ : ∃ k, fuel=k+1 := ⟨fuel-1,by omega⟩
    exact reads_hash (render_singleton hc) (hf fuel (by omega) fuel (by omega))
  | elements_nil =>
    refine ⟨[],(append_nil _).symm,fun bs hb => ?_⟩
    cases hb
    exact ⟨le_rfl,fun fuel _ k _ => rElements_zero _ _⟩
  | @elements_cons b v w vs ws c c₁ c' hv hvs ihv ihvs =>
    obtain ⟨rs₁,hrs₁,hr₁⟩ := ihv hi fun v hv => by
      rw [mem_singleton.mp hv]
      exact ho _ mem_cons_self
    obtain ⟨rs₂,hrs₂,hr₂⟩ := ihvs ((copies_inv hv hi).push _ _)
      fun v hv => ho v (mem_cons_of_mem _ hv)
    refine ⟨rs₁++rs₂,by rw [hrs₂,← append_assoc,← hrs₁],fun bs hb => ?_⟩
    obtain ⟨cs,ds,hc,hd,rfl⟩ := render_append_ok hb
    obtain ⟨hp₁,hre₁⟩ := hr₁ cs hc
    obtain ⟨hp₂,hre₂⟩ := hr₂ ds hd
    change vs.length ≤ ds.length at hp₂
    change 1 ≤ cs.length at hp₁
    rw [length_append]
    refine ⟨by change vs.length+1 ≤ _; omega,fun fuel hf k hk => ?_⟩
    rw [length_cons] at hk
    obtain ⟨k,rfl⟩ : ∃ j, k=j+1 := ⟨k-1,by omega⟩
    obtain ⟨w',hw',hre⟩ := hre₁ fuel (by omega)
    cases hw'
    exact rElements_succ hre (hre₂ fuel (by omega) k (by omega))
  | entries_nil =>
    refine ⟨[],(append_nil _).symm,fun bs hb => ?_⟩
    cases hb
    exact ⟨le_rfl,fun fuel _ k _ => rEntries_zero _ _⟩
  | @entries_cons b k v k' v' es ws c c₁ c₂ c' hk hv hes ihk ihv ihes =>
    have hi₁ := copies_inv hk hi
    obtain ⟨rs₁,hrs₁,hr₁⟩ := ihk hi fun v hv => by
      rw [mem_singleton.mp hv]
      exact ho _ mem_cons_self
    obtain ⟨rs₂,hrs₂,hr₂⟩ := ihv hi₁ fun v hv => by
      rw [mem_singleton.mp hv]
      exact ho _ (mem_cons_of_mem _ mem_cons_self)
    obtain ⟨rs₃,hrs₃,hr₃⟩ := ihes ((copies_inv hv hi₁).aset _ _ _)
      fun v hv => ho v (mem_cons_of_mem _ (mem_cons_of_mem _ hv))
    refine ⟨(rs₁++rs₂)++rs₃,by rw [hrs₃,hrs₂,hrs₁]; simp only [append_assoc],fun bs hb => ?_⟩
    obtain ⟨both,es',hbo,hes',rfl⟩ := render_append_ok hb
    obtain ⟨cs,ds,hc,hd,rfl⟩ := render_append_ok hbo
    obtain ⟨hp₁,hre₁⟩ := hr₁ cs hc
    obtain ⟨hp₂,hre₂⟩ := hr₂ ds hd
    obtain ⟨hp₃,hre₃⟩ := hr₃ es' hes'
    change 1 ≤ cs.length at hp₁
    change 1 ≤ ds.length at hp₂
    rw [length_append,length_append]
    refine ⟨?_,fun fuel hf j hj => ?_⟩
    · have hl : (Piece.entries b ((k,v)::es)).sources.length=(Piece.entries b es).sources.length+2 := rfl
      rw [hl]
      omega
    rw [length_cons] at hj
    obtain ⟨j,rfl⟩ : ∃ i, j=i+1 := ⟨j-1,by omega⟩
    obtain ⟨w₁,hw₁,hke⟩ := hre₁ fuel (by omega)
    obtain ⟨w₂,hw₂,hva⟩ := hre₂ fuel (by omega)
    cases hw₁
    cases hw₂
    exact rEntries_succ hke hva (hre₃ fuel (by omega) j (by omega))

end MacRuby.MarshalRebuild
