import MacRuby.FileHandles
import MacRuby.Runs

/-!
# Handles as byte streams

What a handle stands for is a stream: bytes that were pushed back, followed by those
of the file from a position on. Every action has its meaning on streams, and the
handle and the stream are run side by side.

A handle represents a stream if it still has the bytes of the stream and its offset is
in the buffer. `Safe` says when an action on a handle that represents a stream gives
the result of the stream and leaves a handle that represents the next stream.
-/
namespace MacRuby.FileStreams
open FileHandles Runs List Nat

/-- `p` is the current position in the file. -/
structure Stream where
  file : List UInt8
  pushed : List UInt8
  p : ℕ
deriving DecidableEq, Repr

namespace Stream

def opened (file : List UInt8) : Stream := ⟨file,[],0⟩

def content (s : Stream) : List UInt8 := s.pushed++s.file.drop s.p

/-- The stream without its first `n` bytes. -/
def skip (s : Stream) (n : ℕ) : Stream :=
  {s with
    pushed := s.pushed.drop n
    p := s.p+min (n-s.pushed.length) (s.file.length-s.p)}

def seek (s : Stream) (offset : ℤ) (whence : Whence) : Result × Stream :=
  match lseek s.p s.file.length offset whence with
  | none => (.lseekFailed,s)
  | some p => (.zero,{s with pushed := [], p := p})

def exec (s : Stream) : Action → Result × Stream
  | .read size =>
    if size < 0 then (.negativeLength size,s)
    else if size=0 then (.string [],s)
    else (if s.content=[] then .nil else .string (s.content.take size.toNat),s.skip size.toNat)
  | .readAll => (.string s.content,s.skip s.content.length)
  | .getbyte => (match s.content with
      | [] => .nil
      | c::_ => .byte c,s.skip 1)
  | .eof => (.boolean s.content.isEmpty,s)
  | .ungetc c => (.nil,{s with pushed := c.bytes++s.pushed})
  | .seek offset whence => s.seek offset whence
  | .rewind => s.seek 0 .set
  | .pos => (.position s.p,s)

lemma content_skip (s : Stream) (n : ℕ) : (s.skip n).content=s.content.drop n := by
  have hf : s.file.drop (s.p+min (n-s.pushed.length) (s.file.length-s.p)) =
      s.file.drop (s.p+(n-s.pushed.length)) := by
    rw [drop_eq_drop_iff]
    omega
  unfold skip content
  rw [drop_append,drop_drop,hf]

@[simp] lemma file_skip (s : Stream) (n : ℕ) : (s.skip n).file=s.file := rfl

end Stream

variable {h : Handle} {s : Stream}

structure Represents (h : Handle) (s : Stream) : Prop where
  file : h.file=s.file
  bounded : h.Bounded
  view : h.view=s.content

lemma represents_opened (file : List UInt8) : Represents (.opened file) (.opened file) :=
  ⟨rfl,le_refl _,rfl⟩

lemma Represents.congr {s' : Stream} (hs : Represents h s)
    (hf : s.file=s'.file) (hc : s.content=s'.content) : Represents h s' :=
  ⟨hs.file.trans hf,hs.bounded,hs.view.trans hc⟩

lemma Represents.skip (hs : Represents h s) {n : ℕ} {r : List UInt8 × Handle} (hr : Reads h n r) :
    r.1=s.content.take n ∧ Represents r.2 (s.skip n) := by
  refine ⟨by rw [hr.bytes,hs.view],hr.file.trans hs.file,hr.bounded,?_⟩
  rw [hr.view,hs.view,Stream.content_skip]

lemma represents_readInternal (hs : Represents h s) {amount len : ℕ}
    (hl : 0 < len) (hu : Uncut h amount len) :
    ∃ h', readInternal h amount len=some (s.content.take len,h') ∧ Represents h' (s.skip len) := by
  obtain ⟨r,hr,hre⟩ := readInternal_spec hs.bounded amount hl
  obtain ⟨hb,hn⟩ := hs.skip (hre.uncut hu)
  exact ⟨r.2,by rw [hr,← hb],hn⟩

variable {amounts : ℕ → ℕ} {off amount pos : ℕ}

/-- There is a byte in the buffer, or nothing is left of the file behind it. -/
def Flows (h : Handle) : Prop :=
  h.data.length=0 ∨ h.off < h.data.length ∨ h.file.length ≤ h.data.length

instance (h : Handle) : Decidable (Flows h) := inferInstanceAs (Decidable (_ ∨ _))

lemma uncut_of_flows (hf : Flows h) (amount : ℕ) : Uncut h amount 1 := by
  unfold Uncut
  unfold Flows at hf
  omega

/-- A seek goes to the same place, and the buffer has from there on what the file has. -/
def SafeSeek (h : Handle) (s : Stream) (offset : ℤ) (whence : Whence) : Prop :=
  (whence=.cur → h.pos=s.p) ∧
    ∀ code ∈ lseek h.pos h.file.length offset whence, h.buf.isSome →
      code ≤ h.data.length ∧ (h.data.drop code=(h.file.take h.data.length).drop code)

instance (h : Handle) (s : Stream) (offset : ℤ) (whence : Whence) :
    Decidable (SafeSeek h s offset whence) :=
  inferInstanceAs (Decidable (_ ∧ _))

lemma given_pos (hf : Flows h) (hv : 0 < h.view.length) {len : ℕ}
    (hl : 0 < len) : 0 < given h amount len := by
  unfold Flows at hf
  unfold given
  split_ifs with hd
  · rw [length_view_of_empty hd] at hv
    omega
  · rw [length_view_of_data hd] at hv
    omega

def Safe (h : Handle) (s : Stream) (amounts : ℕ → ℕ) : Action → Prop
  | .read size => size ≤ 0 ∨ (size ≤ 1000000000 ∧ Uncut h (amounts 0) size.toNat)
  | .readAll => Flows h
  | .getbyte => Flows h
  | .eof =>
    (h.data.length=0 ∧
      (h.file.length ≤ h.pos ∨ (h.pos=0 ∧ 2 ≤ h.file.length ∧ 2 ≤ amounts 0))) ∨
    (h.data.length ≠ 0 ∧ (h.off < h.data.length ∨ h.data.length < h.file.length))
  | .ungetc c =>
    c.bytes=[] ∨
    (h.data.length=0 ∧ (c.bytes.length=h.pos ∨
      (h.file.length ≤ h.pos ∧ h.file.length ≤ c.bytes.length))) ∨
    (h.data.length ≠ 0 ∧ (c.bytes.length ≤ h.off ∨
      (h.off=0 ∧ h.file.length ≤ h.data.length)))
  | .seek offset whence => SafeSeek h s offset whence
  | .rewind => SafeSeek h s 0 .set
  | .pos => h.pos=s.p

instance (h : Handle) (s : Stream) (amounts : ℕ → ℕ) (a : Action) :
    Decidable (Safe h s amounts a) :=
  match a with
  | .read _ => inferInstanceAs (Decidable (_ ∨ _))
  | .readAll => inferInstanceAs (Decidable (Flows h))
  | .getbyte => inferInstanceAs (Decidable (Flows h))
  | .eof => inferInstanceAs (Decidable (_ ∨ _))
  | .ungetc _ => inferInstanceAs (Decidable (_ ∨ _))
  | .seek offset whence => inferInstanceAs (Decidable (SafeSeek h s offset whence))
  | .rewind => inferInstanceAs (Decidable (SafeSeek h s 0 .set))
  | .pos => inferInstanceAs (Decidable (_=_))

/-- The action gives the result of the stream and a handle that represents the next one. -/
def Follows (h : Handle) (s : Stream) (amounts : ℕ → ℕ) (a : Action) : Prop :=
  ∃ h', h.exec amounts a=some ((s.exec a).1,h') ∧ Represents h' (s.exec a).2

lemma follows_read (hs : Represents h s) {size : ℤ}
    (hsa : Safe h s amounts (.read size)) : Follows h s amounts (.read size) := by
  unfold Follows Handle.exec Stream.exec ioRead
  by_cases hn : size < 0
  · simp only [if_pos hn]
    exact ⟨h,rfl,hs⟩
  simp only [if_neg hn]
  by_cases hz : size=0
  · simp only [if_pos hz]
    exact ⟨h,rfl,hs⟩
  obtain ⟨hb,hu⟩ : size ≤ 1000000000 ∧ Uncut h (amounts 0) size.toNat :=
    hsa.resolve_left (by omega)
  obtain ⟨h',hr,hne⟩ := represents_readInternal hs (by omega) hu
  simp only [if_neg hz,if_neg (show ¬size > 1000000000 by omega),hr,Option.map_some]
  refine ⟨h',?_,hne⟩
  have hni : (s.content.take size.toNat).length=0 ↔ s.content=[] := by
    rw [length_eq_zero_iff,take_eq_nil_iff]
    exact or_iff_right (by omega)
  simp only [hni]

lemma follows_getbyte (hs : Represents h s)
    (hsa : Safe h s amounts .getbyte) : Follows h s amounts .getbyte := by
  obtain ⟨h',hr,hn⟩ :=
    represents_readInternal hs one_pos (uncut_of_flows hsa (amounts 0))
  unfold Follows Handle.exec Stream.exec getbyte
  rw [hr]
  refine ⟨h',?_,hn⟩
  cases s.content <;> rfl

lemma readAllLoop_spec (hs : Represents h s) (hf : Flows h) {fuel : ℕ}
    (hfu : s.content.length < fuel) (amounts : ℕ → ℕ) :
    ∃ h', readAllLoop fuel h amounts=some (s.content,h') ∧
      Represents h' (s.skip s.content.length) := by
  induction fuel generalizing h s amounts with
  | zero => omega
  | succ fuel ih =>
    obtain ⟨⟨bytes,h'⟩,hr,hre⟩ :=
      readInternal_spec hs.bounded (amounts 0) (by decide : 0 < 512)
    obtain ⟨hb,hnex⟩ := hs.skip hre
    generalize hn : given h (amounts 0) 512=n at hb hnex
    dsimp only at hb hnex
    rw [readAllLoop,hr]
    cases bytes with
    | nil =>
      have he : s.content=[] := by
        by_contra hne
        have hp : 0 < h.view.length := length_pos_iff.mpr (hs.view ▸ hne)
        have hz := congrArg length hb
        rw [length_take,← hs.view,length_nil] at hz
        have hg : 0 < given h (amounts 0) 512 := given_pos hf hp (by decide)
        omega
      refine ⟨h',by rw [he],hnex.congr rfl ?_⟩
      rw [Stream.content_skip,Stream.content_skip,he,drop_nil,drop_nil]
    | cons c rest =>
      have hc := Stream.content_skip s n
      have hsh : (s.skip n).content.length < fuel := by
        have hl := congrArg length hb
        rw [length_cons,length_take] at hl
        rw [hc,length_drop]
        omega
      obtain ⟨h'',hlo,hla⟩ :=
        ih hnex (hre.unspent.imp id .inl) hsh fun i => amounts (i+1)
      refine ⟨h'',?_,hla.congr rfl ?_⟩
      · dsimp only
        rw [hlo,hc,Option.map_some,hb,take_append_drop]
      · rw [Stream.content_skip,drop_length,Stream.content_skip,drop_length]

lemma copyOut_one (ho : h.off=0) (hd : 2 ≤ h.data.length) :
    copyOut h 1=some (h.data.take 1,{h with pos := 1, off := 1}) := by
  unfold copyOut unsignedSub
  dsimp only
  rw [ho,if_pos (zero_le _),if_neg (by omega),if_neg (show ¬1 > h.data.length-0 by omega),
    if_pos (by omega),if_neg (by omega)]
  rfl

lemma eof_fresh (hd : h.data.length=0) (hb : h.Bounded) (hpo : h.pos=0)
    (hfil : 2 ≤ h.file.length) (ha : 2 ≤ amount) :
    ∃ h', eof h amount=some (false,h') ∧ h'.file=h.file ∧ h'.Bounded ∧ h'.view=h.file := by
  have hof : h.off=0 := le_zero.mp (hd ▸ hb)
  have hn : h.file ≠ [] := length_pos_iff.mp (by omega)
  obtain ⟨hl,hfi,ho,hv⟩ := filled_spec hpo hof hn amount
  have hco := copyOut_one ho (by omega)
  have hr : readInternal h amount 1=copyOut
      {(h.read amount h.file.length).2 with buf := some (h.read amount h.file.length).1} 1 := by
    rw [readInternal,if_pos hd,if_neg (by omega)]
  have hp : readPending h=false := decide_eq_false (by omega)
  rw [hco] at hr
  generalize hf : ({(h.read amount h.file.length).2 with
    buf := some (h.read amount h.file.length).1} : Handle)=f at hl hfi ho hv hr
  have hbu : f.buf.isSome=true := by rw [← hf]; rfl
  have hfil' : f.file=h.file := by rw [← hf]; rfl
  obtain ⟨c,hc⟩ : ∃ c, f.data.take 1=[c] := by
    refine length_eq_one_iff.mp ?_
    rw [length_take]
    omega
  rw [hc] at hr
  refine ⟨{f with pos := 1, off := 0},?_,hfil',zero_le,?_⟩
  · rw [eof,hp,hr]
    dsimp only
    rw [if_pos hbu]
    rfl
  · rw [← hv,view_of_data hfi,ho]
    exact view_of_data hfi

lemma follows_eof (hs : Represents h s) (hsa : Safe h s amounts .eof) :
    Follows h s amounts .eof := by
  unfold Follows Handle.exec Stream.exec
  rcases hsa with ⟨hd,hen | ⟨hpo,hf,ha⟩⟩ | ⟨hd,hm⟩
  · have he : s.content=[] := by
      rw [← hs.view,view_of_empty hd,drop_of_length_le hen]
    obtain ⟨⟨bytes,h'⟩,hr,hre⟩ := readInternal_spec hs.bounded (amounts 0) one_pos
    obtain ⟨hb,hnex⟩ := hs.skip hre
    rw [he,take_nil] at hb
    subst hb
    refine ⟨h',?_,hnex.congr rfl ?_⟩
    · rw [eof,readPending,hd,hr,he]
      rfl
    · rw [Stream.content_skip,he,drop_nil]
  · obtain ⟨h',heo,hf',hbo,hv⟩ := eof_fresh hd hs.bounded hpo hf ha
    have hc : s.content=h.file := by
      rw [← hs.view,view_of_empty hd,hpo,drop_zero]
    have hn : s.content ≠ [] := by
      rw [hc]
      exact length_pos_iff.mp (by omega)
    refine ⟨h',?_,hf'.trans hs.file,hbo,hv.trans hc.symm⟩
    rw [heo,isEmpty_eq_false_iff.mpr hn]
    rfl
  · have hn : s.content ≠ [] := by
      rw [← hs.view]
      refine length_pos_iff.mp ?_
      rw [length_view_of_data hd]
      omega
    refine ⟨h,?_,hs⟩
    have hp : readPending h=true := decide_eq_true (by omega)
    rw [eof,hp,isEmpty_eq_false_iff.mpr hn]
    rfl

lemma view_mk {file b : List UInt8} (hb : b.length ≠ 0) :
    (Handle.mk file pos (some b) off).view=b.drop off++file.drop b.length := if_neg hb

lemma view_mk_nil {file b : List UInt8} (hb : b.length=0) :
    (Handle.mk file pos (some b) off).view=file.drop pos := if_pos hb

lemma overwritten (data bytes : List UInt8) (hl : bytes.length ≤ off) (ho : off ≤ data.length) :
    (data.take (off-bytes.length)++bytes++data.drop off).length=data.length ∧
      (data.take (off-bytes.length)++bytes++data.drop off).drop (off-bytes.length) =
        bytes++data.drop off := by
  have ht : (data.take (off-bytes.length)).length=off-bytes.length := by
    rw [length_take]
    omega
  constructor
  · simp only [length_append,length_drop]
    omega
  · rw [append_assoc,drop_append,ht,Nat.sub_self,drop_zero,
      drop_of_length_le (le_of_eq ht),nil_append]

lemma represents_pushBack (hs : Represents h s) {c : Pushed}
    (hsa : Safe h s amounts (.ungetc c)) :
    ∃ h', pushBack h c.bytes=some h' ∧ Represents h' {s with pushed := c.bytes++s.pushed} := by
  have hb : h.off ≤ h.data.length := hs.bounded
  have hc : ({s with pushed := c.bytes++s.pushed}).content=c.bytes++h.view := by
    rw [hs.view]
    exact append_assoc _ _ _
  unfold pushBack
  by_cases hlen : c.bytes.length ≤ h.off
  · rw [if_pos hlen,if_pos (.inr hb)]
    obtain ⟨hl,hdr⟩ := overwritten h.data c.bytes hlen hb
    refine ⟨_,rfl,hs.file,?_,?_⟩
    · change h.off-c.bytes.length ≤ (h.data.take _++c.bytes++h.data.drop h.off).length
      omega
    · rw [hc]
      by_cases hd : h.data.length=0
      · have hn : c.bytes=[] := length_eq_zero_iff.mp (by omega)
        rw [view_mk_nil (hl.trans hd),hn,nil_append,view_of_empty hd]
      · rw [view_mk (hl ▸ hd),hl,hdr,view_of_data hd,append_assoc]
  · have hne : c.bytes ≠ [] := fun hn => hlen (by rw [hn]; exact zero_le)
    have ho : h.off=0 := by
      rcases hsa.resolve_left hne with ⟨hd,-⟩ | ⟨-,hle | hz⟩
      · omega
      · exact absurd hle hlen
      · exact hz.1
    have hf : h.file.drop (c.bytes++h.data).length=h.file.drop (if h.data.length=0 then h.pos
        else h.data.length) := by
      rw [drop_eq_drop_iff,length_append]
      rcases hsa.resolve_left hne with ⟨hd,hl⟩ | ⟨hd,hl⟩
      · rw [if_pos hd]
        omega
      · rw [if_neg hd]
        omega
    rw [if_neg hlen,ho,drop_zero]
    refine ⟨_,rfl,hs.file,zero_le,?_⟩
    rw [hc]
    have hl : (c.bytes++h.data).length ≠ 0 := by
      rw [length_append]
      omega
    rw [view_mk hl,drop_zero,hf,append_assoc]
    split_ifs with hd
    · rw [view_of_empty hd,length_eq_zero_iff.mp hd,nil_append]
    · rw [view_of_data hd,ho,drop_zero]

lemma represents_sought (hs : Represents h s) {code : ℕ}
    (hbu : h.buf.isSome → code ≤ h.data.length ∧
      h.data.drop code=(h.file.take h.data.length).drop code) :
    Represents {h with pos := code, off := if h.buf.isSome then code else h.off}
      {s with pushed := [], p := code} := by
  have hf := hs.file
  have hbo := hs.bounded
  obtain ⟨file,pos,buf,off⟩ := h
  cases buf with
  | none =>
    refine ⟨hf,hbo,?_⟩
    exact congrArg (drop code) hf
  | some b =>
    obtain ⟨hl,hd⟩ := hbu rfl
    change code ≤ b.length at hl
    change b.drop code=(file.take b.length).drop code at hd
    refine ⟨hf,hl,?_⟩
    change _=s.file.drop code
    rw [← hf]
    by_cases hb : b.length=0
    · rw [view_mk_nil hb]
    · have hr : file.drop b.length=(file.drop code).drop (b.length-code) := by
        rw [drop_drop,Nat.add_sub_cancel' hl]
      rw [view_mk hb]
      change b.drop code++file.drop b.length=_
      rw [hd,drop_take,hr,take_append_drop]

lemma follows_seek (hs : Represents h s) {offset : ℤ} {whence : Whence}
    (hsa : SafeSeek h s offset whence) : (seek h offset whence).1=(s.seek offset whence).1 ∧
      Represents (seek h offset whence).2 (s.seek offset whence).2 := by
  have hp : lseek h.pos h.file.length offset whence = lseek s.p s.file.length offset whence := by
    rw [hs.file]
    cases whence with
    | set | «end» => rfl
    | cur => rw [hsa.1 rfl]
  unfold seek Stream.seek
  rw [← hp]
  cases hc : lseek h.pos h.file.length offset whence with
  | none => exact ⟨rfl,hs⟩
  | some code =>
    exact ⟨rfl,represents_sought hs (hsa.2 code hc)⟩

lemma follows_of_safe (hs : Represents h s) {a : Action}
    (hsa : Safe h s amounts a) : Follows h s amounts a := by
  cases a with
  | read size => exact follows_read hs hsa
  | readAll =>
    have hf : s.content.length < h.data.length+h.file.length+1 := by
      rw [← hs.view]
      unfold Handle.view
      split_ifs
      · rw [length_drop]
        omega
      · rw [length_append,length_drop,length_drop]
        omega
    obtain ⟨h',hre,hn⟩ := readAllLoop_spec hs hsa hf amounts
    refine ⟨h',?_,hn⟩
    rw [Handle.exec,readAll,hre]
    rfl
  | getbyte => exact follows_getbyte hs hsa
  | eof => exact follows_eof hs hsa
  | ungetc c =>
    by_cases hni : c=.nil
    · subst hni
      exact ⟨h,rfl,hs⟩
    · obtain ⟨h',hp,hn⟩ := represents_pushBack hs hsa
      refine ⟨h',?_,hn⟩
      rw [Handle.exec,ungetc,if_neg hni,hp]
      rfl
  | seek | rewind =>
    obtain ⟨hr,hn⟩ := follows_seek hs hsa
    exact ⟨_,by rw [Handle.exec,Stream.exec,← hr],hn⟩
  | pos =>
    refine ⟨h,?_,hs⟩
    rw [Handle.exec,Stream.exec,hsa]

/-- A handle and its stream; `same` is set as long as all results were the same and no copy
went outside of the buffer. -/
structure State where
  handle : Handle
  stream : Stream
  same : Bool

def start (file : List UInt8) : State := ⟨.opened file,.opened file,true⟩

/-- An action with the numbers of bytes that `read` gives. -/
structure Call where
  action : Action
  amounts : ℕ → ℕ

def step (t : State) (c : Call) : State :=
  let r := t.stream.exec c.action
  match t.handle.exec c.amounts c.action with
  | none => ⟨t.handle,r.2,false⟩
  | some (result,h) => ⟨h,r.2,t.same && decide (result=r.1)⟩

def SafeCall (t : State) (c : Call) : Prop := Safe t.handle t.stream c.amounts c.action

instance (t : State) (c : Call) : Decidable (SafeCall t c) :=
  inferInstanceAs (Decidable (Safe _ _ _ _))

lemma represents_step {t : State} {c : Call}
    (ht : t.same=true ∧ Represents t.handle t.stream) (hs : SafeCall t c) :
    (step t c).same=true ∧ Represents (step t c).handle (step t c).stream := by
  obtain ⟨h',he,hn⟩ := follows_of_safe ht.2 hs
  unfold step
  rw [he]
  exact ⟨by simp [ht.1],hn⟩

/-- In a run of safe actions every result is that of the stream, and between the actions the
offset is in the buffer. -/
theorem stream_results_of_safe (file : List UInt8) (calls : List Call)
    (hsafe : Along step SafeCall (start file) calls) :
    ∀ l, l <+: calls → (run step (start file) l).same = true ∧
      (run step (start file) l).handle.Bounded := by
  rintro l ⟨rest,rfl⟩
  have hf := ((along_append step SafeCall (start file) l rest).mp hsafe).1
  obtain ⟨hs,hr⟩ := run_invariant
    (fun _ _ => represents_step) ⟨rfl,represents_opened file⟩ hf
  exact ⟨hs,hr.bounded⟩

/-- A byte is read and pushed back, the position is asked for, the file is read on and
rewound. -/
theorem stream_results_pushed_back :
    let calls : List Call := [.getbyte,.ungetc (.fixnum 65),.eof,.read 2,.pos,.rewind,.readAll].map
      fun a => ⟨a,fun _ => 3⟩
    (run step (start [65,66,67]) calls).same=true ∧
      (run step (start [65,66,67]) calls).handle.Bounded :=
  stream_results_of_safe _ _ (by decide) _ (prefix_refl _)

/-- A byte is lost by `eof?`, a byte is read twice after a push-back at the end, and a copy
goes outside after a seek behind the buffer. -/
theorem stream_results_differ :
    (run step (start [65]) ([.eof,.getbyte].map fun a => ⟨a,fun _ => 9⟩)).same = false ∧
      (run step (start [65,66]) ([.read 2,.ungetc (.fixnum 66),.getbyte,.getbyte].map
        fun a => ⟨a,fun _ => 9⟩)).same = false ∧
      (run step (start [65,66,67]) ([.getbyte,.seek 9 .set,.getbyte].map
        fun a => ⟨a,fun _ => 9⟩)).same = false := by
  decide
end MacRuby.FileStreams
