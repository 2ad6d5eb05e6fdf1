import MacRuby.FileStreams
import Mathlib.Data.List.Infix
import Mathlib.Data.Nat.ModEq

/-!
# Reading lines

`IO#gets` without a limit reads pieces of the separator's length and compares each with
the separator; the pieces are collected in a buffer of 512 bytes that is doubled when
it is full. With a limit it reads a block of that size and cuts it before the first
separator in it.

What the calls of `gets` should give is a splitting of the content: a line ends where
the separator first ends, at the limit, or with the content.
-/
namespace MacRuby.LineReads
open FileHandles FileStreams List Nat

variable {α : Type*}

structure IsLine (sep : List α) (limit : Option ℕ) (content line : List α) : Prop where
  initial : line <+: content
  nonempty : line ≠ []
  ends : sep <:+ line ∨ limit=some line.length ∨ line=content
  first : ∀ n, 0 < n → n < line.length → ¬sep <:+ content.take n ∧ limit ≠ some n

inductive Splits (sep : List α) (limit : Option ℕ) : List α → List (List α) → Prop
  | nil : Splits sep limit [] []
  | cons {content line : List α} {lines : List (List α)} (h : IsLine sep limit content line)
      (hrest : Splits sep limit (content.drop line.length) lines) :
      Splits sep limit content (line::lines)

lemma Splits.flatten {sep : List α} {limit : Option ℕ} {content : List α}
    {lines : List (List α)} (h : Splits sep limit content lines) : lines.flatten=content := by
  induction h with
  | nil => rfl
  | cons h hr ih =>
    rw [flatten_cons,ih]
    exact prefix_append_drop h.initial |>.symm

/-- The loop of `gets` without a limit: `s` is the size of the buffer, `data` what is in it.
The copy of a piece has to fit. -/
def getsLoop (sep : List UInt8) :
    ℕ → Handle → (ℕ → ℕ) → ℕ → List UInt8 → Option (List UInt8 × Handle × (ℕ → ℕ))
  | 0,_,_,_,_ => none
  | fuel+1,h,amounts,s,data => match readInternal h (amounts 0) sep.length with
      | none => none
      | some (piece,h) =>
        let amounts := fun i => amounts (i+1)
        if piece.length ≠ sep.length then some (data,h,amounts)
        else
          let s := if data.length ≥ s then s+s else s
          if data.length+sep.length ≤ s then
            if piece=sep then some (data++piece,h,amounts)
            else getsLoop sep fuel h amounts s (data++piece)
          else none

/-- `CFStringFind`. -/
def find (sep : List UInt8) : List UInt8 → Option ℕ
  | [] => none
  | c::rest => if sep.isPrefixOf (c::rest) then some 0 else (find sep rest).map (·+1)

/-- `gets` with a limit: what the read does not fill stays zero. -/
def getsLimited (sep : List UInt8) (limit : ℕ) (h : Handle) (amounts : ℕ → ℕ) :
    Option (List UInt8 × Handle × (ℕ → ℕ)) :=
  match readInternal h (amounts 0) limit with
  | none => none
  | some (piece,h) =>
    let data := piece++List.replicate (limit-piece.length) 0
    let data := match find sep data with
      | none => data
      | some location => data.take location
    some (data,h,fun i => amounts (i+1))

/-- `rb_io_gets_m` with a separator. -/
def gets (sep : List UInt8) (limit : Option ℕ) (h : Handle) (amounts : ℕ → ℕ) :
    Option (Option (List UInt8) × Handle × (ℕ → ℕ)) :=
  match limit with
  | some limit => (getsLimited sep limit h amounts).map fun r => (some r.1,r.2)
  | none => (getsLoop sep (h.data.length+h.file.length+1) h amounts 512 []).map fun r =>
    (if r.1.length=0 then none else some r.1,r.2)

/-- The strings of at most so many calls, if the last of them gives `nil`. -/
def getsAll (sep : List UInt8) (limit : Option ℕ) :
    ℕ → Handle → (ℕ → ℕ) → Option (List (List UInt8))
  | 0,_,_ => none
  | calls+1,h,amounts => match gets sep limit h amounts with
      | none => none
      | some (none,_) => some []
      | some (some line,h,amounts) => (getsAll sep limit calls h amounts).map (line::·)

/-- The calls until `nil` give all of the content, line by line, with every copy in its
buffer. -/
def LosesNothing (sep : List UInt8) (limit : Option ℕ) (h : Handle) (amounts : ℕ → ℕ) : Prop :=
  ∃ calls lines, getsAll sep limit calls h amounts=some lines ∧ lines.flatten=h.view ∧
    Splits sep limit h.view lines

/-- The next reads of `len` bytes are not cut short. -/
def FullReads (len : ℕ) : ℕ → Handle → (ℕ → ℕ) → Prop
  | 0,_,_ => True
  | k+1,h,amounts => Uncut h (amounts 0) len ∧ match readInternal h (amounts 0) len with
      | none => False
      | some r => FullReads len k r.2 fun i => amounts (i+1)

def afterReads (len : ℕ) : ℕ → Handle → (ℕ → ℕ) → Handle
  | 0,h,_ => h
  | k+1,h,amounts => match readInternal h (amounts 0) len with
      | none => h
      | some r => afterReads len k r.2 fun i => amounts (i+1)

lemma fullReads_add (len k m : ℕ) (h : Handle) (amounts : ℕ → ℕ) :
    FullReads len (k+m) h amounts ↔ FullReads len k h amounts ∧
      FullReads len m (afterReads len k h amounts) fun i => amounts (i+k) := by
  induction k generalizing h amounts with
  | zero =>
    rw [zero_add]
    exact (and_iff_right trivial).symm
  | succ k ih =>
    rw [add_right_comm,FullReads,FullReads,afterReads]
    cases readInternal h (amounts 0) len with
    | none => exact ⟨fun h => h.2.elim,fun h => h.1.2.elim⟩
    | some r =>
      dsimp only
      rw [ih,and_assoc]
      rfl

/-- A handle from which lines are read: its offset is in the buffer, and not at the end of a
buffer that stops before the end of the file. -/
structure Source where
  handle : Handle
  bounded : handle.Bounded
  flows : Flows handle

namespace Source

def opened (file : List UInt8) : Source := ⟨.opened file,zero_le _,Or.inl rfl⟩

def view (x : Source) : List UInt8 := x.handle.view

lemma read_spec (x : Source) (amount : ℕ) {len : ℕ} (hl : 0 < len) :
    ∃ x' : Source, readInternal x.handle amount len =
        some (x.view.take (given x.handle amount len),x'.handle) ∧
      x'.view=x.view.drop (given x.handle amount len) := by
  obtain ⟨r,hr,hre⟩ := readInternal_spec x.bounded amount hl
  refine ⟨⟨r.2,hre.bounded,hre.unspent.imp id .inl⟩,?_,hre.view⟩
  rw [hr,view,← hre.bytes]

lemma read_full (x : Source) {amount len : ℕ} (hl : 0 < len) (hu : Uncut x.handle amount len)
    (hle : len ≤ x.view.length) :
    ∃ x' : Source, readInternal x.handle amount len=some (x.view.take len,x'.handle) ∧
      x'.view=x.view.drop len := by
  have hg : given x.handle amount len=len := by
    rw [(given_spec _ _ _).2.mp hu]
    exact min_eq_left hle
  have hr := x.read_spec amount hl
  rwa [hg] at hr

end Source

/-- What is known of the buffer's size: it is the first one, or the separator's length
divides it. -/
def Sized (len s : ℕ) : Prop := s=512 ∨ (len ∣ 512 ∧ len ∣ s ∧ 512 ≤ s)

lemma add_le_of_dvd {len d s : ℕ} (hd : len ∣ d) (hs : len ∣ s) (hl : d < s) : d+len ≤ s := by
  have hdi : len ≤ s-d := le_of_dvd (by omega) (dvd_sub hs hd)
  omega

/-- A copy of a piece fits exactly if it ends in the first 512 bytes or the buffer is always
full when it is doubled. -/
lemma copy_fits_iff {len s d : ℕ} (hd : len ∣ d) (hle : d ≤ s) (hs : Sized len s) :
    d+len ≤ (if d ≥ s then s+s else s) ↔ d+len ≤ 512 ∨ len ∣ 512 := by
  rcases hs with rfl | ⟨hl,hs,hlo⟩
  · split_ifs with hf
    · obtain rfl : d=512 := by omega
      have hsm := le_of_dvd (by decide) hd
      exact iff_of_true (by omega) (.inr hd)
    · refine ⟨.inl,fun h => h.elim id fun hl => ?_⟩
      exact add_le_of_dvd hd hl (by omega)
  · refine iff_of_true ?_ (.inr hl)
    split_ifs with hf
    · have hsm := le_of_dvd (by omega) hs
      omega
    · exact add_le_of_dvd hd hs (by omega)

lemma sized_doubled {len s d : ℕ} (hd : len ∣ d) (hle : d ≤ s) (hs : Sized len s) :
    Sized len (if d ≥ s then s+s else s) := by
  split_ifs with hf
  · obtain rfl : d=s := by omega
    rcases hs with rfl | ⟨hl,hs,hlo⟩
    · exact .inr ⟨hd,Nat.dvd_add hd hd,by decide⟩
    · exact .inr ⟨hl,Nat.dvd_add hs hs,by omega⟩
  · exact hs

variable {k fuel : ℕ} {amounts' : ℕ → ℕ} {data' : List UInt8}

variable {sep : List UInt8} {x : Source} {amounts : ℕ → ℕ} {s : ℕ} {data : List UInt8}

variable (x amounts s data) in
lemma getsLoop_short (hse : 0 < sep.length) (fuel : ℕ)
    (h : ¬(Uncut x.handle (amounts 0) sep.length ∧ sep.length ≤ x.view.length)) :
    ∃ x' : Source, getsLoop sep (fuel+1) x.handle amounts s data =
        some (data,x'.handle,fun i => amounts (i+1)) ∧ x'.view <:+ x.view := by
  obtain ⟨x',hr,hv⟩ := x.read_spec (amounts 0) hse
  have hs : (x.view.take (given x.handle (amounts 0) sep.length)).length ≠ sep.length := by
    obtain ⟨hl,hu⟩ := given_spec x.handle (amounts 0) sep.length
    rw [hu] at h
    rw [length_take]
    omega
  refine ⟨x',?_,hv ▸ drop_suffix _ _⟩
  rw [getsLoop,hr]
  dsimp only
  rw [if_pos hs]

variable (s data) in
lemma getsLoop_full (hs : 0 < sep.length) (fuel : ℕ)
    (hu : Uncut x.handle (amounts 0) sep.length) (hle : sep.length ≤ x.view.length) :
    ∃ x' : Source, x'.view=x.view.drop sep.length ∧
      readInternal x.handle (amounts 0) sep.length=some (x.view.take sep.length,x'.handle) ∧
      getsLoop sep (fuel+1) x.handle amounts s data =
        if data.length+sep.length ≤ (if data.length ≥ s then s+s else s) then
          if x.view.take sep.length=sep then
            some (data++x.view.take sep.length,x'.handle,fun i => amounts (i+1))
          else getsLoop sep fuel x'.handle (fun i => amounts (i+1))
            (if data.length ≥ s then s+s else s) (data++x.view.take sep.length)
        else none := by
  obtain ⟨x',hr,hv⟩ := x.read_full hs hu hle
  refine ⟨x',hv,hr,?_⟩
  have hl : (x.view.take sep.length).length=sep.length := by
    rw [length_take]
    omega
  rw [getsLoop,hr]
  dsimp only
  rw [if_neg (not_not.mpr hl)]

def EndsAfter (sep : List UInt8) : ℕ → List UInt8 → Prop
  | 0,v => v=[]
  | k+1,v => sep.length ≤ v.length ∧
      if v.take sep.length=sep then k=0 else EndsAfter sep k (v.drop sep.length)

lemma not_suffix_append {piece : List UInt8} (data : List UInt8)
    (hl : piece.length=sep.length) (hn : piece ≠ sep) : ¬sep <:+ data++piece := by
  intro hs
  have hp : piece <:+ data++piece := suffix_append _ _
  exact hn ((suffix_of_suffix_length_le hp hs (by omega)).eq_of_length hl)

lemma endsAfter_of_line (hs : 0 < sep.length) {v : List UInt8}
    (hd : ¬sep <:+ data) (hle : k*sep.length ≤ v.length)
    (he : sep <:+ data++v.take (k*sep.length) ∨ v.length=k*sep.length)
    (hf : ∀ n, 0 < n → n < k*sep.length → ¬sep <:+ data++v.take n) : EndsAfter sep k v := by
  induction k generalizing data v with
  | zero =>
    rw [zero_mul,take_zero,append_nil] at he
    exact length_eq_zero_iff.mp (he.resolve_left hd)
  | succ k ih =>
    rw [succ_mul] at hle he hf
    have hfi : sep.length ≤ v.length := by omega
    refine ⟨hfi,?_⟩
    split_ifs with hp
    · by_contra hk
      have hm : 0 < k*sep.length := Nat.mul_pos (pos_of_ne_zero hk) hs
      refine hf sep.length hs (by omega) ?_
      rw [hp]
      exact suffix_append _ _
    · have ht : ∀ n, data++v.take (n+sep.length) =
          data++v.take sep.length++(v.drop sep.length).take n := fun n => by
        rw [append_assoc,add_comm,take_add]
      have hl : (v.take sep.length).length=sep.length := by
        rw [length_take]
        omega
      refine ih (not_suffix_append data hl hp) ?_ ?_ ?_
      · rw [length_drop]
        omega
      · rw [← ht,length_drop]
        refine he.imp id fun h => ?_
        omega
      · intro n hpo hn
        rw [← ht]
        exact hf (n+sep.length) (by omega) (by omega)

lemma getsLoop_of_endsAfter (hse : 0 < sep.length) (hen : EndsAfter sep k x.view)
    (hfu : FullReads sep.length k x.handle amounts) (hd : sep.length ∣ data.length)
    (hle : data.length ≤ s) (hs : Sized sep.length s) (hfue : k < fuel)
    (hf : data.length+k*sep.length ≤ 512 ∨ sep.length ∣ 512) :
    ∃ (x' : Source) (amounts' : ℕ → ℕ), getsLoop sep fuel x.handle amounts s data =
        some (data++x.view.take (k*sep.length),x'.handle,amounts') ∧
      x'.view=x.view.drop (k*sep.length) ∧
      (x'.view ≠ [] → x'.handle=afterReads sep.length k x.handle amounts ∧
        amounts'=fun i => amounts (i+k)) := by
  induction k generalizing x amounts s data fuel with
  | zero =>
    obtain ⟨fuel,rfl⟩ := exists_eq_succ_of_ne_zero (by omega : fuel ≠ 0)
    have he : x.view=[] := hen
    obtain ⟨x',hl,hsu⟩ := getsLoop_short x amounts s data hse fuel (fun h => by
        have hle := h.2
        rw [he,length_nil] at hle
        omega)
    have he' : x'.view=[] := suffix_nil.mp (he ▸ hsu)
    refine ⟨x',fun i => amounts (i+1),?_,?_,absurd he'⟩
    · rw [hl,zero_mul,take_zero,append_nil]
    · rw [he',he,drop_nil]
  | succ k ih =>
    obtain ⟨fuel,rfl⟩ := exists_eq_succ_of_ne_zero (by omega : fuel ≠ 0)
    obtain ⟨hlo,hen⟩ := hen
    obtain ⟨x',hv,hr,hl⟩ := getsLoop_full s data hse fuel hfu.1 hlo
    rw [succ_mul] at hf
    have hc := (copy_fits_iff hd hle hs).mpr (hf.imp fun h => by omega id)
    rw [if_pos hc] at hl
    have hre : FullReads sep.length k x'.handle fun i => amounts (i+1) := by
      have hm := hfu.2
      rw [hr] at hm
      exact hm
    by_cases hp : x.view.take sep.length=sep
    · rw [if_pos hp] at hen hl
      subst hen
      refine ⟨x',fun i => amounts (i+1),?_,?_,fun _ => ⟨?_,rfl⟩⟩
      · rw [hl,zero_add,one_mul]
      · rw [hv,zero_add,one_mul]
      · rw [afterReads,hr]
        rfl
    · rw [if_neg hp] at hen hl
      have hlen : (data++x.view.take sep.length).length=data.length+sep.length := by
        rw [length_append,length_take]
        omega
      have hf' : (data++x.view.take sep.length).length+k*sep.length ≤ 512 ∨ sep.length ∣ 512 := by
        exact hf.imp fun h => by omega id
      obtain ⟨x'',amounts',hl',hv',haf⟩ := ih (hv ▸ hen) hre
        (hlen ▸ Nat.dvd_add hd (dvd_refl _)) (hlen ▸ hc) (sized_doubled hd hle hs)
        (by omega : k < fuel) hf'
      refine ⟨x'',amounts',?_,?_,fun hn => ?_⟩
      · rw [hl,hl',hv,append_assoc,succ_mul,add_comm (k*sep.length), take_add]
      · rw [hv',hv,drop_drop,succ_mul,add_comm]
      · obtain ⟨hh,ha⟩ := haf hn
        refine ⟨?_,ha.trans ?_⟩
        · rw [hh,afterReads,hr]
        · funext i
          rw [add_assoc]

/-- What the loop has read if it returns: whole pieces, all of whose copies fit, and no more
if it ends with the separator. -/
structure Collected (sep : List UInt8) (x : Source) (amounts : ℕ → ℕ) (data : List UInt8) (k : ℕ)
    (data' : List UInt8) (x' : Source) (amounts' : ℕ → ℕ) : Prop where
  full : FullReads sep.length k x.handle amounts
  data_eq : data'=data++x.view.take (k*sep.length)
  inside : k*sep.length ≤ x.view.length
  fits : k=0 ∨ data.length+k*sep.length ≤ 512 ∨ sep.length ∣ 512
  left : x'.view <:+ x.view.drop (k*sep.length)
  ended : sep <:+ data' → x'.view=x.view.drop (k*sep.length) ∧
    x'.handle=afterReads sep.length k x.handle amounts ∧ amounts'=fun i => amounts (i+k)

lemma Collected.cons {x₁ x' : Source}
    (hu : Uncut x.handle (amounts 0) sep.length) (hle : sep.length ≤ x.view.length)
    (hr : readInternal x.handle (amounts 0) sep.length=some (x.view.take sep.length,x₁.handle))
    (hv : x₁.view=x.view.drop sep.length) (hfi : data.length+sep.length ≤ 512 ∨ sep.length ∣ 512)
    (h : Collected sep x₁ (fun i => amounts (i+1)) (data++x.view.take sep.length) k data' x' amounts') :
    Collected sep x amounts data (k+1) data' x' amounts' where
  full := ⟨hu,by rw [hr]; exact h.full⟩
  data_eq := by
    rw [h.data_eq,hv,append_assoc,succ_mul,add_comm (k*sep.length),take_add]
  inside := by
    have hi := h.inside
    rw [hv,length_drop] at hi
    rw [succ_mul]
    omega
  fits := by
    rw [succ_mul]
    rcases h.fits with rfl | hf | hf
    · exact .inr (hfi.imp fun h => by omega id)
    · rw [length_append,length_take] at hf
      exact .inr (.inl (by omega))
    · exact .inr (.inr hf)
  left := by
    have hl := h.left
    rwa [hv,drop_drop,add_comm,← succ_mul] at hl
  ended := by
    intro he
    obtain ⟨hv',hh,ha⟩ := h.ended he
    refine ⟨?_,?_,?_⟩
    · rw [hv',hv,drop_drop,add_comm,← succ_mul]
    · rw [hh,afterReads,hr]
    · rw [ha]
      funext i
      rw [add_assoc]

lemma getsLoop_collected (hse : 0 < sep.length) {h' : Handle}
    (hd : sep.length ∣ data.length) (hle : data.length ≤ s)
    (hs : Sized sep.length s) (hda : ¬sep <:+ data)
    (h : getsLoop sep fuel x.handle amounts s data=some (data',h',amounts')) :
    ∃ (k : ℕ) (x' : Source), x'.handle=h' ∧ Collected sep x amounts data k data' x' amounts' := by
  induction fuel generalizing x amounts s data with
  | zero => cases h
  | succ fuel ih =>
    by_cases hr : Uncut x.handle (amounts 0) sep.length ∧ sep.length ≤ x.view.length
    · obtain ⟨x',hv,hst,hlo⟩ := getsLoop_full s data hse fuel hr.1 hr.2
      rw [hlo] at h
      by_cases hc : data.length+sep.length ≤ if data.length ≥ s then s+s else s
      · have hf := (copy_fits_iff hd hle hs).mp hc
        rw [if_pos hc] at h
        by_cases hp : x.view.take sep.length=sep
        · rw [if_pos hp] at h
          cases h
          have hn : Collected sep x' (fun i => amounts (i+1)) (data++x.view.take sep.length) 0
              (data++x.view.take sep.length) x' fun i => amounts (i+1) :=
            ⟨trivial,by simp,by simp,.inl rfl,by simp,fun _ => ⟨by simp,rfl,rfl⟩⟩
          exact ⟨1,x',rfl,hn.cons hr.1 hr.2 hst hv hf⟩
        · rw [if_neg hp] at h
          have hpl : (x.view.take sep.length).length=sep.length := by
            rw [length_take]
            omega
          have hl : (data++x.view.take sep.length).length=data.length+sep.length := by
            rw [length_append,hpl]
          obtain ⟨k,x'',rfl,hco⟩ := ih
            (hl ▸ Nat.dvd_add hd (dvd_refl _)) (hl ▸ hc) (sized_doubled hd hle hs)
            (not_suffix_append data hpl hp) h
          exact ⟨k+1,x'',rfl,hco.cons hr.1 hr.2 hst hv hf⟩
      · rw [if_neg hc] at h
        cases h
    · obtain ⟨x',hlo,hsu⟩ := getsLoop_short x amounts s data hse fuel hr
      rw [hlo] at h
      cases h
      exact ⟨0,x',rfl,⟨trivial,by simp,by simp,.inl rfl,by simpa using hsu,
        fun he => absurd he hda⟩⟩

variable {line content : List UInt8}
variable {lines : List (List UInt8)} {calls len : ℕ}

/-- A separator of `gets`; an empty one is replaced before. -/
structure Separator where
  bytes : List UInt8
  nonempty : bytes ≠ []

def Aligned (len : ℕ) (line : List UInt8) : Prop :=
  len ∣ line.length ∧ (line.length ≤ 512 ∨ len ∣ 512)

lemma getsAll_limited (sep : List UInt8) (limit calls : ℕ) (h : Handle) (amounts : ℕ → ℕ) :
    getsAll sep (some limit) calls h amounts=none := by
  induction calls generalizing h amounts with
  | zero => rfl
  | succ calls ih =>
    rw [getsAll,gets]
    cases getsLimited sep limit h amounts with
    | none => rfl
    | some r => exact congrArg (Option.map _) (ih r.2.1 r.2.2)

lemma not_suffix_nil (hs : 0 < sep.length) : ¬sep <:+ ([] : List UInt8) := by
  intro h
  have hl := h.length_le
  rw [length_nil] at hl
  omega

lemma view_length_lt (h : Handle) : h.view.length < h.data.length+h.file.length+1 := by
  by_cases hd : h.data.length=0
  · rw [length_view_of_empty hd]
    omega
  · rw [length_view_of_data hd]
    omega

lemma gets_of_aligned (hs : 0 < sep.length)
    (hl : IsLine sep none x.view line) (ha : Aligned sep.length line)
    (hfu : FullReads sep.length (line.length/sep.length) x.handle amounts) :
    ∃ (x' : Source) (amounts' : ℕ → ℕ),
      gets sep none x.handle amounts=some (some line,x'.handle,amounts') ∧
      x'.view=x.view.drop line.length ∧
      (x'.view ≠ [] → x'.handle=afterReads sep.length (line.length/sep.length) x.handle amounts ∧
        amounts'=fun i => amounts (i+line.length/sep.length)) := by
  have hk : line.length/sep.length*sep.length=line.length := Nat.div_mul_cancel ha.1
  have ht : x.view.take line.length=line := (prefix_iff_eq_take.mp hl.initial).symm
  have hle := hl.initial.length_le
  have he : EndsAfter sep (line.length/sep.length) x.view := by
    refine endsAfter_of_line hs (not_suffix_nil hs) (by omega) ?_ ?_
    · rw [hk,ht]
      refine hl.ends.imp id fun h => ?_
      rcases h with h | h
      · cases h
      · rw [h]
    · intro n hp hn
      rw [hk] at hn
      exact (hl.first n hp hn).1
  have hf : line.length/sep.length < x.handle.data.length+x.handle.file.length+1 := by
    have hv := view_length_lt x.handle
    have hd := div_le_self line.length sep.length
    unfold Source.view at hle
    omega
  obtain ⟨x',amounts',hlo,hv,haf⟩ := getsLoop_of_endsAfter hs he hfu
    (dvd_zero _) (zero_le 512 : [].length ≤ 512) (.inl rfl) hf (by
      rw [length_nil,zero_add,hk]
      exact ha.2)
  rw [hk,nil_append,ht] at hlo
  have hne : line.length ≠ 0 := fun h => hl.nonempty (length_eq_zero_iff.mp h)
  refine ⟨x',amounts',?_,hk ▸ hv,haf⟩
  rw [gets,hlo]
  dsimp only [Option.map_some]
  rw [if_neg hne]

lemma getsLoop_of_gets {h h' : Handle}
    (hg : gets sep none h amounts=some (some line,h',amounts')) :
    getsLoop sep (h.data.length+h.file.length+1) h amounts 512 []=some (line,h',amounts') := by
  rw [gets] at hg
  cases hl : getsLoop sep (h.data.length+h.file.length+1) h amounts 512 [] with
  | none =>
    rw [hl] at hg
    cases hg
  | some r =>
    obtain ⟨data,r⟩ := r
    rw [hl,Option.map_some] at hg
    split_ifs at hg with hr
    · cases hg
    · cases hg
      rfl

lemma aligned_of_gets (hs : 0 < sep.length) {h' : Handle} (hli : IsLine sep none x.view line)
    (h : gets sep none x.handle amounts=some (some line,h',amounts')) :
    Aligned sep.length line ∧ ∃ x' : Source, x'.handle=h' ∧ x'.view=x.view.drop line.length ∧
      FullReads sep.length (line.length/sep.length) x.handle amounts ∧
      (x'.view ≠ [] → x'.handle=afterReads sep.length (line.length/sep.length) x.handle amounts ∧
        amounts'=fun i => amounts (i+line.length/sep.length)) := by
  obtain ⟨k,x',rfl,hc⟩ := getsLoop_collected hs (dvd_zero _) zero_le
    (.inl rfl) (not_suffix_nil hs) (getsLoop_of_gets h)
  have hl : line.length=k*sep.length := by
    rw [hc.data_eq,nil_append,length_take]
    exact min_eq_left hc.inside
  have hk : line.length/sep.length=k := by rw [hl,Nat.mul_div_cancel _ hs]
  have hf : line.length ≤ 512 ∨ sep.length ∣ 512 := by
    rcases hc.fits with rfl | hf
    · omega
    · exact hf.imp fun h => by rw [length_nil] at h; omega id
  refine ⟨⟨hl ▸ dvd_mul_left _ _,hf⟩,x',rfl,?_⟩
  rw [hk,hl]
  by_cases hen : sep <:+ line
  · obtain ⟨hv,ha⟩ := hc.ended hen
    exact ⟨hv,hc.full,fun _ => ha⟩
  · have hw : line=x.view := by
      rcases hli.ends with h | h | h
      · exact absurd h hen
      · cases h
      · exact h
    have hr : x.view.drop (k*sep.length)=[] := by
      rw [← hl,← hw,drop_length]
    have he : x'.view=[] := suffix_nil.mp (hr ▸ hc.left)
    exact ⟨he.trans hr.symm,hc.full,absurd he⟩

lemma gets_at_end (hs : 0 < sep.length) (hx : x.view=[])
    (amounts : ℕ → ℕ) : ∃ r, gets sep none x.handle amounts=some (none,r) := by
  obtain ⟨x',hl,-⟩ := getsLoop_short x amounts 512 [] hs
    (x.handle.data.length+x.handle.file.length) (fun h => by
      have hle := h.2
      rw [hx,length_nil] at hle
      omega)
  refine ⟨(x'.handle,fun i => amounts (i+1)),?_⟩
  rw [gets,hl]
  rfl

/-- What makes lines come out right: no limit, lines of whole pieces that fit, and reads that
are not cut short. -/
def Regular (sep : Separator) (limit : Option ℕ) (x : Source) (amounts : ℕ → ℕ) : Prop :=
  limit=none ∧ (∃ lines, Splits sep.bytes none x.view lines ∧
      ∀ line ∈ lines, Aligned sep.bytes.length line) ∧
    FullReads sep.bytes.length (x.view.length/sep.bytes.length) x.handle amounts

lemma pieces_split (hl : line <+: content) (hd : len ∣ line.length) :
    content.length/len=line.length/len+(content.drop line.length).length/len := by
  have hle := hl.length_le
  rw [length_drop,← Nat.add_div_of_dvd_right hd,Nat.add_sub_cancel' hle]

lemma fullReads_rest {k : ℕ} {x' : Source} {rest : List UInt8} (hv : x'.view=rest)
    (haf : x'.view ≠ [] → x'.handle=afterReads len k x.handle amounts ∧
      amounts'=fun i => amounts (i+k))
    (hf : FullReads len (rest.length/len) (afterReads len k x.handle amounts)
      fun i => amounts (i+k)) : FullReads len (rest.length/len) x'.handle amounts' := by
  subst hv
  by_cases he : x'.view=[]
  · rw [he,length_nil,Nat.zero_div]
    trivial
  · obtain ⟨hh,ha⟩ := haf he
    rw [hh,ha]
    exact hf

lemma getsAll_cons {limit : Option ℕ} {h : Handle}
    (ha : getsAll sep limit calls h amounts=some (line::lines)) :
    ∃ h' amounts' calls', gets sep limit h amounts=some (some line,h',amounts') ∧
      getsAll sep limit calls' h' amounts'=some lines := by
  cases calls with
  | zero => cases ha
  | succ calls =>
    rw [getsAll] at ha
    cases hg : gets sep limit h amounts with
    | none =>
      rw [hg] at ha
      cases ha
    | some r =>
      obtain ⟨first,h',amounts'⟩ := r
      rw [hg] at ha
      cases first with
      | none => cases ha
      | some first =>
        obtain ⟨lines',hr,he⟩ := Option.map_eq_some_iff.mp ha
        obtain ⟨rfl,rfl⟩ := cons_eq_cons.mp he
        exact ⟨h',amounts',calls,rfl,hr⟩

lemma losesNothing_of_regular (hse : 0 < sep.length)
    (hs : Splits sep none content lines) (hx : x.view=content)
    (ha : ∀ line ∈ lines, Aligned sep.length line)
    (hf : FullReads sep.length (content.length/sep.length) x.handle amounts) :
    ∃ calls, getsAll sep none calls x.handle amounts=some lines := by
  induction hs generalizing x amounts with
  | nil =>
    obtain ⟨r,hg⟩ := gets_at_end hse hx amounts
    refine ⟨1,?_⟩
    rw [getsAll,hg]
  | @cons content line lines hli hr ih =>
    subst hx
    obtain ⟨hd,hfi⟩ := ha line mem_cons_self
    rw [pieces_split hli.initial hd,fullReads_add] at hf
    obtain ⟨x',amounts',hg,hv,haf⟩ := gets_of_aligned hse hli ⟨hd,hfi⟩ hf.1
    have hf' : FullReads sep.length ((x.view.drop line.length).length/sep.length) x'.handle
        amounts' := fullReads_rest hv haf hf.2
    obtain ⟨calls,hal⟩ := ih hv (fun l hl => ha l (mem_cons_of_mem _ hl)) hf'
    refine ⟨calls+1,?_⟩
    rw [getsAll,hg]
    dsimp only
    rw [hal]
    rfl

lemma regular_of_getsAll (hse : 0 < sep.length)
    (hs : Splits sep none content lines) (hx : x.view=content)
    (h : getsAll sep none calls x.handle amounts=some lines) :
    (∀ line ∈ lines, Aligned sep.length line) ∧
      FullReads sep.length (content.length/sep.length) x.handle amounts := by
  induction hs generalizing x amounts calls with
  | nil => exact ⟨fun _ hl => absurd hl not_mem_nil,by simp [FullReads]⟩
  | @cons content line lines hl hr ih =>
    subst hx
    obtain ⟨h',amounts',calls,hg,hal⟩ := getsAll_cons h
    obtain ⟨ha,x',rfl,hv,hf,haf⟩ := aligned_of_gets hse hl hg
    obtain ⟨hli,hf'⟩ := ih hv hal
    refine ⟨forall_mem_cons.mpr ⟨ha,hli⟩,?_⟩
    rw [pieces_split hl.initial ha.1,fullReads_add]
    refine ⟨hf,?_⟩
    by_cases he : x'.view=[]
    · rw [← hv,he,length_nil,Nat.zero_div]
      trivial
    · obtain ⟨hh,ham⟩ := haf he
      rw [← hh,← ham]
      exact hf'

/-- Reading lines loses nothing exactly if the lines are regular. -/
theorem losesNothing_iff_regular (sep : Separator) (limit : Option ℕ) (x : Source)
    (amounts : ℕ → ℕ) :
    LosesNothing sep.bytes limit x.handle amounts ↔ Regular sep limit x amounts := by
  have hse : 0 < sep.bytes.length := length_pos_iff.mpr sep.nonempty
  constructor
  · rintro ⟨calls,lines,hal,-,hs⟩
    cases limit with
    | some limit =>
      rw [getsAll_limited] at hal
      cases hal
    | none =>
      obtain ⟨ha,hf⟩ := regular_of_getsAll hse hs rfl hal
      exact ⟨rfl,⟨lines,hs,ha⟩,hf⟩
  · rintro ⟨rfl,⟨lines,hs,ha⟩,hf⟩
    obtain ⟨calls,hal⟩ := losesNothing_of_regular hse hs rfl ha hf
    exact ⟨calls,lines,hal,hs.flatten,hs⟩

/-- The last byte is lost when the separator stands across two pieces; with a limit, bytes
that were never in the file come back. -/
theorem gets_loses_bytes :
    getsAll [98,99] none 2 (.opened [97,98,99]) (fun _ => 9) = some [[97,98]] ∧
      [[97,98]].flatten ≠ ([97,98,99] : List UInt8) ∧
      (gets [10] (some 4) (.opened [97,98]) (fun _ => 9)).map Prod.fst = some (some [97,98,0,0]) := by
  decide

end MacRuby.LineReads
