import MacRuby.UnpackDirectives

/-!
# Base64 and uuencoded text

The directives `m` and `u` of `Array#pack` (`encodes`) and of `String#unpack`. Three bytes
are written as four characters. The encoder collects the characters of a line in a buffer
and empties it when a test with the size of a pointer fails; a write behind the buffer is a
fault.
-/
namespace MacRuby.TextEncodings
open List UnpackDirectives

def b64Table (d : ℕ) : UInt8 :=
  UInt8.ofNat (if d < 26 then 65+d else if d < 52 then 71+d else if d < 62 then d-4
    else if d=62 then 43 else 47)

def uuTable (d : ℕ) : UInt8 := UInt8.ofNat (if d=0 then 96 else 32+d)

/-- The four characters of three bytes; `char`s are signed, and six bits of each result are
used. -/
def group (trans : ℕ → UInt8) (a b c : ℕ) : List UInt8 :=
  [trans (a/4),trans (a%4*16+b/16),trans (b%16*4+c/64),trans (c%64)]

/-- What went to the data, and `buff`. -/
structure Writer where
  data : List UInt8
  buff : List UInt8

def Writer.put (size : ℕ) (w : Writer) (cs : List UInt8) : Option Writer :=
  if size < w.buff.length+cs.length then none else some ⟨w.data,w.buff++cs⟩

/-- `if (sizeof(buff) - i < 4)`: the size is that of a pointer, and unsigned. -/
def Writer.flush (w : Writer) : Writer :=
  if (8-(w.buff.length : ℤ))%2^64 < 4 then ⟨w.data++w.buff,[]⟩ else w

def encodeGroups (trans : ℕ → UInt8) (padding : UInt8) (size : ℕ) :
    List UInt8 → Writer → Option Writer
  | a::b::c::s,w => (w.put size (group trans a.toNat b.toNat c.toNat)).bind fun w =>
    encodeGroups trans padding size s w.flush
  | [a,b],w => w.put size ((group trans a.toNat b.toNat 0).take 3++[padding])
  | [a],w => w.put size ((group trans a.toNat 0 0).take 2++[padding,padding])
  | [],w => some w

/-- `encodes`, with the buffer that it allocates. -/
def encodes (uu : Bool) (s : List UInt8) (tailLf : Bool) : Option (List UInt8) :=
  let size := s.length*4/3+6
  ((Writer.mk [] []).put size (if uu then [UInt8.ofNat (s.length+32)] else [])).bind fun w =>
    (encodeGroups (if uu then uuTable else b64Table) (if uu then 96 else 61) size s w).bind fun w =>
      (w.put size (if tailLf then [10] else [])).map fun w => w.data++w.buff

def lineLength (len : ℤ) : ℕ := if len ≤ 2 then 45 else (len/3*3).toNat

lemma lineLength_pos (len : ℤ) : 0 < lineLength len := by
  unfold lineLength
  split_ifs <;> omega

def encodeLines (uu : Bool) (len : ℤ) (s : List UInt8) : Option (List UInt8) :=
  if s=[] then some []
  else (encodes uu (s.take (lineLength len)) true).bind fun line =>
    (encodeLines uu len (s.drop (lineLength len))).map (line++·)
termination_by s.length
decreasing_by
  have hp := lineLength_pos len
  have hs : 0 < s.length := length_pos_iff.mpr ‹_›
  rw [length_drop]
  omega

/-- The directives with their count, a `long`; it is 1 where there is none. -/
def packText (uu : Bool) (len : ℤ) (s : List UInt8) : Option (List UInt8) :=
  if len=0 ∧ uu=false then encodes uu s false else encodeLines uu len s

/-- `b64_xtable`. -/
def b64Index (c : UInt8) : Option ℕ :=
  if 65 ≤ c.toNat ∧ c.toNat ≤ 90 then some (c.toNat-65)
  else if 97 ≤ c.toNat ∧ c.toNat ≤ 122 then some (c.toNat-71)
  else if 48 ≤ c.toNat ∧ c.toNat ≤ 57 then some (c.toNat+4)
  else if c=43 then some 62
  else if c=47 then some 63
  else none

/-- The bytes of a group; `char`s have eight bits. -/
def bytes3 (a b c d : ℕ) : List UInt8 :=
  [UInt8.ofNat (a*4+b/16),UInt8.ofNat (b%16*16+c/4),UInt8.ofNat (c%4*64+d)]

/-- What is added after the loop, which stopped at this byte with these characters found. -/
def b64Finish (x : UInt8) : List ℕ → List UInt8
  | [a,b] => if x=61 then (bytes3 a b 0 0).take 1 else []
  | a::b::c::_ => if x=61 then (bytes3 a b c 0).take 2 else []
  | _ => []

/-- The loops of `m`: the characters that are found of a group; those of a complete group
stay until the next one begins. At the end the byte behind the text is looked at. -/
def b64Loop (beyond : UInt8) : List ℕ → List UInt8 → List UInt8
  | g,[] => b64Finish beyond g
  | g,x::rest =>
    let g := if g.length=4 then [] else g
    match b64Index x with
    | none => if 2 ≤ g.length ∧ x=61 then b64Finish x g else b64Loop beyond g rest
    | some d => match g with
      | [a,b,c] => bytes3 a b c d++b64Loop beyond [a,b,c,d] rest
      | g => b64Loop beyond (g++[d]) rest

/-- `if (s < send && *s >= ' ') a = (*s++ - ' ') & 077; else a = 0;`; `char` is signed. -/
def uuSextet : List UInt8 → ℕ × List UInt8
  | [] => (0,[])
  | c::rest => if 32 ≤ c.toNat ∧ c.toNat < 128 then ((c.toNat-32)%64,rest) else (0,c::rest)

def uuHunk (rest : List UInt8) : List UInt8 × List UInt8 :=
  let a := uuSextet rest
  let b := uuSextet a.2
  let c := uuSextet b.2
  let d := uuSextet c.2
  (bytes3 a.1 b.1 c.1 d.1,d.2)

def uuData : ℕ → ℕ → List UInt8 → List UInt8 × List UInt8
  | 0,_,rest => ([],rest)
  | groups+1,len,rest =>
    let h := uuHunk rest
    let r := uuData groups (len-3) h.2
    (h.1.take len++r.1,r.2)

/-- The loop over the lines, with the room that is left in the buffer; nothing is the result
where a byte behind the text is looked at. -/
def uuLoop : ℕ → ℕ → List UInt8 → Option (List UInt8)
  | 0,_,_ => some []
  | _,_,[] => some []
  | fuel+1,room,c::rest =>
    if startsLine c then
      let len := lineBytes room c
      let r := uuData ((len+2)/3) len rest
      match lineEnd r.2 with
      | .at rest => (uuLoop fuel (room-len) rest).map (r.1++·)
      | _ => none
    else some []

def unpackUu (text : List UInt8) : Option (List UInt8) :=
  uuLoop text.length (text.length*3/4) text

def unpackBase64 (beyond : UInt8) (text : List UInt8) : List UInt8 := b64Loop beyond [] text

def characters (trans : ℕ → UInt8) (padding : UInt8) : List UInt8 → List UInt8
  | a::b::c::s => group trans a.toNat b.toNat c.toNat++characters trans padding s
  | [a,b] => (group trans a.toNat b.toNat 0).take 3++[padding]
  | [a] => (group trans a.toNat 0 0).take 2++[padding,padding]
  | [] => []

variable {size : ℕ} {w : Writer}

lemma put_spec {cs : List UInt8} (h : w.buff.length+cs.length ≤ size) :
    w.put size cs=some ⟨w.data,w.buff++cs⟩ := if_neg (by omega)

lemma encodeGroups_spec (trans : ℕ → UInt8) (padding : UInt8) (s : List UInt8) (hs : s.length*4/3+6 ≤ size)
    (hw : w.buff.length ≤ 1 ∨ w.buff.length=4 ∧ 10 ≤ size) :
    ∃ w', encodeGroups trans padding size s w=some w' ∧ w'.buff.length+1 ≤ size ∧
      w'.data++w'.buff=w.data++w.buff++characters trans padding s := by
  induction s using characters.induct generalizing w with
  | case1 a b c s ih =>
    rw [length_cons,length_cons,length_cons] at hs
    have hg : (group trans a.toNat b.toNat c.toNat).length=4 := rfl
    rw [encodeGroups,put_spec (by omega),Option.bind_some,characters]
    by_cases h : (8-((w.buff++group trans a.toNat b.toNat c.toNat).length : ℤ))%2^64 < 4
    · rw [Writer.flush,if_pos h]
      obtain ⟨w',hw',hl,he⟩ := ih (w := ⟨w.data++(w.buff++_),[]⟩) (by omega) (.inl (Nat.zero_le 1))
      exact ⟨w',hw',hl,he.trans (by simp)⟩
    · rw [Writer.flush,if_neg h]
      rw [length_append] at h
      obtain ⟨w',hw',hl,he⟩ := ih (w := ⟨w.data,w.buff++_⟩) (by omega)
        (.inr (by rw [length_append,hg]; omega))
      exact ⟨w',hw',hl,he.trans (by simp)⟩
  | case2 | case3 =>
    rw [encodeGroups,put_spec (by simp [group]; simp at hs; omega)]
    exact ⟨_,rfl,by simp [group]; simp at hs; omega,by simp [characters]⟩
  | case4 => exact ⟨w,rfl,by omega,(append_nil _).symm⟩

lemma encodes_eq (uu tailLf : Bool) (s : List UInt8) :
    encodes uu s tailLf=some ((if uu then [UInt8.ofNat (s.length+32)] else [])++
      characters (if uu then uuTable else b64Table) (if uu then 96 else 61) s++
      (if tailLf then [10] else [])) := by
  have hh : (if uu then [UInt8.ofNat (s.length+32)] else []).length ≤ 1 := by split_ifs <;> simp
  have ht : (if tailLf then [(10 : UInt8)] else []).length ≤ 1 := by split_ifs <;> simp
  rw [encodes,put_spec (by simp only [length_nil]; omega),Option.bind_some]
  obtain ⟨w,hw,hl,he⟩ := encodeGroups_spec (if uu then uuTable else b64Table) (if uu then 96 else 61)
    (w := ⟨[],[]++if uu then [UInt8.ofNat (s.length+32)] else []⟩) s le_rfl (.inl hh)
  rw [hw,Option.bind_some,put_spec (by omega),Option.map_some,← append_assoc,he]
  rfl

variable (beyond : UInt8)

lemma bytes3_eq (a b c : UInt8) : bytes3 (a.toNat/4) (a.toNat%4*16+b.toNat/16)
    (b.toNat%16*4+c.toNat/64) (c.toNat%64)=[a,b,c] := by
  have hb := b.toNat_lt
  have hc := c.toNat_lt
  have he : ∀ x n, n=x.toNat → UInt8.ofNat n=x := fun x n h => h ▸ UInt8.ofNat_toNat
  rw [bytes3,he a _ (by omega),he b _ (by omega),he c _ (by omega)]

lemma b64Index_b64Table (d : Fin 64) : b64Index (b64Table d)=some d.val := by
  revert d
  decide

lemma b64Loop_char {g : List ℕ} (hg : g.length < 3) {d : ℕ} (hd : d < 64) (rest : List UInt8) :
    b64Loop beyond g (b64Table d::rest)=b64Loop beyond (g++[d]) rest := by
  rw [b64Loop,b64Index_b64Table ⟨d,hd⟩]
  match g,hg with
  | [],_ => rfl
  | [_],_ => rfl
  | [_,_],_ => rfl

lemma b64Loop_fourth {a b c d : ℕ} (hd : d < 64) (rest : List UInt8) :
    b64Loop beyond [a,b,c] (b64Table d::rest)=bytes3 a b c d++b64Loop beyond [a,b,c,d] rest := by
  rw [b64Loop,b64Index_b64Table ⟨d,hd⟩]
  rfl

lemma b64Loop_fresh {g : List ℕ} (hg : g=[] ∨ g.length=4) (x : UInt8) (rest : List UInt8) :
    b64Loop beyond g (x::rest)=b64Loop beyond [] (x::rest) := by
  rw [b64Loop]
  obtain rfl | hg := hg
  · rfl
  · rw [if_pos hg]
    rfl

lemma b64Loop_characters (s : List UInt8) {g : List ℕ} (hg : g=[] ∨ g.length=4)
    (tail : List UInt8) : ∃ g' : List ℕ, (s=[] ∧ g'=g ∨ s ≠ [] ∧ g'.length=4) ∧
      b64Loop beyond g (characters b64Table 61 s++tail)=
        s++if s.length%3=0 then b64Loop beyond g' tail else [] := by
  induction s using characters.induct generalizing g with
  | case1 a b c s ih =>
    have ha := a.toNat_lt
    have hb := b.toNat_lt
    have hc := c.toNat_lt
    obtain ⟨g',hg',he⟩ := ih (g := [a.toNat/4,a.toNat%4*16+b.toNat/16,b.toNat%16*4+c.toNat/64,
      c.toNat%64]) (.inr rfl)
    refine ⟨g',.inr ⟨cons_ne_nil _ _,?_⟩,?_⟩
    · obtain ⟨-,rfl⟩ | ⟨-,h⟩ := hg'
      · rfl
      · exact h
    · rw [characters]
      simp only [group,cons_append]
      rw [b64Loop_fresh _ hg,b64Loop_char _ (by decide) (by omega),
        b64Loop_char _ (by simp) (by omega),b64Loop_char _ (by simp) (by omega)]
      simp only [nil_append,cons_append]
      rw [b64Loop_fourth _ (by omega),bytes3_eq,he]
      simp [show (s.length+1+1+1)%3=s.length%3 by omega]
  | case2 a b =>
    have ha := a.toNat_lt
    have hb := b.toNat_lt
    refine ⟨[0,0,0,0],.inr ⟨cons_ne_nil _ _,rfl⟩,?_⟩
    simp only [characters,group,take,cons_append]
    rw [b64Loop_fresh _ hg,b64Loop_char _ (by decide) (by omega),
      b64Loop_char _ (by simp) (by omega),b64Loop_char _ (by simp) (by omega)]
    exact congrArg (take 2) (bytes3_eq a b 0)
  | case3 a =>
    have ha := a.toNat_lt
    refine ⟨[0,0,0,0],.inr ⟨cons_ne_nil _ _,rfl⟩,?_⟩
    simp only [characters,group,take,cons_append]
    rw [b64Loop_fresh _ hg,b64Loop_char _ (by decide) (by omega),
      b64Loop_char _ (by simp) (by omega)]
    exact congrArg (take 1) (bytes3_eq a 0 0)
  | case4 => exact ⟨g,.inl ⟨rfl,rfl⟩,rfl⟩

lemma b64Loop_lines {lines : List (List UInt8)} (h : ∀ l ∈ lines.dropLast, l.length%3=0) :
    b64Loop beyond [] (lines.flatMap fun l => characters b64Table 61 l++[10])=lines.flatten := by
  induction lines with
  | nil => rfl
  | cons l lines ih =>
    obtain ⟨g,hg,he⟩ := b64Loop_characters beyond l (.inl rfl)
      (10::lines.flatMap fun l => characters b64Table 61 l++[10])
    have hf : g=[] ∨ g.length=4 := hg.imp And.right And.right
    rw [flatMap_cons,append_assoc,singleton_append,he,b64Loop_fresh _ hf,flatten_cons]
    cases lines with
    | nil => split_ifs <;> rfl
    | cons l' lines =>
      rw [dropLast_cons_cons,forall_mem_cons] at h
      rw [if_pos h.1,← ih h.2]
      rfl

lemma uuSextet_uuTable {d : ℕ} (h : d < 64) (rest : List UInt8) :
    uuSextet (uuTable d::rest)=(d,rest) := by
  have hd : ∀ d : Fin 64, 32 ≤ uuTable d.toNat ∧ uuTable d.toNat < 128 ∧
    ((uuTable d).toNat-32)%64=d := by decide
  obtain ⟨hl,hu,he⟩ := hd ⟨d,h⟩
  rw [uuSextet,if_pos ⟨hl,hu⟩,he]

lemma uuHunk_group (a b c : UInt8) (rest : List UInt8) :
    uuHunk (group uuTable a.toNat b.toNat c.toNat++rest)=([a,b,c],rest) := by
  have ha := a.toNat_lt
  have hb := b.toNat_lt
  have hc := c.toNat_lt
  simp only [uuHunk,group,cons_append,nil_append]
  rw [uuSextet_uuTable (by omega),uuSextet_uuTable (by omega),uuSextet_uuTable (by omega),
    uuSextet_uuTable (by omega),bytes3_eq]

lemma uuData_characters (s rest : List UInt8) :
    uuData ((s.length+2)/3) s.length (characters uuTable 96 s++rest)=(s,rest) := by
  induction s using characters.induct with
  | case1 a b c s ih =>
    rw [length_cons,length_cons,length_cons,show (s.length+1+1+1+2)/3=(s.length+2)/3+1 by omega,
      uuData,characters,append_assoc,uuHunk_group,show s.length+1+1+1-3=s.length by omega,ih]
    simp
  | case2 a b =>
    -- the padding is the character of zero
    rw [show ([a,b].length+2)/3=0+1 by simp,uuData,
      show characters uuTable 96 [a,b]=group uuTable a.toNat b.toNat (0 : UInt8).toNat from rfl,
      uuHunk_group]
    rfl
  | case3 a =>
    rw [show ([a].length+2)/3=0+1 by simp,uuData,show characters uuTable 96 [a]=
      group uuTable a.toNat (0 : UInt8).toNat (0 : UInt8).toNat from rfl,uuHunk_group]
    rfl
  | case4 => rfl

lemma lineEnd_newline (rest : List UInt8) : lineEnd (10::rest)=.at rest := by
  cases rest <;> rfl

lemma uuLoop_lines {lines : List (List UInt8)} {fuel room : ℕ} (hf : lines.length ≤ fuel)
    (hr : lines.flatten.length ≤ room) (hl : ∀ l ∈ lines, l ≠ [] ∧ l.length ≤ 63) :
    uuLoop fuel room (lines.flatMap fun l =>
      UInt8.ofNat (l.length+32)::characters uuTable 96 l++[10])=some lines.flatten := by
  induction lines generalizing fuel room with
  | nil => cases fuel <;> rfl
  | cons l lines ih =>
    rw [forall_mem_cons] at hl
    rw [flatten_cons,length_append] at hr
    obtain ⟨fuel,rfl⟩ := Nat.exists_eq_add_of_le' (show 1 ≤ fuel by simp at hf; omega)
    have hp := length_pos_iff.mpr hl.1.1
    have hc : (UInt8.ofNat (l.length+32)).toNat=l.length+32 :=
      UInt8.toNat_ofNat_of_lt' (show l.length+32 < 256 by omega)
    have hb : lineBytes room (UInt8.ofNat (l.length+32))=l.length := by
      rw [lineBytes]
      omega
    rw [flatMap_cons,cons_append,cons_append,append_assoc,singleton_append,uuLoop,
      if_pos (by rw [startsLine]; simp; omega),hb]
    dsimp only
    rw [uuData_characters,lineEnd_newline]
    dsimp only
    rw [ih (by simp at hf; omega) (by omega) hl.2]
    rfl

variable (len : ℤ)

def line (uu : Bool) (l : List UInt8) : List UInt8 :=
  (if uu then [UInt8.ofNat (l.length+32)] else [])++
    characters (if uu then uuTable else b64Table) (if uu then 96 else 61) l++[10]

lemma encodeLines_spec (uu : Bool) (s : List UInt8) :
    ∃ lines : List (List UInt8), lines.flatten=s ∧ encodeLines uu len s=some (lines.flatMap (line uu)) ∧
      (∀ l ∈ lines, l ≠ [] ∧ l.length ≤ min s.length (lineLength len)) ∧
      ∀ l ∈ lines.dropLast, l.length=lineLength len := by
  induction s using encodeLines.induct len with
  | case1 => exact ⟨[],rfl,by rw [encodeLines]; rfl,nofun,nofun⟩
  | case2 s hs ih =>
    obtain ⟨lines,he,ht,hl,hd⟩ := ih
    have hp := lineLength_pos len
    have hs' := length_pos_iff.mpr hs
    refine ⟨s.take (lineLength len)::lines,?_,?_,?_,?_⟩
    · rw [flatten_cons,he,take_append_drop]
    · rw [encodeLines,if_neg hs,encodes_eq,ht]
      rfl
    · refine forall_mem_cons.mpr ⟨⟨?_,by rw [length_take]; omega⟩,fun l h => ⟨(hl l h).1,?_⟩⟩
      · exact ne_nil_of_length_pos (by rw [length_take]; omega)
      · have hle := (hl l h).2
        rw [length_drop] at hle
        omega
    · cases lines with
      | nil => nofun
      | cons l lines =>
        rw [dropLast_cons_cons,forall_mem_cons]
        have hn := length_pos_iff.mpr (hl l mem_cons_self).1
        have hle := (hl l mem_cons_self).2
        rw [length_drop] at hle
        exact ⟨by rw [length_take]; omega,hd⟩

lemma lineLength_mod : lineLength len%3=0 := by
  unfold lineLength
  split_ifs <;> omega

/-- The text is read back as the bytes, unless it has no line break and no padding and the
byte behind it in memory is a padding sign. All lines but the last have the same multiple of
three bytes, and no write is behind the buffer. -/
theorem base64_round_trip_iff (beyond : UInt8) (s : List UInt8) :
    ∃ text, packText false len s=some text ∧
      (unpackBase64 beyond text=s ↔ ¬(len=0 ∧ s ≠ [] ∧ s.length%3=0 ∧ beyond=61)) ∧
      ∃ lines : List (List UInt8), lines.flatten=s ∧
        text=lines.flatMap (fun l => characters b64Table 61 l++if len=0 then [] else [10]) ∧
        ∃ n, n%3=0 ∧ ∀ l ∈ lines.dropLast, l.length=n := by
  by_cases h0 : len=0
  · refine ⟨_,by rw [packText,if_pos ⟨h0,rfl⟩,encodes_eq],?_,[s],by simp,by simp [h0],0,rfl,nofun⟩
    obtain ⟨g,hg,he⟩ := b64Loop_characters beyond s (.inl rfl) []
    change b64Loop beyond [] (characters b64Table 61 s++[])=s ↔ _
    rw [he]
    split_ifs with hm
    · obtain ⟨rfl,rfl⟩ | ⟨hs,hl⟩ := hg
      · simp [b64Loop,b64Finish]
      · match g,hl with
        | [a,b,c,d],_ => simp [b64Loop,b64Finish,bytes3,h0,hs,hm]
    · simp [hm]
  · obtain ⟨lines,he,ht,-,hd⟩ := encodeLines_spec len false s
    refine ⟨_,by rw [packText,if_neg fun h => h0 h.1,ht],?_,lines,he,by rw [if_neg h0]; rfl,
      _,lineLength_mod len,hd⟩
    have hb := b64Loop_lines beyond fun l (hl : l ∈ lines.dropLast) => hd l hl ▸ lineLength_mod len
    rw [he] at hb
    exact iff_of_true hb fun h => h0 h.1

theorem base64_reads_behind_text :
    ∃ text, packText false 0 [97,98,99]=some text ∧ unpackBase64 61 text ≠ [97,98,99] :=
  ⟨[89,87,74,106],by decide⟩

lemma length_characters (trans : ℕ → UInt8) (padding : UInt8) (s : List UInt8) :
    3*(characters trans padding s).length=4*((s.length+2)/3*3) := by
  induction s using characters.induct with
  | case1 a b c s ih =>
    simp [characters,group]
    omega
  | case2 | case3 => simp [characters,group]
  | case4 => rfl

lemma length_flatten_le (lines : List (List UInt8)) :
    4*lines.flatten.length+3*lines.length ≤ 3*(lines.flatMap (line true)).length := by
  induction lines with
  | nil => simp
  | cons l lines ih =>
    have hl := length_characters uuTable 96 l
    have he : (line true l).length=(characters uuTable 96 l).length+1+1 := by simp [line]
    rw [flatMap_cons,length_append,flatten_cons,length_append,length_cons]
    omega

lemma uu_of_short {s : List UInt8} (h : min s.length (lineLength len) ≤ 63) :
    ∃ text, packText true len s=some text ∧ unpackUu text=some s := by
  obtain ⟨lines,he,ht,hl,-⟩ := encodeLines_spec len true s
  refine ⟨_,by rw [packText,if_neg (fun h => nomatch h.2),ht],?_⟩
  have hle := length_flatten_le lines
  rw [← he]
  exact uuLoop_lines (by omega) (by omega) fun l h' => ⟨(hl l h').1,(hl l h').2.trans h⟩

lemma unpackUu_zeros : unpackUu (line true (replicate 64 0))=some [] := by
  decide +kernel

lemma uu_of_long (h : 63 < lineLength len) :
    ∃ text, packText true len (replicate 64 0)=some text ∧ unpackUu text=some [] := by
  refine ⟨_,?_,unpackUu_zeros⟩
  rw [packText,if_neg (fun h => nomatch h.2),encodeLines,
    take_of_length_le (by rw [length_replicate]; omega),
    drop_eq_nil_of_le (by rw [length_replicate]; omega),encodeLines]
  exact congrArg some (append_nil _)

/-- The text is read back if its lines have at most 63 bytes, and if the count allows more
there are bytes for which it is not. -/
theorem uu_round_trip_iff : (∀ s : List UInt8, min s.length (lineLength len) ≤ 63 →
      ∃ text, packText true len s=some text ∧ unpackUu text=some s) ∧
    ((∀ s, ∃ text, packText true len s=some text ∧ unpackUu text=some s) ↔ lineLength len ≤ 63) := by
  refine ⟨fun s => uu_of_short len,fun h => ?_,fun h s => uu_of_short len (by omega)⟩
  by_contra hl
  obtain ⟨text,ht,hu⟩ := uu_of_long len (by omega)
  obtain ⟨text',ht',hu'⟩ := h (replicate 64 0)
  rw [ht] at ht'
  cases ht'
  rw [hu] at hu'
  cases hu'

theorem uu_long_line_lost :
    ∃ text, packText true 66 (replicate 64 0)=some text ∧ unpackUu text ≠ some (replicate 64 0) := by
  obtain ⟨text,ht,hu⟩ := uu_of_long 66 (by decide)
  refine ⟨text,ht,?_⟩
  rw [hu]
  nofun

end MacRuby.TextEncodings
