import MacRuby.UnpackDirectives
import Mathlib.Data.List.TakeWhile

/-!
# The bounds of `String#unpack`

A decoder that returns leaves an end of the bytes it was given, so that the cursor
stays inside. It remains to say when a decoder looks at a byte that is not there, and
when a directive sets the cursor outside. `Safe` says for each directive at a cursor
when neither happens; most are safe always. A run stays inside exactly if all its
directives are safe.
-/
namespace MacRuby.UnpackBounds
open UnpackDirectives List Nat

variable {rest rest' : List UInt8}

def Suffixed (rest : List UInt8) (r : Except Stop (List UInt8)) : Prop :=
  ∀ rest', r=.ok rest' → rest' <:+ rest

structure Stays (rest : List UInt8) (r : Except Stop (List UInt8)) : Prop where
  suffixed : Suffixed rest r
  inside : r ≠ .error .outside

lemma Stays.ok (h : rest' <:+ rest) : Stays rest (.ok rest') := by
  refine ⟨fun r hr => ?_,fun hr => by cases hr⟩
  cases hr
  exact h

lemma Stays.raised (rest : List UInt8) : Stays rest (.error .raised) :=
  ⟨fun _ hr => (by cases hr),fun hr => by cases hr⟩

lemma Stays.of_suffix {r : Except Stop (List UInt8)}
    (h : Stays rest' r) (hs : rest' <:+ rest) : Stays rest r :=
  ⟨fun r' hr => (h.suffixed r' hr).trans hs,h.inside⟩

lemma cString_iff (rest : List UInt8) : cString rest=.ok () ↔ (0 : UInt8) ∈ rest := by
  induction rest with
  | nil =>
    exact iff_of_false (fun h => by cases h) not_mem_nil
  | cons c rest ih =>
    rw [cString,mem_cons]
    split_ifs with hc
    · exact iff_of_true rfl (.inl hc.symm)
    · rw [ih]
      exact ⟨.inr,fun h => h.resolve_left fun hz => hc hz.symm⟩

lemma cString_cases (rest : List UInt8) : cString rest=.ok () ∨ cString rest=.error .outside := by
  induction rest with
  | nil => exact .inr rfl
  | cons c rest ih =>
    rw [cString]
    split_ifs
    · exact .inl rfl
    · exact ih

lemma infectedStrNew_outside_iff (rest : List UInt8) (len : ℤ) :
    infectedStrNew rest len=.error .outside ↔ 0 < len ∧ (0 : UInt8) ∉ rest := by
  rw [infectedStrNew]
  split_ifs with hn hz
  · exact iff_of_false (fun h => by cases h) fun h => by omega
  · exact iff_of_false (fun h => by cases h) fun h => by omega
  · rw [← cString_iff]
    have hp : 0 < len := by omega
    rcases cString_cases rest with h | h
    · rw [h]
      exact iff_of_false (fun h => by cases h) fun h => h.2 rfl
    · rw [h]
      exact iff_of_true rfl ⟨hp,fun h => by cases h⟩

lemma made_then_skipped (rest : List UInt8) (len : ℤ) (n : ℕ) :
    Suffixed rest (infectedStrNew rest len >>= fun _ => .ok (rest.drop n)) ∧
      ((infectedStrNew rest len >>= fun _ => Except.ok (rest.drop n))=.error .outside ↔
        0 < len ∧ (0 : UInt8) ∉ rest) := by
  rw [← infectedStrNew_outside_iff]
  cases infectedStrNew rest len with
  | ok u =>
    refine ⟨fun r hr => ?_,iff_of_false (fun h => by cases h) fun h => by cases h⟩
    cases hr
    exact drop_suffix _ _
  | error e =>
    refine ⟨fun _ hr => (by cases hr),?_⟩
    exact ⟨fun h => by cases h; rfl,fun h => by cases h; rfl⟩

lemma trimmed_pos_iff (bytes : List UInt8) : 0 < trimmed bytes ↔ ∃ c ∈ bytes, c ≠ 32 ∧ c ≠ 0 := by
  rw [trimmed,length_pos_iff,Ne,dropWhile_eq_nil_iff]
  simp only [mem_reverse,Bool.or_eq_true,beq_iff_eq,not_forall,not_or,exists_prop]

lemma unpackA_spec (len : ℤ) (rest : List UInt8) : Suffixed rest (unpackA len rest) ∧
      (unpackA len rest=.error .outside ↔
        (∃ c ∈ rest.take (clamp len rest).toNat, c ≠ 32 ∧ c ≠ 0) ∧ (0 : UInt8) ∉ rest) := by
  obtain ⟨hs,hi⟩ := made_then_skipped rest
    (if clamp len rest < 0 then clamp len rest else trimmed (rest.take (clamp len rest).toNat))
    (clamp len rest).toNat
  refine ⟨hs,hi.trans (and_congr_left fun _ => ?_)⟩
  rw [← trimmed_pos_iff]
  split_ifs with hn
  · have hz : (clamp len rest).toNat=0 := by omega
    rw [hz,take_zero]
    exact iff_of_false (by omega) (by decide)
  · omega

lemma unpackPlain_spec (len : ℤ) (rest : List UInt8) : Suffixed rest (unpackPlain len rest) ∧
      (unpackPlain len rest=.error .outside ↔ 0 < clamp len rest ∧ (0 : UInt8) ∉ rest) :=
  made_then_skipped rest (clamp len rest) (clamp len rest).toNat

lemma bitLoop_stays {per left i k : ℕ} (hl : per*k < i+per)
    (hh : i ≤ per*k) (h : i+left ≤ per*(k+rest.length)) : Stays rest (bitLoop per left i rest) := by
  induction left generalizing i k rest with
  | zero => exact Stays.ok (suffix_refl _)
  | succ left ih =>
    rw [bitLoop.eq_def]
    dsimp only
    by_cases hi : i%per=0
    · rw [if_neg (not_not.mpr hi)]
      obtain ⟨q,rfl⟩ := dvd_of_mod_eq_zero hi
      have hle : k ≤ q := by
        refine le_of_lt_succ (Nat.lt_of_mul_lt_mul_left (a := per) ?_)
        exact hl
      have hp : 0 < per := by
        by_contra hzero
        obtain rfl : per=0 := by omega
        simp at hl
      obtain rfl : k=q := le_antisymm hle (Nat.le_of_mul_le_mul_left hh hp)
      cases rest with
      | nil =>
        simp only [length_nil,add_zero] at h
        omega
      | cons c rest =>
        rw [length_cons] at h
        have hs : per*(k+1)=per*k+per := mul_succ per k
        refine (ih (k := k+1) (by omega) (by omega) ?_).of_suffix (suffix_cons _ _)
        rw [show k+1+rest.length=k+(rest.length+1) by omega]
        omega
    · rw [if_pos hi]
      have hn : i ≠ per*k := by
        rintro rfl
        exact hi (mul_mod_right per k)
      exact ih (k := k) (by omega) (by omega) (by omega)

lemma unpackBits_stays (per : ℕ) (star : Bool) (len : ℤ) (rest : List UInt8) :
    Stays rest (unpackBits per star len rest) := by
  have hl : (if star || len > rest.length*per then (rest.length*per : ℤ) else len).toNat ≤
      per*rest.length := by
    rw [mul_comm per]
    split_ifs with h
    · exact (Int.toNat_natCast (rest.length*per)).le
    · simp only [Bool.or_eq_true,decide_eq_true_eq,not_or] at h
      have hl : len ≤ rest.length*per := not_lt.mp h.2
      exact Int.toNat_le.mpr (by exact_mod_cast hl)
  rcases Nat.eq_zero_or_pos per with rfl | hp
  · rw [zero_mul,le_zero] at hl
    rw [unpackBits,hl]
    exact Stays.ok (suffix_refl _)
  · refine bitLoop_stays (k := 0) (by omega) zero_le ?_
    rw [zero_add,zero_add]
    exact hl

lemma itemLoop_stays {size left : ℕ} (h : left*size ≤ rest.length) :
    Stays rest (itemLoop size left rest) := by
  induction left generalizing rest with
  | zero => exact Stays.ok (suffix_refl _)
  | succ left ih =>
    rw [succ_mul] at h
    rw [itemLoop,if_neg (by omega)]
    refine (ih ?_).of_suffix (drop_suffix size rest)
    rw [length_drop]
    omega

lemma unpackItems_stays (size : ℕ) (len : ℤ) (rest : List UInt8) :
    Stays rest (unpackItems size len rest) := by
  have hl : (if len > rest.length/size then (rest.length : ℤ)/size else len).toNat ≤
      rest.length/size := by
    rw [← Int.natCast_ediv]
    generalize rest.length/size=most
    split_ifs <;> omega
  exact itemLoop_stays (le_trans (mul_le_mul_right size hl) (div_mul_le_self _ _))

lemma clampUnsigned_le (size : ℕ) (len : ℤ) (rest : List UInt8) :
    clampUnsigned size len rest*size ≤ rest.length := by
  have hl : clampUnsigned size len rest ≤ rest.length/size := by
    rw [clampUnsigned]
    split_ifs <;> omega
  exact le_trans (mul_le_mul_right size hl) (div_mul_le_self _ _)

lemma unpackQuads_stays (len : ℤ) (rest : List UInt8) : Stays rest (unpackQuads len rest) :=
  itemLoop_stays (clampUnsigned_le 8 len rest)

lemma readPointer_stays (h : 8 ≤ rest.length) : Stays rest (readPointer rest) := by
  rw [readPointer,if_neg (by omega)]
  split_ifs
  · exact Stays.ok (drop_suffix _ _)
  · exact Stays.raised rest

lemma unpackPointer_stays (rest : List UInt8) : Stays rest (unpackPointer rest) := by
  unfold unpackPointer
  split_ifs with h
  · exact readPointer_stays h
  · exact Stays.ok (suffix_refl _)

lemma pointerLoop_stays (left : ℕ) (rest : List UInt8) : Stays rest (pointerLoop left rest) := by
  induction left generalizing rest with
  | zero => exact Stays.ok (suffix_refl _)
  | succ left ih =>
    rw [pointerLoop]
    split_ifs with h
    · exact Stays.ok (suffix_refl _)
    · have hr := readPointer_stays (by omega : 8 ≤ rest.length)
      revert hr
      cases readPointer rest with
      | error e => exact id
      | ok rest' => exact fun hr => (ih rest').of_suffix (hr.suffixed rest' rfl)

lemma berLoop_suffix (big : Bool) (len ul : ℕ) (rest : List UInt8) :
    berLoop big len ul rest <:+ rest := by
  induction rest generalizing big len ul with
  | nil => exact suffix_refl _
  | cons c rest ih =>
    rw [berLoop]
    dsimp only
    split_ifs
    · exact suffix_refl _
    · exact (ih _ _ _).trans (suffix_cons _ _)
    · exact (ih _ _ _).trans (suffix_cons _ _)

lemma continuation_stays {n : ℕ} (uv : ℕ) (h : n ≤ rest.length) :
    continuation n uv rest ≠ .error .outside ∧
      ∀ uv' rest', continuation n uv rest=.ok (uv',rest') → rest' <:+ rest := by
  induction n generalizing uv rest with
  | zero =>
    refine ⟨fun hr => (by cases hr),fun uv' rest' hr => ?_⟩
    cases hr
    exact suffix_refl _
  | succ n ih =>
    cases rest with
    | nil => simp at h
    | cons c rest =>
      rw [continuation]
      split_ifs
      · exact ⟨fun hr => (by cases hr),fun _ _ hr => by cases hr⟩
      · obtain ⟨hi,hs⟩ := ih (uv*64+c.toNat%64) (by simpa using h)
        exact ⟨hi,fun uv' rest' hr =>
          (hs uv' rest' hr).trans (suffix_cons _ _)⟩

lemma utf8ToUv_stays (h : rest ≠ []) : Stays rest (utf8ToUv rest) := by
  cases rest with
  | nil => exact absurd rfl h
  | cons c tail =>
    rw [utf8ToUv]
    cases utf8Length c with
    | none => exact Stays.raised _
    | some n =>
      dsimp only
      split_ifs with ho hl
      · exact Stays.ok (suffix_cons _ _)
      · exact Stays.raised _
      · rw [length_cons] at hl
        have hc := continuation_stays (c.toNat%2^(7-n)) (by omega : n-1 ≤ tail.length)
        revert hc
        cases continuation (n-1) (c.toNat%2^(7-n)) tail with
        | error e =>
          rintro ⟨hi,-⟩
          refine ⟨fun _ hr => (by cases hr),fun hr => hi ?_⟩
          cases hr
          rfl
        | ok r =>
          rintro ⟨-,hs⟩
          dsimp only
          split_ifs
          · exact Stays.raised _
          · exact Stays.ok ((hs r.1 r.2 rfl).trans (suffix_cons _ _))

lemma utf8Loop_stays (len : ℕ) (rest : List UInt8) : Stays rest (utf8Loop len rest) := by
  induction len generalizing rest with
  | zero => exact Stays.ok (suffix_refl _)
  | succ len ih =>
    cases rest with
    | nil => exact Stays.ok (suffix_refl _)
    | cons c rest =>
      rw [utf8Loop]
      have hr := utf8ToUv_stays (cons_ne_nil c rest)
      revert hr
      cases utf8ToUv (c::rest) with
      | error e => exact id
      | ok rest' => exact fun hr => (ih rest').of_suffix (hr.suffixed rest' rfl)

lemma quotedLoop_suffix (rest : List UInt8) : quotedLoop rest <:+ rest := by
  fun_induction quotedLoop rest with
  | case1 => exact suffix_refl _
  | case2 c rest h ih => exact ih.trans (suffix_cons _ _)
  | case3 => exact nil_suffix
  | case4 => exact nil_suffix
  | case5 => exact nil_suffix
  | case6 => exact suffix_cons _ _
  | case7 c _ d e rest _ ih => exact ih.trans (suffix_append [c,d,e] rest)
  | case8 c _ e rest _ ih => exact ih.trans (suffix_append [c,10] (e::rest))
  | case9 => exact suffix_cons _ _
  | case10 c _ d e rest => exact suffix_append [c,d] (e::rest)
  | case11 c _ d e rest _ _ _ _ ih => exact ih.trans (suffix_append [c,d,e] rest)

variable {rest rest' : List UInt8} {room : ℕ}

def Fed : List UInt8 → Prop
  | [] => False
  | [c] => c=10
  | _::_::_ => True

def Ended : List UInt8 → Prop
  | [] => False
  | c::rest => if c=13 then Fed rest else Fed (c::rest)

lemma lineFeed_of_fed (h : Fed rest) : ∃ rest', lineFeed rest=.at rest' := by
  match rest,h with
  | [_],rfl => exact ⟨[],rfl⟩
  | c::d::rest,_ =>
    rw [lineFeed]
    split_ifs <;> exact ⟨_,rfl⟩

lemma fed_of_lineFeed (h : lineFeed rest=.at rest') : Fed rest := by
  match rest with
  | [] => cases h
  | [c] =>
    rw [lineFeed] at h
    by_cases hc : c=10
    · exact hc
    · rw [if_neg hc] at h
      cases h
  | _::_::_ => trivial

lemma ended_iff (rest : List UInt8) : Ended rest ↔ ∃ rest', lineEnd rest=.at rest' := by
  cases rest with
  | nil =>
    refine iff_of_false id ?_
    rintro ⟨_,h⟩
    cases h
  | cons c rest =>
    rw [Ended,lineEnd]
    split_ifs <;> exact ⟨lineFeed_of_fed,fun h => h.elim fun _ => fed_of_lineFeed⟩

/-- Every line that the loop of `u` comes to has its end. -/
inductive LinesEnd : ℕ → List UInt8 → Prop
  | nil (room : ℕ) : LinesEnd room []
  | stop {room : ℕ} {c : UInt8} {tail : List UInt8} (h : startsLine c=false) :
      LinesEnd room (c::tail)
  | line {room : ℕ} {c : UInt8} {tail : List UInt8} (h : startsLine c=true)
      (hended : Ended (afterLine room c tail))
      (hrest : ∀ rest', lineEnd (afterLine room c tail)=.at rest' →
        LinesEnd (room-lineBytes room c) rest') : LinesEnd room (c::tail)

lemma uuLoop_line {c : UInt8} {tail next : List UInt8} (h : startsLine c=true)
    (hn : lineEnd (afterLine room c tail)=.at next) :
    uuLoop room (c::tail)=uuLoop (room-lineBytes room c) next := by
  rw [uuLoop,if_pos h]
  split
  · next next' hn' =>
      rw [hn] at hn'
      cases hn'
      rfl
  · next hn' =>
      rw [hn] at hn'
      cases hn'
  · next hn' =>
      rw [hn] at hn'
      cases hn'

lemma uuLoop_of_linesEnd (h : LinesEnd room rest) :
    ∃ rest', uuLoop room rest=.at rest' ∧ rest' <:+ rest := by
  induction h with
  | nil room =>
    rw [uuLoop]
    exact ⟨_,rfl,suffix_refl _⟩
  | stop h =>
    rw [uuLoop]
    simp only [h]
    exact ⟨_,rfl,suffix_refl _⟩
  | @line room c tail h he hr ih =>
    obtain ⟨next,hn⟩ := (ended_iff _).mp he
    obtain ⟨rest',hlo,hs⟩ := ih next hn
    refine ⟨rest',(uuLoop_line h hn).trans hlo,?_⟩
    have hl : next <:+ tail := (lineEnd_suffix hn).trans (uuGroups_suffix _ _)
    exact (hs.trans hl).trans (suffix_cons _ _)

lemma linesEnd_of_uuLoop (room : ℕ) (rest : List UInt8)
    (h : uuLoop room rest=.at rest') : LinesEnd room rest := by
  fun_induction uuLoop room rest with
  | case1 room => exact .nil room
  | case2 room c tail hc next hn ih =>
    refine .line hc ((ended_iff _).mpr ⟨next,hn⟩) fun rest'' hr'' => ?_
    rw [hn] at hr''
    cases hr''
    exact ih h
  | case3 => cases h
  | case4 => cases h
  | case5 room c tail hc => exact .stop (by simpa using hc)

def Padded (place : ℕ) (rest : List UInt8) : Prop :=
  ∃ before after, rest=before++61::after ∧ 2 ≤ (place+before.countP isBase64)%4

lemma padded_cons (place : ℕ) (c : UInt8) (rest : List UInt8) :
    Padded place (c::rest) ↔ (c=61 ∧ 2 ≤ place%4) ∨
      Padded (if isBase64 c then place+1 else place) rest := by
  constructor
  · rintro ⟨before,after,he,hp⟩
    cases before with
    | nil =>
      obtain ⟨rfl,rfl⟩ := cons_eq_cons.mp he
      exact .inl ⟨rfl,hp⟩
    | cons b before =>
      obtain ⟨rfl,rfl⟩ := cons_eq_cons.mp he
      refine .inr ⟨before,after,rfl,?_⟩
      rw [countP_cons] at hp
      split_ifs at hp ⊢ with hc <;> omega
  · rintro (⟨rfl,hp⟩ | ⟨before,after,rfl,hp⟩)
    · exact ⟨[],rest,rfl,hp⟩
    · refine ⟨c::before,after,rfl,?_⟩
      rw [countP_cons]
      split_ifs at hp ⊢ with hc <;> omega

lemma padded_mod (place : ℕ) (rest : List UInt8) : Padded (place%4) rest ↔ Padded place rest := by
  unfold Padded
  simp only [mod_add_mod]

lemma base64Loop_spec {place : ℕ} (hp : place < 4) (rest : List UInt8) :
    Suffixed rest (base64Loop place rest) ∧
      (base64Loop place rest ≠ .error .outside ↔ Padded place rest) := by
  induction rest generalizing place with
  | nil =>
    refine ⟨fun _ hr => (by cases hr),iff_of_false (fun h => h rfl) ?_⟩
    rintro ⟨before,after,he,-⟩
    simp at he
  | cons c rest ih =>
    rw [base64Loop,padded_cons]
    split_ifs with hc hst
    · obtain ⟨hs,hi⟩ := ih (mod_lt (place+1) (by decide))
      have hn : c ≠ 61 := by
        rintro rfl
        exact absurd hc (by decide)
      refine ⟨fun r hr => (hs r hr).trans (suffix_cons _ _),?_⟩
      rw [hi,padded_mod]
      exact ⟨.inr,fun h => h.resolve_left fun h => hn h.1⟩
    · refine ⟨(Stays.ok (suffix_refl _)).suffixed,iff_of_true (fun h => by cases h) ?_⟩
      exact .inl ⟨hst.2,by omega⟩
    · obtain ⟨hs,hi⟩ := ih hp
      refine ⟨fun r hr => (hs r hr).trans (suffix_cons _ _),hi.trans ?_⟩
      refine ⟨.inr,fun h => h.resolve_left fun h => hst ⟨?_,h.1⟩⟩
      omega

lemma unpackBase64_spec (rest : List UInt8) : Suffixed rest (unpackBase64 rest) ∧
      (unpackBase64 rest ≠ .error .outside ↔ rest=[] ∨ Padded 0 rest) := by
  cases rest with
  | nil =>
    exact ⟨(Stays.ok (suffix_refl _)).suffixed, iff_of_true (fun h => by cases h) (.inl rfl)⟩
  | cons c rest =>
    obtain ⟨hs,hi⟩ := base64Loop_spec (by decide : 0 < 4) (c::rest)
    refine ⟨hs,hi.trans ⟨.inr,fun h => h.resolve_left (cons_ne_nil _ _)⟩⟩

variable {rest : List UInt8}

lemma beforeNul_le (len : ℤ) (rest : List UInt8) :
    beforeNul (clamp len rest) rest ≤ rest.length :=
  ((takeWhile_sublist _).trans (take_sublist _ _)).length_le

lemma beforeNul_of_not_mem (h : (0 : UInt8) ∉ rest) (len : ℤ) :
    beforeNul (clamp len rest) rest=(clamp len rest).toNat := by
  have ha : (rest.take (clamp len rest).toNat).takeWhile (· ≠ 0) =
      rest.take (clamp len rest).toNat := by
    rw [takeWhile_eq_self_iff]
    intro c hc
    rw [decide_eq_true_eq]
    rintro rfl
    exact h (mem_of_mem_take hc)
  rw [beforeNul,ha,length_take]
  unfold clamp
  split_ifs <;> omega

lemma unpackZ_outside_iff (star : Bool) (len : ℤ) (rest : List UInt8) :
    unpackZ star len rest=.error .outside ↔ 0 < clamp len rest ∧ (0 : UInt8) ∉ rest := by
  have hm := infectedStrNew_outside_iff rest (beforeNul (clamp len rest) rest)
  have hb : (0 : ℤ) < beforeNul (clamp len rest) rest ∧ (0 : UInt8) ∉ rest ↔
      0 < clamp len rest ∧ (0 : UInt8) ∉ rest := by
    refine and_congr_left fun hz => ?_
    rw [beforeNul_of_not_mem hz]
    omega
  rw [← hb,← hm]
  unfold unpackZ
  dsimp only
  cases infectedStrNew rest (beforeNul (clamp len rest) rest) with
  | ok u => exact iff_of_false (fun h => by cases h) fun h => by cases h
  | error e => exact ⟨fun h => by cases h; rfl,fun h => by cases h; rfl⟩

lemma unpackZ_not_raised (star : Bool) (len : ℤ) (rest : List UInt8) :
    unpackZ star len rest ≠ .error .raised := by
  have hm : infectedStrNew rest (beforeNul (clamp len rest) rest) ≠ .error .raised := by
    rw [infectedStrNew,if_neg (by omega)]
    split_ifs
    · exact fun h => by cases h
    · rcases cString_cases rest with h | h
      · rw [h]
        exact fun h => by cases h
      · rw [h]
        exact fun h => by cases h
  unfold unpackZ
  dsimp only
  revert hm
  cases infectedStrNew rest (beforeNul (clamp len rest) rest) with
  | ok u => exact fun _ h => by cases h
  | error e =>
    intro hm h
    cases h
    exact hm rfl

lemma unpackZ_ok {star : Bool} {len : ℤ} {d : ℤ} (h : unpackZ star len rest=.ok d) :
    if star then 0 ≤ d ∧ d ≤ rest.length else d=clamp len rest := by
  unfold unpackZ at h
  dsimp only at h
  have hl := beforeNul_le len rest
  cases hm : infectedStrNew rest (beforeNul (clamp len rest) rest) with
  | error e =>
    rw [hm] at h
    cases h
  | ok u =>
    rw [hm] at h
    cases h
    split_ifs <;> omega

variable {c : Cursor} {r : Except Stop (List UInt8)}

/-- The cursor is inside after a directive, or the directive has raised. -/
def Within (c : Cursor) (r : Except Stop ℤ) : Prop :=
  r ≠ .error .outside ∧ ∀ s, r=.ok s → 0 ≤ s ∧ s ≤ c.bytes.length

lemma length_rest (c : Cursor) : c.rest.length=c.left := length_drop

lemma left_add (c : Cursor) : c.s+c.left=c.bytes.length := Nat.add_sub_cancel' c.inside

lemma within_moved_iff (h : Suffixed c.rest r) : Within c (moved c r) ↔ r ≠ .error .outside := by
  cases r with
  | error e =>
    refine ⟨fun hw hr => hw.1 ?_,fun hr => ⟨fun hm => hr ?_,fun _ hs => ?_⟩⟩
    · cases hr
      rfl
    · cases hm
      rfl
    · cases hs
  | ok rest =>
    refine iff_of_true ⟨fun hm => (by cases hm),fun s hs => ?_⟩ fun hr => by cases hr
    have hl := (h rest rfl).length_le
    rw [length_rest] at hl
    have hlef := left_add c
    obtain rfl : c.bytes.length-rest.length=s := Except.ok.inj hs
    omega

lemma within_moved (h : Stays c.rest r) : Within c (moved c r) :=
  (within_moved_iff h.suffixed).mpr h.inside

/-- When a directive at a cursor neither looks at a byte that is not there nor leaves the
input. -/
def Safe (c : Cursor) (k : Kind) (n : Count) : Prop :=
  match k with
  | .blanks => (0 : UInt8) ∈ c.rest ∨
      ∀ b ∈ c.rest.take (clamp (c.len n) c.rest).toNat, b=32 ∨ b=0
  | .plain => (0 : UInt8) ∈ c.rest ∨ clamp (c.len n) c.rest ≤ 0
  | .nulEnded => ((0 : UInt8) ∈ c.rest ∨ clamp (c.len n) c.rest ≤ 0) ∧
      (n=.star ∨ 0 ≤ c.s+c.len n)
  | .uu => LinesEnd (c.left*3/4) c.rest
  | .base64 => c.rest=[] ∨ Padded 0 c.rest
  | .absolute => 0 ≤ c.len n
  | .back => c.s-c.len n ≤ c.bytes.length
  | .forward => 0 ≤ c.s+c.len n
  | _ => True

lemma within_nulEnded_iff (c : Cursor) (n : Count) :
    Within c (exec c .nulEnded n) ↔ Safe c .nulEnded n := by
  have hi := left_add c
  have hl := length_rest c
  have ho := unpackZ_outside_iff (n == .star) (c.len n) c.rest
  rw [exec,Safe]
  cases hz : unpackZ (n == .star) (c.len n) c.rest with
  | error e =>
    cases e with
    | raised => exact absurd hz (unpackZ_not_raised _ _ _)
    | outside =>
      obtain ⟨hp,hze⟩ := ho.mp hz
      refine iff_of_false (fun h => h.1 rfl) fun h => ?_
      rcases h.1 with hme | hle
      · exact hze hme
      · omega
  | ok d =>
    rw [hz] at ho
    have hok := unpackZ_ok hz
    have hm : (0 : UInt8) ∈ c.rest ∨ clamp (c.len n) c.rest ≤ 0 := by
      by_contra hnot
      rw [not_or,not_le] at hnot
      cases ho.mpr ⟨hnot.2,hnot.1⟩
    have hw : Within c ((Except.ok d).map fun d => c.s+d) ↔
        0 ≤ c.s+d ∧ c.s+d ≤ c.bytes.length := by
      refine ⟨fun h => h.2 _ rfl,fun h => ⟨fun h => (by cases h),fun s hs => ?_⟩⟩
      obtain rfl : c.s+d=s := Except.ok.inj hs
      exact h
    rw [hw]
    cases n with
    | star =>
      rw [if_pos (by decide)] at hok
      exact iff_of_true (by omega) ⟨hm,.inl rfl⟩
    | length len =>
      have hst : Count.length len ≠ Count.star := fun h => by cases h
      rw [and_iff_right hm,or_iff_right hst,hok,clamp]
      split_ifs with hlo <;> omega

lemma within_uu_iff (c : Cursor) (n : Count) : Within c (exec c .uu n) ↔ Safe c .uu n := by
  rw [exec]
  constructor
  · intro h
    cases hl : uuLoop (c.left*3/4) c.rest with
    | «at» rest => exact linesEnd_of_uuLoop _ _ hl
    | outside =>
      rw [hl] at h
      exact absurd rfl h.1
    | beyond =>
      rw [hl] at h
      have hle := (h.2 _ rfl).2
      omega
  · intro h
    obtain ⟨rest,hl,hs⟩ := uuLoop_of_linesEnd h
    rw [hl]
    exact within_moved (Stays.ok hs)

lemma within_guarded_iff {p : Prop} [Decidable p] {s : ℤ} :
    Within c (if p then .error .raised else .ok s) ↔ p ∨ (0 ≤ s ∧ s ≤ c.bytes.length) := by
  split_ifs with hp
  · exact iff_of_true ⟨fun h => (by cases h),fun _ h => by cases h⟩ (.inl hp)
  · refine ⟨fun h => .inr (h.2 s rfl),fun h => ⟨fun h => (by cases h),fun s' hs' => ?_⟩⟩
    cases hs'
    exact h.resolve_left hp

lemma within_exec_iff (c : Cursor) (k : Kind) (n : Count) :
    Within c (exec c k n) ↔ Safe c k n := by
  have hin := left_add c
  cases k with
  | blanks =>
    obtain ⟨hs,hi⟩ := unpackA_spec (c.len n) c.rest
    rw [exec,within_moved_iff hs,Ne,hi]
    rw [not_and_or,or_comm]
    simp only [not_exists,not_and_or,not_not]
    refine or_congr_right (forall_congr' fun b => ?_)
    exact ⟨fun h hb => h.resolve_left (not_not.mpr hb),fun h => or_iff_not_imp_left.mpr fun hb => h (not_not.mp hb)⟩
  | plain =>
    obtain ⟨hs,hi⟩ := unpackPlain_spec (c.len n) c.rest
    rw [exec,within_moved_iff hs,Ne,hi,not_and_or,not_not,not_lt]
    exact or_comm
  | nulEnded => exact within_nulEnded_iff c n
  | uu => exact within_uu_iff c n
  | base64 =>
    obtain ⟨hs,hi⟩ := unpackBase64_spec c.rest
    rw [exec,within_moved_iff hs,hi,Safe]
  | absolute | back | forward =>
    rw [exec,within_guarded_iff,Safe]
    omega
  | bits per => exact iff_of_true (within_moved (unpackBits_stays _ _ _ _)) trivial
  | items size => exact iff_of_true (within_moved (unpackItems_stays _ _ _)) trivial
  | quads => exact iff_of_true (within_moved (unpackQuads_stays _ _)) trivial
  | utf8 => exact iff_of_true (within_moved (utf8Loop_stays _ _)) trivial
  | quoted => exact iff_of_true (within_moved (Stays.ok (quotedLoop_suffix _))) trivial
  | pointer => exact iff_of_true (within_moved (unpackPointer_stays _)) trivial
  | pointers => exact iff_of_true (within_moved (pointerLoop_stays _ _)) trivial
  | ber => exact iff_of_true (within_moved (Stays.ok (berLoop_suffix _ _ _ _))) trivial
  | percent => exact iff_of_true ⟨fun h => (by cases h),fun _ h => by cases h⟩ trivial
  | other =>
    refine iff_of_true ⟨fun h => (by cases h),fun s h => ?_⟩ trivial
    cases h
    omega

def SafeRun (c : Cursor) : List Item → Prop
  | [] => True
  | .invalid::_ => True
  | .directive k n::items => Safe c k n ∧
      ∀ c' : Cursor, c'.bytes=c.bytes → exec c k n=.ok c'.s → SafeRun c' items

lemma run_iff_safeRun (c : Cursor) (items : List Item) :
    (run c items=.returned ∨ run c items=.raised) ↔ SafeRun c items := by
  induction items generalizing c with
  | nil => exact iff_of_true (.inl rfl) trivial
  | cons item items ih =>
    cases item with
    | invalid => exact iff_of_true (.inr rfl) trivial
    | directive k n =>
      rw [SafeRun,← within_exec_iff,run]
      cases he : exec c k n with
      | error e =>
        cases e with
        | raised =>
          refine iff_of_true (.inr rfl) ⟨⟨fun h => (by cases h),fun _ h => by cases h⟩,?_⟩
          intro c' _ h
          cases h
        | outside =>
          refine iff_of_false ?_ fun h => h.1.1 rfl
          rintro (h | h) <;> cases h
      | ok s =>
        dsimp only
        by_cases hs : 0 ≤ s ∧ s.toNat ≤ c.bytes.length
        · rw [dif_pos hs,ih]
          constructor
          · intro hr
            refine ⟨⟨fun h => (by cases h),fun s' hs' => ?_⟩,fun c' hb hs' => ?_⟩
            · cases hs'
              omega
            · obtain ⟨bytes,s',inside⟩ := c'
              obtain rfl : bytes=c.bytes := hb
              obtain rfl : s=s' := Except.ok.inj hs'
              exact hr
          · rintro ⟨-,hr⟩
            refine hr _ rfl ?_
            rw [Int.toNat_of_nonneg hs.1]
        · rw [dif_neg hs]
          refine iff_of_false ?_ fun h => hs ?_
          · rintro (h | h) <;> cases h
          · have hbo := h.1.2 s rfl
            omega

/-- A call ends by returning or raising, without a read outside or a cursor outside, exactly
if the directives that it reaches are safe. -/
theorem unpack_stays_iff_safe (fmt : List Char) (bytes : List UInt8) :
    (packUnpack fmt bytes = .returned ∨ packUnpack fmt bytes = .raised) ↔
      SafeRun ⟨bytes,0,Nat.zero_le _⟩ (directives fmt) :=
  run_iff_safeRun _ _

lemma exec_uu_of_beyond {c : Cursor} {n : Count} (h : uuLoop (c.left*3/4) c.rest=.beyond) :
    exec c .uu n=.ok ((c.bytes.length : ℤ)+1) := by
  unfold exec
  rw [h]

/-- A count that is negative as `long`; padding that is missing; a string without a zero
byte; a line that ends without a newline. -/
theorem unpack_leaves_input : packUnpack "x18446744073709551615C".toList [65] = .left ∧
      packUnpack "m".toList [81,81,81,81] = .outside ∧ packUnpack "a2".toList [65,66] = .outside ∧
      packUnpack "u".toList [33,65,65,65,65,66] = .left := by
  refine ⟨by decide,by decide,by decide,?_⟩
  have hl : uuLoop 4 [33,65,65,65,65,66]=.beyond := by
    rw [uuLoop,if_pos (by decide)]
    split
    · next h =>
        cases h
    · next h =>
        cases h
    · rfl
  have he : exec ⟨[33,65,65,65,65,66],0,zero_le⟩ .uu (.length 1)=.ok 7 :=
    exec_uu_of_beyond hl
  change run _ [.directive .uu (.length 1)]=_
  rw [run,he]
  rfl
end MacRuby.UnpackBounds
