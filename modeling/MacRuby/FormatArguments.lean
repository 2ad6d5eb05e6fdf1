import Mathlib.Data.List.Basic

/-!
# The arguments of a format string

`get_types_for_format_str` goes through a format string, counts the conversions and
compares the count with the number of arguments after it has dealt with a
conversion. Two conversions change the argument in place: a string with precision
zero is replaced by the empty string, and the argument of `%b` by its binary digits.
Then `rb_str_format` copies the arguments into an array, behind three other values;
it has room for the arguments and four more bytes.

The memory of the arguments is a function from positions, since positions beyond
the arguments can be read and written.
-/
namespace MacRuby.FormatArguments
open Function List

inductive OcType
  | int
  | chr
  | lng
  | dbl
  | id
  | ptr
deriving DecidableEq, Repr

/-- What a conversion does to its argument before the count is checked. -/
inductive Touch
  | nothing
  | clear
  | binary (sharp upper : Bool)
deriving DecidableEq, Repr

/-- The functions for strings and integers: `strToInum` is `rb_str_to_inum` and `big2str`
is `rb_big2str`, which can raise; `addRadix` is `rb_str_update` with `0B` or `0b`. -/
structure Env (V E : Type) where
  emptyString : V
  isString : V → Bool
  strToInum : V → Except E V
  big2str : V → Except E V
  addRadix : Bool → V → V

variable {V E : Type}

/-- The value that replaces the argument of `%b`. -/
def Env.toBinary (env : Env V E) (sharp upper : Bool) (arg : V) : Except E V :=
  match (if env.isString arg then env.strToInum arg else .ok arg) with
  | .error e => .error e
  | .ok n => match env.big2str n with
      | .error e => .error e
      | .ok digits => .ok (if sharp then env.addRadix upper digits else digits)

def skipZeros : List Char → List Char
  | c::d::cs => if c = '0' then skipZeros (d::cs) else c::d::cs
  | cs => cs

/-- A string conversion has a precision of zeros; the characters before it are given last
first. -/
def zeroPrecision (before : List Char) : Bool :=
  decide (1 < before.length) && (skipZeros before).head? == some '.'

/-- The type and the treatment of a conversion, if the character is one. -/
def conversion (before : List Char) (sharp : Bool) : Char → Option (OcType × Touch)
  | '*' | 'd' | 'i' | 'o' | 'u' | 'x' | 'X' => some (.int,.nothing)
  | 'c' | 'C' => some (.chr,.nothing)
  | 'D' | 'O' | 'U' => some (.lng,.nothing)
  | 'f' | 'F' | 'e' | 'E' | 'g' | 'G' | 'a' | 'A' => some (.dbl,.nothing)
  | 's' | 'S' => some (.id,if zeroPrecision before then .clear else .nothing)
  | 'p' => some (.ptr,.nothing)
  | '@' => some (.id,.nothing)
  | 'B' => some (.id,.binary sharp true)
  | 'b' => some (.id,.binary sharp false)
  | _ => none

/-- The conversions that are replaced by `@` in the new format. -/
def becomesAt (c : Char) : Bool := c == 's' || c == 'S' || c == 'B' || c == 'b'

structure Token where
  pos : ℕ
  char : Char
  type : OcType
  touch : Touch
deriving DecidableEq, Repr

/-- Outside of a directive, or inside, after the modifiers that were seen. -/
inductive Mode
  | text
  | directive (sharp star : Bool)
deriving DecidableEq, Repr

def Mode.after (sharp star : Bool) (c : Char) : Mode :=
  if star || c == '*' then .directive sharp true else .text

variable (env : Env V E) (fmt : List Char) (len : ℕ)

/-- The state of the scan, and which positions of the arguments were read and written. -/
structure Scan (V : Type) where
  j : ℕ
  args : ℕ → V
  types : List OcType
  newFmt : Option (List Char)
  reads : List ℕ
  writes : List ℕ

inductive Raised (E : Type)
  | tooMuchTokens
  | conversion (e : E)

def touchArg (s : Scan V) : Touch → Scan V × Option (Raised E)
  | .nothing => (s,none)
  | .clear => ({s with
      args := update s.args s.j env.emptyString
      writes := s.writes++[s.j]},none)
  | .binary sharp upper => match env.toBinary sharp upper (s.args s.j) with
      | .error e => ({s with reads := s.reads++[s.j]},some (.conversion e))
      | .ok v => ({s with
          args := update s.args s.j v
          reads := s.reads++[s.j]
          writes := s.writes++[s.j]},none)

/-- `(*new_fmt)[i] = '@'`, in a copy that is made at the first replacement. -/
def setAt (s : Scan V) (t : Token) : Scan V :=
  if becomesAt t.char then {s with newFmt := some ((s.newFmt.getD fmt).set t.pos '@')} else s

def token (t : Token) (s : Scan V) : Scan V × Option (Raised E) :=
  match touchArg env s t.touch with
  | (s',some e) => (s',some e)
  | (s',none) =>
    if len=0 ∨ len ≤ s'.j then (setAt fmt s' t,some .tooMuchTokens)
    else ({setAt fmt s' t with types := s'.types++[t.type],j := s'.j+1},none)

/-- The loops of `get_types_for_format_str`, with the characters before and after `i`. -/
def scan : Mode → List Char → List Char → Scan V → Scan V × Option (Raised E)
  | _,_,[],s => (s,none)
  | .text,before,c::rest,s =>
    if c = '%' then
      match rest with
      | '%'::rest' => scan .text ('%'::c::before) rest' s
      | rest => scan (.directive false false) (c::before) rest s
    else scan .text (c::before) rest s
  | .directive sharp star,before,c::rest,s => match conversion before sharp c with
      | none => scan (.directive (sharp || c == '#') star) (c::before) rest s
      | some (type,touch) => match token env fmt len ⟨before.length,c,type,touch⟩ s with
          | (s',some e) => (s',some e)
          | (s',none) => scan (.after sharp star c) (c::before) rest s'

def getTypesForFormatStr (args : ℕ → V) : Scan V × Option (Raised E) :=
  match scan env fmt len .text [] fmt ⟨0,args,[],none,[],[]⟩ with
  | (s,some e) => (s,some e)
  | (s,none) => ({s with types := s.types++List.replicate (len-s.j) .id},none)

/-- The positions of the arguments that are read and written while the types are found,
the elements of the new array that are written, and the arguments afterwards. -/
structure Trace (V : Type) where
  reads : List ℕ
  argWrites : List ℕ
  stubWrites : List ℕ
  args : ℕ → V

def sizeofValue : ℕ := 8

def stubSize (argc : ℕ) : ℕ := sizeofValue*argc+4

/-- `rb_str_format`, up to the call of Core Foundation. -/
def rbStrFormat (argc : ℕ) (args : ℕ → V) : Trace V :=
  if argc=0 then ⟨[],[],[],args⟩
  else match getTypesForFormatStr env fmt argc args with
    | (s,some _) => ⟨s.reads,s.writes,[],s.args⟩
    | (s,none) => ⟨s.reads,s.writes,[0,1,2]++(List.range argc).map (3+·),s.args⟩

/-- `rb_str_format_m`: the elements of an Array, or a single argument. -/
def rbStrFormatM (elements : Option (List V)) (beyond : ℕ → V) (arg : V) : Trace V :=
  match elements with
  | some l => rbStrFormat env fmt l.length fun k => l[k]?.getD (beyond k)
  | none => rbStrFormat env fmt 1 fun k => if k=0 then arg else beyond k

/-- Only arguments are read, only the new array is written, inside its bounds, and the
arguments are the same afterwards. -/
structure Inside (argc : ℕ) (args : ℕ → V) (t : Trace V) : Prop where
  reads : ∀ k ∈ t.reads, k < argc
  argWrites : t.argWrites=[]
  stubWrites : ∀ k ∈ t.stubWrites, sizeofValue*(k+1) ≤ stubSize argc
  args : ∀ k < argc, t.args k=args k

def tokens : Mode → List Char → List Char → List Token
  | _,_,[] => []
  | .text,before,c::rest =>
    if c = '%' then
      match rest with
      | '%'::rest' => tokens .text ('%'::c::before) rest'
      | rest => tokens (.directive false false) (c::before) rest
    else tokens .text (c::before) rest
  | .directive sharp star,before,c::rest => match conversion before sharp c with
      | none => tokens (.directive (sharp || c == '#') star) (c::before) rest
      | some (type,touch) =>
        ⟨before.length,c,type,touch⟩::tokens (.after sharp star c) (c::before) rest

variable (env : Env V E) (fmt : List Char) (len : ℕ)

def consume : List Token → Scan V → Scan V × Option (Raised E)
  | [],s => (s,none)
  | t::ts,s => match token env fmt len t s with
      | (s',some e) => (s',some e)
      | (s',none) => consume ts s'

lemma scan_eq_consume (mode : Mode) (before rest : List Char) (s : Scan V) :
    scan env fmt len mode before rest s=consume env fmt len (tokens mode before rest) s := by
  induction mode, before, rest using tokens.induct generalizing s with
  | case1 mode before => cases mode <;> rfl
  | case2 before rest' ih => exact ih s
  | case3 before rest hr ih =>
    rw [scan,tokens]
    · exact ih s
    · exact hr
    · exact hr
  | case4 before c rest hc ih =>
    unfold scan tokens
    simp only [if_neg hc]
    exact ih s
  | case5 sharp star before c rest hco ih =>
    rw [scan,tokens,hco]
    exact ih s
  | case6 sharp star before c rest type touch hco ih =>
    rw [scan,tokens,hco]
    simp only [consume]
    rcases token env fmt len ⟨before.length,c,type,touch⟩ s with ⟨s',_|e⟩
    · exact ih s'
    · rfl

/-- The scan raises, and before it raises it touches no argument but to read one that is
there and cannot be converted. -/
def Refused (args : ℕ → V) : ℕ → List Token → Prop
  | _,[] => False
  | j,t::ts => match t.touch with
      | .nothing => len ≤ j ∨ Refused args (j+1) ts
      | .clear => False
      | .binary sharp upper => j < len ∧ ∃ e, env.toBinary sharp upper (args j)=.error e

variable (ts : List Token)
variable (s : Scan V) {t : Token}

@[simp] lemma setAt_args (s : Scan V) (t : Token) : (setAt fmt s t).args=s.args := by
  unfold setAt
  split <;> rfl

@[simp] lemma setAt_reads (s : Scan V) (t : Token) : (setAt fmt s t).reads=s.reads := by
  unfold setAt
  split <;> rfl

@[simp] lemma setAt_writes (s : Scan V) (t : Token) : (setAt fmt s t).writes=s.writes := by
  unfold setAt
  split <;> rfl

lemma token_writes_args (t : Token) (s : Scan V) :
    (token env fmt len t s).1.writes=(touchArg (E := E) env s t.touch).1.writes ∧
      (token env fmt len t s).1.args=(touchArg (E := E) env s t.touch).1.args := by
  unfold token
  rcases touchArg env s t.touch with ⟨s',_|e⟩
  · dsimp only
    split <;> simp
  · exact ⟨rfl,rfl⟩

lemma touchArg_binary_error {s : Scan V} {sharp upper : Bool} {e : E}
    (h : env.toBinary sharp upper (s.args s.j)=.error e) : touchArg env s (.binary sharp upper) =
      ({s with reads := s.reads++[s.j]},some (.conversion e)) := by
  rw [touchArg,h]

lemma touchArg_binary_ok {s : Scan V} {sharp upper : Bool} {v : V}
    (h : env.toBinary sharp upper (s.args s.j)=.ok v) :
    touchArg env s (.binary sharp upper)=({s with
      args := update s.args s.j v
      reads := s.reads++[s.j]
      writes := s.writes++[s.j]},none) := by
  rw [touchArg,h]

/-- The record of the writes only grows, and as long as it does not grow the arguments stay
as they are. -/
lemma touchArg_writes (t : Touch) : ∃ more, (touchArg env s t).1.writes=s.writes++more ∧
      (more=[] → (touchArg env s t).1.args=s.args) := by
  cases t with
  | nothing => exact ⟨[],(append_nil _).symm,fun _ => rfl⟩
  | clear => exact ⟨[s.j],rfl,fun h => absurd h (cons_ne_nil _ _)⟩
  | binary sharp upper =>
    cases hb : env.toBinary sharp upper (s.args s.j) with
    | error e =>
      rw [touchArg_binary_error env hb]
      exact ⟨[],(append_nil _).symm,fun _ => rfl⟩
    | ok v =>
      rw [touchArg_binary_ok env hb]
      exact ⟨[s.j],rfl,fun h => absurd h (cons_ne_nil _ _)⟩

lemma consume_writes : ∃ more, (consume env fmt len ts s).1.writes=s.writes++more ∧
      (more=[] → (consume env fmt len ts s).1.args=s.args) := by
  induction ts generalizing s with
  | nil => exact ⟨[],(append_nil _).symm,fun _ => rfl⟩
  | cons t ts ih =>
    obtain ⟨first,hf,ha⟩ := touchArg_writes env s t.touch
    have ht := token_writes_args env fmt len t s
    rw [hf] at ht
    rw [consume]
    rcases hr : token env fmt len t s with ⟨s',_|e⟩ <;> rw [hr] at ht
    · obtain ⟨more,hm,hk⟩ := ih s'
      refine ⟨first++more,?_,?_⟩
      · rw [hm,ht.1,append_assoc]
      · intro hn
        rw [hk (append_eq_nil_iff.mp hn).2,ht.2, ha (append_eq_nil_iff.mp hn).1]
    · exact ⟨first,ht.1,fun hn => ht.2.trans (ha hn)⟩

lemma consume_args_of_writes  (h : (consume env fmt len ts s).1.writes=[]) :
    (consume env fmt len ts s).1.args=s.args := by
  obtain ⟨more,hm,hk⟩ := consume_writes env fmt len ts s
  rw [h] at hm
  exact hk (append_eq_nil_iff.mp hm.symm).2

lemma consume_writes_ne_nil (h : s.writes ≠ []) : (consume env fmt len ts s).1.writes ≠ [] := by
  obtain ⟨more,hm,_⟩ := consume_writes env fmt len ts s
  rw [hm]
  exact fun hn => h (append_eq_nil_iff.mp hn).1

/-- A scan that raises without a write, and that read no position beyond the arguments. -/
def Harmless (r : Scan V × Option (Raised E)) : Prop :=
  r.2.isSome ∧ (∀ k ∈ r.1.reads, k < len) ∧ r.1.writes=[]

lemma consume_cons_writes_ne_nil (ts : List Token) {s : Scan V}
    (h : (touchArg (E := E) env s t.touch).1.writes ≠ []) :
    (consume env fmt len (t::ts) s).1.writes ≠ [] := by
  rw [← (token_writes_args env fmt len t s).1] at h
  rw [consume]
  rcases hr : token env fmt len t s with ⟨s',_|e⟩ <;> rw [hr] at h
  · exact consume_writes_ne_nil env fmt len ts s' h
  · exact h

lemma token_of_nothing (hl : 0 < len) (s : Scan V) (ht : t.touch=.nothing) :
    token env fmt len t s = if len ≤ s.j then (setAt fmt s t,some .tooMuchTokens)
      else ({setAt fmt s t with types := s.types++[t.type],j := s.j+1},none) := by
  simp only [token,ht,touchArg,Nat.ne_of_gt hl,false_or]

lemma harmless_consume_iff (hl : 0 < len) (ts : List Token) (s : Scan V)
    (hr : s.reads=[]) (hw : s.writes=[]) :
    Harmless len (consume env fmt len ts s) ↔ Refused env len s.args s.j ts := by
  induction ts generalizing s with
  | nil => simp [consume,Harmless,Refused]
  | cons t ts ih =>
    cases ht : t.touch with
    | nothing =>
      rw [Refused,ht,consume,token_of_nothing env fmt len hl s ht]
      by_cases hc : len ≤ s.j
      · simp [hc,Harmless,hr,hw]
      · simp only [hc,if_false,false_or]
        rw [ih _ (by simpa using hr) (by simpa using hw)]
        simp only [setAt_args]
    | clear =>
      rw [Refused,ht]
      refine iff_of_false (fun h => ?_) id
      exact consume_cons_writes_ne_nil env fmt len ts (by rw [ht]; simp [touchArg]) h.2.2
    | binary sharp upper =>
      rw [Refused,ht]
      cases hb : env.toBinary sharp upper (s.args s.j) with
      | error e =>
        have hto := touchArg_binary_error env hb
        simp only [consume,token,ht,hto,Harmless,hr,hw,Option.isSome_some,
          nil_append,mem_singleton,forall_eq,true_and,and_true]
        exact ⟨fun hj => ⟨hj,e,hb⟩,fun h => h.1⟩
      | ok v =>
        refine iff_of_false (fun h => ?_) fun h => ?_
        · refine consume_cons_writes_ne_nil env fmt len ts ?_ h.2.2
          rw [ht,touchArg_binary_ok env hb]
          simp
        · obtain ⟨_,_,he⟩ := h
          rw [hb] at he
          cases he

lemma getTypes_eq (len : ℕ) (args : ℕ → V) : (getTypesForFormatStr env fmt len args).2 =
        (consume env fmt len (tokens .text [] fmt) ⟨0,args,[],none,[],[]⟩).2 ∧
      (getTypesForFormatStr env fmt len args).1.reads =
        (consume env fmt len (tokens .text [] fmt) ⟨0,args,[],none,[],[]⟩).1.reads ∧
      (getTypesForFormatStr env fmt len args).1.writes =
        (consume env fmt len (tokens .text [] fmt) ⟨0,args,[],none,[],[]⟩).1.writes ∧
      (getTypesForFormatStr env fmt len args).1.args =
        (consume env fmt len (tokens .text [] fmt) ⟨0,args,[],none,[],[]⟩).1.args := by
  rw [getTypesForFormatStr,scan_eq_consume]
  rcases consume env fmt len (tokens .text [] fmt) ⟨0,args,[],none,[],[]⟩ with ⟨s,_|e⟩ <;>
    exact ⟨rfl,rfl,rfl,rfl⟩

lemma stub_outside (argc : ℕ) (h : argc ≠ 0) :
    ¬∀ k ∈ [0,1,2]++(List.range argc).map (3+·), sizeofValue*(k+1) ≤ stubSize argc := by
  intro ha
  have hl : 3+(argc-1) ∈ [0,1,2]++(range argc).map (3+·) :=
    mem_append_right _ (mem_map_of_mem (mem_range.mpr (by omega)))
  have := ha _ hl
  simp only [sizeofValue,stubSize] at this
  omega

lemma rbStrFormat_inside_iff (argc : ℕ) (args : ℕ → V) :
    Inside argc args (rbStrFormat env fmt argc args) ↔
      argc=0 ∨ Refused env argc args 0 (tokens .text [] fmt) := by
  by_cases ha : argc=0
  · simp only [ha,true_or,iff_true]
    exact ⟨fun _ hk => absurd hk not_mem_nil,rfl, fun _ hk => absurd hk not_mem_nil,fun _ _ => rfl⟩
  · have hh := harmless_consume_iff env fmt argc (Nat.pos_of_ne_zero ha)
      (tokens .text [] fmt) ⟨0,args,[],none,[],[]⟩ rfl rfl
    have hke := consume_args_of_writes env fmt argc (tokens .text [] fmt) ⟨0,args,[],none,[],[]⟩
    obtain ⟨hr,hrea,hw,har⟩ := getTypes_eq env fmt argc args
    rw [Harmless,← hr,← hrea,← hw] at hh
    rw [← hw,← har] at hke
    rw [← hh,rbStrFormat]
    simp only [ha,false_or]
    rcases hre : getTypesForFormatStr env fmt argc args with ⟨s,_|e⟩
    · refine iff_of_false (fun h => stub_outside argc ha h.stubWrites) fun h => ?_
      cases h.1
    · rw [hre] at hke
      refine ⟨fun h => ⟨rfl,h.reads,h.argWrites⟩,fun h => ?_⟩
      exact ⟨h.2.1,h.2.2,fun _ hk => absurd hk not_mem_nil, fun k _ => congrFun (hke h.2.2) k⟩

/-- A call stays inside its arguments and its array exactly if there are no arguments, or
the format is refused before an argument is changed or looked for in vain. This is so for
`rb_str_format` and for `String#%` with an Array or with another object. -/
theorem inside_iff_refused :
    (∀ (argc : ℕ) (args : ℕ → V), Inside argc args (rbStrFormat env fmt argc args) ↔
      argc = 0 ∨ Refused env argc args 0 (tokens .text [] fmt)) ∧
    (∀ (l : List V) (beyond : ℕ → V) (arg : V), Inside l.length (fun k => l[k]?.getD (beyond k))
          (rbStrFormatM env fmt (some l) beyond arg) ↔ l = [] ∨
          Refused env l.length (fun k => l[k]?.getD (beyond k)) 0 (tokens .text [] fmt)) ∧
    (∀ (beyond : ℕ → V) (arg : V), Inside 1 (fun k => if k = 0 then arg else beyond k)
          (rbStrFormatM env fmt none beyond arg) ↔
        Refused env 1 (fun k => if k = 0 then arg else beyond k) 0 (tokens .text [] fmt)) := by
  refine ⟨rbStrFormat_inside_iff env fmt,fun l beyond arg => ?_,fun beyond arg => ?_⟩
  · rw [rbStrFormatM,rbStrFormat_inside_iff,length_eq_zero_iff]
  · rw [rbStrFormatM,rbStrFormat_inside_iff]
    simp only [Nat.one_ne_zero,false_or]

/-- Integers and strings, for a call with a single integer. -/
inductive Value
  | num (n : ℕ)
  | str (s : List Char)
deriving DecidableEq, Repr

def valueEnv : Env Value Unit where
  emptyString := .str []
  isString
    | .num _ => false
    | .str _ => true
  strToInum
    | .num n => .ok (.num n)
    | .str s => .ok (.num s.length)
  big2str
    | .num n => .ok (.str (Nat.toDigits 2 n))
    | .str _ => .error ()
  addRadix
    | _,.num n => .num n
    | true,.str s => .str ('0':: 'B'::s)
    | false,.str s => .str ('0':: 'b'::s)

/-- The memory of an Array with the one element `5`. -/
def onlyFive (k : ℕ) : Value := if k=0 then .num 5 else .num 7

/-- `a = [5]; "%b" % a` leaves the string `101` in the Array and writes behind the new array,
`"%b%b" % a` reads behind the Array, and `"%d" % a` writes behind the new array. -/
theorem format_leaves_arguments :
    (rbStrFormatM valueEnv ['%','b'] (some [.num 5]) onlyFive (.num 0)).args 0 =
        .str ['1','0','1'] ∧
      (rbStrFormatM valueEnv ['%','b','%','b'] (some [.num 5]) onlyFive (.num 0)).reads = [0,1] ∧
      (rbStrFormatM valueEnv ['%','d'] (some [.num 5]) onlyFive (.num 0)).stubWrites = [0,1,2,3] ∧
      stubSize 1 < sizeofValue*(1+1) ∧
      ¬Inside 1 onlyFive (rbStrFormatM valueEnv ['%','b'] (some [.num 5]) onlyFive (.num 0)) := by
  refine ⟨by decide,by decide,by decide,by decide,fun h => ?_⟩
  have hs := h.args 0 (by decide)
  revert hs
  decide

end MacRuby.FormatArguments
