import MacRuby.MethodTables

/-!
# Dispatch

`__rb_vm_dispatch` uses the cache of the selector when it was filled for the
same class, or for a C function. Otherwise it looks the method up. When the
class does not respond to the selector, it tries in turn to forward the
message, to call a method that takes the named arguments as a hash, to call the
Objective-C accessor that corresponds to a Ruby one, and to call a C function,
before it reports a missing method.
-/
namespace MacRuby.Dispatch
open MethodTables

structure Call where
  self : ℕ
  klass : ℕ
  sel : SEL
  argc : ℕ
deriving DecidableEq, Repr

/-- How a dispatch ends: with a Ruby call, an Objective-C call, a call of a C function,
an `ArgumentError`, or in `method_missing`. -/
inductive Exit
  | ruby (n : Node) (argc : ℕ)
  | objc (imp : ℕ)
  | function (f : ℕ)
  | argumentError
  | methodMissing
deriving DecidableEq, Repr

/-- The other selector of the name, which `call_method_missing` looks up. -/
def otherSel (sel : SEL) (argc : ℕ) : Option SEL :=
  if 0 < argc ∧ genuine sel then some sel.dropLast
  else if argc=0 then some (buf100 (sel++[':']))
  else none

/-- The selector up to its first colon, for calls with named arguments. -/
def headSel (sel : SEL) (argc : ℕ) : Option SEL :=
  if 1 < argc ∧ ':' ∈ sel then some (sel.takeWhile (· ≠ ':')++[':']) else none

def keywords (sel : SEL) : ℕ := (sel.dropWhile (· ≠ ':')).tail.count ':'

def capitalize : SEL → SEL
  | [] => []
  | c::cs => c.toUpper::cs

/-- `helper_sel`: `foo=:` stands for `setFoo:`, and `foo?` for `isFoo`. -/
def helperSel (sel : SEL) : Option SEL :=
  match sel.reverse with
  | ':' :: '=' :: c::cs =>
    if c.isAlpha then some (['s','e','t']++capitalize (c::cs).reverse++[':']) else none
  | '?'::c::cs => some (['i','s']++capitalize (c::cs).reverse)
  | _ => none

def functionName (sel : SEL) : SEL := if genuine sel then sel.dropLast else sel

variable (P : Program) (s : Core) (c : Call)

def fill (sel : SEL) (entry : MCache) : Core :=
  s.setTable sel {s.table sel with mcache := entry}

/-- From `call_method_missing` on. -/
def callMethodMissing (sel : SEL) (argc : ℕ) : Exit × Core :=
  match otherSel sel argc with
  | none => (.methodMissing,s)
  | some sel' =>
    let s' := s.lookup P c.klass sel'
    match s'.visible P c.klass sel' with
    | some (_,⟨_,some _⟩) => (.argumentError,s')
    | _ => (.methodMissing,s')

/-- From `recache2` on, with the method found and the selector and the number of
arguments for which it was found. -/
def recache2 (sel : SEL) (argc : ℕ) (found : ℕ × Method) (filler : Filler) (doRcache : Bool) :
    Exit × Core :=
  match found.2 with
  | ⟨.undefined,_⟩ => callMethodMissing P s c sel argc
  | ⟨.code _,some n⟩ =>
    (.ruby n argc,fill s c.sel (if doRcache then .rcall c.klass found.1 else .empty))
  | ⟨.code imp,none⟩ => (.objc imp,fill s c.sel (.ocall c.klass imp filler))

def tryFunction : Exit × Core :=
  match P.bsFunction (functionName c.sel) with
  | some f => (.function f,fill s c.sel (.fcall f))
  | none => callMethodMissing P s c c.sel c.argc

def tryHelper : Exit × Core :=
  match helperSel c.sel with
  | none => tryFunction P s c
  | some sel =>
    let s' := s.lookup P c.klass sel
    match s'.visible P c.klass sel with
    | some (owner,⟨imp,none⟩) =>
      recache2 P s' c sel c.argc (owner,⟨imp,none⟩) (.detour c.self c.argc) true
    | _ => tryFunction P s' c

def tryHash : Exit × Core :=
  match headSel c.sel c.argc with
  | none => tryHelper P s c
  | some sel =>
    let s' := s.lookup P c.klass sel
    match s'.visible P c.klass sel with
    | some found =>
      if c.argc ≤ keywords c.sel+1 then
        recache2 P s' c sel 2 found (.detour c.self c.argc) false
      else tryHelper P s' c
    | none => tryHelper P s' c

/-- From `recache` on. The second request to `rb_vm_resolve_method` is left out: the
lookup has just made it. -/
def recache : Exit × Core :=
  let s' := s.lookup P c.klass c.sel
  match s'.visible P c.klass c.sel with
  | some found => recache2 P s' c c.sel c.argc found .found true
  | none =>
    if P.canForward c.self c.sel then
      (.objc P.objcMsgSend,
        fill s' c.sel (.ocall c.klass P.objcMsgSend (.detour c.self c.argc)))
    else tryHash P s' c

/-- `__rb_vm_dispatch`. A cached node is never freed, so the last case of a Ruby call
does not arise. -/
def rbVmDispatch (P : Program) (s : Core) (c : Call) : Exit × Core :=
  match (s.table c.sel).mcache with
  | .empty => recache P s c
  | .rcall klass owner =>
    if klass=c.klass then
      match (s.table c.sel).own owner with
      | some ⟨_,some n⟩ => (.ruby n c.argc,s)
      | _ => recache P s c
    else recache P s c
  | .ocall klass imp _ => if klass=c.klass then (.objc imp,s) else recache P s c
  | .fcall f => (.function f,s)

end MacRuby.Dispatch
