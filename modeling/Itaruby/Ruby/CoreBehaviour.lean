import Itaruby.Check.CoreMethods
import Mathlib.Data.List.Perm.Subperm

/-!
What the methods of the core classes return. A behaviour says it for one call, by what the
receiver, the arguments and the block are; contents that no type can tell apart, such as the
letters of a string, are left out. A call that raises, or that its block leaves by `break`,
returns nothing.
-/

set_option autoImplicit false
set_option relaxedAutoImplicit false

namespace Itaruby

namespace Ruby

structure CoreCall where
  name : String
  receiver : Datum
  /-- without a receiver, or on `self` -/
  onSelf : Bool
  args : List Datum
  /-- what the block can give for its arguments -/
  block : Option (List Datum → Datum → Prop)

/-- What core methods ask of values that are not of the class they work on, and the equality of
hash keys. -/
structure Protocols where
  /-- The result of an operator on the pair that `coerce` of the operand gives; where there is no
  such pair, `<=>` gives `nil` and the others nothing. -/
  coerced : String → Datum → Datum → Datum → Prop
  toInt : Datum → Option ℤ
  toAry : Datum → Option (List Datum)
  toHash : Datum → Option (List (Datum × Datum))
  /-- `<=>` says less, where one of the two is no number -/
  less : Datum → Datum → Prop
  /-- `eql?` of hash keys -/
  sameKey : Datum → Datum → Bool

inductive Kind
  | int
  | float
  | str
  | sym
  | bool
  | nil
  deriving DecidableEq, Repr

/-- Which elements are taken. -/
inductive End
  | front
  | back
  /-- by their order -/
  | extreme
  deriving DecidableEq, Repr

inductive Behaviour
  /-- a value of a core class, whatever the call -/
  | gives (kind : Kind)
  | itself
  | anything
  | arithmetic
  | power
  | compare
  | relation
  | clamp
  | rounding
  /-- the receiver after its block was called, an enumerator without one -/
  | walks
  /-- strings, or the receiver if there is a block for them -/
  | splits
  | substitutes
  | element (ending : End)
  | toArray
  | reorders
  | sortsBy
  | selects
  | flattens
  | appends
  | concatenates
  | keys
  | values
  | merges
  | toHash
  /-- `Kernel#p` -/
  | prints
  deriving DecidableEq, Repr

def Kind.Of : Kind → Datum → Prop
  | .int, v => ∃ n, v = .int n
  | .float, v => ∃ x, v = .float x
  | .str, v => ∃ cls, v = .str cls
  | .sym, v => v = .sym
  | .bool, v => ∃ b, v = .bool b
  | .nil, v => v = .nil

namespace Real

def Negative : Real → Prop
  | .nan => False
  | .infinite negative => negative = true
  | .finite q => q < 0

/-- The float is its own rounding. -/
def Integral : Real → Prop
  | .nan => False
  | .infinite _ => True
  | .finite q => q.den = 1

/-- The order of floats; there is none with a NaN. -/
def Below : Real → Real → Prop
  | .nan, _ | _, .nan => False
  | .infinite negative, .infinite negative' => negative = true ∧ negative' = false
  | .infinite negative, .finite _ => negative = true
  | .finite _, .infinite negative => negative = false
  | .finite q, .finite r => q < r

end Real

namespace Datum

/-- A number that integers and floats have an order with. -/
def real : Datum → Option Real
  | .int n => some (.finite n)
  | .float x => some x
  | .rational q => some (.finite q)
  | _ => none

end Datum

namespace Protocols

variable (P : Protocols)

def Precedes (v w : Datum) : Prop :=
  match v.real, w.real with
  | some x, some y => x.Below y
  | _, _ => P.less v w

/-- What an argument counts as where a number of elements or digits is wanted. -/
def count : Datum → Option ℤ
  | .nil => none
  | .int n => some n
  | .float (.finite q) => some (q.num.tdiv q.den)
  | .float _ => none
  | .rational q => some (q.num.tdiv q.den)
  | v => P.toInt v

/-- The elements of what counts as an array. -/
def elements : Datum → Option (List Datum)
  | .array _ l => some l
  | v => P.toAry v

def entries : Datum → Option (List (Datum × Datum))
  | .hash _ l => some l
  | v => P.toHash v

/-- What flattening leaves of the elements of an array; without a depth, nothing that is an array
stays. -/
inductive Flattened : Option ℕ → List Datum → List Datum → Prop
  | nil (depth : Option ℕ) : Flattened depth [] []
  | leaf (depth : Option ℕ) (x : Datum) (rest ys : List Datum) : P.elements x = none →
      Flattened depth rest ys → Flattened depth (x :: rest) (x :: ys)
  | kept (x : Datum) (rest ys : List Datum) : Flattened (some 0) rest ys →
      Flattened (some 0) (x :: rest) (x :: ys)
  | deep (x : Datum) (l rest ys zs : List Datum) : P.elements x = some l → Flattened none l ys →
      Flattened none rest zs → Flattened none (x :: rest) (ys ++ zs)
  | level (depth : ℕ) (x : Datum) (l rest ys zs : List Datum) : P.elements x = some l →
      Flattened (some depth) l ys → Flattened (some (depth + 1)) rest zs →
        Flattened (some (depth + 1)) (x :: rest) (ys ++ zs)

/-- The depth that an argument of `flatten` asks for. -/
def depthOf : List Datum → Option (Option ℕ)
  | [] => some none
  | [.nil] => some none
  | [a] => (P.count a).map fun n ↦ if n < 0 then none else some n.toNat
  | _ => none

/-- A pair is put into the entries of a hash; `resolve` has the last word on a key that was
there. -/
inductive Stored (resolve : List Datum → Datum → Prop) :
    List (Datum × Datum) → Datum × Datum → List (Datum × Datum) → Prop
  | last (p : Datum × Datum) : Stored resolve [] p [p]
  | same (e p : Datum × Datum) (rest : List (Datum × Datum)) (v : Datum) :
      P.sameKey e.1 p.1 = true → resolve [e.1, e.2, p.2] v →
        Stored resolve (e :: rest) p ((e.1, v) :: rest)
  | other (e p : Datum × Datum) (rest rest' : List (Datum × Datum)) :
      P.sameKey e.1 p.1 = false → Stored resolve rest p rest' →
        Stored resolve (e :: rest) p (e :: rest')

inductive StoredAll (resolve : List Datum → Datum → Prop) :
    List (Datum × Datum) → List (Datum × Datum) → List (Datum × Datum) → Prop
  | nil (entries : List (Datum × Datum)) : StoredAll resolve entries [] entries
  | cons (entries entries' entries'' : List (Datum × Datum)) (p : Datum × Datum)
      (rest : List (Datum × Datum)) : P.Stored resolve entries p entries' →
        StoredAll resolve entries' rest entries'' → StoredAll resolve entries (p :: rest) entries''

/-- Without a block the new value stays. -/
def newValue (args : List Datum) (v : Datum) : Prop := args.getLast? = some v

end Protocols

/-- One element is taken. -/
def Picked : End → List Datum → Datum → Prop
  | .front, l, x => l.head? = some x
  | .back, l, x => l.getLast? = some x
  | .extreme, l, x => x ∈ l

/-- A number of elements is taken. -/
def Taken : End → ℕ → List Datum → List Datum → Prop
  | .front, n, l, l' => l' = l.take n
  | .back, n, l, l' => l' = l.drop (l.length - n)
  | .extreme, n, l, l' => l'.Subperm l ∧ l'.length = min n l.length

namespace Behaviour

section

variable (P : Protocols)

/-- Zero is nothing to divide by. -/
def Divides (call : CoreCall) : Prop := call.name = "/" ∨ call.name = "%"

/-- `+`, `-`, `*`, `/` and `%` -/
def Arithmetic (call : CoreCall) (w : Datum) : Prop :=
  match call.receiver, call.args with
  | .int _, [.int m] => (Divides call → m ≠ 0) ∧ Kind.int.Of w
  | .int _, [.rational q] => (Divides call → q ≠ 0) ∧ ∃ r, w = .rational r
  | .int _, [.float _] => Kind.float.Of w
  | .float _, [.int _] => Kind.float.Of w
  | .float _, [.rational _] => Kind.float.Of w
  | .float _, [.float _] => Kind.float.Of w
  | _, [.foreign .complex] => call.name ≠ "%" ∧ w = .foreign .complex
  | v, [a] => P.coerced call.name v a w
  | _, _ => False

def Power (call : CoreCall) (w : Datum) : Prop :=
  match call.receiver, call.args with
  | .int n, [.int m] => (0 ≤ m ∧ Kind.int.Of w) ∨ (m < 0 ∧ n ≠ 0 ∧ ∃ q, w = .rational q)
  | .int n, [.float y] =>
    (n < 0 ∧ ¬ y.Integral ∧ w = .foreign .complex) ∨ (¬ (n < 0 ∧ ¬ y.Integral) ∧ Kind.float.Of w)
  | .int n, [.rational q] =>
    (n = 0 → 0 ≤ q) ∧ ((∃ r, w = .rational r) ∨ Kind.float.Of w ∨ w = .foreign .complex)
  | .float _, [.int _] => Kind.float.Of w
  | .float x, [.float y] =>
    (x.Negative ∧ ¬ y.Integral ∧ w = .foreign .complex) ∨
      (¬ (x.Negative ∧ ¬ y.Integral) ∧ Kind.float.Of w)
  | .float x, [.rational q] =>
    (x.Negative ∧ q.den ≠ 1 ∧ w = .foreign .complex) ∨
      (¬ (x.Negative ∧ q.den ≠ 1) ∧ Kind.float.Of w)
  | _, [.foreign .complex] => w = .foreign .complex
  | v, [a] => P.coerced call.name v a w
  | _, _ => False

/-- `<=>`: `nil` where there is no order. -/
def Compare (call : CoreCall) (w : Datum) : Prop :=
  match call.args with
  | [a] =>
    match call.receiver.real, a.real with
    | some x, some y =>
      ((x = .nan ∨ y = .nan) ∧ w = .nil) ∨ (¬ (x = .nan ∨ y = .nan) ∧ Kind.int.Of w)
    | _, _ =>
      (a = .foreign .complex ∧ (w = .nil ∨ Kind.int.Of w)) ∨
        (a ≠ .foreign .complex ∧ P.coerced call.name call.receiver a w)
  | _ => False

/-- `<`, `<=`, `>` and `>=` -/
def Relation (call : CoreCall) (w : Datum) : Prop :=
  match call.args with
  | [a] =>
    match call.receiver.real, a.real with
    | some _, some _ => Kind.bool.Of w
    | _, _ => a ≠ .foreign .complex ∧ w ≠ .nil ∧ P.coerced call.name call.receiver a w
  | _ => False

/-- The bounds of `clamp`, as two arguments or as a range. -/
def bounds : List Datum → Option (Datum × Datum)
  | [.range low high] => some (low, high)
  | [low, high] => some (low, high)
  | _ => none

/-- The bounds can be compared and are in order. -/
structure Clamps (low high : Datum) : Prop where
  ordered : low ≠ .nil → high ≠ .nil → ¬ P.Precedes high low
  low : low ≠ .float .nan
  high : high ≠ .float .nan

def Under (v low : Datum) : Prop := low ≠ .nil ∧ P.Precedes v low

def Over (v high : Datum) : Prop := high ≠ .nil ∧ P.Precedes high v

def Clamp (call : CoreCall) (w : Datum) : Prop :=
  ∃ low high, bounds call.args = some (low, high) ∧ Clamps P low high ∧
    ((Under P call.receiver low ∧ w = low) ∨
      (¬ Under P call.receiver low ∧ Over P call.receiver high ∧ w = high) ∨
      (¬ Under P call.receiver low ∧ ¬ Over P call.receiver high ∧ w = call.receiver))

/-- `round`, `ceil` and `floor` of a float, to a number of digits or with an option. -/
def Rounding (call : CoreCall) (w : Datum) : Prop :=
  match call.args with
  | [] | [.nil] | [.hash _ _] => Kind.int.Of w
  | [a] => ∃ digits, P.count a = some digits ∧
    ((digits ≤ 0 ∧ Kind.int.Of w) ∨ (0 < digits ∧ Kind.float.Of w))
  | _ => False

def Element (ending : End) (call : CoreCall) (w : Datum) : Prop :=
  ∃ cls l, call.receiver = .array cls l ∧
    match call.args with
    | [] => (l = [] ∧ w = .nil) ∨ Picked ending l w
    | [a] =>
      (ending = .extreme ∧ a = .nil ∧ ((l = [] ∧ w = .nil) ∨ Picked ending l w)) ∨
        ∃ n : ℕ, P.count a = some (n : ℤ) ∧ ∃ l', Taken ending n l l' ∧ w = .array none l'
    | _ => False

/-- The arrays that are joined to the receiver. -/
def joined : List Datum → Option (List Datum)
  | [] => some []
  | a :: rest => do
    let l ← P.elements a
    let ls ← joined rest
    return l ++ ls

/-- The entries of all arguments. -/
def mergedIn : List Datum → Option (List (Datum × Datum))
  | [] => some []
  | a :: rest => do
    let l ← P.entries a
    let ls ← mergedIn rest
    return l ++ ls

/-- The pairs that the block of `to_h` makes of the entries. -/
def PairsOf (block : List Datum → Datum → Prop) (entries pairs : List (Datum × Datum)) : Prop :=
  List.Forall₂ (fun e p ↦ ∃ v, block [e.1, e.2] v ∧ P.elements v = some [p.1, p.2]) entries pairs

/-- What a call can return. -/
def Returns (call : CoreCall) (w : Datum) : Behaviour → Prop
  | .gives kind => kind.Of w
  | .itself => w = call.receiver
  | .anything => True
  | .arithmetic => Arithmetic P call w
  | .power => Power P call w
  | .compare => Compare P call w
  | .relation => Relation P call w
  | .clamp => Clamp P call w
  | .rounding => Rounding P call w
  | .walks => if call.block.isSome then w = call.receiver else w = .foreign .enumerator
  | .splits =>
    if call.block.isSome then w = call.receiver
    else ∃ l, w = .array none l ∧ ∀ x ∈ l, x = .str none
  | .substitutes =>
    if call.args.length = 1 ∧ call.block = none then w = .foreign .enumerator
    else Kind.str.Of w
  | .element ending => Element P ending call w
  | .reorders => ∃ cls l l', call.receiver = .array cls l ∧ l'.Perm l ∧ w = .array none l'
  | .sortsBy =>
    call.args = [] ∧ if call.block.isSome then
      ∃ cls l l', call.receiver = .array cls l ∧ l'.Perm l ∧ w = .array none l'
    else w = .foreign .enumerator
  | .toArray => ∃ cls cls' l, call.receiver = .array cls l ∧ w = .array cls' l
  | .selects => ∃ cls l l', call.receiver = .array cls l ∧ l'.Sublist l ∧ w = .array none l'
  | .flattens => ∃ cls l depth ys, call.receiver = .array cls l ∧
    P.depthOf call.args = some depth ∧ P.Flattened depth l ys ∧ w = .array none ys
  | .appends => ∃ cls l, call.receiver = .array cls l ∧
    (call.name = "<<" → call.args.length = 1) ∧ w = .array cls (l ++ call.args)
  | .concatenates => ∃ cls cls' l l', call.receiver = .array cls l ∧
    joined P call.args = some l' ∧ w = .array cls' (l ++ l')
  | .keys => ∃ cls l, call.receiver = .hash cls l ∧ w = .array none (l.map Prod.fst)
  | .values => ∃ cls l, call.receiver = .hash cls l ∧ w = .array none (l.map Prod.snd)
  | .merges => ∃ cls l new l', call.receiver = .hash cls l ∧ mergedIn P call.args = some new ∧
    P.StoredAll (call.block.getD Protocols.newValue) l new l' ∧ w = .hash cls l'
  | .toHash =>
    match call.block with
    | none => ∃ cls cls' l, call.receiver = .hash cls l ∧ w = .hash cls' l
    | some block => ∃ cls l pairs l', call.receiver = .hash cls l ∧ PairsOf P block l pairs ∧
      P.StoredAll Protocols.newValue [] pairs l' ∧ w = .hash none l'
  | .prints =>
    match call.args with
    | [] => w = .nil
    | [a] => w = a
    | args => w = .array none args

end

end Behaviour

/-! ### The core classes -/

abbrev Behaviours := List (List String × Behaviour)

def integerBehaviours : Behaviours := [
  (["+", "-", "*", "/", "%"], .arithmetic),
  (["**"], .power),
  (["to_s"], .gives .str),
  (["to_i", "abs", "succ", "pred"], .gives .int),
  (["to_f"], .gives .float),
  (["zero?", "positive?", "negative?", "even?", "odd?", "==", "!="], .gives .bool),
  (["times"], .anything),
  (["clamp"], .clamp),
  (["<=>"], .compare),
  (["<", "<=", ">", ">="], .relation)]

def floatBehaviours : Behaviours := [
  (["+", "-", "*", "/", "%"], .arithmetic),
  (["**"], .power),
  (["to_i"], .gives .int),
  (["to_s"], .gives .str),
  (["round", "ceil", "floor"], .rounding),
  (["abs"], .gives .float),
  (["zero?", "positive?", "negative?", "nan?", "==", "!="], .gives .bool),
  (["<=>"], .compare),
  (["<", "<=", ">", ">="], .relation)]

def strBehaviours : Behaviours := [
  (["+", "*", "upcase", "downcase", "capitalize", "strip", "lstrip", "rstrip", "chomp", "chop",
    "reverse", "to_s", "sub"], .gives .str),
  (["length", "size", "to_i"], .gives .int),
  (["empty?", "include?", "start_with?", "end_with?", "==", "!="], .gives .bool),
  (["split", "chars"], .splits),
  (["gsub"], .substitutes),
  (["to_f"], .gives .float),
  (["to_sym"], .gives .sym),
  (["[]"], .anything),
  (["freeze"], .itself)]

def symBehaviours : Behaviours := [
  (["to_s"], .gives .str),
  (["to_sym"], .itself),
  (["to_proc"], .anything),
  (["length", "size"], .gives .int),
  (["=="], .gives .bool)]

def arrayBehaviours : Behaviours := [
  (["<<", "push"], .appends),
  (["first", "shift"], .element .front),
  (["last", "pop"], .element .back),
  (["min", "max"], .element .extreme),
  (["map", "collect", "select", "filter", "reject", "flat_map", "sum", "index", "find_index",
    "[]"], .anything),
  (["each", "each_with_index"], .walks),
  (["length", "size", "count"], .gives .int),
  (["empty?", "include?", "==", "any?", "all?", "none?"], .gives .bool),
  (["join"], .gives .str),
  (["sort", "reverse", "shuffle"], .reorders),
  (["sort_by"], .sortsBy),
  (["uniq", "compact", "-"], .selects),
  (["flatten"], .flattens),
  (["concat", "+"], .concatenates),
  (["to_a"], .toArray)]

def hashBehaviours : Behaviours := [
  (["[]", "[]=", "fetch", "map", "delete"], .anything),
  (["key?", "has_key?", "include?", "member?", "value?", "has_value?", "empty?", "any?"],
    .gives .bool),
  (["keys"], .keys),
  (["values"], .values),
  (["length", "size", "count"], .gives .int),
  (["merge"], .merges),
  (["each", "each_pair"], .walks),
  (["to_h"], .toHash)]

def nilBehaviours : Behaviours := [
  (["nil?"], .gives .bool),
  (["to_s", "inspect"], .gives .str),
  (["to_a"], .anything),
  (["to_i"], .gives .int)]

def boolBehaviours : Behaviours := [
  (["!", "&", "|", "^"], .gives .bool),
  (["to_s", "inspect"], .gives .str)]

/-- The methods of `Kernel` that every object has in public. -/
def objectBehaviours : Behaviours := [
  (["nil?", "is_a?", "kind_of?", "instance_of?", "respond_to?", "frozen?", "==", "!=", "equal?",
    "eql?"], .gives .bool),
  (["freeze", "dup", "clone", "itself"], .itself),
  (["inspect", "to_s"], .gives .str),
  (["hash", "object_id"], .gives .int),
  (["instance_variable_defined?", "instance_variables", "methods", "public_methods",
    "private_methods", "singleton_class", "define_singleton_method", "display", "extend",
    "instance_exec", "instance_eval", "enum_for", "to_enum", "tap", "then", "yield_self", "class",
    "send", "public_send", "__send__", "method", "instance_variable_get",
    "instance_variable_set"], .anything)]

/-- The methods of `Kernel` that are private: only a call on `self` reaches them. -/
def kernelBehaviours : Behaviours := [
  (["block_given?", "require", "require_relative"], .gives .bool),
  (["Integer", "String", "Float", "Array", "Hash", "Rational", "Complex", "BigDecimal", "URI",
    "Pathname", "JSON", "caller", "binding", "catch", "throw", "exit", "exit!", "abort", "at_exit",
    "gets", "system", "printf", "pp", "srand", "open", "load", "autoload", "method_missing",
    "raise", "fail", "loop", "rand", "sleep"], .anything),
  (["puts", "print", "warn"], .gives .nil),
  (["p"], .prints),
  (["format", "sprintf"], .gives .str)]

def coreBehaviours : CoreClass → Behaviours
  | .integer => integerBehaviours
  | .float => floatBehaviours
  | .str => strBehaviours
  | .sym => symBehaviours
  | .array => arrayBehaviours
  | .hash => hashBehaviours
  | .nil => nilBehaviours
  | .bool => boolBehaviours
  | .object => []

/-- The class whose methods a value answers with. -/
def Datum.coreClass : Datum → CoreClass
  | .nil => .nil
  | .bool _ => .bool
  | .int _ => .integer
  | .float _ => .float
  | .sym => .sym
  | .str _ => .str
  | .array _ _ => .array
  | .hash _ _ => .hash
  | .object _ | .classObject _ | .range _ _ | .rational _ | .foreign _ => .object

/-- The behaviour of a method, and whether it is private. -/
def behaviourOf (cls : CoreClass) (name : String) : Option (Behaviour × Bool) :=
  ((methodNamed (coreBehaviours cls) name).or (methodNamed objectBehaviours name)).map (·, false)
    |>.or ((methodNamed kernelBehaviours name).map (·, true))

/-- What a call of a core method can return. -/
def CoreCall.Returns (P : Protocols) (call : CoreCall) (w : Datum) : Prop :=
  ∃ b hidden, behaviourOf call.receiver.coreClass call.name = some (b, hidden) ∧
    (hidden = true → call.onSelf = true) ∧ b.Returns P call w

end Ruby

end Itaruby
