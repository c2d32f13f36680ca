import Itaruby.Check.NewCalls

/-!
The table of core methods: for each core class the names the checker knows, how many arguments
they take, and a shape of what they return. A name that is not in the table is not known not to
exist.
-/

set_option autoImplicit false
set_option relaxedAutoImplicit false

namespace Itaruby

inductive CoreClass
  | integer
  | float
  | str
  | sym
  | array
  | hash
  | nil
  | bool
  | object
  deriving DecidableEq, Repr

inductive CoreRet
  | int
  | float
  | str
  | sym
  | bool
  | nil
  | selfSame
  | elem
  | keyArray
  | valArray
  | strArray
  | unknown
  deriving DecidableEq, Repr

structure CoreMethod where
  minArgs : ℕ
  maxArgs : Option ℕ
  ret : CoreRet
  deriving DecidableEq, Repr

/-- The arms of a `match` on a method name. -/
abbrev CoreMethods := List (List String × CoreMethod)

def methodNamed {α : Type} (rows : List (List String × α)) (name : String) : Option α :=
  (rows.find? fun row ↦ decide (name ∈ row.1)).map Prod.snd

theorem methodNamed_eq_some {α : Type} {rows : List (List String × α)} {name : String} {a : α}
    (h : methodNamed rows name = some a) : ∃ row ∈ rows, name ∈ row.1 ∧ row.2 = a := by
  obtain ⟨row, hrow, rfl⟩ := Option.map_eq_some_iff.mp h
  exact ⟨row, List.mem_of_find?_eq_some hrow, by simpa using List.find?_some hrow, rfl⟩

/-- `integer_method` -/
def integerMethods : CoreMethods := [
  (["+", "-", "*", "/", "%", "**"], ⟨1, some 1, .int⟩),
  (["to_s"], ⟨0, some 1, .str⟩),
  (["to_i"], ⟨0, some 0, .int⟩),
  (["to_f"], ⟨0, some 0, .float⟩),
  (["abs"], ⟨0, some 0, .selfSame⟩),
  (["zero?", "positive?", "negative?", "even?", "odd?"], ⟨0, some 0, .bool⟩),
  (["times"], ⟨0, some 0, .unknown⟩),
  (["succ", "pred"], ⟨0, some 0, .selfSame⟩),
  (["clamp"], ⟨1, some 2, .selfSame⟩),
  (["<=>"], ⟨1, some 1, .int⟩),
  (["==", "!=", "<", "<=", ">", ">="], ⟨1, some 1, .bool⟩)]

/-- `float_method` -/
def floatMethods : CoreMethods := [
  (["+", "-", "*", "/", "%", "**"], ⟨1, some 1, .float⟩),
  (["to_i"], ⟨0, some 0, .int⟩),
  (["to_s"], ⟨0, some 0, .str⟩),
  (["round", "ceil", "floor"], ⟨0, some 1, .int⟩),
  (["abs"], ⟨0, some 0, .selfSame⟩),
  (["zero?", "positive?", "negative?", "nan?"], ⟨0, some 0, .bool⟩),
  (["<=>"], ⟨1, some 1, .int⟩),
  (["==", "!=", "<", "<=", ">", ">="], ⟨1, some 1, .bool⟩)]

/-- `str_method` -/
def strMethods : CoreMethods := [
  (["+"], ⟨1, some 1, .str⟩),
  (["length", "size"], ⟨0, some 0, .int⟩),
  (["upcase", "downcase", "capitalize", "strip", "lstrip", "rstrip", "chomp", "chop", "reverse"],
    ⟨0, some 0, .selfSame⟩),
  (["empty?"], ⟨0, some 0, .bool⟩),
  (["include?", "start_with?", "end_with?"], ⟨1, none, .bool⟩),
  (["split"], ⟨0, some 2, .strArray⟩),
  (["gsub", "sub"], ⟨1, some 2, .str⟩),
  (["to_i"], ⟨0, some 1, .int⟩),
  (["to_f"], ⟨0, some 0, .float⟩),
  (["to_s"], ⟨0, some 0, .selfSame⟩),
  (["to_sym"], ⟨0, some 0, .sym⟩),
  (["[]"], ⟨1, some 2, .unknown⟩),
  (["*"], ⟨1, some 1, .str⟩),
  (["==", "!="], ⟨1, some 1, .bool⟩),
  (["chars"], ⟨0, some 0, .strArray⟩),
  (["freeze"], ⟨0, some 0, .selfSame⟩)]

/-- `sym_method` -/
def symMethods : CoreMethods := [
  (["to_s"], ⟨0, some 0, .str⟩),
  (["to_sym"], ⟨0, some 0, .selfSame⟩),
  (["to_proc"], ⟨0, some 0, .unknown⟩),
  (["length", "size"], ⟨0, some 0, .int⟩),
  (["=="], ⟨1, some 1, .bool⟩)]

/-- `array_method` -/
def arrayMethods : CoreMethods := [
  (["<<", "push"], ⟨0, none, .selfSame⟩),
  (["pop", "shift", "first", "last", "min", "max"], ⟨0, some 1, .elem⟩),
  (["map", "collect", "select", "filter", "reject", "flat_map"], ⟨0, some 0, .unknown⟩),
  (["each", "each_with_index"], ⟨0, some 0, .selfSame⟩),
  (["length", "size", "count"], ⟨0, some 1, .int⟩),
  (["empty?"], ⟨0, some 0, .bool⟩),
  (["include?"], ⟨1, some 1, .bool⟩),
  (["join"], ⟨0, some 1, .str⟩),
  (["sort", "sort_by", "uniq", "flatten", "compact", "reverse", "shuffle"],
    ⟨0, some 1, .selfSame⟩),
  (["sum"], ⟨0, some 1, .unknown⟩),
  (["index", "find_index"], ⟨0, some 1, .unknown⟩),
  (["concat"], ⟨0, none, .selfSame⟩),
  (["+", "-"], ⟨1, some 1, .selfSame⟩),
  (["[]"], ⟨1, some 2, .unknown⟩),
  (["=="], ⟨1, some 1, .bool⟩),
  (["any?", "all?", "none?"], ⟨0, some 1, .bool⟩),
  (["to_a"], ⟨0, some 0, .selfSame⟩)]

/-- `hash_method` -/
def hashMethods : CoreMethods := [
  (["[]"], ⟨1, some 1, .unknown⟩),
  (["[]="], ⟨2, some 2, .unknown⟩),
  (["fetch"], ⟨1, some 2, .unknown⟩),
  (["key?", "has_key?", "include?", "member?", "value?", "has_value?"], ⟨1, some 1, .bool⟩),
  (["keys"], ⟨0, some 0, .keyArray⟩),
  (["values"], ⟨0, some 0, .valArray⟩),
  (["length", "size", "count"], ⟨0, some 0, .int⟩),
  (["empty?"], ⟨0, some 0, .bool⟩),
  (["merge"], ⟨0, none, .selfSame⟩),
  (["each", "each_pair"], ⟨0, some 0, .selfSame⟩),
  (["map"], ⟨0, some 0, .unknown⟩),
  (["delete"], ⟨1, some 1, .unknown⟩),
  (["to_h"], ⟨0, some 0, .selfSame⟩),
  (["any?"], ⟨0, some 1, .bool⟩)]

/-- `nil_method` -/
def nilMethods : CoreMethods := [
  (["nil?"], ⟨0, some 0, .bool⟩),
  (["to_s", "inspect"], ⟨0, some 0, .str⟩),
  (["to_a"], ⟨0, some 0, .unknown⟩),
  (["to_i"], ⟨0, some 0, .int⟩)]

/-- `bool_method` -/
def boolMethods : CoreMethods := [
  (["!"], ⟨0, some 0, .bool⟩),
  (["&", "|", "^"], ⟨1, some 1, .bool⟩),
  (["to_s", "inspect"], ⟨0, some 0, .str⟩)]

/-- `object_method` -/
def objectMethods : CoreMethods := [
  (["nil?"], ⟨0, some 0, .bool⟩),
  (["block_given?"], ⟨0, some 0, .bool⟩),
  (["Integer", "String", "Float", "Array", "Hash", "Rational", "Complex", "BigDecimal", "URI",
    "Pathname", "JSON"], ⟨1, some 2, .unknown⟩),
  (["caller", "binding", "catch", "throw", "exit", "exit!", "abort", "at_exit", "gets", "system",
    "printf", "pp", "srand", "open", "load", "autoload", "instance_variable_defined?",
    "instance_variables", "methods", "public_methods", "private_methods", "singleton_class",
    "define_singleton_method", "display", "extend", "instance_exec", "instance_eval",
    "method_missing", "enum_for", "to_enum"], ⟨0, none, .unknown⟩),
  (["is_a?", "kind_of?", "instance_of?"], ⟨1, some 1, .bool⟩),
  (["respond_to?"], ⟨1, some 2, .bool⟩),
  (["tap", "then", "yield_self"], ⟨0, some 0, .unknown⟩),
  (["class"], ⟨0, some 0, .unknown⟩),
  (["freeze", "dup", "clone", "itself"], ⟨0, some 0, .selfSame⟩),
  (["frozen?"], ⟨0, some 0, .bool⟩),
  (["inspect", "to_s"], ⟨0, some 0, .str⟩),
  (["==", "!=", "equal?", "eql?"], ⟨1, some 1, .bool⟩),
  (["hash"], ⟨0, some 0, .int⟩),
  (["object_id"], ⟨0, some 0, .int⟩),
  (["send", "public_send", "__send__"], ⟨1, none, .unknown⟩),
  (["method"], ⟨1, some 1, .unknown⟩),
  (["instance_variable_get"], ⟨1, some 1, .unknown⟩),
  (["instance_variable_set"], ⟨2, some 2, .unknown⟩),
  (["puts", "p", "print", "warn"], ⟨0, none, .nil⟩),
  (["raise", "fail"], ⟨0, some 3, .unknown⟩),
  (["require", "require_relative"], ⟨1, some 1, .bool⟩),
  (["loop"], ⟨0, some 0, .unknown⟩),
  (["rand", "sleep"], ⟨0, some 1, .unknown⟩),
  (["format", "sprintf"], ⟨1, none, .str⟩)]

def coreMethods : CoreClass → CoreMethods
  | .integer => integerMethods
  | .float => floatMethods
  | .str => strMethods
  | .sym => symMethods
  | .array => arrayMethods
  | .hash => hashMethods
  | .nil => nilMethods
  | .bool => boolMethods
  | .object => objectMethods

/-- `core_method` -/
def coreMethod (cls : CoreClass) (name : String) : Option CoreMethod :=
  methodNamed (coreMethods cls) name

/-- `core_class_of` -/
def coreClassOf : Ty → Option CoreClass
  | .int => some .integer
  | .float => some .float
  | .str => some .str
  | .sym => some .sym
  | .array _ => some .array
  | .hash _ _ => some .hash
  | .nil => some .nil
  | .bool => some .bool
  | .instanceOf _ | .classOf _ | .union _ | .unknown => none

/-- The entry that `check_call` takes for a core class: its own, or one of every object. -/
def coreEntry (cls : CoreClass) (name : String) : Option CoreMethod :=
  (coreMethod cls name).or (coreMethod .object name)

/-- `core_ret_to_ty` -/
def coreRetToTy (ret : CoreRet) (recv : Ty) : Ty :=
  match ret with
  | .int => .int
  | .float => .float
  | .str => .str
  | .sym => .sym
  | .bool => .bool
  | .nil => .nil
  | .selfSame => recv
  | .elem =>
    match recv with
    | .array e => e
    | _ => .unknown
  | .keyArray =>
    match recv with
    | .hash k _ => .array k
    | _ => .unknown
  | .valArray =>
    match recv with
    | .hash _ v => .array v
    | _ => .unknown
  | .strArray => .array .str
  | .unknown => .unknown

namespace CoreMethod

variable (m : CoreMethod)

/-- The call is within the arity of the entry. -/
def Accepts (given : ℕ) : Prop := m.minArgs ≤ given ∧ ∀ most, m.maxArgs = some most → given ≤ most

instance (given : ℕ) : Decidable (m.Accepts given) :=
  decidable_of_iff (m.minArgs ≤ given ∧ m.maxArgs.all (decide <| given ≤ ·) = true) <| by
    cases hmost : m.maxArgs with
    | none => simp [Accepts, hmost]
    | some most => simp [Accepts, hmost]

end CoreMethod

/-- `check_core_arity` -/
def checkCoreArity (m : CoreMethod) (name : String) (given : ℕ) (loc : Span) : List Diagnostic :=
  match m.maxArgs with
  | none => []
  | some most =>
    if m.minArgs ≤ given ∧ given ≤ most then []
    else
      let expects :=
        if m.minArgs = most then
          toString m.minArgs ++ " argument" ++ (if m.minArgs = 1 then "" else "s")
        else toString m.minArgs ++ " to " ++ toString most ++ " arguments"
      [{ span := loc, code := "E0102", severity := .error,
         message := "`" ++ name ++ "` expects " ++ expects ++ ", got " ++ toString given }]

end Itaruby
