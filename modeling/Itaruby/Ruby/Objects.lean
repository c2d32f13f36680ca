import Itaruby.Check.Reading
import Mathlib.Data.Rat.Defs

/-!
Ruby values with what is in them, the classes they are instances of, and the values that a type
of the checker describes.
-/

set_option autoImplicit false
set_option relaxedAutoImplicit false

namespace Itaruby

namespace Ruby

/-- A float, without the error of its rounding. -/
inductive Real
  | nan
  | infinite (negative : Bool)
  | finite (q : ℚ)
  deriving DecidableEq, Repr

/-- Core classes that no type of the checker is for. -/
inductive Foreign
  | enumerator
  | complex
  | proc
  | regexp
  | other
  deriving DecidableEq, Repr

def Foreign.name : Foreign → String
  | .enumerator => "Enumerator"
  | .complex => "Complex"
  | .proc => "Proc"
  | .regexp => "Regexp"
  | .other => "Object"

/-- A value, as it is when a call begins. A string, an array or a hash may be of a subclass
that the project defines. -/
inductive Datum
  | nil
  | bool (b : Bool)
  | int (n : ℤ)
  | float (x : Real)
  | sym
  | str (of : Option ClassId)
  | array (of : Option ClassId) (elements : List Datum)
  | hash (of : Option ClassId) (entries : List (Datum × Datum))
  | object (c : ClassId)
  | classObject (c : ClassId)
  | range (low high : Datum)
  | rational (q : ℚ)
  | foreign (cls : Foreign)

namespace Datum

def truthy : Datum → Bool
  | .nil | .bool false => false
  | _ => true

/-- The core class that makes the value what it is. -/
def coreName : Datum → String
  | .nil => "NilClass"
  | .bool true => "TrueClass"
  | .bool false => "FalseClass"
  | .int _ => "Integer"
  | .float _ => "Float"
  | .sym => "Symbol"
  | .str _ => "String"
  | .array _ _ => "Array"
  | .hash _ _ => "Hash"
  | .object _ => "Object"
  | .classObject _ => "Class"
  | .range _ _ => "Range"
  | .rational _ => "Rational"
  | .foreign cls => cls.name

end Datum

/-- What the objects of a class are made as. -/
inductive Shape
  | plain
  | string
  | array
  | hash
  deriving DecidableEq, Repr

/-- The ancestors that Ruby gives at run time, as far as they are classes of the project. The
project may have reopened a core class, or mixed a module of its own into one. -/
structure Ancestry where
  inherits : ClassId → ClassId → Prop
  /-- of the values of a core class -/
  core : String → ClassId → Prop
  /-- of class objects -/
  ofClass : ClassId → ClassId → Prop
  shape : ClassId → Shape
  inherits_refl : ∀ c, inherits c c
  inherits_trans : ∀ {c d e}, inherits c d → inherits d e → inherits c e
  core_trans : ∀ {name c d}, core name c → inherits c d → core name d
  ofClass_trans : ∀ {c d e}, ofClass c d → inherits d e → ofClass c e

namespace Ancestry

variable (A : Ancestry)

/-- `is_a?` of a class of the project. -/
def IsA : Datum → ClassId → Prop
  | .object d, c => A.shape d = .plain ∧ A.inherits d c
  | .classObject d, c => A.ofClass d c
  | .str (some d), c => A.shape d = .string ∧ A.inherits d c
  | .array (some d) _, c => A.shape d = .array ∧ A.inherits d c
  | .hash (some d) _, c => A.shape d = .hash ∧ A.inherits d c
  | v, c => A.core v.coreName c

variable {A}

theorem IsA.trans {v : Datum} {c d : ClassId} (h : A.IsA v c) (hd : A.inherits c d) :
    A.IsA v d := by
  cases v with
  | object => exact ⟨h.1, A.inherits_trans h.2 hd⟩
  | classObject => exact A.ofClass_trans h hd
  | str of =>
    cases of with
    | none => exact A.core_trans h hd
    | some => exact ⟨h.1, A.inherits_trans h.2 hd⟩
  | array of =>
    cases of with
    | none => exact A.core_trans h hd
    | some => exact ⟨h.1, A.inherits_trans h.2 hd⟩
  | hash of =>
    cases of with
    | none => exact A.core_trans h hd
    | some => exact ⟨h.1, A.inherits_trans h.2 hd⟩
  | _ => exact A.core_trans h hd

end Ancestry

end Ruby

open Ruby

namespace Ty

variable (A : Ancestry)

mutual

/-- The value is one of those the type stands for, with everything in it. -/
def Describes : Ty → Datum → Prop
  | .unknown, _ => True
  | .nil, v => v = .nil
  | .bool, v => ∃ b, v = .bool b
  | .int, v => ∃ n, v = .int n
  | .float, v => ∃ x, v = .float x
  | .str, v => ∃ cls, v = .str cls
  | .sym, v => v = .sym
  | .instanceOf c, v => A.IsA v c
  | .classOf c, v => ∃ d, v = .classObject d ∧ A.inherits d c
  | .array e, v => ∃ cls elements, v = .array cls elements ∧ ∀ x ∈ elements, Describes e x
  | .hash k w, v =>
    ∃ cls entries, v = .hash cls entries ∧ ∀ p ∈ entries, Describes k p.1 ∧ Describes w p.2
  | .union parts, v => AnyDescribes parts v

def AnyDescribes : List Ty → Datum → Prop
  | [], _ => False
  | ty :: rest, v => Describes ty v ∨ AnyDescribes rest v

end

variable {A} {v : Datum}

theorem anyDescribes_iff {tys : List Ty} :
    AnyDescribes A tys v ↔ ∃ ty ∈ tys, ty.Describes A v := by
  induction tys with
  | nil => simp [AnyDescribes]
  | cons ty rest ih => simp [AnyDescribes, ih]

variable (A v) in
theorem reading_describes : Reading fun ty ↦ ty.Describes A v where
  unknown := trivial
  union _ := anyDescribes_iff

@[simp] theorem describes_unknown : Ty.unknown.Describes A v := trivial

@[simp] theorem describes_array {e : Ty} {cls : Option ClassId} {elements : List Datum} :
    (Ty.array e).Describes A (.array cls elements) ↔ ∀ x ∈ elements, e.Describes A x := by
  constructor
  · rintro ⟨_, _, heq, h⟩
    cases heq
    exact h
  · exact fun h ↦ ⟨cls, elements, rfl, h⟩

@[simp] theorem describes_hash {k w : Ty} {cls : Option ClassId}
    {entries : List (Datum × Datum)} :
    (Ty.hash k w).Describes A (.hash cls entries) ↔
      ∀ p ∈ entries, k.Describes A p.1 ∧ w.Describes A p.2 := by
  constructor
  · rintro ⟨_, _, heq, h⟩
    cases heq
    exact h
  · exact fun h ↦ ⟨cls, entries, rfl, h⟩

end Ty

end Itaruby
