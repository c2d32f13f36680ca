import Itaruby.Check.Reading

/-!
Ruby values by the class they are of, and the values that a type of the checker covers. The
elements of a container are not looked at: containers change in place, and a type says of one
only that it is one.
-/

set_option autoImplicit false
set_option relaxedAutoImplicit false

namespace Itaruby

inductive Value
  | nil
  | bool (b : Bool)
  | int
  | float
  | str
  | sym
  | array
  | hash
  | object (c : ClassId)
  | classObject (c : ClassId)
  /-- ranges, regular expressions, procs -/
  | other
  deriving DecidableEq, Repr

def Value.truthy : Value → Bool
  | .nil | .bool false => false
  | _ => true

namespace Ty

variable (inherits : ClassId → ClassId → Prop)

mutual

/-- The value is an object of the class that the type names. -/
def Covers : Ty → Value → Prop
  | .unknown, _ => True
  | .nil, v => v = .nil
  | .bool, v => ∃ b, v = .bool b
  | .int, v => v = .int
  | .float, v => v = .float
  | .str, v => v = .str
  | .sym, v => v = .sym
  | .instanceOf c, v => ∃ d, v = .object d ∧ inherits d c
  | .classOf c, v => ∃ d, v = .classObject d ∧ inherits d c
  | .array _, v => v = .array
  | .hash _ _, v => v = .hash
  | .union parts, v => AnyCovers parts v

def AnyCovers : List Ty → Value → Prop
  | [], _ => False
  | ty :: rest, v => Covers ty v ∨ AnyCovers rest v

end

variable {inherits}

theorem anyCovers_iff {tys : List Ty} {v : Value} :
    AnyCovers inherits tys v ↔ ∃ ty ∈ tys, ty.Covers inherits v := by
  induction tys with
  | nil => simp [AnyCovers]
  | cons ty rest ih => simp [AnyCovers, ih]

theorem reading_covers (v : Value) : Reading fun ty ↦ ty.Covers inherits v where
  unknown := trivial
  union _ := anyCovers_iff

theorem covers_join {a b : Ty} {v : Value} (h : a.Covers inherits v ∨ b.Covers inherits v) :
    (a.join b).Covers inherits v := (reading_covers v).join h

theorem covers_foldl_join {tys : List Ty} {ty : Ty} {v : Value}
    (h : ty.Covers inherits v ∨ ∃ t ∈ tys, t.Covers inherits v) :
    (tys.foldl join ty).Covers inherits v := (reading_covers v).foldl_join h

end Ty

section Narrowing

variable {inherits : ClassId → ClassId → Prop} {v : Value}

theorem covers_stripNil {ty : Ty} (h : ty.Covers inherits v) (hv : v ≠ .nil) :
    (stripNil ty).Covers inherits v := (Ty.reading_covers v).stripNil h hv

theorem covers_of_tyClassEq {a b : Ty} (hab : tyClassEq a b = true) (h : a.Covers inherits v) :
    b.Covers inherits v := by
  cases a <;> cases b <;> simp_all [tyClassEq, Ty.Covers]

theorem covers_eliminateUnionMember {cur tested narrowed : Ty}
    (h : eliminateUnionMember cur tested = some narrowed) (hcur : cur.Covers inherits v)
    (htested : ¬ tested.Covers inherits v) : narrowed.Covers inherits v := by
  obtain ⟨part, hpart, hcovers⟩ := (Ty.reading_covers v).parts.mp hcur
  have hother : tyClassEq part tested = false :=
    Bool.eq_false_iff.mpr fun heq ↦ htested (covers_of_tyClassEq heq hcovers)
  exact ((Ty.reading_covers v).eliminate_iff h).mpr ⟨part, hpart, hother, hcovers⟩

end Narrowing

end Itaruby
