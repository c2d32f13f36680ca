import Itaruby.Ruby.CoreBehaviour

/-!
Operators of numbers. What they return follows the operand: for each of them, the operands with
which it stays a value of one kind.
-/

set_option autoImplicit false
set_option relaxedAutoImplicit false

namespace Itaruby

namespace Ruby

/-- The type of the values of a kind. -/
def Kind.ty : Kind → Ty
  | .int => .int
  | .float => .float
  | .str => .str
  | .sym => .sym
  | .bool => .bool
  | .nil => .nil

theorem Kind.describes_ty {A : Ancestry} {kind : Kind} {w : Datum} :
    kind.ty.Describes A w ↔ kind.Of w := by
  cases kind <;> simp [Kind.ty, Kind.Of, Ty.Describes]

namespace Behaviour

section Numbers

variable (P : Protocols)

/-- The operand leaves the class of the receiver as it is, or the operator raises. -/
def ArithmeticFits (kind : Kind) (call : CoreCall) : Prop :=
  match call.receiver, call.args with
  | .int _, [.rational q] => Divides call ∧ q = 0
  | .int _, [.float _] => False
  | .int _, [.int _] | .float _, [.int _] | .float _, [.rational _] | .float _, [.float _] => True
  | _, [.foreign .complex] => call.name = "%"
  | v, [a] => ∀ w, P.coerced call.name v a w → kind.Of w
  | _, _ => True

def PowerFits (kind : Kind) (call : CoreCall) : Prop :=
  match call.receiver, call.args with
  | .int n, [.int m] => m < 0 → n = 0
  | .int _, [.float _] => False
  | .int n, [.rational q] => n = 0 ∧ q < 0
  | .float _, [.int _] => True
  | .float x, [.float y] => x.Negative → y.Integral
  | .float x, [.rational q] => x.Negative → q.den = 1
  | _, [.foreign .complex] => False
  | v, [a] => ∀ w, P.coerced call.name v a w → kind.Of w
  | _, _ => True

/-- There is an order, and an operand of another kind says it by an integer. -/
def CompareFits (call : CoreCall) : Prop :=
  match call.args with
  | [a] =>
    match call.receiver.real, a.real with
    | some x, some y => x ≠ .nan ∧ y ≠ .nan
    | _, _ => a ≠ .foreign .complex ∧ ∀ w, P.coerced call.name call.receiver a w → Kind.int.Of w
  | _ => True

def RelationFits (call : CoreCall) : Prop :=
  match call.args with
  | [a] =>
    match call.receiver.real, a.real with
    | some _, some _ => True
    | _, _ => a ≠ .foreign .complex → ∀ w, w ≠ .nil → P.coerced call.name call.receiver a w →
        Kind.bool.Of w
  | _ => True

/-- A bound that takes the receiver's place is an integer. -/
def ClampFits (call : CoreCall) : Prop :=
  ∀ low high, bounds call.args = some (low, high) → Clamps P low high →
    (Under P call.receiver low → Kind.int.Of low) ∧
      (¬ Under P call.receiver low → Over P call.receiver high → Kind.int.Of high)

/-- No digits behind the point are asked for. -/
def RoundingFits (call : CoreCall) : Prop :=
  match call.args with
  | [] | [.nil] | [.hash _ _] => True
  | [a] => ∀ digits, P.count a = some digits → digits ≤ 0
  | _ => True

variable {P} {call : CoreCall}

theorem arithmetic_int_iff {n : ℤ} (h : call.receiver = .int n) :
    (∀ w, Arithmetic P call w → Kind.int.Of w) ↔ ArithmeticFits P .int call := by
  obtain ⟨name, _, onSelf, args, block⟩ := call
  cases h
  rcases args with _ | ⟨a, _ | ⟨b, rest⟩⟩
  · simp [Arithmetic, ArithmeticFits]
  · cases a with
    | float y =>
      simp only [Arithmetic, ArithmeticFits, iff_false]
      intro h
      obtain ⟨m, hm⟩ := h (.float y) ⟨y, rfl⟩
      cases hm
    | rational q =>
      constructor
      · intro h
        by_contra hraise
        obtain ⟨m, hm⟩ := h (.rational q) ⟨fun hd hq ↦ hraise ⟨hd, hq⟩, q, rfl⟩
        cases hm
      · intro ⟨hd, hq⟩ w hw
        exact absurd hq (hw.1 hd)
    | foreign cls => cases cls <;> simp [Arithmetic, ArithmeticFits, Kind.Of]
    | _ => simp [Arithmetic, ArithmeticFits, Kind.Of]
  · simp [Arithmetic, ArithmeticFits]

theorem arithmetic_float_iff {x : Real} (h : call.receiver = .float x) :
    (∀ w, Arithmetic P call w → Kind.float.Of w) ↔ ArithmeticFits P .float call := by
  obtain ⟨name, _, onSelf, args, block⟩ := call
  cases h
  rcases args with _ | ⟨a, _ | ⟨b, rest⟩⟩
  · simp [Arithmetic, ArithmeticFits]
  · cases a with
    | foreign cls => cases cls <;> simp [Arithmetic, ArithmeticFits, Kind.Of]
    | _ => simp [Arithmetic, ArithmeticFits, Kind.Of]
  · simp [Arithmetic, ArithmeticFits]

theorem power_int_iff {n : ℤ} (h : call.receiver = .int n) :
    (∀ w, Power P call w → Kind.int.Of w) ↔ PowerFits P .int call := by
  obtain ⟨name, _, onSelf, args, block⟩ := call
  cases h
  rcases args with _ | ⟨a, _ | ⟨b, rest⟩⟩
  · simp [Power, PowerFits]
  · cases a with
    | int m =>
      constructor
      · intro h hm
        by_contra hn
        obtain ⟨k, hk⟩ := h (.rational 0) (.inr ⟨hm, hn, 0, rfl⟩)
        cases hk
      · intro h w hw
        rcases hw with ⟨-, hw⟩ | ⟨hm, hn, -⟩
        · exact hw
        · exact absurd (h hm) hn
    | float y =>
      simp only [PowerFits, iff_false]
      intro h
      by_cases hc : n < 0 ∧ ¬ y.Integral
      · obtain ⟨k, hk⟩ := h (.foreign .complex) (.inl ⟨hc.1, hc.2, rfl⟩)
        cases hk
      · obtain ⟨k, hk⟩ := h (.float y) (.inr ⟨hc, y, rfl⟩)
        cases hk
    | rational q =>
      constructor
      · intro h
        by_contra hraise
        obtain ⟨k, hk⟩ := h (.rational 0)
          ⟨fun hn ↦ Rat.not_lt.mp fun hq ↦ hraise ⟨hn, hq⟩, .inl ⟨0, rfl⟩⟩
        cases hk
      · intro ⟨hn, hq⟩ w hw
        exact absurd (hw.1 hn) (Rat.not_le.mpr hq)
    | foreign cls => cases cls <;> simp [Power, PowerFits, Kind.Of]
    | _ => simp [Power, PowerFits, Kind.Of]
  · simp [Power, PowerFits]

theorem power_float_iff {x : Real} (h : call.receiver = .float x) :
    (∀ w, Power P call w → Kind.float.Of w) ↔ PowerFits P .float call := by
  obtain ⟨name, _, onSelf, args, block⟩ := call
  cases h
  have hcomplex : ¬ Kind.float.Of (.foreign .complex) := by
    rintro ⟨y, hy⟩
    cases hy
  rcases args with _ | ⟨a, _ | ⟨b, rest⟩⟩
  · simp [Power, PowerFits]
  · cases a with
    | float y =>
      constructor
      · intro h hx
        by_contra hy
        exact hcomplex (h _ (.inl ⟨hx, hy, rfl⟩))
      · intro h w hw
        rcases hw with ⟨hx, hy, -⟩ | ⟨-, hw⟩
        · exact absurd (h hx) hy
        · exact hw
    | rational q =>
      constructor
      · intro h hx
        by_contra hq
        exact hcomplex (h _ (.inl ⟨hx, hq, rfl⟩))
      · intro h w hw
        rcases hw with ⟨hx, hq, -⟩ | ⟨-, hw⟩
        · exact absurd (h hx) hq
        · exact hw
    | foreign cls => cases cls <;> simp [Power, PowerFits, Kind.Of]
    | _ => simp [Power, PowerFits, Kind.Of]
  · simp [Power, PowerFits]

theorem compare_iff : (∀ w, Compare P call w → Kind.int.Of w) ↔ CompareFits P call := by
  obtain ⟨name, v, onSelf, args, block⟩ := call
  have hnil : ¬ Kind.int.Of .nil := by
    rintro ⟨n, hn⟩
    cases hn
  rcases args with _ | ⟨a, _ | ⟨b, rest⟩⟩
  · simp [Compare, CompareFits]
  · have hcoerced :
        (∀ w, ((a = .foreign .complex ∧ (w = .nil ∨ Kind.int.Of w)) ∨
          (a ≠ .foreign .complex ∧ P.coerced name v a w)) → Kind.int.Of w) ↔
        a ≠ .foreign .complex ∧ ∀ w, P.coerced name v a w → Kind.int.Of w := by
      constructor
      · intro h
        have ha : a ≠ .foreign .complex := fun ha ↦ hnil (h .nil (.inl ⟨ha, .inl rfl⟩))
        exact ⟨ha, fun w hw ↦ h w (.inr ⟨ha, hw⟩)⟩
      · intro ⟨ha, h⟩ w hw
        rcases hw with ⟨hcomplex, -⟩ | ⟨-, hw⟩
        · exact absurd hcomplex ha
        · exact h w hw
    cases hv : v.real with
    | none => simpa only [Compare, CompareFits, hv] using hcoerced
    | some x =>
      cases ha : a.real with
      | none => simpa only [Compare, CompareFits, hv, ha] using hcoerced
      | some y =>
        simp only [Compare, CompareFits, hv, ha]
        constructor
        · intro h
          exact not_or.mp fun hnan ↦ hnil (h .nil (.inl ⟨hnan, rfl⟩))
        · intro h w hw
          rcases hw with ⟨hnan, -⟩ | ⟨-, hw⟩
          · exact absurd hnan (not_or.mpr h)
          · exact hw
  · simp [Compare, CompareFits]

theorem relation_iff : (∀ w, Relation P call w → Kind.bool.Of w) ↔ RelationFits P call := by
  obtain ⟨name, v, onSelf, args, block⟩ := call
  rcases args with _ | ⟨a, _ | ⟨b, rest⟩⟩
  · simp [Relation, RelationFits]
  · have hcoerced :
        (∀ w, (a ≠ .foreign .complex ∧ w ≠ .nil ∧ P.coerced name v a w) → Kind.bool.Of w) ↔
        (a ≠ .foreign .complex → ∀ w, w ≠ .nil → P.coerced name v a w → Kind.bool.Of w) := by
      constructor
      · exact fun h ha w hne hw ↦ h w ⟨ha, hne, hw⟩
      · exact fun h w hw ↦ h hw.1 w hw.2.1 hw.2.2
    cases hv : v.real with
    | none => simpa only [Relation, RelationFits, hv] using hcoerced
    | some x =>
      cases ha : a.real with
      | none => simpa only [Relation, RelationFits, hv, ha] using hcoerced
      | some y => simp [Relation, RelationFits, hv, ha]
  · simp [Relation, RelationFits]

theorem clamp_iff {n : ℤ} (h : call.receiver = .int n) :
    (∀ w, Clamp P call w → Kind.int.Of w) ↔ ClampFits P call := by
  constructor
  · intro hall low high hbounds hclamps
    constructor
    · exact fun hunder ↦ hall low ⟨low, high, hbounds, hclamps, .inl ⟨hunder, rfl⟩⟩
    · exact fun hunder hover ↦
        hall high ⟨low, high, hbounds, hclamps, .inr (.inl ⟨hunder, hover, rfl⟩)⟩
  · rintro hfits w ⟨low, high, hbounds, hclamps, ⟨hunder, rfl⟩ | ⟨hunder, hover, rfl⟩ | ⟨-, -, rfl⟩⟩
    · exact (hfits _ _ hbounds hclamps).1 hunder
    · exact (hfits _ _ hbounds hclamps).2 hunder hover
    · exact ⟨n, h⟩

theorem rounding_iff : (∀ w, Rounding P call w → Kind.int.Of w) ↔ RoundingFits P call := by
  obtain ⟨name, v, onSelf, args, block⟩ := call
  have hdigits (a : Datum) :
      (∀ w, (∃ digits, P.count a = some digits ∧
        ((digits ≤ 0 ∧ Kind.int.Of w) ∨ (0 < digits ∧ Kind.float.Of w))) → Kind.int.Of w) ↔
      ∀ digits, P.count a = some digits → digits ≤ 0 := by
    constructor
    · intro h digits hcount
      by_contra hpos
      obtain ⟨n, hn⟩ := h (.float .nan) ⟨digits, hcount, .inr ⟨not_le.mp hpos, .nan, rfl⟩⟩
      cases hn
    · rintro h w ⟨digits, hcount, ⟨-, hw⟩ | ⟨hpos, -⟩⟩
      · exact hw
      · exact absurd (h digits hcount) (not_le.mpr hpos)
  rcases args with _ | ⟨a, _ | ⟨b, rest⟩⟩
  · simp [Rounding, RoundingFits]
  · cases a with
    | nil | hash => simp [Rounding, RoundingFits]
    | _ => exact hdigits _
  · simp [Rounding, RoundingFits]

end Numbers

end Behaviour

end Ruby

end Itaruby
