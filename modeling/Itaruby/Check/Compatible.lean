import Itaruby.Check.SigArguments
import Itaruby.Ruby.Objects

/-!
Which arguments the argument check lets pass. A value that an argument type describes and its
parameter type does not is built along the parameter: a list gets one such element for each
array type the parameter offers.
-/

set_option autoImplicit false
set_option relaxedAutoImplicit false

namespace Itaruby

open Ruby

/-! ### Types inside a type -/

namespace Ty

section

variable (P : Ty → Prop)

mutual

/-- The type and every type in it are of a kind. -/
def Throughout : Ty → Prop
  | .array e => P (.array e) ∧ Throughout e
  | .hash k v => P (.hash k v) ∧ Throughout k ∧ Throughout v
  | .union parts => P (.union parts) ∧ ThroughoutAll parts
  | .unknown => P .unknown
  | .nil => P .nil
  | .bool => P .bool
  | .int => P .int
  | .float => P .float
  | .str => P .str
  | .sym => P .sym
  | .instanceOf c => P (.instanceOf c)
  | .classOf c => P (.classOf c)

def ThroughoutAll : List Ty → Prop
  | [] => True
  | ty :: rest => Throughout ty ∧ ThroughoutAll rest

end

end

mutual

/-- The members of a union and of the unions in it. -/
def alternatives : Ty → List Ty
  | .union parts => alternativesAll parts
  | ty => [ty]

def alternativesAll : List Ty → List Ty
  | [] => []
  | ty :: rest => alternatives ty ++ alternativesAll rest

end

variable {P : Ty → Prop}

theorem throughoutAll_iff {tys : List Ty} : ThroughoutAll P tys ↔ ∀ ty ∈ tys, ty.Throughout P := by
  induction tys with
  | nil => simp [ThroughoutAll]
  | cons ty rest ih => simp [ThroughoutAll, ih]

theorem Throughout.here {ty : Ty} (h : ty.Throughout P) : P ty := by
  cases ty with
  | array | hash | union => exact h.1
  | _ => exact h

mutual

theorem Throughout.alternative : ∀ {ty : Ty}, ty.Throughout P →
    ∀ q ∈ ty.alternatives, q.Throughout P
  | .union parts, h => by
    rw [alternatives]
    exact ThroughoutAll.alternative h.2
  | .unknown, h | .nil, h | .bool, h | .int, h | .float, h | .str, h | .sym, h
  | .instanceOf _, h | .classOf _, h | .array _, h | .hash _ _, h => by
    intro q hq
    simp only [alternatives, List.mem_singleton] at hq
    exact hq ▸ h

theorem ThroughoutAll.alternative : ∀ {tys : List Ty}, ThroughoutAll P tys →
    ∀ q ∈ alternativesAll tys, q.Throughout P
  | [], _ => by simp [alternativesAll]
  | ty :: rest, h => by
    intro q hq
    rw [alternativesAll, List.mem_append] at hq
    rcases hq with hq | hq
    · exact Throughout.alternative h.1 q hq
    · exact ThroughoutAll.alternative h.2 q hq

end

mutual

theorem ne_union_of_mem_alternatives : ∀ {ty q : Ty}, q ∈ ty.alternatives →
    ∀ parts, q ≠ .union parts
  | .union parts, q, hq => by
    rw [alternatives] at hq
    exact ne_union_of_mem_alternativesAll hq
  | .unknown, q, hq | .nil, q, hq | .bool, q, hq | .int, q, hq | .float, q, hq | .str, q, hq
  | .sym, q, hq | .instanceOf _, q, hq | .classOf _, q, hq | .array _, q, hq
  | .hash _ _, q, hq => by
    intro parts
    simp only [alternatives, List.mem_singleton] at hq
    simp [hq]

theorem ne_union_of_mem_alternativesAll : ∀ {tys : List Ty} {q : Ty}, q ∈ alternativesAll tys →
    ∀ parts, q ≠ .union parts
  | [], q, hq => by simp [alternativesAll] at hq
  | ty :: rest, q, hq => by
    rw [alternativesAll, List.mem_append] at hq
    rcases hq with hq | hq
    · exact ne_union_of_mem_alternatives hq
    · exact ne_union_of_mem_alternativesAll hq

end

mutual

theorem describes_iff_alternative {A : Ancestry} {v : Datum} : ∀ {ty : Ty},
    ty.Describes A v ↔ ∃ q ∈ ty.alternatives, q.Describes A v
  | .union parts => by
    rw [alternatives, Describes]
    exact anyDescribes_iff_alternative
  | .unknown | .nil | .bool | .int | .float | .str | .sym | .instanceOf _ | .classOf _
  | .array _ | .hash _ _ => by simp [alternatives]

theorem anyDescribes_iff_alternative {A : Ancestry} {v : Datum} : ∀ {tys : List Ty},
    AnyDescribes A tys v ↔ ∃ q ∈ alternativesAll tys, q.Describes A v
  | [] => by simp [alternativesAll, AnyDescribes]
  | ty :: rest => by
    rw [alternativesAll, AnyDescribes, anyDescribes_iff_alternative, describes_iff_alternative]
    simp [or_and_right, exists_or]

end

end Ty

mutual

theorem anyAlternative_iff {passes : Ty → Bool} : ∀ {p : Ty}, anyAlternative passes p = true ↔
    ∃ q ∈ p.alternatives, q = .unknown ∨ passes q = true
  | .union parts => by
    rw [anyAlternative, Ty.alternatives]
    exact anyAlternatives_iff
  | .unknown | .nil | .bool | .int | .float | .str | .sym | .instanceOf _ | .classOf _
  | .array _ | .hash _ _ => by simp [anyAlternative, Ty.alternatives]

theorem anyAlternatives_iff {passes : Ty → Bool} : ∀ {tys : List Ty},
    anyAlternatives passes tys = true ↔
      ∃ q ∈ Ty.alternativesAll tys, q = .unknown ∨ passes q = true
  | [] => by simp [anyAlternatives, Ty.alternativesAll]
  | ty :: rest => by
    rw [anyAlternatives, Ty.alternativesAll, Bool.or_eq_true, anyAlternatives_iff,
      anyAlternative_iff]
    simp [or_and_right, exists_or]

end

/-! ### Arguments and parameters -/

section

variable (A : Ancestry) (ancestors : ClassId → List ClassId × Bool)

/-- An argument type with a value: every union in it has a member, and the objects of the
classes it names are plain ones whose ancestors the index lists, where it says that it does. -/
def Ty.Argument : Ty → Prop :=
  Ty.Throughout fun
    | .union parts => parts ≠ []
    | .instanceOf c => A.shape c = .plain ∧
      ∀ d, A.inherits c d → instancePasses ancestors c d = true
    | _ => True

/-- A parameter type of a signature, whose classes are not those of core values or of class
objects. -/
def Ty.Parameter : Ty → Prop :=
  Ty.Throughout fun
    | .instanceOf c => (∀ name, ¬ A.core name c) ∧ ∀ d, ¬ A.ofClass d c
    | .classOf _ => False
    | _ => True

variable {A ancestors}

theorem Ty.Parameter.alternative {p q : Ty} (hp : p.Parameter A) (hq : q ∈ p.alternatives) :
    q.Parameter A := Ty.Throughout.alternative hp q hq

/-- The type of a value that has nothing in it. -/
def Ruby.Datum.scalarTy : Datum → Option Ty
  | .nil => some .nil
  | .bool _ => some .bool
  | .int _ => some .int
  | .float _ => some .float
  | .str none => some .str
  | .sym => some .sym
  | _ => none

section Alternatives

variable {q : Ty} (hp : q.Parameter A) (hq : ∀ parts, q ≠ .union parts)

include hp hq

theorem scalar_described {v : Datum} {s : Ty} (hs : v.scalarTy = some s)
    (h : q.Describes A v) : q = .unknown ∨ q = s := by
  cases q with
  | unknown => exact .inl rfl
  | union parts => exact absurd rfl (hq parts)
  | instanceOf c =>
    cases v with
    | str cls =>
      cases cls with
      | none => exact absurd h (hp.1 _)
      | some => cases hs
    | nil | bool | int | float | sym => exact absurd h (hp.1 _)
    | _ => cases hs
  | classOf c =>
    obtain ⟨d, rfl, -⟩ := h
    cases hs
  | array e =>
    obtain ⟨cls, l, rfl, -⟩ := h
    cases hs
  | hash k w =>
    obtain ⟨cls, l, rfl, -⟩ := h
    cases hs
  | nil | sym =>
    cases (h : v = _)
    exact .inr (Option.some.inj hs)
  | bool | int | float =>
    obtain ⟨x, rfl⟩ := h
    exact .inr (Option.some.inj hs)
  | str =>
    obtain ⟨cls, rfl⟩ := h
    cases cls with
    | none => exact .inr (Option.some.inj hs)
    | some => cases hs

theorem array_described {elements : List Datum} (h : q.Describes A (.array none elements)) :
    q = .unknown ∨ ∃ e, q = .array e ∧ ∀ x ∈ elements, e.Describes A x := by
  cases q with
  | unknown => exact .inl rfl
  | union parts => exact absurd rfl (hq parts)
  | instanceOf c => exact absurd h (hp.1 _)
  | array e => exact .inr ⟨e, rfl, Ty.describes_array.mp h⟩
  | _ => simp [Ty.Describes] at h

theorem hash_described {entries : List (Datum × Datum)}
    (h : q.Describes A (.hash none entries)) :
    q = .unknown ∨ ∃ k w, q = .hash k w ∧
      ∀ x ∈ entries, k.Describes A x.1 ∧ w.Describes A x.2 := by
  cases q with
  | unknown => exact .inl rfl
  | union parts => exact absurd rfl (hq parts)
  | instanceOf c => exact absurd h (hp.1 _)
  | hash k w => exact .inr ⟨k, w, rfl, Ty.describes_hash.mp h⟩
  | _ => simp [Ty.Describes] at h

theorem object_described {c : ClassId} (h : q.Describes A (.object c)) :
    q = .unknown ∨ ∃ d, q = .instanceOf d ∧ A.inherits c d := by
  cases q with
  | unknown => exact .inl rfl
  | union parts => exact absurd rfl (hq parts)
  | instanceOf d => exact .inr ⟨d, rfl, h.2⟩
  | _ => simp [Ty.Describes] at h

theorem classObject_described {c : ClassId} (h : q.Describes A (.classObject c)) :
    q = .unknown := by
  cases q with
  | unknown => rfl
  | union parts => exact absurd rfl (hq parts)
  | instanceOf d => exact absurd h (hp.2 _)
  | classOf d => exact absurd hp id
  | _ => simp [Ty.Describes] at h

end Alternatives

/-! ### A value the parameter does not take -/

theorem exists_described : ∀ {a : Ty}, a.Argument A ancestors → ∃ v, a.Describes A v
  | .unknown, _ | .nil, _ => ⟨.nil, by simp [Ty.Describes]⟩
  | .bool, _ => ⟨.bool true, true, rfl⟩
  | .int, _ => ⟨.int 0, 0, rfl⟩
  | .float, _ => ⟨.float .nan, .nan, rfl⟩
  | .str, _ => ⟨.str none, none, rfl⟩
  | .sym, _ => ⟨.sym, rfl⟩
  | .instanceOf c, h => ⟨.object c, h.1, A.inherits_refl c⟩
  | .classOf c, _ => ⟨.classObject c, c, rfl, A.inherits_refl c⟩
  | .array e, _ => ⟨.array none [], by simp⟩
  | .hash k w, _ => ⟨.hash none [], by simp⟩
  | .union [], h => absurd rfl h.1
  | .union (part :: _), h =>
    have ⟨v, hv⟩ := exists_described (a := part) h.2.1
    ⟨v, .inl hv⟩

/-- One good thing for each that needs one, bad for it. -/
theorem exists_list {α β : Type} {Good : β → Prop} {Needs : α → Prop} {Bad : α → β → Prop}
    {qs : List α} (h : ∀ q ∈ qs, Needs q → ∃ x, Good x ∧ Bad q x) :
    ∃ l : List β, (∀ x ∈ l, Good x) ∧ ∀ q ∈ qs, Needs q → ∃ x ∈ l, Bad q x := by
  induction qs with
  | nil => exact ⟨[], by simp, by simp⟩
  | cons q rest ih =>
    obtain ⟨l, hgood, hbad⟩ := ih fun r hr ↦ h r (List.mem_cons_of_mem _ hr)
    by_cases hneeds : Needs q
    · obtain ⟨x, hx, hqx⟩ := h q List.mem_cons_self hneeds
      refine ⟨x :: l, by simpa [hx] using hgood, ?_⟩
      intro r hr hr'
      rcases List.mem_cons.mp hr with rfl | hr
      · exact ⟨x, List.mem_cons_self, hqx⟩
      · obtain ⟨y, hy, hry⟩ := hbad r hr hr'
        exact ⟨y, List.mem_cons_of_mem _ hy, hry⟩
    · refine ⟨l, hgood, ?_⟩
      intro r hr hr'
      rcases List.mem_cons.mp hr with rfl | hr
      · exact absurd hr' hneeds
      · exact hbad r hr hr'

theorem scalar_missed {v : Datum} {s p : Ty} (hs : v.scalarTy = some s) (hp : p.Parameter A)
    (h : anyAlternative (s == ·) p = false) : ¬ p.Describes A v := by
  intro hv
  obtain ⟨q, hq, hv⟩ := Ty.describes_iff_alternative.mp hv
  have hpass : ¬ (q = .unknown ∨ (s == q) = true) := fun hpass ↦
    absurd (anyAlternative_iff.mpr ⟨q, hq, hpass⟩) (by simp [h])
  rcases scalar_described (hp.alternative hq) (Ty.ne_union_of_mem_alternatives hq) hs hv with
    rfl | rfl
  · exact hpass (.inl rfl)
  · exact hpass (.inr (by simp))

/-- The parameter offers nothing, or only what does not pass. -/
theorem not_passes {passes : Ty → Bool} {p q : Ty} (h : anyAlternative passes p = false)
    (hq : q ∈ p.alternatives) : q ≠ .unknown ∧ passes q = false := by
  have hnot : ¬ (q = .unknown ∨ passes q = true) := fun hpass ↦
    absurd (anyAlternative_iff.mpr ⟨q, hq, hpass⟩) (by simp [h])
  rwa [not_or, Bool.not_eq_true] at hnot

mutual

theorem exists_missed : ∀ {a p : Ty}, a.Argument A ancestors → p.Parameter A →
    compatible ancestors a p = false → ∃ v, a.Describes A v ∧ ¬ p.Describes A v
  | .unknown, p, _, _, h => by simp [compatible] at h
  | .nil, p, _, hp, h => ⟨.nil, rfl, scalar_missed rfl hp h⟩
  | .bool, p, _, hp, h => ⟨.bool true, ⟨true, rfl⟩, scalar_missed rfl hp h⟩
  | .int, p, _, hp, h => ⟨.int 0, ⟨0, rfl⟩, scalar_missed rfl hp h⟩
  | .float, p, _, hp, h => ⟨.float .nan, ⟨.nan, rfl⟩, scalar_missed rfl hp h⟩
  | .str, p, _, hp, h => ⟨.str none, ⟨none, rfl⟩, scalar_missed rfl hp h⟩
  | .sym, p, _, hp, h => ⟨.sym, rfl, scalar_missed rfl hp h⟩
  | .instanceOf c, p, ha, hp, h => by
    refine ⟨.object c, ⟨ha.1, A.inherits_refl c⟩, fun hv ↦ ?_⟩
    obtain ⟨q, hq, hv⟩ := Ty.describes_iff_alternative.mp hv
    obtain ⟨hunknown, hpass⟩ := not_passes h hq
    rcases object_described (hp.alternative hq) (Ty.ne_union_of_mem_alternatives hq) hv with
      rfl | ⟨d, rfl, hd⟩
    · exact hunknown rfl
    · exact absurd (ha.2 d hd) (by simpa using hpass)
  | .classOf c, p, _, hp, h => by
    refine ⟨.classObject c, ⟨c, rfl, A.inherits_refl c⟩, fun hv ↦ ?_⟩
    obtain ⟨q, hq, hv⟩ := Ty.describes_iff_alternative.mp hv
    exact (not_passes h hq).1
      (classObject_described (hp.alternative hq) (Ty.ne_union_of_mem_alternatives hq) hv)
  | .array e, p, ha, hp, h => by
    obtain ⟨l, hgood, hbad⟩ : ∃ l, (∀ x ∈ l, e.Describes A x) ∧ ∀ q ∈ p.alternatives,
        (∃ e', q = .array e') → ∃ x ∈ l, ∀ e', q = .array e' → ¬ e'.Describes A x := by
      apply exists_list
      rintro q hq ⟨e', rfl⟩
      obtain ⟨x, hx, hx'⟩ := exists_missed ha.2 (hp.alternative hq).2 (not_passes h hq).2
      refine ⟨x, hx, fun e'' heq ↦ ?_⟩
      cases heq
      exact hx'
    refine ⟨.array none l, Ty.describes_array.mpr hgood, fun hv ↦ ?_⟩
    obtain ⟨q, hq, hv⟩ := Ty.describes_iff_alternative.mp hv
    rcases array_described (hp.alternative hq) (Ty.ne_union_of_mem_alternatives hq) hv with
      rfl | ⟨e', rfl, he'⟩
    · exact (not_passes h hq).1 rfl
    · obtain ⟨x, hx, hmissed⟩ := hbad _ hq ⟨e', rfl⟩
      exact hmissed e' rfl (he' x hx)
  | .hash k w, p, ha, hp, h => by
    obtain ⟨l, hgood, hbad⟩ : ∃ l : List (Datum × Datum),
        (∀ x ∈ l, k.Describes A x.1 ∧ w.Describes A x.2) ∧ ∀ q ∈ p.alternatives,
          (∃ k' w', q = .hash k' w') →
            ∃ x ∈ l, ∀ k' w', q = .hash k' w' → ¬ (k'.Describes A x.1 ∧ w'.Describes A x.2) := by
      apply exists_list
      rintro q hq ⟨k', w', rfl⟩
      have hparam := (hp.alternative hq).2
      have hpass : (compatible ancestors k k' && compatible ancestors w w') = false :=
        (not_passes h hq).2
      rcases Bool.and_eq_false_iff.mp hpass with hkey | hvalue
      · obtain ⟨x, hx, hx'⟩ := exists_missed ha.2.1 hparam.1 hkey
        obtain ⟨y, hy⟩ := exists_described ha.2.2
        refine ⟨(x, y), ⟨hx, hy⟩, fun k'' w'' heq ↦ ?_⟩
        cases heq
        exact fun hboth ↦ hx' hboth.1
      · obtain ⟨x, hx⟩ := exists_described ha.2.1
        obtain ⟨y, hy, hy'⟩ := exists_missed ha.2.2 hparam.2 hvalue
        refine ⟨(x, y), ⟨hx, hy⟩, fun k'' w'' heq ↦ ?_⟩
        cases heq
        exact fun hboth ↦ hy' hboth.2
    refine ⟨.hash none l, Ty.describes_hash.mpr hgood, fun hv ↦ ?_⟩
    obtain ⟨q, hq, hv⟩ := Ty.describes_iff_alternative.mp hv
    rcases hash_described (hp.alternative hq) (Ty.ne_union_of_mem_alternatives hq) hv with
      rfl | ⟨k', w', rfl, hkw⟩
    · exact (not_passes h hq).1 rfl
    · obtain ⟨x, hx, hmissed⟩ := hbad _ hq ⟨k', w', rfl⟩
      exact hmissed k' w' rfl (hkw x hx)
  | .union parts, p, ha, hp, h => by
    rw [compatible, Bool.or_eq_false_iff] at h
    obtain ⟨a, hmem, v, hv, hv'⟩ := exists_missedAll (Ty.throughoutAll_iff.mp ha.2) hp h.2
    exact ⟨v, Ty.anyDescribes_iff.mpr ⟨a, hmem, hv⟩, hv'⟩

theorem exists_missedAll : ∀ {as : List Ty} {p : Ty}, (∀ a ∈ as, a.Argument A ancestors) →
    p.Parameter A → compatibleAll ancestors as p = false →
      ∃ a ∈ as, ∃ v, a.Describes A v ∧ ¬ p.Describes A v
  | [], p, _, _, h => by simp [compatibleAll] at h
  | a :: rest, p, ha, hp, h => by
    rw [compatibleAll, Bool.and_eq_false_iff] at h
    rcases h with h | h
    · obtain ⟨v, hv⟩ := exists_missed (ha a List.mem_cons_self) hp h
      exact ⟨a, List.mem_cons_self, v, hv⟩
    · obtain ⟨b, hb, hv⟩ := exists_missedAll (fun b hb ↦ ha b (List.mem_cons_of_mem _ hb)) hp h
      exact ⟨b, List.mem_cons_of_mem _ hb, hv⟩

end

end

/-! ### The types signatures give -/

namespace Ty

variable {P : Ty → Prop}

theorem Throughout.parts {ty : Ty} (h : ty.Throughout P) :
    ∀ part ∈ ty.parts, part.Throughout P := by
  cases ty with
  | union parts => exact throughoutAll_iff.mp h.2
  | _ => simpa [Ty.parts] using h

theorem Throughout.join {a b : Ty} (hunion : ∀ parts, P (.union parts)) (hunknown : P .unknown)
    (ha : a.Throughout P) (hb : b.Throughout P) : (a.join b).Throughout P := by
  have hmem : ∀ ty ∈ (a.parts ++ b.parts).foldl pushUnique [], ty.Throughout P := by
    intro ty hty
    rcases (mem_foldl_pushUnique _ _).mp hty with hty | hty
    · cases hty
    · rcases List.mem_append.mp hty with hty | hty
      · exact ha.parts ty hty
      · exact hb.parts ty hty
  unfold Ty.join
  split_ifs
  · exact ha
  · exact hunknown
  · split
    · next t heq => exact hmem t (by simp [heq])
    · exact ⟨hunion _, throughoutAll_iff.mpr hmem⟩

theorem Throughout.foldl_join {tys : List Ty} {ty : Ty} (hunion : ∀ parts, P (.union parts))
    (hunknown : P .unknown) (hty : ty.Throughout P) (htys : ∀ t ∈ tys, t.Throughout P) :
    (tys.foldl Ty.join ty).Throughout P := by
  induction tys generalizing ty with
  | nil => exact hty
  | cons t rest ih =>
    apply ih
    · exact hty.join hunion hunknown (htys t List.mem_cons_self)
    · exact fun u hu ↦ htys u (List.mem_cons_of_mem _ hu)

end Ty

section

variable {A : Ancestry} {resolve : ConstPath → Option ClassId} {selfClass : Option ClassId}
  {typeParams : List String}

theorem genericTy_parameter {name : String} {args : List Ty} (h : ∀ a ∈ args, a.Parameter A) :
    (genericTy name args).Parameter A := by
  unfold genericTy
  split
  · split_ifs
    · exact ⟨trivial, h _ List.mem_cons_self⟩
    · trivial
  · split_ifs
    · exact ⟨trivial, h _ List.mem_cons_self, h _ (List.mem_cons_of_mem _ List.mem_cons_self)⟩
    · trivial
  · trivial

theorem simpleTy_parameter {name : String}
    (hresolve : ∀ path c, resolve path = some c → (Ty.instanceOf c).Parameter A)
    (hself : ∀ c, selfClass = some c → (Ty.instanceOf c).Parameter A) :
    (simpleTy resolve selfClass typeParams name).Parameter A := by
  have hbuiltin : ∀ ty, builtinTy selfClass name = some ty → ty.Parameter A := by
    intro ty hty
    unfold builtinTy at hty
    split_ifs at hty
    all_goals
      obtain rfl := Option.some.inj hty
      first
        | trivial
        | cases hc : selfClass with
          | none => trivial
          | some c => exact hself c hc
  unfold simpleTy
  split_ifs
  · trivial
  · split
    · next ty hty => exact hbuiltin ty hty
    · cases hc : resolve (constPathOf name) with
      | none => trivial
      | some c => exact hresolve _ c hc

mutual

/-- What a signature gives is the type of a parameter, where no name in it is a class of core
values or of class objects. -/
theorem rbsToTy_parameter
    (hresolve : ∀ path c, resolve path = some c → (Ty.instanceOf c).Parameter A)
    (hself : ∀ c, selfClass = some c → (Ty.instanceOf c).Parameter A) : ∀ {t : RbsTy},
    (rbsToTy resolve selfClass typeParams t).Parameter A
  | .simple _ => by
    rw [rbsToTy]
    exact simpleTy_parameter hresolve hself
  | .generic _ _ => by
    rw [rbsToTy]
    exact genericTy_parameter (rbsToTys_parameter hresolve hself)
  | .nilable _ => by
    rw [rbsToTy]
    exact Ty.Throughout.join (fun _ ↦ trivial) trivial (rbsToTy_parameter hresolve hself) trivial
  | .union parts => by
    rw [rbsToTy]
    have hparts : ∀ ty ∈ rbsToTys resolve selfClass typeParams parts, ty.Parameter A :=
      rbsToTys_parameter hresolve hself
    unfold reduceJoin
    split
    · trivial
    · next t ts heq =>
      rw [heq] at hparts
      exact Ty.Throughout.foldl_join (fun _ ↦ trivial) trivial (hparts t List.mem_cons_self)
        fun u hu ↦ hparts u (List.mem_cons_of_mem _ hu)

theorem rbsToTys_parameter
    (hresolve : ∀ path c, resolve path = some c → (Ty.instanceOf c).Parameter A)
    (hself : ∀ c, selfClass = some c → (Ty.instanceOf c).Parameter A) : ∀ {ts : List RbsTy},
    ∀ ty ∈ rbsToTys resolve selfClass typeParams ts, ty.Parameter A
  | [] => by simp [rbsToTys]
  | t :: ts => by
    rw [rbsToTys, List.forall_mem_cons]
    exact ⟨rbsToTy_parameter hresolve hself, rbsToTys_parameter hresolve hself⟩

end

end

/-! ### Arguments of two types -/

/-- No class has another among its ancestors, and no core class was reopened. -/
def Ruby.Ancestry.apart : Ancestry where
  inherits c d := c = d
  core _ _ := False
  ofClass _ _ := False
  shape _ := .plain
  inherits_refl _ := rfl
  inherits_trans := Eq.trans
  core_trans h _ := h
  ofClass_trans h _ := h

end Itaruby
