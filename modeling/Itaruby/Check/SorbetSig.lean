import Itaruby.Check.Types
import Itaruby.Walker.Source
import Mathlib.Data.List.TakeWhile

/-!
The scanner of the return type of a Sorbet signature.
-/

set_option autoImplicit false
set_option relaxedAutoImplicit false

namespace Itaruby.SorbetSig

/-! ### The scanner -/

/-- What follows `start` in the text. -/
def afterStart : Text → Text → Option Text
  | [], text => some text
  | c :: start, d :: text => if c = d then afterStart start text else none
  | _ :: _, [] => none

/-- What stands before `last`, the last character of the text. -/
def beforeLast (last : Char) (text : Text) : Option Text :=
  if text.getLast? = some last then some text.dropLast else none

def stripBrackets (opener closer : Char) (s name : Text) : Option Text :=
  ((afterStart name s).map Text.trimStart).bind fun rest ↦
    (afterStart [opener] rest).bind (beforeLast closer)

def stripCall (s name : Text) : Option Text := stripBrackets '(' ')' s name

def stripIndex (s name : Text) : Option Text := stripBrackets '[' ']' s name

def isOpener (c : Char) : Bool := c == '(' || c == '[' || c == '{'

def isCloser (c : Char) : Bool := c == ')' || c == ']' || c == '}'

/-- The parts of what follows the start of a part, which is kept in reverse. -/
def partsFrom (sep : Char) (depth : ℤ) (part : Text) : Text → List Text
  | [] => [Text.trim part.reverse]
  | c :: rest =>
    if isOpener c then partsFrom sep (depth + 1) (c :: part) rest
    else if isCloser c then partsFrom sep (depth - 1) (c :: part) rest
    else if c = sep ∧ depth = 0 then Text.trim part.reverse :: partsFrom sep depth [] rest
    else partsFrom sep depth (c :: part) rest

def splitTopLevel (s : Text) (sep : Char) : List Text :=
  (partsFrom sep 0 [] s).filter (· ≠ [])

def scalarTy (s : Text) : Option Ty :=
  if s = "Integer".toList then some .int
  else if s = "Float".toList then some .float
  else if s = "String".toList then some .str
  else if s = "Symbol".toList then some .sym
  else if s ∈ ["T::Boolean".toList, "TrueClass".toList, "FalseClass".toList] then some .bool
  else if s = "NilClass".toList then some .nil
  else none

/-- The types inside the brackets are read by `parse`. -/
def compoundTyLeaf (parse : Text → Ty) (s : Text) : Option Ty :=
  match stripCall s "T.nilable".toList with
  | some inner => some ((parse inner).join .nil)
  | none =>
    match stripIndex s "T::Array".toList with
    | some inner => some (.array (parse inner))
    | none =>
      match stripIndex s "T::Hash".toList with
      | some inner =>
        some (match splitTopLevel inner ',' with
          | [k, v] => .hash (parse k) (parse v)
          | _ => .unknown)
      | none =>
        (stripCall s "T.any".toList).bind fun inner ↦
          match (splitTopLevel inner ',').map parse with
          | [] => none
          | first :: tys => some (tys.foldl Ty.join first)

/-- The text without the blanks around it and a leading `::`. -/
def bare (expr : Text) : Text :=
  let s := Text.trim expr
  Text.trim ((afterStart "::".toList s).getD s)

/-- `parse_ty_leaf`, as far as the depth allows. -/
def parseTyLeafTo (resolve : Text → Option Ty) : ℕ → Text → Ty
  | 0, _ => .unknown
  | depth + 1, expr =>
    let s := bare expr
    ((scalarTy s).or ((compoundTyLeaf (parseTyLeafTo resolve depth) s).or (resolve s))).getD
      .unknown

/-- Every bracket is shorter than the text it stands in. -/
def parseTyLeaf (resolve : Text → Option Ty) (expr : Text) : Ty :=
  parseTyLeafTo resolve (expr.length + 1) expr

def sorbetRetTy (expr : Text) : Ty := parseTyLeaf (fun _ ↦ none) expr

def resolveRetTy (resolveConst : Text → Option ClassId) : Option Text → Ty
  | none => .unknown
  | some expr => parseTyLeaf (fun name ↦ (resolveConst name).map .instanceOf) expr

example : sorbetRetTy "T.nilable(T::Hash[Symbol, Foo])".toList =
    .union [.hash .sym .unknown, .nil] := by
  decide

/-! ### What the scanner takes a text for -/

/-- A name, a form with the text between its brackets, or anything else. -/
inductive Form
  | scalar (ty : Ty)
  | nilable (inner : Text)
  | array (inner : Text)
  | hash (inner : Text)
  | any (inner : Text)
  | leaf

def form (s : Text) : Form :=
  match scalarTy s with
  | some ty => .scalar ty
  | none =>
    match stripCall s "T.nilable".toList with
    | some inner => .nilable inner
    | none =>
      match stripIndex s "T::Array".toList with
      | some inner => .array inner
      | none =>
        match stripIndex s "T::Hash".toList with
        | some inner => .hash inner
        | none =>
          match stripCall s "T.any".toList with
          | some inner => .any inner
          | none => .leaf

/-- The texts that are read for the type of the form. -/
def Form.parts : Form → List Text
  | .scalar _ | .leaf => []
  | .nilable inner | .array inner => [inner]
  | .hash inner =>
    match splitTopLevel inner ',' with
    | [k, v] => [k, v]
    | _ => []
  | .any inner => splitTopLevel inner ','

def Form.ty (parse : Text → Ty) (resolved : Option Ty) : Form → Ty
  | .scalar ty => ty
  | .nilable inner => (parse inner).join .nil
  | .array inner => .array (parse inner)
  | .hash inner =>
    match splitTopLevel inner ',' with
    | [k, v] => .hash (parse k) (parse v)
    | _ => .unknown
  | .any inner =>
    match (splitTopLevel inner ',').map parse with
    | [] => resolved.getD .unknown
    | first :: tys => tys.foldl Ty.join first
  | .leaf => resolved.getD .unknown

theorem parseTyLeafTo_succ (resolve : Text → Option Ty) (depth : ℕ) (expr : Text) :
    parseTyLeafTo resolve (depth + 1) expr =
      (form (bare expr)).ty (parseTyLeafTo resolve depth) (resolve (bare expr)) := by
  unfold form
  rw [parseTyLeafTo]
  cases scalarTy (bare expr) with
  | some ty => rfl
  | none =>
    unfold compoundTyLeaf
    cases stripCall (bare expr) "T.nilable".toList with
    | some inner => rfl
    | none =>
      cases stripIndex (bare expr) "T::Array".toList with
      | some inner => rfl
      | none =>
        cases stripIndex (bare expr) "T::Hash".toList with
        | some inner => rfl
        | none =>
          cases stripCall (bare expr) "T.any".toList with
          | none => rfl
          | some inner =>
            simp only [Form.ty, Option.bind_some, Option.none_or]
            cases (splitTopLevel inner ',').map (parseTyLeafTo resolve depth) with
            | nil => rfl
            | cons first tys => rfl

/-! ### Brackets around a text -/

/-- The text is the name, blanks, and what stands in brackets. -/
def Enclosed (opener closer : Char) (name s inner : Text) : Prop :=
  ∃ gap, (∀ c ∈ gap, Text.isWhiteSpace c = true) ∧ s = name ++ gap ++ opener :: inner ++ [closer]

theorem afterStart_eq_some_iff {start text rest : Text} :
    afterStart start text = some rest ↔ text = start ++ rest := by
  induction start generalizing text with
  | nil => exact Option.some_inj
  | cons c start ih =>
    cases text with
    | nil => simp [afterStart]
    | cons d text =>
      rw [afterStart, List.cons_append, List.cons_eq_cons]
      by_cases hcd : c = d
      · rw [if_pos hcd, ih]
        simp [hcd]
      · rw [if_neg hcd]
        simp [Ne.symm hcd]

theorem beforeLast_eq_some_iff {last : Char} {text init : Text} :
    beforeLast last text = some init ↔ text = init ++ [last] := by
  unfold beforeLast
  constructor
  · intro h
    obtain ⟨hlast, hinit⟩ := Option.ite_none_right_eq_some.mp h
    rw [← Option.some.inj hinit]
    exact (List.dropLast_append_getLast? _ hlast).symm
  · rintro rfl
    rw [List.getLast?_concat, if_pos rfl, List.dropLast_concat]

theorem trimStart_eq_cons_iff {c : Char} (hc : Text.isWhiteSpace c = false) {text rest : Text} :
    Text.trimStart text = c :: rest ↔
      ∃ gap, (∀ d ∈ gap, Text.isWhiteSpace d = true) ∧ text = gap ++ c :: rest := by
  constructor
  · intro h
    have hsplit := List.takeWhile_append_dropWhile (p := Text.isWhiteSpace) (l := text)
    have hdrop : text.dropWhile Text.isWhiteSpace = c :: rest := h
    rw [hdrop] at hsplit
    exact ⟨_, fun d hd ↦ List.mem_takeWhile_imp hd, hsplit.symm⟩
  · rintro ⟨gap, hgap, rfl⟩
    unfold Text.trimStart
    rw [List.dropWhile_append_of_pos hgap, List.dropWhile_cons_of_neg (by simp [hc])]

theorem stripBrackets_eq_some_iff {opener closer : Char} {s name inner : Text}
    (hopener : Text.isWhiteSpace opener = false) :
    stripBrackets opener closer s name = some inner ↔ Enclosed opener closer name s inner := by
  unfold stripBrackets
  simp only [Option.bind_eq_some_iff, Option.map_eq_some_iff, afterStart_eq_some_iff,
    beforeLast_eq_some_iff]
  constructor
  · rintro ⟨_, ⟨rest, rfl, hrest⟩, _, hopen, rfl⟩
    obtain ⟨gap, hgap, rfl⟩ := (trimStart_eq_cons_iff hopener).mp (hrest.trans hopen)
    exact ⟨gap, hgap, by simp⟩
  · rintro ⟨gap, hgap, rfl⟩
    refine ⟨opener :: (inner ++ [closer]), ⟨gap ++ opener :: (inner ++ [closer]), by simp, ?_⟩,
      inner ++ [closer], rfl, rfl⟩
    exact (trimStart_eq_cons_iff hopener).mpr ⟨gap, hgap, rfl⟩

theorem stripCall_eq_some_iff {s name inner : Text} :
    stripCall s name = some inner ↔ Enclosed '(' ')' name s inner :=
  stripBrackets_eq_some_iff (by decide)

theorem stripIndex_eq_some_iff {s name inner : Text} :
    stripIndex s name = some inner ↔ Enclosed '[' ']' name s inner :=
  stripBrackets_eq_some_iff (by decide)

/-! ### What is in brackets is shorter -/

theorem Enclosed.length_lt {opener closer : Char} {name s inner : Text}
    (h : Enclosed opener closer name s inner) : inner.length < s.length := by
  obtain ⟨gap, -, rfl⟩ := h
  simp
  omega

theorem length_trim_le (text : Text) : (Text.trim text).length ≤ text.length := by
  unfold Text.trim Text.trimEnd
  rw [List.length_reverse]
  refine (List.dropWhile_sublist _).length_le.trans ?_
  rw [List.length_reverse]
  exact (List.dropWhile_sublist _).length_le

theorem length_bare_le (expr : Text) : (bare expr).length ≤ expr.length := by
  refine (length_trim_le _).trans (le_trans ?_ (length_trim_le expr))
  cases hstart : afterStart "::".toList (Text.trim expr) with
  | none => exact le_rfl
  | some rest =>
    rw [afterStart_eq_some_iff.mp hstart]
    exact (List.suffix_append _ _).length_le

theorem length_partsFrom {sep : Char} {depth : ℤ} {part text p : Text}
    (h : p ∈ partsFrom sep depth part text) : p.length ≤ part.length + text.length := by
  induction text generalizing depth part with
  | nil =>
    rw [List.mem_singleton.mp h]
    simpa using length_trim_le part.reverse
  | cons c rest ih =>
    have hlonger : ∀ depth, p ∈ partsFrom sep depth (c :: part) rest →
        p.length ≤ part.length + (c :: rest).length := by
      intro depth hmem
      have hlength := ih hmem
      rw [List.length_cons] at hlength ⊢
      omega
    rw [partsFrom] at h
    split_ifs at h
    · exact hlonger _ h
    · exact hlonger _ h
    · rcases List.mem_cons.mp h with rfl | hmem
      · have htrim := length_trim_le part.reverse
        rw [List.length_reverse] at htrim
        omega
      · have hlength := ih hmem
        rw [List.length_nil] at hlength
        rw [List.length_cons]
        omega
    · exact hlonger _ h

theorem length_splitTopLevel {s p : Text} {sep : Char} (h : p ∈ splitTopLevel s sep) :
    p.length ≤ s.length := by
  simpa using length_partsFrom (List.mem_of_mem_filter h)

/-- How the form of a text comes about. -/
theorem form_cases (s : Text) :
    (∃ ty, form s = .scalar ty ∧ scalarTy s = some ty) ∨
    (∃ inner, form s = .nilable inner ∧ Enclosed '(' ')' "T.nilable".toList s inner) ∨
    (∃ inner, form s = .array inner ∧ Enclosed '[' ']' "T::Array".toList s inner) ∨
    (∃ inner, form s = .hash inner ∧ Enclosed '[' ']' "T::Hash".toList s inner) ∨
    (∃ inner, form s = .any inner ∧ Enclosed '(' ')' "T.any".toList s inner) ∨
    (form s = .leaf ∧ scalarTy s = none ∧
      ∀ inner, ¬ Enclosed '(' ')' "T.nilable".toList s inner ∧
        ¬ Enclosed '[' ']' "T::Array".toList s inner ∧
        ¬ Enclosed '[' ']' "T::Hash".toList s inner ∧
        ¬ Enclosed '(' ')' "T.any".toList s inner) := by
  simp only [← stripCall_eq_some_iff, ← stripIndex_eq_some_iff]
  unfold form
  cases scalarTy s with
  | some ty => exact .inl ⟨ty, rfl, rfl⟩
  | none =>
    cases stripCall s "T.nilable".toList with
    | some inner => exact .inr (.inl ⟨inner, rfl, rfl⟩)
    | none =>
      cases stripIndex s "T::Array".toList with
      | some inner => exact .inr (.inr (.inl ⟨inner, rfl, rfl⟩))
      | none =>
        cases stripIndex s "T::Hash".toList with
        | some inner => exact .inr (.inr (.inr (.inl ⟨inner, rfl, rfl⟩)))
        | none =>
          cases stripCall s "T.any".toList with
          | some inner => exact .inr (.inr (.inr (.inr (.inl ⟨inner, rfl, rfl⟩))))
          | none => simp

theorem length_part {s p : Text} (h : p ∈ (form s).parts) : p.length < s.length := by
  rcases form_cases s with ⟨ty, heq, -⟩ | ⟨inner, heq, hin⟩ | ⟨inner, heq, hin⟩ |
    ⟨inner, heq, hin⟩ | ⟨inner, heq, hin⟩ | ⟨heq, -⟩
  · rw [heq] at h
    cases h
  · rw [heq] at h
    exact List.mem_singleton.mp h ▸ hin.length_lt
  · rw [heq] at h
    exact List.mem_singleton.mp h ▸ hin.length_lt
  · rw [heq] at h
    have hmem : p ∈ splitTopLevel inner ',' := by
      simp only [Form.parts] at h
      split at h
      next hparts => exact hparts ▸ h
      next => cases h
    exact (length_splitTopLevel hmem).trans_lt hin.length_lt
  · rw [heq] at h
    exact (length_splitTopLevel h).trans_lt hin.length_lt
  · rw [heq] at h
    cases h

/-! ### The scanner by its forms -/

theorem Form.ty_congr {f : Form} {parse parse' : Text → Ty} (resolved : Option Ty)
    (h : ∀ p ∈ f.parts, parse p = parse' p) : f.ty parse resolved = f.ty parse' resolved := by
  cases f with
  | scalar | leaf => rfl
  | nilable inner => exact congrArg (Ty.join · .nil) (h inner List.mem_cons_self)
  | array inner => exact congrArg Ty.array (h inner List.mem_cons_self)
  | hash inner =>
    simp only [Form.parts, Form.ty] at h ⊢
    split
    next k v hparts =>
      rw [hparts] at h
      rw [h k (by simp), h v (by simp)]
    next => rfl
  | any inner =>
    have hmap : (splitTopLevel inner ',').map parse = (splitTopLevel inner ',').map parse' :=
      List.map_congr_left h
    simp only [Form.ty, hmap]

/-- The depth is never short. -/
theorem parseTyLeafTo_stable (resolve : Text → Option Ty) :
    ∀ {n m : ℕ} {expr : Text}, expr.length < n → expr.length < m →
      parseTyLeafTo resolve n expr = parseTyLeafTo resolve m expr
  | 0, _, _, h, _ => absurd h (Nat.not_lt_zero _)
  | _, 0, _, _, h => absurd h (Nat.not_lt_zero _)
  | n + 1, m + 1, expr, hn, hm => by
    rw [parseTyLeafTo_succ, parseTyLeafTo_succ]
    refine Form.ty_congr _ fun p hp ↦ ?_
    have hlength := length_part hp
    have hbare := length_bare_le expr
    exact parseTyLeafTo_stable resolve (by omega) (by omega)

theorem parseTyLeaf_eq (resolve : Text → Option Ty) (expr : Text) :
    parseTyLeaf resolve expr =
      (form (bare expr)).ty (parseTyLeaf resolve) (resolve (bare expr)) := by
  unfold parseTyLeaf
  rw [parseTyLeafTo_succ]
  refine Form.ty_congr _ fun p hp ↦ ?_
  have hlength := length_part hp
  have hbare := length_bare_le expr
  exact parseTyLeafTo_stable resolve (by omega) (Nat.lt_succ_self _)

end Itaruby.SorbetSig
