import Itaruby.Check.SorbetSig
import Itaruby.Library.Brackets
import Mathlib.Data.List.DropRight

/-!
The grammar of return types in Sorbet signatures, and the texts that the scanner reads by it.
-/

set_option autoImplicit false
set_option relaxedAutoImplicit false

namespace Itaruby.SorbetSig

open Brackets (closerOf itemsFrom items)
open scoped Text

/-! ### Arguments -/

def IsBlank (s : Text) : Prop := Text.trim s = []

instance (s : Text) : Decidable (IsBlank s) := inferInstanceAs (Decidable (_ = _))

/-- A comma may stand after the last argument. -/
def arguments (s : Text) : Option (List Text) :=
  (items s).bind fun args ↦
    let args := if args.getLast?.all (IsBlank ·) then args.dropLast else args
    if ∀ arg ∈ args, ¬ IsBlank arg then some args else none

/-- One item. -/
def IsType (s : Text) : Prop := items s = some [s] ∧ ¬ IsBlank s

instance (s : Text) : Decidable (IsType s) := inferInstanceAs (Decidable (_ ∧ _))

/-! ### The grammar -/

/-- The text is none of the forms. -/
def IsLeaf (s : Text) : Prop :=
  scalarTy s = none ∧
    ∀ inner, ¬ Enclosed '(' ')' "T.nilable".toList s inner ∧
      ¬ Enclosed '[' ']' "T::Array".toList s inner ∧
      ¬ Enclosed '[' ']' "T::Hash".toList s inner ∧
      ¬ Enclosed '(' ')' "T.any".toList s inner

/-- What a text means as a type. A leaf that no name resolves is a type that nothing is known of. -/
inductive Denotes (resolve : Text → Option Ty) : Text → Ty → Prop
  | scalar {s : Text} {ty : Ty} (h : scalarTy (bare s) = some ty) : Denotes resolve s ty
  | leaf {s : Text} (hleaf : IsLeaf (bare s)) (htype : IsType (bare s)) :
      Denotes resolve s ((resolve (bare s)).getD .unknown)
  | nilable {s inner : Text} {ty : Ty} (hin : Enclosed '(' ')' "T.nilable".toList (bare s) inner)
      (htype : IsType inner) (h : Denotes resolve inner ty) : Denotes resolve s (ty.join .nil)
  | array {s inner : Text} {ty : Ty} (hin : Enclosed '[' ']' "T::Array".toList (bare s) inner)
      (htype : IsType inner) (h : Denotes resolve inner ty) : Denotes resolve s (.array ty)
  | hash {s inner k v : Text} {key value : Ty}
      (hin : Enclosed '[' ']' "T::Hash".toList (bare s) inner)
      (hargs : arguments inner = some [k, v]) (hk : Denotes resolve k key)
      (hv : Denotes resolve v value) : Denotes resolve s (.hash key value)
  | any {s inner first : Text} {rest : List Text} (meaning : Text → Ty)
      (hin : Enclosed '(' ')' "T.any".toList (bare s) inner)
      (hargs : arguments inner = some (first :: rest))
      (h : ∀ arg ∈ first :: rest, Denotes resolve arg (meaning arg)) :
      Denotes resolve s ((rest.map meaning).foldl Ty.join (meaning first))

/-! ### The texts that the scanner reads right -/

/-- The scanner has a type for the text: no leaf without one comes up through `T.nilable` and
`T.any`. -/
inductive Known (resolve : Text → Option Ty) : Text → Prop
  | scalar {s : Text} {ty : Ty} (h : form (bare s) = .scalar ty) : Known resolve s
  | nilable {s inner : Text} (h : form (bare s) = .nilable inner) (hinner : Known resolve inner) :
      Known resolve s
  | array {s inner : Text} (h : form (bare s) = .array inner) : Known resolve s
  | hash {s inner k v : Text} (h : form (bare s) = .hash inner)
      (hparts : splitTopLevel inner ',' = [k, v]) : Known resolve s
  | any {s inner first : Text} {rest : List Text} (h : form (bare s) = .any inner)
      (hparts : splitTopLevel inner ',' = first :: rest)
      (hall : ∀ part ∈ first :: rest, Known resolve part) : Known resolve s
  | empty {s inner : Text} (h : form (bare s) = .any inner) (hparts : splitTopLevel inner ',' = [])
      (hresolve : (resolve (bare s)).isSome) : Known resolve s
  | leaf {s : Text} (h : form (bare s) = .leaf) (hresolve : (resolve (bare s)).isSome) :
      Known resolve s

/-- The scanner comes to a text when it reads another one. -/
inductive Reads : Text → Text → Prop
  | here (s : Text) : Reads s s
  | inside {s part t : Text} (hpart : part ∈ (form (bare s)).parts) (h : Reads part t) : Reads s t

/-- The bracket that ends the text closes the one after the name, and as many arguments stand
between them as the form has. -/
def Closed (s : Text) : Prop :=
  match form (bare s) with
  | .scalar _ => True
  | .leaf => IsType (bare s)
  | .nilable inner | .array inner => IsType inner
  | .hash inner => ∃ k v, arguments inner = some [k, v]
  | .any inner => ∃ first rest, arguments inner = some (first :: rest)

/-! ### Parts and arguments -/

theorem trim_trim (s : Text) : Text.trim (Text.trim s) = Text.trim s := by
  have hstart : Text.trimStart (Text.trim s) = Text.trim s := by
    unfold Text.trimStart
    rw [List.dropWhile_eq_self_iff]
    intro hpos
    have htrimmed : Text.trim s <+: Text.trimStart s := List.rdropWhile_prefix _ _
    have hstart : 0 < (Text.trimStart s).length := hpos.trans_le htrimmed.length_le
    rw [htrimmed.getElem]
    exact List.dropWhile_get_zero_not _ _ hstart
  unfold Text.trim at hstart ⊢
  rw [hstart]
  exact List.rdropWhile_idempotent _ _

theorem closerOf_eq_none_iff {c : Char} : closerOf c = none ↔ isOpener c = false := by
  unfold closerOf isOpener
  split_ifs <;> simp_all

/-- Where the brackets match, their depth is all there is to know of them. -/
theorem partsFrom_of_itemsFrom {text : Text} : ∀ {stack : List Char} {item : Text}
    {args : List Text}, itemsFrom stack item text = some args →
      partsFrom ',' stack.length item text = args.map Text.trim := by
  induction text with
  | nil =>
    intro stack item args h
    rw [itemsFrom] at h
    obtain ⟨-, hargs⟩ := Option.ite_none_right_eq_some.mp h
    rw [← Option.some.inj hargs]
    rfl
  | cons c rest ih =>
    intro stack item args h
    unfold itemsFrom at h
    rw [partsFrom]
    cases hopen : closerOf c with
    | some closer =>
      rw [hopen] at h
      have hopener : isOpener c = true := by
        by_contra hne
        rw [closerOf_eq_none_iff.mpr (by simpa using hne)] at hopen
        cases hopen
      rw [if_pos hopener]
      exact ih h
    | none =>
      simp only [hopen] at h
      have hopener : ¬ isOpener c = true := by simp [closerOf_eq_none_iff.mp hopen]
      rw [if_neg hopener]
      have hsame : Brackets.isCloser c = isCloser c := rfl
      rw [hsame] at h
      by_cases hcloser : isCloser c = true
      · rw [if_pos hcloser] at h ⊢
        cases stack with
        | nil => cases h
        | cons top stack =>
          have hrest := (Option.ite_none_right_eq_some.mp h).2
          rw [← ih hrest, List.length_cons]
          congr 1
          omega
      · rw [if_neg hcloser] at h ⊢
        by_cases hcomma : c = ',' ∧ stack = []
        · obtain ⟨rfl, rfl⟩ := hcomma
          rw [if_pos ⟨rfl, rfl⟩] at h ⊢
          obtain ⟨args', hargs, rfl⟩ := Option.map_eq_some_iff.mp h
          exact congrArg (Text.trim item.reverse :: ·) (ih hargs)
        · rw [if_neg hcomma] at h
          rw [if_neg (by simpa using hcomma)]
          exact ih h

/-- The parts of the scanner are the arguments without the blanks around them. -/
theorem splitTopLevel_of_arguments {inner : Text} {args : List Text}
    (h : arguments inner = some args) : splitTopLevel inner ',' = args.map Text.trim := by
  obtain ⟨all, hitems, hargs⟩ := Option.bind_eq_some_iff.mp h
  obtain ⟨hnonblank, hsome⟩ := Option.ite_none_right_eq_some.mp hargs
  have hparts : partsFrom ',' 0 [] inner = all.map Text.trim := partsFrom_of_itemsFrom hitems
  rw [Option.some.inj hsome] at hnonblank
  have hkeep : (args.map Text.trim).filter (· ≠ []) = args.map Text.trim := by
    rw [List.filter_eq_self]
    intro part hpart
    obtain ⟨arg, hmem, rfl⟩ := List.mem_map.mp hpart
    exact decide_eq_true (hnonblank arg hmem)
  unfold splitTopLevel
  rw [hparts]
  split_ifs at hsome with hlast
  · rcases List.eq_nil_or_concat' all with rfl | ⟨init, last, rfl⟩
    · rw [← Option.some.inj hsome]
      rfl
    · rw [List.getLast?_concat, Option.all_some] at hlast
      have hblank : Text.trim last = [] := of_decide_eq_true hlast
      rw [List.dropLast_concat, Option.some_inj] at hsome
      rw [hsome, List.map_append, List.filter_append, hkeep]
      simp [hblank]
  · rw [Option.some.inj hsome, hkeep]

/-! ### The form of a text -/

section Forms

variable {s inner : Text}

/-- The names of scalars end with a letter. -/
theorem scalarTy_last {ty : Ty} (h : scalarTy s = some ty) : s.getLast?.any Char.isAlpha := by
  unfold scalarTy at h
  split_ifs at h with h₁ h₂ h₃ h₄ h₅ h₆
  · rw [h₁]; rfl
  · rw [h₂]; rfl
  · rw [h₃]; rfl
  · rw [h₄]; rfl
  · have hall : ∀ name ∈ ["T::Boolean".toList, "TrueClass".toList, "FalseClass".toList],
        name.getLast?.any Char.isAlpha := by decide
    exact hall s h₅
  · rw [h₆]; rfl

theorem Enclosed.scalarTy_eq {opener closer : Char} {name : Text}
    (h : Enclosed opener closer name s inner) (hcloser : closer.isAlpha = false) :
    scalarTy s = none := by
  obtain ⟨gap, -, rfl⟩ := h
  rw [Option.eq_none_iff_forall_not_mem]
  intro ty hty
  have hlast := scalarTy_last hty
  rw [List.getLast?_concat, Option.any_some, hcloser] at hlast
  cases hlast

theorem form_nilable (h : Enclosed '(' ')' "T.nilable".toList s inner) :
    form s = .nilable inner := by
  unfold form
  rw [h.scalarTy_eq (by decide), stripCall_eq_some_iff.mpr h]

theorem form_array (h : Enclosed '[' ']' "T::Array".toList s inner) : form s = .array inner := by
  have hindex := stripIndex_eq_some_iff.mpr h
  unfold form
  rw [h.scalarTy_eq (by decide)]
  obtain ⟨gap, -, rfl⟩ := h
  rw [List.append_assoc, List.append_assoc] at hindex ⊢
  simp only [hindex]
  rfl

theorem form_hash (h : Enclosed '[' ']' "T::Hash".toList s inner) : form s = .hash inner := by
  have hindex := stripIndex_eq_some_iff.mpr h
  unfold form
  rw [h.scalarTy_eq (by decide)]
  obtain ⟨gap, -, rfl⟩ := h
  rw [List.append_assoc, List.append_assoc] at hindex ⊢
  simp only [hindex]
  rfl

theorem form_any (h : Enclosed '(' ')' "T.any".toList s inner) : form s = .any inner := by
  have hcall := stripCall_eq_some_iff.mpr h
  unfold form
  rw [h.scalarTy_eq (by decide)]
  obtain ⟨gap, -, rfl⟩ := h
  rw [List.append_assoc, List.append_assoc] at hcall ⊢
  simp only [hcall]
  rfl

theorem form_leaf (h : IsLeaf s) : form s = .leaf := by
  rcases form_cases s with ⟨ty, -, hty⟩ | ⟨inner, -, hin⟩ | ⟨inner, -, hin⟩ | ⟨inner, -, hin⟩ |
    ⟨inner, -, hin⟩ | ⟨hleaf, -⟩
  · rw [h.1] at hty
    cases hty
  · exact absurd hin (h.2 inner).1
  · exact absurd hin (h.2 inner).2.1
  · exact absurd hin (h.2 inner).2.2.1
  · exact absurd hin (h.2 inner).2.2.2
  · exact hleaf

end Forms

/-! ### Reading by the grammar -/

section Reading

variable {resolve : Text → Option Ty} {s t : Text} {ty : Ty}

theorem bare_trim (s : Text) : bare (Text.trim s) = bare s := by
  unfold bare
  rw [trim_trim]

theorem Denotes.congr {s' : Text} (hbare : bare s = bare s') (h : Denotes resolve s ty) :
    Denotes resolve s' ty := by
  cases h with
  | scalar h => exact .scalar (hbare ▸ h)
  | leaf hleaf htype =>
    rw [hbare] at hleaf htype ⊢
    exact .leaf hleaf htype
  | nilable hin htype h => exact .nilable (hbare ▸ hin) htype h
  | array hin htype h => exact .array (hbare ▸ hin) htype h
  | hash hin hargs hk hv => exact .hash (hbare ▸ hin) hargs hk hv
  | any meaning hin hargs h => exact .any meaning (hbare ▸ hin) hargs h

theorem parseTyLeaf_trim (s : Text) :
    parseTyLeaf resolve (Text.trim s) = parseTyLeaf resolve s := by
  rw [parseTyLeaf_eq, parseTyLeaf_eq resolve s, bare_trim]

/-- A text whose forms are all closed means what the scanner makes of it. -/
theorem denotes_of_closed : ∀ {s : Text}, (∀ t, Reads s t → Closed t) →
    Denotes resolve s (parseTyLeaf resolve s) := by
  intro s
  induction hn : s.length using Nat.strong_induction_on generalizing s with
  | _ n ih =>
    intro hclosed
    have hparts : ∀ part ∈ (form (bare s)).parts,
        Denotes resolve part (parseTyLeaf resolve part) := by
      intro part hpart
      have hlength := (length_part hpart).trans_le (length_bare_le s)
      exact ih part.length (hn ▸ hlength) rfl fun t ht ↦ hclosed t (.inside hpart ht)
    have hhere := hclosed s (.here s)
    unfold Closed at hhere
    rw [parseTyLeaf_eq]
    rcases form_cases (bare s) with ⟨ty, heq, hty⟩ | ⟨inner, heq, hin⟩ | ⟨inner, heq, hin⟩ |
      ⟨inner, heq, hin⟩ | ⟨inner, heq, hin⟩ | ⟨heq, hleaf⟩
    · rw [heq]
      exact .scalar hty
    · rw [heq] at hhere hparts ⊢
      exact .nilable hin hhere (hparts inner List.mem_cons_self)
    · rw [heq] at hhere hparts ⊢
      exact .array hin hhere (hparts inner List.mem_cons_self)
    · rw [heq] at hhere hparts ⊢
      obtain ⟨k, v, hargs⟩ := hhere
      have hsplit := splitTopLevel_of_arguments hargs
      simp only [Form.parts, Form.ty, hsplit, List.map_cons, List.map_nil] at hparts ⊢
      refine .hash hin hargs ?_ ?_
      · exact (hparts _ List.mem_cons_self).congr (bare_trim k)
      · exact (hparts _ (List.mem_cons_of_mem _ List.mem_cons_self)).congr (bare_trim v)
    · rw [heq] at hhere hparts ⊢
      obtain ⟨first, rest, hargs⟩ := hhere
      have hsplit := splitTopLevel_of_arguments hargs
      have hmap : (splitTopLevel inner ',').map (parseTyLeaf resolve) =
          (first :: rest).map (parseTyLeaf resolve) := by
        rw [hsplit, List.map_map]
        exact List.map_congr_left fun arg _ ↦ parseTyLeaf_trim arg
      simp only [Form.ty, hmap, List.map_cons]
      refine .any _ hin hargs fun arg harg ↦ ?_
      have hmem : Text.trim arg ∈ splitTopLevel inner ',' := by
        rw [hsplit]
        exact List.mem_map_of_mem harg
      have htrim := hparts _ hmem
      rw [parseTyLeaf_trim] at htrim
      exact htrim.congr (bare_trim arg)
    · rw [heq] at hhere ⊢
      exact .leaf hleaf hhere

theorem reads_closed_iff :
    (∀ t, Reads s t → Closed t) ↔
      Closed s ∧ ∀ part ∈ (form (bare s)).parts, ∀ t, Reads part t → Closed t := by
  constructor
  · intro h
    exact ⟨h s (.here s), fun part hpart t ht ↦ h t (.inside hpart ht)⟩
  · rintro ⟨hhere, hparts⟩ t ht
    cases ht with
    | here => exact hhere
    | inside hpart ht => exact hparts _ hpart t ht

theorem reads_closed_trim (h : ∀ t, Reads s t → Closed t) :
    ∀ t, Reads (Text.trim s) t → Closed t := by
  rw [reads_closed_iff] at h ⊢
  unfold Closed at h ⊢
  rw [bare_trim]
  exact h

/-- The forms of a type of the grammar are closed. -/
theorem Denotes.closed (h : Denotes resolve s ty) : ∀ t, Reads s t → Closed t := by
  induction h with
  | scalar h =>
    rw [reads_closed_iff]
    unfold Closed form
    rw [h]
    exact ⟨trivial, fun part hpart ↦ nomatch hpart⟩
  | leaf hleaf htype =>
    rw [reads_closed_iff]
    unfold Closed
    rw [form_leaf hleaf]
    exact ⟨htype, fun part hpart ↦ nomatch hpart⟩
  | nilable hin htype h ih =>
    rw [reads_closed_iff]
    unfold Closed
    rw [form_nilable hin]
    exact ⟨htype, fun part hpart ↦ List.mem_singleton.mp hpart ▸ ih⟩
  | array hin htype h ih =>
    rw [reads_closed_iff]
    unfold Closed
    rw [form_array hin]
    exact ⟨htype, fun part hpart ↦ List.mem_singleton.mp hpart ▸ ih⟩
  | @hash s inner k v key value hin hargs hk hv ihk ihv =>
    have hparts : (Form.hash inner).parts = [Text.trim k, Text.trim v] := by
      simp only [Form.parts, splitTopLevel_of_arguments hargs, List.map_cons, List.map_nil]
    rw [reads_closed_iff]
    unfold Closed
    rw [form_hash hin, hparts]
    refine ⟨⟨k, v, hargs⟩, fun part hpart ↦ ?_⟩
    rcases List.mem_pair.mp hpart with rfl | rfl
    · exact reads_closed_trim ihk
    · exact reads_closed_trim ihv
  | @any s inner first rest meaning hin hargs h ih =>
    rw [reads_closed_iff]
    unfold Closed
    rw [form_any hin]
    refine ⟨⟨first, rest, hargs⟩, fun part hpart ↦ ?_⟩
    rw [Form.parts, splitTopLevel_of_arguments hargs] at hpart
    obtain ⟨arg, harg, rfl⟩ := List.mem_map.mp hpart
    exact reads_closed_trim (ih arg harg)

/-- Nothing is unknown in the type, and no union is in a union. -/
def Plain (ty : Ty) : Prop := ∀ part ∈ ty.parts, part ≠ .unknown ∧ part.parts = [part]

theorem Plain.ne_unknown (h : Plain ty) : ty ≠ .unknown := by
  rintro rfl
  exact (h .unknown List.mem_cons_self).1 rfl

theorem Plain.join {a b : Ty} (ha : Plain a) (hb : Plain b) : Plain (a.join b) := by
  have hall : ∀ part ∈ (a.parts ++ b.parts).foldl Ty.pushUnique [],
      part ≠ .unknown ∧ part.parts = [part] := by
    intro part hpart
    rw [Ty.mem_foldl_pushUnique, List.mem_append] at hpart
    rcases hpart with hnil | hmem | hmem
    · cases hnil
    · exact ha part hmem
    · exact hb part hmem
  unfold Ty.join
  split_ifs with heq hunknown
  · exact ha
  · exact absurd hunknown (not_or.mpr ⟨ha.ne_unknown, hb.ne_unknown⟩)
  · split
    next t hone =>
      rw [hone] at hall
      have ht := hall t List.mem_cons_self
      unfold Plain
      rw [ht.2]
      exact hall
    next => exact hall

theorem plain_foldl {tys : List Ty} (hty : Plain ty) (h : ∀ t ∈ tys, Plain t) :
    Plain (tys.foldl Ty.join ty) := by
  induction tys generalizing ty with
  | nil => exact hty
  | cons t tys ih =>
    rw [List.forall_mem_cons] at h
    exact ih (hty.join h.1) h.2

theorem foldl_join_unknown {tys : List Ty} (h : ty = .unknown ∨ .unknown ∈ tys) :
    tys.foldl Ty.join ty = .unknown := by
  induction tys generalizing ty with
  | nil => exact h.resolve_right List.not_mem_nil
  | cons t tys ih =>
    refine ih ?_
    rcases h with rfl | hmem
    · exact .inl (Ty.unknown_join t)
    · rcases List.mem_cons.mp hmem with rfl | hmem
      · exact .inl (Ty.join_unknown ty)
      · exact .inr hmem

theorem scalarTy_plain (h : scalarTy s = some ty) : ty ≠ .unknown ∧ ty.parts = [ty] := by
  unfold scalarTy at h
  split_ifs at h
  all_goals
    rw [← Option.some.inj h]
    exact ⟨by decide, rfl⟩

theorem Known.plain (hplain : ∀ name ty, resolve name = some ty → Plain ty)
    (h : Known resolve s) : Plain (parseTyLeaf resolve s) := by
  have hresolved : ∀ {name : Text}, (resolve name).isSome →
      Plain ((resolve name).getD .unknown) := by
    intro name hsome
    obtain ⟨ty, hty⟩ := Option.isSome_iff_exists.mp hsome
    rw [hty]
    exact hplain name ty hty
  have hone : ∀ ty : Ty, ty ≠ .unknown → ty.parts = [ty] → Plain ty := by
    intro ty hne hparts part hpart
    rw [hparts, List.mem_singleton] at hpart
    exact hpart ▸ ⟨hne, hparts⟩
  induction h with
  | @scalar s ty h =>
    have hty : scalarTy (bare s) = some ty := by
      rcases form_cases (bare s) with ⟨ty', heq, hty⟩ | ⟨_, heq, -⟩ | ⟨_, heq, -⟩ | ⟨_, heq, -⟩ |
        ⟨_, heq, -⟩ | ⟨heq, -⟩
      · rw [h] at heq
        exact Form.scalar.inj heq ▸ hty
      all_goals
        rw [h] at heq
        cases heq
    rw [parseTyLeaf_eq, h]
    exact hone _ (scalarTy_plain hty).1 (scalarTy_plain hty).2
  | nilable h hinner ih =>
    rw [parseTyLeaf_eq, h]
    exact ih.join (hone _ (by decide) rfl)
  | array h =>
    rw [parseTyLeaf_eq, h]
    exact hone _ (by simp [Form.ty]) rfl
  | hash h hparts =>
    rw [parseTyLeaf_eq, h]
    simp only [Form.ty, hparts]
    exact hone _ (by simp) rfl
  | any h hparts hall ih =>
    rw [parseTyLeaf_eq, h]
    simp only [Form.ty, hparts, List.map_cons]
    rw [List.forall_mem_cons] at ih
    refine plain_foldl ih.1 fun t ht ↦ ?_
    obtain ⟨part, hpart, rfl⟩ := List.mem_map.mp ht
    exact ih.2 part hpart
  | empty h hparts hresolve =>
    rw [parseTyLeaf_eq, h]
    simp only [Form.ty, hparts, List.map_nil]
    exact hresolved hresolve
  | leaf h hresolve =>
    rw [parseTyLeaf_eq, h]
    exact hresolved hresolve

/-- The scanner has a type for nothing else. -/
theorem known_of_ne_unknown : ∀ {s : Text}, parseTyLeaf resolve s ≠ .unknown → Known resolve s := by
  intro s
  induction hn : s.length using Nat.strong_induction_on generalizing s with
  | _ n ih =>
    intro hne
    have hparts : ∀ part ∈ (form (bare s)).parts, parseTyLeaf resolve part ≠ .unknown →
        Known resolve part := by
      intro part hpart
      have hlength := (length_part hpart).trans_le (length_bare_le s)
      exact ih part.length (hn ▸ hlength) rfl
    have hsome : ∀ {o : Option Ty}, o.getD .unknown ≠ .unknown → o.isSome := by
      intro o ho
      cases o with
      | none => exact absurd rfl ho
      | some ty => rfl
    rw [parseTyLeaf_eq] at hne
    cases hform : form (bare s) with
    | scalar ty => exact .scalar hform
    | leaf =>
      rw [hform] at hne
      exact .leaf hform (hsome hne)
    | nilable inner =>
      rw [hform] at hne hparts
      refine .nilable hform (hparts inner List.mem_cons_self fun hunknown ↦ hne ?_)
      simp only [Form.ty, hunknown, Ty.unknown_join]
    | array inner => exact .array hform
    | hash inner =>
      rw [hform] at hne
      simp only [Form.ty] at hne
      split at hne
      next k v hsplit => exact .hash hform hsplit
      next => exact absurd rfl hne
    | any inner =>
      rw [hform] at hne hparts
      simp only [Form.ty, Form.parts] at hne hparts
      cases hsplit : splitTopLevel inner ',' with
      | nil =>
        rw [hsplit] at hne
        exact .empty hform hsplit (hsome hne)
      | cons first rest =>
        rw [hsplit] at hne hparts
        refine .any hform hsplit fun part hpart ↦ hparts part hpart fun hunknown ↦ hne ?_
        rcases List.mem_cons.mp hpart with rfl | hmem
        · exact foldl_join_unknown (.inl hunknown)
        · exact foldl_join_unknown (.inr (hunknown ▸ List.mem_map_of_mem hmem))

/-- The grammar gives a text one type at most. -/
theorem Denotes.eq_parseTyLeaf (h : Denotes resolve s ty) : parseTyLeaf resolve s = ty := by
  induction h with
  | scalar h =>
    rw [parseTyLeaf_eq]
    unfold form
    rw [h]
    rfl
  | leaf hleaf htype =>
    rw [parseTyLeaf_eq, form_leaf hleaf]
    rfl
  | nilable hin htype h ih =>
    rw [parseTyLeaf_eq, form_nilable hin]
    exact congrArg (Ty.join · .nil) ih
  | array hin htype h ih =>
    rw [parseTyLeaf_eq, form_array hin]
    exact congrArg Ty.array ih
  | hash hin hargs hk hv ihk ihv =>
    rw [parseTyLeaf_eq, form_hash hin]
    simp only [Form.ty, splitTopLevel_of_arguments hargs, List.map_cons, List.map_nil,
      parseTyLeaf_trim, ihk, ihv]
  | any meaning hin hargs h ih =>
    rw [List.forall_mem_cons] at ih
    rw [parseTyLeaf_eq, form_any hin]
    simp only [Form.ty, splitTopLevel_of_arguments hargs, List.map_cons, List.map_map,
      parseTyLeaf_trim, ih.1]
    refine congrArg (List.foldl Ty.join _) (List.map_congr_left fun arg harg ↦ ?_)
    exact (parseTyLeaf_trim arg).trans (ih.2 arg harg)

theorem parseTyLeaf_denotes_iff (hplain : ∀ name ty, resolve name = some ty → Plain ty) :
    (parseTyLeaf resolve s ≠ .unknown → Denotes resolve s (parseTyLeaf resolve s)) ↔
      (Known resolve s → ∀ t, Reads s t → Closed t) := by
  constructor
  · intro h hknown
    exact (h (hknown.plain hplain).ne_unknown).closed
  · intro h hne
    exact denotes_of_closed (h (known_of_ne_unknown hne))

end Reading

end Itaruby.SorbetSig
