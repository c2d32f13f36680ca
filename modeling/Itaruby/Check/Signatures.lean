import Itaruby.Check.Types
import Itaruby.Index.Constants
import Itaruby.Index.Merge

/-!
What an inline signature means. The names in it are resolved in the scope the reader passes
down: the body check passes the scope of the definition, the argument check and the return
type pass the scope of the call.
-/

set_option autoImplicit false
set_option relaxedAutoImplicit false

namespace Itaruby

def splitPath (piece : List Char) : List Char → ConstPath
  | ':' :: ':' :: rest => String.ofList piece.reverse :: splitPath [] rest
  | c :: rest => splitPath (c :: piece) rest
  | [] => [String.ofList piece.reverse]

/-- The pieces of a constant name as written in a signature. -/
def constPathOf (name : String) : ConstPath := splitPath [] name.toList

/-- The names `rbs_to_ty` knows itself. -/
def builtinTy (selfClass : Option ClassId) (name : String) : Option Ty :=
  if name = "Integer" then some .int
  else if name = "Float" then some .float
  else if name = "String" then some .str
  else if name = "Symbol" then some .sym
  else if name ∈ ["bool", "true", "false", "TrueClass", "FalseClass"] then some .bool
  else if name ∈ ["nil", "NilClass"] then some .nil
  else if name ∈ ["void", "untyped", "top", "bot"] then some .unknown
  else if name = "self" then some (selfClass.elim .unknown .instanceOf)
  else none

def genericTy (name : String) : List Ty → Ty
  | [e] => if name = "Array" then .array e else .unknown
  | [k, v] => if name = "Hash" then .hash k v else .unknown
  | _ => .unknown

/-- `reduce(Ty::union)`. -/
def reduceJoin : List Ty → Ty
  | [] => .unknown
  | t :: ts => ts.foldl Ty.join t

section

variable (resolve : ConstPath → Option ClassId) (selfClass : Option ClassId)
  (typeParams : List String)

def simpleTy (name : String) : Ty :=
  if name ∈ typeParams then .unknown
  else
    match builtinTy selfClass name with
    | some t => t
    | none => (resolve (constPathOf name)).elim .unknown .instanceOf

mutual

/-- `rbs_to_ty`. -/
def rbsToTy : RbsTy → Ty
  | .simple name => simpleTy resolve selfClass typeParams name
  | .generic name args => genericTy name (rbsToTys args)
  | .nilable inner => (rbsToTy inner).join .nil
  | .union parts => reduceJoin (rbsToTys parts)

def rbsToTys : List RbsTy → List Ty
  | [] => []
  | t :: ts => rbsToTy t :: rbsToTys ts

end

end

namespace RbsSig

/-- The types of the positional entries, in one list. -/
def positional (sig : RbsSig) : List RbsTy :=
  sig.params.filterMap fun p ↦
    match p with
    | .required t => some t
    | .optional t => some t
    | .keyword .. => none

end RbsSig

namespace ProjectIndex

variable (ix : ProjectIndex)

/-- The parameter types `check_sig_args` compares with, in the scope of the call. -/
def sigParamTys (owner : Option ClassId) (scope : List ConstPath) (sig : RbsSig) : List Ty :=
  sig.positional.map (rbsToTy (ix.resolveConst scope) owner sig.typeParams)

/-- The return type `method_return` reads off a signature, in the scope of the call. -/
def sigReturnTy (receiver : ClassId) (scope : List ConstPath) (sig : RbsSig) : Ty :=
  rbsToTy (ix.resolveConst scope) (some receiver) sig.typeParams sig.ret

end ProjectIndex

/-! ### Names -/

def genericNames (name : String) : List (List String) → List String
  | [e] => if name = "Array" then e else []
  | [k, v] => if name = "Hash" then k ++ v else []
  | _ => []

/-- A type whose value does not hang on a union of alternatives. -/
def genericPlain (name : String) : List Bool → Bool
  | [e] => name != "Array" || e
  | [k, v] => name != "Hash" || (k && v)
  | _ => true

namespace RbsTy

section

variable (typeParams : List String)

mutual

/-- The names that are looked up as constants. -/
def constNames : RbsTy → List String
  | .simple name =>
    if name ∈ typeParams ∨ (builtinTy none name).isSome then [] else [name]
  | .generic name args => genericNames name (constNamesAll args)
  | .nilable inner => constNames inner
  | .union parts => (constNamesAll parts).flatten

def constNamesAll : List RbsTy → List (List String)
  | [] => []
  | t :: ts => constNames t :: constNamesAll ts

end

end

mutual

def unionFree : RbsTy → Bool
  | .simple _ => true
  | .generic name args => genericPlain name (unionFreeAll args)
  | .nilable inner => unionFree inner
  | .union _ => false

def unionFreeAll : List RbsTy → List Bool
  | [] => []
  | t :: ts => unionFree t :: unionFreeAll ts

end

end RbsTy

/-! ### Scopes that agree -/

/-- The scopes agree on some names. -/
def AgreeOn (resolve resolve' : ConstPath → Option ClassId) (names : List String) : Prop :=
  ∀ name ∈ names, resolve (constPathOf name) = resolve' (constPathOf name)

section

variable {resolve resolve' : ConstPath → Option ClassId} {selfClass : Option ClassId}
  {typeParams : List String}

theorem isSome_builtinTy (selfClass : Option ClassId) (name : String) :
    (builtinTy selfClass name).isSome = (builtinTy none name).isSome := by
  unfold builtinTy
  split_ifs <;> rfl

mutual

/-- A type means the same in two scopes that agree on its names. -/
theorem rbsToTy_congr : ∀ {t : RbsTy}, AgreeOn resolve resolve' (t.constNames typeParams) →
      rbsToTy resolve selfClass typeParams t = rbsToTy resolve' selfClass typeParams t
  | .simple name, h => by
    simp only [rbsToTy, simpleTy]
    split_ifs with hparam
    · rfl
    · cases hbuiltin : builtinTy selfClass name with
      | some ty => rfl
      | none =>
        have hmem : name ∈ (RbsTy.simple name).constNames typeParams := by
          have hnone := isSome_builtinTy selfClass name
          rw [hbuiltin] at hnone
          simp [RbsTy.constNames, hparam, ← hnone]
        simp only [h name hmem]
  | .generic name [], _ => rfl
  | .generic name [e], h => by
    rw [rbsToTy, rbsToTy]
    simp only [rbsToTys, genericTy]
    split_ifs with hname
    · subst hname
      rw [rbsToTy_congr (t := e) h]
    · rfl
  | .generic name [k, v], h => by
    rw [rbsToTy, rbsToTy]
    simp only [rbsToTys, genericTy]
    split_ifs with hname
    · subst hname
      rw [rbsToTy_congr (t := k) fun name hmem ↦ h name (List.mem_append_left _ hmem),
        rbsToTy_congr (t := v) fun name hmem ↦ h name (List.mem_append_right _ hmem)]
    · rfl
  | .generic name (_ :: _ :: _ :: _), _ => rfl
  | .nilable inner, h => by
    rw [rbsToTy, rbsToTy, rbsToTy_congr (t := inner) h]
  | .union parts, h => by
    rw [rbsToTy, rbsToTy, rbsToTys_congr fun names hnames name hname ↦
      h name (List.mem_flatten.mpr ⟨names, hnames, hname⟩)]

theorem rbsToTys_congr : ∀ {ts : List RbsTy},
    (∀ names ∈ RbsTy.constNamesAll typeParams ts, AgreeOn resolve resolve' names) →
      rbsToTys resolve selfClass typeParams ts = rbsToTys resolve' selfClass typeParams ts
  | [], _ => rfl
  | t :: ts, h => by
    rw [rbsToTys, rbsToTys, rbsToTy_congr (t := t) (h _ List.mem_cons_self),
      rbsToTys_congr fun names hnames ↦ h names (List.mem_cons_of_mem _ hnames)]

end

/-- A looked-up name as a type, also under a `?`. -/
theorem elim_eq_of_join_nil {o o' : Option ClassId}
    (h : (o.elim Ty.unknown .instanceOf).join .nil = (o'.elim Ty.unknown .instanceOf).join .nil) :
    o = o' := by
  cases o with
  | none =>
    cases o' with
    | none => rfl
    | some d => simp [Ty.join, Ty.parts, Ty.pushUnique] at h
  | some c =>
    cases o' with
    | none => simp [Ty.join, Ty.parts, Ty.pushUnique] at h
    | some d => simpa [Ty.join, Ty.parts, Ty.pushUnique] using h

/-- Without unions, a type tells the scopes apart, also under a `?`. -/
theorem agreeOn_of_rbsToTy_eq : ∀ {t : RbsTy}, t.unionFree = true →
    (rbsToTy resolve selfClass typeParams t = rbsToTy resolve' selfClass typeParams t →
      AgreeOn resolve resolve' (t.constNames typeParams)) ∧
    ((rbsToTy resolve selfClass typeParams t).join .nil =
        (rbsToTy resolve' selfClass typeParams t).join .nil →
      AgreeOn resolve resolve' (t.constNames typeParams))
  | .simple name, _ => by
    by_cases hown : name ∈ typeParams ∨ (builtinTy none name).isSome = true
    · simp [RbsTy.constNames, hown, AgreeOn]
    · obtain ⟨hparam, hbuiltin⟩ := not_or.mp hown
      have hnone : builtinTy selfClass name = none := by
        rw [← Option.not_isSome_iff_eq_none, isSome_builtinTy]
        exact hbuiltin
      have hnames : (RbsTy.simple name).constNames typeParams = [name] := by
        rw [RbsTy.constNames, if_neg hown]
      have hty : ∀ r : ConstPath → Option ClassId, rbsToTy r selfClass typeParams (.simple name) =
          (r (constPathOf name)).elim .unknown .instanceOf := fun r ↦ by
        simp only [rbsToTy, simpleTy, if_neg hparam, hnone]
      have hagree : resolve (constPathOf name) = resolve' (constPathOf name) →
          AgreeOn resolve resolve' ((RbsTy.simple name).constNames typeParams) := by
        intro heq
        rw [hnames]
        exact List.forall_mem_singleton.mpr heq
      rw [hty, hty]
      exact ⟨fun heq ↦ hagree (elim_eq_of_join_nil (congrArg (Ty.join · .nil) heq)),
        fun heq ↦ hagree (elim_eq_of_join_nil heq)⟩
  | .generic name [], _ => by simp [RbsTy.constNames, RbsTy.constNamesAll, genericNames, AgreeOn]
  | .generic name [e], h => by
    by_cases hname : name = "Array"
    · subst hname
      have ih := (agreeOn_of_rbsToTy_eq (t := e)
        (by simpa [RbsTy.unionFree, RbsTy.unionFreeAll, genericPlain] using h)).1
      simp only [rbsToTy, rbsToTys, genericTy, if_true]
      exact ⟨fun heq ↦ ih (by simpa using heq),
        fun heq ↦ ih (by simpa [Ty.join, Ty.parts, Ty.pushUnique] using heq)⟩
    · simp [RbsTy.constNames, RbsTy.constNamesAll, genericNames, AgreeOn, hname]
  | .generic name [k, v], h => by
    by_cases hname : name = "Hash"
    · subst hname
      obtain ⟨hk, hv⟩ : k.unionFree = true ∧ v.unionFree = true := by
        simpa [RbsTy.unionFree, RbsTy.unionFreeAll, genericPlain] using h
      have ihk := (agreeOn_of_rbsToTy_eq (t := k) hk).1
      have ihv := (agreeOn_of_rbsToTy_eq (t := v) hv).1
      have hboth : rbsToTy resolve selfClass typeParams k =
            rbsToTy resolve' selfClass typeParams k ∧
          rbsToTy resolve selfClass typeParams v = rbsToTy resolve' selfClass typeParams v →
          AgreeOn resolve resolve' ((RbsTy.generic "Hash" [k, v]).constNames typeParams) :=
        fun heq name hmem ↦ (List.mem_append.mp hmem).elim (ihk heq.1 name) (ihv heq.2 name)
      simp only [rbsToTy, rbsToTys, genericTy, if_true]
      exact ⟨fun heq ↦ hboth (by simpa using heq),
        fun heq ↦ hboth (by simpa [Ty.join, Ty.parts, Ty.pushUnique] using heq)⟩
    · simp [RbsTy.constNames, RbsTy.constNamesAll, genericNames, AgreeOn, hname]
  | .generic name (_ :: _ :: _ :: _), _ => by
    simp [RbsTy.constNames, RbsTy.constNamesAll, genericNames, AgreeOn]
  | .nilable inner, h => by
    have ih := agreeOn_of_rbsToTy_eq (t := inner) h
    refine ⟨ih.2, fun heq ↦ ih.2 ?_⟩
    rw [rbsToTy, rbsToTy, Ty.join_nil_nil, Ty.join_nil_nil] at heq
    exact heq
  | .union parts, h => by simp [RbsTy.unionFree] at h

end

namespace RbsSig

def constNames (sig : RbsSig) : List String :=
  sig.positional.flatMap (RbsTy.constNames sig.typeParams) ++ sig.ret.constNames sig.typeParams

def UnionFree (sig : RbsSig) : Prop :=
  (∀ t ∈ sig.positional, t.unionFree = true) ∧ sig.ret.unionFree = true

end RbsSig

namespace ProjectIndex

variable (ix : ProjectIndex) (owner : Option ClassId) (receiver : ClassId)

/-- What a call in `scope` takes a signature to mean: the types its arguments are compared
with, and the type of its result. -/
def sigMeaning (scope : List ConstPath) (sig : RbsSig) : List Ty × Ty :=
  (ix.sigParamTys owner scope sig, ix.sigReturnTy receiver scope sig)

variable {ix owner receiver}

theorem sigMeaning_eq_of_agree {scope scope' : List ConstPath} {sig : RbsSig}
    (h : AgreeOn (ix.resolveConst scope) (ix.resolveConst scope') sig.constNames) :
    ix.sigMeaning owner receiver scope sig = ix.sigMeaning owner receiver scope' sig := by
  refine Prod.ext (List.map_congr_left fun t ht ↦ rbsToTy_congr fun name hname ↦ ?_)
    (rbsToTy_congr fun name hname ↦ ?_)
  · exact h name (List.mem_append_left _ (List.mem_flatMap.mpr ⟨t, ht, hname⟩))
  · exact h name (List.mem_append_right _ hname)

theorem agree_of_sigMeaning_eq {scope scope' : List ConstPath} {sig : RbsSig}
    (hfree : sig.UnionFree)
    (h : ix.sigMeaning owner receiver scope sig = ix.sigMeaning owner receiver scope' sig) :
    AgreeOn (ix.resolveConst scope) (ix.resolveConst scope') sig.constNames := by
  obtain ⟨hparams, hret⟩ := Prod.ext_iff.mp h
  intro name hname
  rcases List.mem_append.mp hname with hname | hname
  · obtain ⟨t, ht, hname⟩ := List.mem_flatMap.mp hname
    exact (agreeOn_of_rbsToTy_eq (hfree.1 t ht)).1 (List.map_inj_left.mp hparams t ht) name hname
  · exact (agreeOn_of_rbsToTy_eq hfree.2).1 hret name hname

/-- The calls in two scopes give a signature one meaning, that of its definition, when the
names in it resolve as in the scope of the definition. Unless a type is a union, one of whose
parts may hide another, they do so only then. -/
theorem sig_meaning_as_defined_iff (ix : ProjectIndex) (owner : Option ClassId)
    (receiver : ClassId) (definition call call' : List ConstPath) (sig : RbsSig) :
    (AgreeOn (ix.resolveConst call) (ix.resolveConst definition) sig.constNames ∧
        AgreeOn (ix.resolveConst call') (ix.resolveConst definition) sig.constNames →
      ix.sigMeaning owner receiver call sig = ix.sigMeaning owner receiver call' sig ∧
        ix.sigMeaning owner receiver call sig = ix.sigMeaning owner receiver definition sig) ∧
    (sig.UnionFree →
      ix.sigMeaning owner receiver call sig = ix.sigMeaning owner receiver call' sig ∧
        ix.sigMeaning owner receiver call sig = ix.sigMeaning owner receiver definition sig →
      AgreeOn (ix.resolveConst call) (ix.resolveConst definition) sig.constNames ∧
        AgreeOn (ix.resolveConst call') (ix.resolveConst definition) sig.constNames) := by
  refine ⟨fun ⟨hcall, hcall'⟩ ↦ ?_, fun hfree ⟨hsame, hdef⟩ ↦ ?_⟩
  · have h : ix.sigMeaning owner receiver call sig = ix.sigMeaning owner receiver definition sig :=
      sigMeaning_eq_of_agree hcall
    exact ⟨h.trans (sigMeaning_eq_of_agree hcall').symm, h⟩
  · exact ⟨agree_of_sigMeaning_eq hfree hdef, agree_of_sigMeaning_eq hfree (hsame.symm.trans hdef)⟩

/-! ### A name in two namespaces -/

/-- A shelf of `Store` items, and another `Item` under `Menu`. -/
def itemClasses : ProjectIndex :=
  ({} : ProjectIndex).mergeFiles [("items.rb",
    { fragments :=
        [{ path := ["Store"], nesting := [["Store"]], isModule := true },
          { path := ["Store", "Item"], nesting := [["Store"], ["Store", "Item"]],
            isModule := false },
          { path := ["Store", "Shelf"], nesting := [["Store"], ["Store", "Shelf"]],
            isModule := false },
          { path := ["Menu"], nesting := [["Menu"]], isModule := true },
          { path := ["Menu", "Item"], nesting := [["Menu"], ["Menu", "Item"]],
            isModule := false }] })]

/-- `#: (Item) -> Item`, on a method of `Store::Shelf`. -/
def itemSig : RbsSig :=
  { params := [.required (.simple "Item")], ret := .simple "Item", typeParams := [] }

/-- In `Menu` the signature asks for a `Menu::Item`. -/
theorem item_sig_other_in_menu :
    itemClasses.sigMeaning (some 2) 2 [["Menu"]] itemSig = ([.instanceOf 4], .instanceOf 4) ∧
    itemClasses.sigMeaning (some 2) 2 [["Store"], ["Store", "Shelf"]] itemSig =
      ([.instanceOf 1], .instanceOf 1) ∧
    itemClasses.sigMeaning (some 2) 2 [["Menu"]] itemSig ≠
      itemClasses.sigMeaning (some 2) 2 [["Store"], ["Store", "Shelf"]] itemSig := by
  decide +kernel

/-- At the top level of `Store` it means what it means on the shelf. -/
theorem item_sig_same_in_store :
    itemClasses.sigMeaning (some 2) 2 [["Store"]] itemSig =
        itemClasses.sigMeaning (some 2) 2 [["Store"], ["Store", "Shelf"]] itemSig ∧
      itemClasses.sigMeaning (some 2) 2 [["Store"]] itemSig =
        itemClasses.sigMeaning (some 2) 2 [["Store"], ["Store", "Shelf"]] itemSig := by
  refine (sig_meaning_as_defined_iff itemClasses (some 2) 2 [["Store"], ["Store", "Shelf"]]
    [["Store"]] [["Store"], ["Store", "Shelf"]] itemSig).1 ⟨?_, fun _ _ ↦ rfl⟩
  unfold AgreeOn
  decide +kernel

end ProjectIndex

end Itaruby
