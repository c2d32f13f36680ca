import Itaruby.Check.Branches
import Itaruby.Check.Compatible

/-!
The types that a check leaves a local with. What a check says of the local is said of the value
in it, by `nil?`, `is_a?` and `===` as Ruby defines them; what the checker makes of it is a type
for each of the two ways out.
-/

set_option autoImplicit false
set_option relaxedAutoImplicit false

namespace Itaruby

open Ruby

/-- `core_const_ty` -/
def coreConstTy (path : ConstPath) : Option Ty :=
  match path.dropWhile (· = "") with
  | ["Integer"] => some .int
  | ["Float"] => some .float
  | ["String"] => some .str
  | ["Symbol"] => some .sym
  | ["NilClass"] => some .nil
  | ["TrueClass"] => some .bool
  | ["FalseClass"] => some .bool
  | ["Array"] => some (.array .unknown)
  | ["Hash"] => some (.hash .unknown .unknown)
  | _ => none

/-- The type of an `is_a?` argument: a project class first, a core class in a closed world. -/
def narrowTargetOf (resolve : ConstPath → Option ClassId) (closedWorld : Bool)
    (path : ConstPath) : Option Ty :=
  match resolve path with
  | some c => some (.instanceOf c)
  | none => if closedWorld then coreConstTy path else none

/-! ### What a check asks -/

/-- What the values of a run answer. -/
structure Replies where
  isNil : Datum → Prop
  isA : ConstPath → Datum → Prop
  /-- `===` of the class, in a `when` -/
  caseEq : ConstPath → Datum → Prop

section

variable (A : Ancestry) (resolve : ConstPath → Option ClassId)

/-- `Kernel#is_a?` of the class that a path names. -/
def Ruby.Datum.IsOf (path : ConstPath) (v : Datum) : Prop :=
  match resolve path with
  | some c => A.IsA v c
  | none => path.dropWhile (· = "") = [v.coreName]

/-- The value does not answer in a way of its own. -/
structure Replies.Plain (replies : Replies) (v : Datum) : Prop where
  isNil : replies.isNil v ↔ v = .nil
  isA : ∀ path, replies.isA path v ↔ v.IsOf A resolve path
  caseEq : ∀ path, replies.caseEq path v ↔ v.IsOf A resolve path

def Ruby.Shape.coreName : Shape → Option String
  | .plain => none
  | .string => some "String"
  | .array => some "Array"
  | .hash => some "Hash"

/-- The class that a path names is among the ancestors of the class. -/
def InAncestry (c : ClassId) (path : ConstPath) : Prop :=
  match resolve path with
  | some d => A.inherits c d
  | none => ∃ name, (A.shape c).coreName = some name ∧ path.dropWhile (· = "") = [name]

end

/-- What it takes for a condition on a local with this value to come out so. -/
def Expr.Outcome (replies : Replies) (x : String) (v : Datum) : Expr → Bool → Prop
  | .localRead _ y, b => y = x → v.truthy = b
  | .callNode _ _ (some (.localRead _ y)) "nil?" [] _ _, b => y = x → (b = true ↔ replies.isNil v)
  | .callNode _ _ (some (.localRead _ y)) "is_a?" [arg] _ _, b =>
    y = x → ∀ path, arg.constPath = some path → (b = true ↔ replies.isA path v)
  | .orNode l r, b => ∃ bl br, Outcome replies x v l bl ∧ Outcome replies x v r br ∧ b = (bl || br)
  | _, _ => True

/-- A condition of an `if`, or a `when` clause with its conditions. -/
inductive Test
  | predicate (e : Expr)
  | clause (conditions : List Expr)

namespace Test

def Outcome (replies : Replies) (x : String) (v : Datum) : Test → Bool → Prop
  | .predicate e, b => e.Outcome replies x v b
  | .clause conditions, b =>
    b = true ↔ ∃ c ∈ conditions, ∃ path, c.constPath = some path ∧ replies.caseEq path v

/-- The classes that the test asks for. -/
def tested : Test → List ConstPath
  | .predicate (.callNode _ _ _ "is_a?" [arg] _ _) => arg.constPath.toList
  | .predicate _ => []
  | .clause conditions => conditions.filterMap Expr.constPath

/-- The environments of the two ways out, where the checker takes something from the test. -/
def branches (scene : Scene) (env : Env) (x : String) : Test → Option (Env × Env)
  | .predicate e => do
    let nw ← scene.narrowOf e
    if nw.var = x then return (env.narrowTrue nw, env.narrowFalse nw env) else none
  | .clause conditions => do
    let ty ← scene.narrowOfWhen conditions
    return (env.insert x ty, env)

end Test

/-- The types of the ways out describe the values that take them, an object keeps its class
where an ancestor was asked for, and a boolean stays where the other one was. -/
structure Refines (A : Ancestry) (resolve : ConstPath → Option ClassId) (replies : Replies)
    (x : String) (ty : Ty) (test : Test) (onTrue onFalse : Ty) : Prop where
  describes_true : ∀ v, ty.Describes A v → test.Outcome replies x v true → onTrue.Describes A v
  describes_false : ∀ v, ty.Describes A v → test.Outcome replies x v false → onFalse.Describes A v
  keeps : ∀ c, ty = .instanceOf c → (∃ path ∈ test.tested, InAncestry A resolve c path) →
    onTrue = .instanceOf c

/-- The test asks an object for an ancestor that is not its own class. -/
def Test.Overwrites (A : Ancestry) (resolve : ConstPath → Option ClassId) (ty : Ty)
    (test : Test) : Prop :=
  ∃ c, ty = .instanceOf c ∧ (∃ path ∈ test.tested, InAncestry A resolve c path) ∧
    ∃ path ∈ test.tested, resolve path ≠ some c

/-- The boolean that is not of the class. -/
def otherBool (path : ConstPath) : Bool := !decide (path.dropWhile (· = "") = ["TrueClass"])

/-- The test asks for one of the boolean classes, and only the type of both booleans describes
the other one. -/
def Test.DropsBoolean (A : Ancestry) (resolve : ConstPath → Option ClassId) (closedWorld : Bool)
    (ty : Ty) : Test → Prop
  | .predicate e => ∃ path ∈ (Test.predicate e).tested,
      narrowTargetOf resolve closedWorld path = some .bool ∧
      ∃ parts, ty = .union parts ∧ .unknown ∉ parts ∧ .bool ∈ parts ∧
        (∃ part ∈ parts, part ≠ .bool) ∧
        ∀ part ∈ parts, part ≠ .bool → ¬ part.Describes A (.bool (otherBool path))
  | .clause _ => False

/-! ### The types of tested classes -/

section

variable {A : Ancestry} {resolve : ConstPath → Option ClassId} {closedWorld : Bool}
  {path : ConstPath} {target : Ty} {v : Datum}

theorem coreConstTy_iff (h : coreConstTy path = some target) (hv : target ≠ .bool) :
    target.Describes A v ↔ path.dropWhile (· = "") = [v.coreName] := by
  unfold coreConstTy at h
  split at h <;> cases h
  case h_6 | h_7 => exact absurd rfl hv
  all_goals
    next heq =>
    rw [heq]
    cases v with
    | bool b => cases b <;> simp [Ty.Describes, Datum.coreName]
    | foreign cls => cases cls <;> simp [Ty.Describes, Datum.coreName, Foreign.name]
    | _ => simp [Ty.Describes, Datum.coreName]

theorem coreConstTy_bool (h : coreConstTy path = some .bool) :
    path.dropWhile (· = "") = [v.coreName] ↔ v = .bool (!otherBool path) := by
  unfold coreConstTy at h
  split at h <;> cases h
  all_goals
    next heq =>
    simp only [otherBool, heq]
    cases v with
    | bool b => cases b <;> simp [Datum.coreName]
    | foreign cls => cases cls <;> simp [Datum.coreName, Foreign.name]
    | _ => simp [Datum.coreName]

theorem narrowTarget_cases (h : narrowTargetOf resolve closedWorld path = some target) :
    (∃ c, resolve path = some c ∧ target = .instanceOf c) ∨
      (resolve path = none ∧ coreConstTy path = some target) := by
  unfold narrowTargetOf at h
  split at h
  · next c hc => exact .inl ⟨c, hc, (Option.some.inj h).symm⟩
  · next hnone =>
    split_ifs at h
    exact .inr ⟨hnone, h⟩

theorem narrowTarget_describes (h : narrowTargetOf resolve closedWorld path = some target)
    (hv : target ≠ .bool) : target.Describes A v ↔ v.IsOf A resolve path := by
  unfold Datum.IsOf
  rcases narrowTarget_cases h with ⟨c, hc, rfl⟩ | ⟨hnone, hcore⟩
  · rw [hc]
    exact Iff.rfl
  · rw [hnone]
    exact coreConstTy_iff hcore hv

theorem narrowTarget_bool (h : narrowTargetOf resolve closedWorld path = some .bool) :
    v.IsOf A resolve path ↔ v = .bool (!otherBool path) := by
  unfold Datum.IsOf
  rcases narrowTarget_cases h with ⟨c, -, hbool⟩ | ⟨hnone, hcore⟩
  · cases hbool
  · rw [hnone]
    exact coreConstTy_bool hcore

/-- The type tested for is right of a value that is of the class. -/
theorem describes_of_isOf (h : narrowTargetOf resolve closedWorld path = some target)
    (hv : v.IsOf A resolve path) : target.Describes A v := by
  by_cases hbool : target = .bool
  · subst hbool
    exact ⟨_, (narrowTarget_bool h).mp hv⟩
  · exact (narrowTarget_describes h hbool).mpr hv

/-- Types that are compared as one describe values of one class. -/
theorem describes_of_tyClassEq (h : narrowTargetOf resolve closedWorld path = some target)
    {part : Ty} (heq : tyClassEq part target = true) (hpart : part.Describes A v) :
    target.Describes A v := by
  have hloose : target ∈ [.int, .float, .str, .sym, .nil, .bool, .array .unknown,
      .hash .unknown .unknown] ∨ ∃ c, target = .instanceOf c := by
    rcases narrowTarget_cases h with ⟨c, -, rfl⟩ | ⟨-, hcore⟩
    · exact .inr ⟨c, rfl⟩
    · left
      unfold coreConstTy at hcore
      split at hcore <;> cases hcore <;> simp
  cases part with
  | array e =>
    obtain ⟨cls, elements, rfl, -⟩ := hpart
    cases target with
    | array e' =>
      have he' : e' = .unknown := by simpa using hloose
      simp [he']
    | _ => simp [tyClassEq] at heq
  | hash k w =>
    obtain ⟨cls, entries, rfl, -⟩ := hpart
    cases target with
    | hash k' w' =>
      have hkw : k' = .unknown ∧ w' = .unknown := by simpa using hloose
      simp [hkw]
    | _ => simp [tyClassEq] at heq
  | _ =>
    cases target <;> simp_all [tyClassEq]

end

/-! ### The ways out of a test -/

section

variable {scene : Scene} {e : Expr} {nw : Narrow}

/-- The conditions that the checker takes something from. -/
theorem Scene.narrowOf_cases (h : scene.narrowOf e = some nw) :
    (∃ loc, e = .localRead loc nw.var ∧ nw.kind = .truthy) ∨
    (∃ loc msg readLoc casts block, e = .callNode loc msg (some (.localRead readLoc nw.var)) "nil?"
      [] casts block ∧ nw.kind = .nilCheck) ∨
    (∃ loc msg readLoc arg casts block path target, e = .callNode loc msg
      (some (.localRead readLoc nw.var)) "is_a?" [arg] casts block ∧ arg.constPath = some path ∧
      scene.narrowTarget path = some target ∧ nw.kind = .isA target) ∨
    ∃ l r, e = .orNode l r ∧ nw.kind = .nilCheckOrGuard ∧
      (scene.narrowOf l = some ⟨nw.var, .nilCheck⟩ ∨
        scene.narrowOf r = some ⟨nw.var, .nilCheck⟩) := by
  cases e with
  | localRead loc name =>
    cases h
    exact .inl ⟨loc, rfl, rfl⟩
  | callNode loc msg receiver name arguments casts block =>
    obtain ⟨readLoc, rfl, ⟨rfl, rfl, hkind⟩ | ⟨arg, path, target, rfl, rfl, hpath, htarget,
      hkind⟩⟩ := Scene.narrowOfCall_eq_some h
    · exact .inr (.inl ⟨loc, msg, readLoc, casts, block, rfl, hkind⟩)
    · exact .inr (.inr (.inl ⟨loc, msg, readLoc, arg, casts, block, path, target, rfl, hpath,
        htarget, hkind⟩))
  | orNode l r =>
    rw [Scene.narrowOf, Option.or_eq_some_iff] at h
    refine .inr (.inr (.inr ⟨l, r, rfl, ?_⟩))
    rcases h with h | ⟨-, h⟩
    · exact ⟨(Scene.nilGuard_eq_some h).2, .inl (Scene.nilGuard_eq_some h).1⟩
    · exact ⟨(Scene.nilGuard_eq_some h).2, .inr (Scene.nilGuard_eq_some h).1⟩
  | _ => cases h

/-- A check for `nil` tells whether the local is. -/
theorem Expr.outcome_nilCheck {replies : Replies} {x : String} {v : Datum} {b : Bool}
    (h : scene.narrowOf e = some ⟨x, .nilCheck⟩) :
    e.Outcome replies x v b ↔ (b = true ↔ replies.isNil v) := by
  rcases Scene.narrowOf_cases h with ⟨_, _, hkind⟩ | ⟨loc, msg, readLoc, casts, block, rfl, _⟩ |
    ⟨_, _, _, _, _, _, _, _, _, _, _, hkind⟩ | ⟨_, _, _, hkind, _⟩
  · cases hkind
  · simp [Expr.Outcome]
  · cases hkind
  · cases hkind

/-- A check by `||` that comes out false has found its local not `nil`. -/
theorem Expr.outcome_guard {replies : Replies} {l r : Expr} {x : String} {v : Datum}
    (h : scene.narrowOf l = some ⟨x, .nilCheck⟩ ∨ scene.narrowOf r = some ⟨x, .nilCheck⟩)
    (houtcome : (Expr.orNode l r).Outcome replies x v false) : ¬ replies.isNil v := by
  obtain ⟨bl, br, hl, hr, hb⟩ := houtcome
  obtain ⟨rfl, rfl⟩ : bl = false ∧ br = false := by simpa using hb.symm
  intro hnil
  rcases h with h | h
  · exact absurd (((Expr.outcome_nilCheck h).mp hl).mpr hnil) (by simp)
  · exact absurd (((Expr.outcome_nilCheck h).mp hr).mpr hnil) (by simp)

end

section

variable {A : Ancestry} {resolve : ConstPath → Option ClassId} {closedWorld : Bool}
  {scene : Scene} {env : Env} {x : String} {ty : Ty} {replies : Replies}

/-- What a test that asks for no class leaves is right, if it is so without `nil`. -/
theorem refines_iff_of_untested {test : Test} {onTrue onFalse : Ty} (htested : test.tested = [])
    (htrue : ∀ v, ty.Describes A v → test.Outcome replies x v true → onTrue.Describes A v)
    (hfalse : ∀ v, ty.Describes A v → test.Outcome replies x v false → onFalse.Describes A v) :
    Refines A resolve replies x ty test onTrue onFalse ↔
      ¬ test.Overwrites A resolve ty ∧ ¬ test.DropsBoolean A resolve closedWorld ty := by
  constructor
  · intro _
    constructor
    · rintro ⟨c, -, ⟨path, hpath, -⟩, -⟩
      simp [htested] at hpath
    · intro hdrops
      cases test with
      | predicate e =>
        obtain ⟨path, hpath, -⟩ := hdrops
        simp [htested] at hpath
      | clause => exact hdrops
  · intro _
    refine ⟨htrue, hfalse, ?_⟩
    rintro c - ⟨path, hpath, -⟩
    simp [htested] at hpath

/-- The false way out of `is_a?`: the members of a union that are compared as one with the
class tested for are dropped. -/
theorem describes_eliminated {path : ConstPath} {target : Ty} {v : Datum}
    (htarget : narrowTargetOf resolve closedWorld path = some target)
    (hv : ty.Describes A v) (hnot : ¬ v.IsOf A resolve path)
    (hbool : target = .bool → v = .bool (otherBool path) → ∀ parts, ty = .union parts →
      .unknown ∉ parts → .bool ∈ parts → (∃ part ∈ parts, part ≠ .bool) →
        ∃ part ∈ parts, part ≠ .bool ∧ part.Describes A v)
    {narrowed : Ty} (h : eliminateUnionMember ty target = some narrowed) :
    narrowed.Describes A v := by
  obtain ⟨parts, rfl, hunknown, ⟨dropped, hdropped, heq⟩, hrest, -⟩ := Ty.eliminateUnionMember_eq h
  apply ((Ty.reading_describes A v).eliminate_iff h).mpr
  obtain ⟨part, hpart, hdescribes⟩ := Ty.anyDescribes_iff.mp hv
  by_cases hother : tyClassEq part target = true
  · have hin := describes_of_tyClassEq htarget hother hdescribes
    by_cases htb : target = .bool
    · subst htb
      have hbools : ∀ p : Ty, tyClassEq p .bool = true ↔ p = .bool := by
        intro p
        cases p <;> simp [tyClassEq]
      obtain ⟨b, rfl⟩ := hin
      have hb : b = otherBool path := by
        have hne : b ≠ !otherBool path := fun hb ↦
          hnot ((narrowTarget_bool htarget).mpr (by rw [hb]))
        simpa using hne
      obtain ⟨kept, hkept⟩ := List.exists_mem_of_ne_nil _ hrest
      rw [List.mem_filter, Bool.not_eq_true', Bool.eq_false_iff, ne_eq, hbools] at hkept
      obtain ⟨p, hp, hpb, hdesc⟩ := hbool rfl (by rw [hb]) parts rfl hunknown
        ((hbools dropped).mp heq ▸ hdropped) ⟨kept, hkept⟩
      refine ⟨p, hp, ?_, hdesc⟩
      rw [Bool.eq_false_iff, ne_eq, hbools]
      exact hpb
    · exact absurd ((narrowTarget_describes htarget htb).mp hin) hnot
  · exact ⟨part, hpart, by simpa using hother, hdescribes⟩

theorem is_a_refines {loc msg readLoc : Span} {arg : Expr} {casts : List (Option Cast)}
    {block : Option Expr} {path : ConstPath} {target : Ty} (hpath : arg.constPath = some path)
    (htarget : narrowTargetOf resolve closedWorld path = some target)
    (hplain : ∀ v, ty.Describes A v → replies.Plain A resolve v) :
    let test := Test.predicate
      (.callNode loc msg (some (.localRead readLoc x)) "is_a?" [arg] casts block)
    Refines A resolve replies x ty test target ((eliminateUnionMember ty target).getD ty) ↔
      ¬ test.Overwrites A resolve ty ∧ ¬ test.DropsBoolean A resolve closedWorld ty := by
  intro test
  have htested : test.tested = [path] := by simp [test, Test.tested, hpath]
  have hasked : path ∈ test.tested := by simp [htested]
  have houtcome : ∀ {v b}, ty.Describes A v →
      (test.Outcome replies x v b ↔ (b = true ↔ v.IsOf A resolve path)) := by
    intro v b hv
    simp [test, Test.Outcome, Expr.Outcome, hpath, (hplain v hv).isA]
  constructor
  · intro h
    constructor
    · rintro ⟨c, hty, hin, path', hpath', hne⟩
      rw [htested, List.mem_singleton] at hpath'
      subst hpath'
      rcases narrowTarget_cases htarget with ⟨d, hd, htd⟩ | ⟨-, hcore⟩
      · have hsame := htd.symm.trans (h.keeps c hty hin)
        exact hne (hd.trans (by rw [Ty.instanceOf.inj hsame]))
      · rw [h.keeps c hty hin] at hcore
        unfold coreConstTy at hcore
        split at hcore <;> cases hcore
    · rintro ⟨path', hpath', hbool, parts, rfl, hunknown, hmem, ⟨other, hother, hne⟩, hnone⟩
      rw [htested, List.mem_singleton] at hpath'
      subst hpath'
      obtain rfl : target = .bool := Option.some.inj (htarget.symm.trans hbool)
      have hbools : ∀ p : Ty, tyClassEq p .bool = false ↔ p ≠ .bool := by
        intro p
        cases p <;> simp [tyClassEq]
      have hdescribes : (Ty.union parts).Describes A (.bool (otherBool path')) :=
        Ty.anyDescribes_iff.mpr ⟨.bool, hmem, _, rfl⟩
      have hfalse := h.describes_false _ hdescribes
        ((houtcome hdescribes).mpr (by simp [narrowTarget_bool htarget]))
      obtain ⟨narrowed, hnarrowed⟩ := Ty.eliminateUnionMember_isSome hunknown
        ⟨.bool, hmem, rfl⟩ ⟨other, hother, (hbools other).mpr hne⟩
      rw [hnarrowed, Option.getD_some] at hfalse
      obtain ⟨part, hpart, hdiffers, hdesc⟩ :=
        ((Ty.reading_describes A _).eliminate_iff hnarrowed).mp hfalse
      exact hnone part hpart ((hbools part).mp hdiffers) hdesc
  · rintro ⟨hkeeps, hdrops⟩
    refine ⟨fun v hv hout ↦ ?_, fun v hv hout ↦ ?_, fun c hty hin ↦ ?_⟩
    · exact describes_of_isOf htarget (((houtcome hv).mp hout).mp rfl)
    · have hnot : ¬ v.IsOf A resolve path := fun hin ↦
        absurd (((houtcome hv).mp hout).mpr hin) (by simp)
      cases hnarrowed : eliminateUnionMember ty target with
      | none => exact hv
      | some narrowed =>
        apply describes_eliminated htarget hv hnot _ hnarrowed
        rintro rfl rfl parts rfl hunknown hmem hother
        by_contra hnone
        apply hdrops
        refine ⟨path, hasked, htarget, parts, rfl, hunknown, hmem, hother, ?_⟩
        exact fun part hpart hne hdesc ↦ hnone ⟨part, hpart, hne, hdesc⟩
    · have hc : resolve path = some c := by
        by_contra hne
        exact hkeeps ⟨c, hty, hin, path, hasked, hne⟩
      rcases narrowTarget_cases htarget with ⟨d, hd, rfl⟩ | ⟨hnone, -⟩
      · rw [Option.some.inj (hd.symm.trans hc)]
      · cases hnone.symm.trans hc

/-- A clause stands for one class only if all its conditions do. -/
theorem clause_eq_iff {c : ClassId} {t : Ty} {ts : List Ty} {conditions : List Expr}
    (h : List.Forall₂ (fun e u ↦ ∃ path, e.constPath = some path ∧
      narrowTargetOf resolve closedWorld path = some u) conditions (t :: ts)) :
    ts.foldl Ty.join t = .instanceOf c ↔
      ∀ path ∈ (Test.clause conditions).tested, resolve path = some c := by
  have hreading : Ty.Reading fun ty ↦ ∃ q ∈ ty.alternatives, q ≠ .instanceOf c :=
    { unknown := ⟨.unknown, by simp [Ty.alternatives], by simp⟩
      union := fun parts ↦ by
        rw [Ty.alternatives]
        induction parts with
        | nil => simp [Ty.alternativesAll]
        | cons part rest ih =>
          simp only [Ty.alternativesAll, List.mem_append, or_and_right, exists_or,
            List.exists_mem_cons_iff, ih] }
  constructor
  · intro heq path hpath
    obtain ⟨e, he, hpath⟩ := List.mem_filterMap.mp hpath
    obtain ⟨u, hu, path', hpath', htarget⟩ := forall₂_exists_right h e he
    obtain rfl : path = path' := Option.some.inj (hpath.symm.trans hpath')
    by_contra hne
    have halt : ∃ q ∈ u.alternatives, q ≠ .instanceOf c := by
      rcases narrowTarget_cases htarget with ⟨d, hd, rfl⟩ | ⟨-, hcore⟩
      · refine ⟨.instanceOf d, by simp [Ty.alternatives], fun hsame ↦ hne ?_⟩
        rw [hd, Ty.instanceOf.inj hsame]
      · refine ⟨u, ?_, ?_⟩
        all_goals
          unfold coreConstTy at hcore
          split at hcore <;> cases hcore <;> simp [Ty.alternatives]
    have hfold : ∃ q ∈ (ts.foldl Ty.join t).alternatives, q ≠ .instanceOf c := by
      rcases List.mem_cons.mp hu with rfl | hu
      · exact hreading.foldl_join (.inl halt)
      · exact hreading.foldl_join (.inr ⟨u, hu, halt⟩)
    rw [heq] at hfold
    simp [Ty.alternatives] at hfold
  · intro hall
    have hsame : ∀ u ∈ t :: ts, u = .instanceOf c := by
      intro u hu
      obtain ⟨e, he, path, hpath, htarget⟩ := forall₂_exists_right h.flip u hu
      have hc := hall path (List.mem_filterMap.mpr ⟨e, he, hpath⟩)
      rcases narrowTarget_cases htarget with ⟨d, hd, rfl⟩ | ⟨hnone, -⟩
      · rw [Option.some.inj (hd.symm.trans hc)]
      · cases hnone.symm.trans hc
    rw [hsame t List.mem_cons_self]
    exact Ty.foldl_join_const fun u hu ↦ hsame u (List.mem_cons_of_mem _ hu)

theorem clause_refines {conditions : List Expr} {t : Ty} {ts : List Ty}
    (h : List.Forall₂ (fun e u ↦ ∃ path, e.constPath = some path ∧
      narrowTargetOf resolve closedWorld path = some u) conditions (t :: ts))
    (hplain : ∀ v, ty.Describes A v → replies.Plain A resolve v) :
    let test := Test.clause conditions
    Refines A resolve replies x ty test (ts.foldl Ty.join t) ty ↔
      ¬ test.Overwrites A resolve ty ∧ ¬ test.DropsBoolean A resolve closedWorld ty := by
  intro test
  constructor
  · intro hrefines
    refine ⟨?_, id⟩
    rintro ⟨c, hty, hin, path, hpath, hne⟩
    exact hne ((clause_eq_iff h).mp (hrefines.keeps c hty hin) path hpath)
  · rintro ⟨hkeeps, -⟩
    refine ⟨fun v hv hout ↦ ?_, fun v hv _ ↦ hv, fun c hty hin ↦ ?_⟩
    · obtain ⟨e, he, path, hpath, hreply⟩ := hout.mp rfl
      obtain ⟨u, hu, path', hpath', htarget⟩ := forall₂_exists_right h e he
      obtain rfl : path = path' := Option.some.inj (hpath.symm.trans hpath')
      have hdescribes := describes_of_isOf htarget (((hplain v hv).caseEq path).mp hreply)
      rcases List.mem_cons.mp hu with rfl | hu
      · exact (Ty.reading_describes A v).foldl_join (.inl hdescribes)
      · exact (Ty.reading_describes A v).foldl_join (.inr ⟨u, hu, hdescribes⟩)
    · apply (clause_eq_iff h).mpr
      intro path hpath
      by_contra hne
      exact hkeeps ⟨c, hty, hin, path, hpath, hne⟩

end

/-! ### Checks of a local -/

/-- The values answer as Ruby's own classes do. -/
def Replies.own (A : Ancestry) (resolve : ConstPath → Option ClassId) : Replies where
  isNil v := v = .nil
  isA path v := v.IsOf A resolve path
  caseEq path v := v.IsOf A resolve path

/-- Each class inherits from those before it. -/
def Ruby.Ancestry.tower : Ancestry where
  inherits c d := d ≤ c
  core _ _ := False
  ofClass _ _ := False
  shape _ := .plain
  inherits_refl := Nat.le_refl
  inherits_trans h h' := h'.trans h
  core_trans h _ := h
  ofClass_trans h _ := h

/-- `User` and its subclass `Admin`. -/
def userNames (path : ConstPath) : Option ClassId :=
  match path with
  | ["User"] => some 0
  | ["Admin"] => some 1
  | _ => none

def userScene : Scene where
  selfTy := .unknown
  closedWorld := true
  narrowTarget := narrowTargetOf userNames true

/-- `x.is_a?(C)` -/
def isACheck (path : ConstPath) : Expr :=
  .callNode (0, 12) (2, 7) (some (.localRead (0, 1) "x")) "is_a?" [.constant (some path)] [] none

/-- `x.nil?` -/
def nilQuestion : Expr := .callNode (0, 6) (2, 6) (some (.localRead (0, 1) "x")) "nil?" [] [] none

end Itaruby
