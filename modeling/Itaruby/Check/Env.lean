import Itaruby.Check.Types

/-!
The types of the local variables at one point of a walk, and what the walk does with them
where paths part, meet and repeat.
-/

set_option autoImplicit false
set_option relaxedAutoImplicit false

namespace Itaruby

/-- A local that the walk has not met has no type. -/
abbrev Env := String → Option Ty

namespace Env

def insert (env : Env) (name : String) (ty : Ty) : Env := Function.update env name (some ty)

@[simp] theorem insert_self (env : Env) (name : String) (ty : Ty) :
    env.insert name ty name = some ty := Function.update_self ..

theorem insert_ne (env : Env) {name x : String} (h : x ≠ name) (ty : Ty) :
    env.insert name ty x = env x := Function.update_of_ne h ..

/-- The type a branch gives to a name that some branch has. -/
def inBranch (base branch : Env) (name : String) : Ty := ((branch name).or (base name)).getD .nil

/-- `join_envs` -/
def join (base : Env) (branches : List Env) : Env := fun name ↦
  if branches.any fun b ↦ (b name).isSome then
    match branches.map fun b ↦ inBranch base b name with
    | [] => base name
    | t :: rest => some (rest.foldl Ty.join t)
  else base name

/-- `widen_env` -/
def widen (env : Env) : Env := fun name ↦ (env name).map fun _ ↦ .unknown

/-- `merge_loop_env` -/
def mergeLoop (base body : Env) : Env := fun name ↦
  match body name with
  | none => base name
  | some v =>
    match base name with
    | some prev => if prev = v then some prev else some (Ty.join prev v)
    | none => some (Ty.join .nil v)

/-- `spill_block_writes` -/
def spillBlockWrites (outer block : Env) : Env := fun name ↦
  match block name, outer name with
  | some v, some prev => if prev = v then some prev else some (Ty.join prev v)
  | _, prev => prev

end Env

/-! ### Narrowing -/

inductive NarrowKind
  | isA (ty : Ty)
  | nilCheck
  | nilCheckOrGuard
  | truthy

structure Narrow where
  var : String
  kind : NarrowKind

/-- `strip_nil` -/
def stripNil : Ty → Ty
  | .nil => .unknown
  | .union parts =>
    match parts.filter (· ≠ .nil) with
    | [] => .unknown
    | [single] => single
    | remaining => .union remaining
  | ty => ty

/-- `ty_class_eq` -/
def tyClassEq : Ty → Ty → Bool
  | .array _, .array _ => true
  | .hash _ _, .hash _ _ => true
  | .instanceOf x, .instanceOf y => decide (x = y)
  | .classOf x, .classOf y => decide (x = y)
  | a, b => decide (a = b)

/-- `eliminate_union_member` -/
def eliminateUnionMember (cur tested : Ty) : Option Ty :=
  match cur with
  | .union parts =>
    if parts.contains .unknown then none
    else if !parts.any (tyClassEq · tested) then none
    else
      match parts.filter fun p ↦ !tyClassEq p tested with
      | [] => none
      | [single] => some single
      | remaining => some (.union remaining)
  | _ => none

namespace Env

/-- `apply_narrow_true` -/
def narrowTrue (env : Env) (nw : Narrow) : Env :=
  match nw.kind with
  | .isA ty => env.insert nw.var ty
  | .nilCheck => env.insert nw.var .nil
  | .truthy => env.insert nw.var (stripNil ((env nw.var).getD .unknown))
  | .nilCheckOrGuard => env

/-- `apply_narrow_false`; `base` is the environment before the branch. -/
def narrowFalse (env : Env) (nw : Narrow) (base : Env) : Env :=
  match nw.kind with
  | .nilCheck | .nilCheckOrGuard => env.insert nw.var (stripNil ((base nw.var).getD .unknown))
  | .isA tested =>
    match eliminateUnionMember ((base nw.var).getD .unknown) tested with
    | some narrowed => env.insert nw.var narrowed
    | none => env
  | .truthy => env

end Env

end Itaruby
