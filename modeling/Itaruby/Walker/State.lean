import Itaruby.Walker.Source

/-!
The state of the definition walk of one file and the operations on its fragments.
-/

set_option autoImplicit false
set_option relaxedAutoImplicit false

namespace Itaruby

namespace ClassFragment

/-- `DefWalker::open_class` on the fragment: the first reason stays, except that any other
reason replaces `abstractRaise`. -/
def openWith (f : ClassFragment) (reason : OpenReason) : ClassFragment :=
  { f with
    isOpen := true
    openReason :=
      if f.openReason = none ∨ (f.openReason = some .abstractRaise ∧ reason ≠ .abstractRaise) then
        some reason
      else f.openReason
    grounds := f.grounds ++ [{ reason }] }

/-- How the header of a class opens its fragment: only a missing reason is filled. -/
def openHeader (f : ClassFragment) (reason : OpenReason) : ClassFragment :=
  { f with
    isOpen := true
    openReason := if f.openReason = none then some reason else f.openReason
    grounds := f.grounds ++ [{ reason, masked := f.openReason = some .abstractRaise }] }

/-- A fragment that is born open. -/
def bornOpen (f : ClassFragment) (reason : OpenReason) : ClassFragment :=
  { f with isOpen := true, openReason := some reason, grounds := [{ reason }] }

/-- `DefWalker::track`. -/
def pushTracks (f : ClassFragment) (inSingleton : Bool) (defs : List MethodDef) : ClassFragment :=
  if inSingleton then { f with singletonMethods := f.singletonMethods ++ defs }
  else { f with methods := f.methods ++ defs }

def pushExtends (f : ClassFragment) (path : ConstPath) : ClassFragment :=
  if path ∈ f.extends' then f else { f with extends' := f.extends' ++ [path] }

end ClassFragment

structure DefWalker where
  fragments : List ClassFragment := []
  sigErrors : List (ℕ × ℕ × String) := []
  coreMixin : Bool := false
  consts : List (ConstPath × ℕ × ℕ) := []
  requires : List String := []
  toplevelConsts : List String := []
  qualifiedWrites : List (ConstPath × String) := []
  constAliases : List (ConstPath × List ConstPath × ConstPath) := []
  pendingSorbetRet : Option String := none

/-- Where a statement stands. -/
structure WalkCtx where
  scope : ConstPath
  nesting : List ConstPath
  fragIdx : Option ℕ
  inSingleton : Bool

namespace DefWalker

def modifyFragment (w : DefWalker) (i : ℕ) (f : ClassFragment → ClassFragment) : DefWalker :=
  { w with fragments := w.fragments.modify i f }

def pushFragment (w : DefWalker) (frag : ClassFragment) : DefWalker :=
  { w with fragments := w.fragments ++ [frag] }

def openClass (w : DefWalker) (i : ℕ) (reason : OpenReason) : DefWalker :=
  w.modifyFragment i (·.openWith reason)

def openClassHeader (w : DefWalker) (i : ℕ) (reason : OpenReason) : DefWalker :=
  w.modifyFragment i (·.openHeader reason)

/-- Definitions filed on the track a body's definitions belong to. -/
def fileTrack (w : DefWalker) (i : ℕ) (inSingleton : Bool) (defs : List MethodDef) : DefWalker :=
  w.modifyFragment i (·.pushTracks inSingleton defs)

def fragmentAt (w : DefWalker) (i : ℕ) : ClassFragment :=
  w.fragments.getD i { path := [], nesting := [], isModule := false }

/-- `DefWalker::fragment_idx_for`: a fragment for a path named from somewhere else, held aside
until the merge knows whether the project declares the path. -/
def fragmentIdxFor (w : DefWalker) (path : ConstPath) (nesting : List ConstPath) :
    DefWalker × ℕ :=
  match w.fragments.findIdx? (·.path == path) with
  | some i => (w, i)
  | none =>
    (w.pushFragment
      { path, nesting := nesting ++ [path], isModule := false, declaredOwnerRequired := true },
      w.fragments.length)

/-- The last fragment of a path: `fragments.iter_mut().rev().find(..)`. -/
def lastFragmentIdx (w : DefWalker) (path : ConstPath) : Option ℕ :=
  match w.fragments.reverse.findIdx? (·.path == path) with
  | some back => some (w.fragments.length - 1 - back)
  | none => none

/-- `DefWalker::method_def`. -/
def methodDef (env : WalkEnv) (w : DefWalker) (site : DefSite) : DefWalker × MethodDef :=
  let (md, errors) := buildMethodDef env site w.pendingSorbetRet
  ({ w with sigErrors := w.sigErrors ++ errors, pendingSorbetRet := none }, md)

end DefWalker

end Itaruby
