import Itaruby.Index.Inheritance
import Itaruby.Walker.Growth

/-!
The open reason of a class in the index of a project given by its texts. Every fragment of
a file keeps the record of its grounds, and so does every class of the index; a ground
other than the `NotImplementedError` idiom is lost only where a class header was read while
its fragment was open for that idiom.
-/

set_option autoImplicit false
set_option relaxedAutoImplicit false

namespace Itaruby

theorem DefWalker.walkFile_grounded (env : WalkEnv) (root : Node) {frag : ClassFragment}
    (hfrag : frag ∈ (DefWalker.walkFile env root).fragments) : frag.GroundedFragment := by
  obtain ⟨i, hi⟩ := List.mem_iff_getElem?.mp hfrag
  exact (DefWalker.walk_grows env true root .toplevel {}).fresh i frag (Nat.zero_le i) hi

/-- A project read from the texts of its files, with the other inputs of a build. -/
def projectInput (fe : Frontend) (texts : List (SourceFile × Text)) (rest : BuildInput) :
    BuildInput :=
  { rest with files := texts.map fun (file, text) ↦ (file, parseDefsText fe text) }

theorem projectInput_grounded (fe : Frontend) (texts : List (SourceFile × Text))
    (rest : BuildInput) : ProjectIndex.FilesGrounded (projectInput fe texts rest).files := by
  intro entry hentry frag hfrag
  obtain ⟨⟨file, text⟩, -, rfl⟩ := List.mem_map.mp hentry
  exact DefWalker.walkFile_grounded _ _ hfrag

namespace ClassDef

/-- Some ground of the class is not the `NotImplementedError` idiom. -/
def OpenOtherwise (c : ClassDef) : Prop := ∃ g ∈ c.grounds, g.reason ≠ .abstractRaise

/-- Some such ground is no header read while its fragment was open for the idiom. -/
def OpenUnmasked (c : ClassDef) : Prop :=
  ∃ g ∈ c.grounds, g.reason ≠ .abstractRaise ∧ g.masked = false

end ClassDef

namespace ProjectIndex

theorem lookupMethod_ne_notFound {ix : ProjectIndex} {id : ClassId} {reason : OpenReason}
    (hopen : (ix.classOf id).isOpen = true) (hreason : (ix.classOf id).openReason = some reason)
    (hne : reason ≠ .abstractRaise) (name : String) :
    ¬ (ix.lookupMethod id name).Returns .notFound := by
  intro h
  have hsilent := (lookupMethod_notFound_iff.mp h).1.self.1
  simp [ClassDef.opaqueOpen, hopen, hreason, hne] at hsilent

/-- Every ground a file gives is on the record of the class; the class is open for another
reason than the idiom exactly when one of its other grounds was not masked, and then no
lookup on it answers `NotFound`. -/
theorem strong_reason_iff_unmasked (fe : Frontend) (texts : List (SourceFile × Text))
    (rest : BuildInput) {ix : ProjectIndex}
    (h : (buildIndex (projectInput fe texts rest)).Returns ix) :
    (∀ entry ∈ texts, ∀ frag ∈ (parseDefsText fe entry.2).fragments, ∀ id : ClassId,
      ix.byPath.lookup frag.path = some id → frag.grounds ⊆ (ix.classOf id).grounds) ∧
    ∀ id : ClassId, (ix.classOf id).OpenOtherwise →
      ((ix.classOf id).openReason ≠ some .abstractRaise ↔ (ix.classOf id).OpenUnmasked) ∧
      ((ix.classOf id).OpenUnmasked →
        ∀ name, ¬ (ix.lookupMethod id name).Returns .notFound) := by
  have hfiles := projectInput_grounded fe texts rest
  refine ⟨fun entry hentry frag hfrag id hid ↦ ?_, fun id hother ↦ ?_⟩
  · have hmem : (entry.1, parseDefsText fe entry.2) ∈ (projectInput fe texts rest).files :=
      List.mem_map.mpr ⟨entry, hentry, rfl⟩
    exact (buildIndex_holds hfiles h hmem hfrag hid).grounds
  · have hgrounded := buildIndex_grounded hfiles h id
    have hiff := hgrounded.reason_ne_weak_iff hother
    refine ⟨hiff, fun hunmasked ↦ ?_⟩
    have ⟨g, hg, _⟩ := hunmasked
    have hne : (ix.classOf id).grounds ≠ [] := List.ne_nil_of_mem hg
    obtain ⟨reason, hreason⟩ : ∃ reason, (ix.classOf id).openReason = some reason :=
      Option.ne_none_iff_exists'.mp fun hnone ↦ hne (hgrounded.reason_none_iff.mp hnone)
    refine lookupMethod_ne_notFound (hgrounded.isOpen_iff.mpr hne) hreason fun hweak ↦ ?_
    exact hiff.mpr hunmasked (hweak ▸ hreason)

/-! ### A dynamic superclass under the idiom -/

/-- `def run`, with a body that raises, at `start`. -/
def runDef (start : ℕ) : Node :=
  .defNode (start, start + 43) (start + 4, start + 7) none "run" none []
    (some (.statementsNode (start + 12, start + 37)
      [.callNode (start + 12, start + 37) none "raise"
        [.constantReadNode (start + 18, start + 37) "NotImplementedError"] none]))

def structText : Text :=
  "class Foo < Struct.new(:a)\n  def run\n    raise NotImplementedError\n  end\nend\n".toList

def structTree : Node :=
  .programNode (0, 76) (.statementsNode (0, 76)
    [.classNode (0, 76) (.constantReadNode (6, 9) "Foo")
      (some (.callNode (12, 26) (some (.constantReadNode (12, 18) "Struct")) "new"
        [.symbolNode (23, 25) "a"] none))
      (some (.statementsNode (29, 72) [runDef 29]))])

def memoText : Text :=
  "class Foo\n  def run\n    raise NotImplementedError\n  end\n  memoize :run\nend\n".toList

def memoTree : Node :=
  .programNode (0, 74) (.statementsNode (0, 74)
    [.classNode (0, 74) (.constantReadNode (6, 9) "Foo") none
      (some (.statementsNode (12, 70)
        [runDef 12,
          .callNode (58, 70) none "memoize" [.symbolNode (66, 70) "run"] none]))])

/-- The parse of the two texts; neither has a comment or names a namespace of Ruby's. -/
def fooFrontend : Frontend where
  parse text := ⟨if text = structText then structTree else memoTree, [], false⟩
  parseRbsComment _ := .error ""
  isAlphanumeric := Char.isAlphanum
  isCoreNamespace name := name ∈ ["Object", "Kernel", "BasicObject"]
  isKnownExternalClassPath path := path ∈ [["Object"], ["Kernel"], ["BasicObject"], ["Struct"]]

def fooIndex (text : Text) : ProjectIndex :=
  ((buildIndex (projectInput fooFrontend [("foo.rb", text)] { files := [] })).run 20).getD {}

/-- `Foo` inherits `a` from an expression; its record says it is open for the idiom only, and
`a` is reported as missing. -/
theorem foo_dynamic_superclass_masked :
    (buildIndex (projectInput fooFrontend [("foo.rb", structText)] { files := [] })).Returns
      (fooIndex structText) ∧
    (fooIndex structText).byPath.lookup ["Foo"] = some 0 ∧
    ((fooIndex structText).classOf 0).OpenOtherwise ∧
    ((fooIndex structText).classOf 0).openReason = some .abstractRaise ∧
    ((fooIndex structText).lookupMethod 0 "a").Returns .notFound := by
  have hgrounds : ((fooIndex structText).classOf 0).grounds =
      [{ reason := .abstractRaise }, { reason := .dynamicSuperclass, masked := true }] := by
    decide +kernel
  refine ⟨⟨20, by rfl⟩, by decide +kernel, ?_, by decide +kernel, 20, by rfl⟩
  exact ⟨{ reason := .dynamicSuperclass, masked := true }, by simp [hgrounds], by decide⟩

/-- A macro the walker does not know, after the idiom, is on the record. -/
theorem foo_unknown_macro_unmasked :
    ((fooIndex memoText).classOf 0).openReason ≠ some .abstractRaise ∧
    ∀ name, ¬ ((fooIndex memoText).lookupMethod 0 name).Returns .notFound := by
  have hix : (buildIndex (projectInput fooFrontend [("foo.rb", memoText)] { files := [] })).Returns
      (fooIndex memoText) := ⟨20, by rfl⟩
  have hgrounds : ((fooIndex memoText).classOf 0).grounds =
      [{ reason := .abstractRaise }, { reason := .unknownClassBodyCall }] := by decide +kernel
  have hunmasked : ((fooIndex memoText).classOf 0).OpenUnmasked :=
    ⟨{ reason := .unknownClassBodyCall }, by simp [hgrounds], by decide, rfl⟩
  have hother : ((fooIndex memoText).classOf 0).OpenOtherwise :=
    ⟨{ reason := .unknownClassBodyCall }, by simp [hgrounds], by decide⟩
  have h := (strong_reason_iff_unmasked fooFrontend [("foo.rb", memoText)] { files := [] } hix).2 0 hother
  exact ⟨h.1.mpr hunmasked, h.2 hunmasked⟩

end ProjectIndex

end Itaruby
