import Itaruby.Walker.Source
import Mathlib.Data.List.TakeWhile

/-!
The closed world of `ita check`: which gems `Gemfile.lock` declares, which of them the scanner of
the lock reads, and which have an RBI file.
-/

set_option autoImplicit false
set_option relaxedAutoImplicit false

namespace Itaruby.Command

/-! ### The lock -/

/-- `lines` of what follows the start of a line, which is kept in reverse. -/
def linesFrom (line : Text) : Text → List Text
  | [] => if line = [] then [] else [line.reverse]
  | '\n' :: rest =>
    (match line with
      | '\r' :: line => line.reverse
      | line => line.reverse) :: linesFrom [] rest
  | c :: rest => linesFrom (c :: line) rest

def lines (text : Text) : List Text := linesFrom [] text

/-- What stands before the first `" ("`. -/
def beforeVersion : Text → Option Text
  | ' ' :: '(' :: _ => some []
  | c :: rest => (beforeVersion rest).map (c :: ·)
  | [] => none

/-- A line at column 0 begins a section. -/
def isHeader (line : Text) : Bool := !line.isEmpty && line.head? != some ' '

def stripIndent : Text → Option Text
  | ' ' :: ' ' :: ' ' :: ' ' :: rest => some rest
  | _ => none

def isReadable (c : Char) : Bool := c.isAlphanum || c == '-' || c == '_'

/-- The name that the scanner reads in a line of the specs. -/
def readSpec (line : Text) : Option Text :=
  match stripIndent line with
  | none => none
  | some rest =>
    if rest.head? = some ' ' then none
    else
      match beforeVersion rest with
      | none => none
      | some name => if !name.isEmpty && name.all isReadable then some name else none

/-- One line, with the gems so far and whether a `GEM` section is open. -/
def scanLine (s : List Text × Bool) (line : Text) : List Text × Bool :=
  let (gems, inGemSpecs) := s
  if isHeader line then (gems, line == "GEM".toList)
  else if !inGemSpecs then s
  else
    match readSpec line with
    | none => s
    | some name => if name ∈ gems then s else (gems ++ [name], inGemSpecs)

def parseGemfileLockGems (text : Text) : List Text :=
  ((lines text).foldl scanLine ([], false)).1

/-! ### The RBI files -/

/-- `file_stem` and `extension` of the name of a file. -/
def splitExtension (name : Text) : Text × Option Text :=
  match name.reverse.dropWhile (· ≠ '.') with
  | '.' :: c :: stem =>
    ((c :: stem).reverse, some (name.reverse.takeWhile (· ≠ '.')).reverse)
  | _ => (name, none)

/-- The gem that the name of an RBI file names. -/
def rbiName (file : Text) : Option Text :=
  if (splitExtension file).2 = some "rbi".toList then
    let stem := (splitExtension file).1
    if '@' ∈ stem then some (stem.takeWhile (· ≠ '@')) else none
  else none

def gemRbiNames (files : List Text) : List Text := files.filterMap rbiName

/-! ### The roots -/

/-- A directory of the upward walk. Its lock has a text if it can be read. -/
structure Dir where
  gemfile : Bool
  lock : Option (Option Text)
  gemspec : Bool

/-- A root that is checked: the directory it resolves to with those above it, and the names in the
`sorbet/rbi/gems` that is found upward of it. -/
structure Root where
  resolved : Option (List Dir)
  gemsDir : Option (List Text)

namespace Root

/-- A root that cannot be resolved has gems. -/
def gemsDetected (root : Root) : Bool :=
  match root.resolved with
  | none => true
  | some dirs => (dirs.take 4).any fun dir ↦ dir.gemfile || dir.lock.isSome || dir.gemspec

/-- The text of the nearest `Gemfile.lock`, if there is one and it can be read. -/
def lockText (root : Root) : Option Text :=
  match root.resolved with
  | none => none
  | some dirs => ((dirs.take 4).findSome? Dir.lock).join

def tapiocaCoverageComplete (root : Root) : Bool :=
  match root.lockText, root.gemsDir with
  | some text, some files =>
    let gems := parseGemfileLockGems text
    !gems.isEmpty && gems.all fun gem ↦ decide (gem ∈ gemRbiNames files)
  | _, _ => false

end Root

/-- `ClosedWorld` is wired when every root is safe. -/
def wireClosedWorld (roots : List Root) : Bool :=
  roots.all fun root ↦ !root.gemsDetected || root.tapiocaCoverageComplete

/-! ### What the lock declares -/

/-- The sections that declare gems. -/
inductive Source
  | gem
  | git
  | path
  | plugin
deriving DecidableEq, Repr

def Source.ofHeader (line : Text) : Option Source :=
  if line = "GEM".toList then some .gem
  else if line = "GIT".toList then some .git
  else if line = "PATH".toList then some .path
  else if line = "PLUGIN SOURCE".toList then some .plugin
  else none

/-- What a gem may be named with. -/
def isLegal (c : Char) : Bool := c.isAlphanum || c == '-' || c == '_' || c == '.'

/-- The name of a spec: a legal name after four spaces, and then its version. -/
def declaredName (line : Text) : Option Text :=
  match stripIndent line with
  | none => none
  | some rest =>
    let name := rest.takeWhile isLegal
    if !name.isEmpty && " (".toList.isPrefixOf (rest.dropWhile isLegal) then some name else none

structure LockedGem where
  source : Source
  name : Text
deriving DecidableEq, Repr

/-- The spec in a line of the section. -/
def declaredIn (source : Option Source) (line : Text) : List LockedGem :=
  match source, declaredName line with
  | some source, some name => [⟨source, name⟩]
  | _, _ => []

/-- The specs in the lines of a lock, from the section that is open. -/
def declaredGems (source : Option Source) : List Text → List LockedGem
  | [] => []
  | line :: lines =>
    if isHeader line then declaredGems (Source.ofHeader line) lines
    else declaredIn source line ++ declaredGems source lines

namespace Root

variable (root : Root)

def lockedGems : List LockedGem :=
  match root.lockText with
  | some text => declaredGems none (lines text)
  | none => []

/-- The gem has an RBI file `<name>@*.rbi`. -/
def Covers (name : Text) : Prop :=
  ∃ files, root.gemsDir = some files ∧
    ∃ version, name ++ '@' :: version ++ ".rbi".toList ∈ files

/-- Complete coverage leaves no gem of the lock out. -/
def Accounts : Prop :=
  root.tapiocaCoverageComplete = true → ∀ gem ∈ root.lockedGems, root.Covers gem.name

end Root

/-- The scanner reads a spec of a `GEM` section whose name has no dot. -/
def LockedGem.Read (gem : LockedGem) : Prop := gem.source = .gem ∧ '.' ∉ gem.name

/-- The gems that the scanner does not read have RBI files; or it does read one that has none, or
none at all, and the coverage is not complete. -/
def Root.Scanned (root : Root) : Prop :=
  (∀ gem ∈ root.lockedGems, ¬ gem.Read → root.Covers gem.name) ∨
    (∃ gem ∈ root.lockedGems, gem.Read ∧ ¬ root.Covers gem.name) ∨
    ∀ gem ∈ root.lockedGems, ¬ gem.Read

/-! ### Reading a spec -/

section Specs

variable {line name : Text} {source : Option Source}

theorem beforeVersion_eq_some {rest : Text} (h : beforeVersion rest = some name) :
    ∃ version, rest = name ++ ' ' :: '(' :: version := by
  induction rest generalizing name with
  | nil => cases h
  | cons c rest ih =>
    unfold beforeVersion at h
    split at h
    next version heq =>
      obtain ⟨rfl, rfl⟩ := List.cons.inj heq
      cases h
      exact ⟨version, rfl⟩
    next d tail heq =>
      obtain ⟨rfl, rfl⟩ := List.cons.inj heq
      obtain ⟨before, hbefore, rfl⟩ := Option.map_eq_some_iff.mp h
      obtain ⟨version, rfl⟩ := ih hbefore
      exact ⟨version, rfl⟩
    next heq => cases heq

theorem beforeVersion_append (hname : ' ' ∉ name) (version : Text) :
    beforeVersion (name ++ ' ' :: '(' :: version) = some name := by
  induction name with
  | nil => rfl
  | cons c name ih =>
    rw [List.mem_cons, not_or] at hname
    rw [List.cons_append, beforeVersion, ih hname.2]
    · rfl
    · rintro version rfl
      exact absurd rfl hname.1

theorem isLegal_of_isReadable {c : Char} (h : isReadable c) : isLegal c := by
  unfold isLegal
  rw [show (c.isAlphanum || c == '-' || c == '_') = true from h]
  rfl

theorem ne_dot_of_isReadable {c : Char} (h : isReadable c) : c ≠ '.' := by
  rintro rfl
  revert h
  decide

theorem isReadable_of_isLegal {c : Char} (h : isLegal c) (hdot : c ≠ '.') : isReadable c := by
  unfold isLegal at h
  rw [Bool.or_eq_true, beq_iff_eq] at h
  exact h.resolve_right hdot

/-- A run of characters ends where the first other one stands. -/
theorem takeWhile_append_stop {p : Char → Bool} {run : Text} (stop : Char) (rest : Text)
    (hrun : ∀ c ∈ run, p c) (hstop : ¬ p stop) :
    (run ++ stop :: rest).takeWhile p = run ∧
      (run ++ stop :: rest).dropWhile p = stop :: rest := by
  constructor
  · rw [List.takeWhile_append_of_pos hrun, List.takeWhile_cons_of_neg hstop, List.append_nil]
  · rw [List.dropWhile_append_of_pos hrun, List.dropWhile_cons_of_neg hstop]

/-- The grammar of a spec: a legal name after four spaces, and then a version. -/
theorem declaredName_eq_some :
    declaredName line = some name ↔ name ≠ [] ∧ (∀ c ∈ name, isLegal c) ∧
      ∃ version, stripIndent line = some (name ++ ' ' :: '(' :: version) := by
  unfold declaredName
  cases hindent : stripIndent line with
  | none => simp
  | some rest =>
    constructor
    · intro h
      simp only [Option.ite_none_right_eq_some, Bool.and_eq_true, Option.some.injEq] at h
      obtain ⟨⟨hne, hversion⟩, rfl⟩ := h
      obtain ⟨version, hrest⟩ := List.isPrefixOf_iff_prefix.mp hversion
      refine ⟨by simpa using hne, fun c hc ↦ List.mem_takeWhile_imp hc, version, ?_⟩
      have hsplit := List.takeWhile_append_dropWhile (p := isLegal) (l := rest)
      rw [← hrest] at hsplit
      exact congrArg some hsplit.symm
    · rintro ⟨hne, hlegal, version, hrest⟩
      obtain rfl := Option.some.inj hrest
      obtain ⟨htake, hdrop⟩ :=
        takeWhile_append_stop ' ' ('(' :: version) hlegal (by decide)
      simp only [htake, hdrop]
      rw [if_pos]
      rw [Bool.and_eq_true]
      exact ⟨by simpa using hne, rfl⟩

/-- The scanner reads the specs whose names have no dot. -/
theorem readSpec_eq_some :
    readSpec line = some name ↔ declaredName line = some name ∧ '.' ∉ name := by
  rw [declaredName_eq_some]
  constructor
  · intro h
    unfold readSpec at h
    split at h
    · cases h
    next rest hrest =>
      split at h
      · cases h
      · split at h
        · cases h
        next before hbefore =>
          simp only [Option.ite_none_right_eq_some, Bool.and_eq_true, List.all_eq_true,
            Option.some.injEq] at h
          obtain ⟨⟨hne, hreadable⟩, rfl⟩ := h
          obtain ⟨version, rfl⟩ := beforeVersion_eq_some hbefore
          refine ⟨⟨by simpa using hne, fun c hc ↦ isLegal_of_isReadable (hreadable c hc), version,
            hrest⟩, fun hdot ↦ ?_⟩
          exact ne_dot_of_isReadable (hreadable _ hdot) rfl
  · rintro ⟨⟨hne, hlegal, version, hrest⟩, hdot⟩
    have hreadable : ∀ c ∈ name, isReadable c := by
      intro c hc
      exact isReadable_of_isLegal (hlegal c hc) fun heq ↦ hdot (heq ▸ hc)
    have hspace : ' ' ∉ name := fun hmem ↦ absurd (hlegal _ hmem) (by decide)
    obtain ⟨c, tail, rfl⟩ := List.exists_cons_of_ne_nil hne
    have hhead : (c :: tail ++ ' ' :: '(' :: version).head? ≠ some ' ' := by
      intro heq
      exact hspace (Option.some.inj heq ▸ List.mem_cons_self)
    unfold readSpec
    simp only [hrest, if_neg hhead, beforeVersion_append hspace]
    rw [if_pos]
    rw [Bool.and_eq_true, List.all_eq_true]
    exact ⟨rfl, hreadable⟩

theorem mem_scanLine {s : List Text × Bool} (hheader : isHeader line = false) :
    (scanLine s line).2 = s.2 ∧ (name ∈ (scanLine s line).1 ↔
      name ∈ s.1 ∨ s.2 = true ∧ readSpec line = some name) := by
  obtain ⟨gems, inGemSpecs⟩ := s
  unfold scanLine
  simp only [hheader, Bool.false_eq_true, if_false]
  cases inGemSpecs with
  | false => simp
  | true =>
    simp only [Bool.not_true, Bool.false_eq_true, if_false]
    cases readSpec line with
    | none => simp
    | some read =>
      by_cases hmem : read ∈ gems
      · simp only [if_pos hmem, Option.some.injEq, true_and]
        refine ⟨.inl, ?_⟩
        rintro (hold | rfl)
        · exact hold
        · exact hmem
      · simp only [if_neg hmem, List.mem_append, List.mem_singleton, Option.some.injEq, true_and]
        exact or_congr_right eq_comm

theorem ofHeader_eq_gem : Source.ofHeader line = some .gem ↔ line = "GEM".toList := by
  unfold Source.ofHeader
  by_cases hgem : line = "GEM".toList
  · simp [hgem]
  · rw [if_neg hgem]
    refine iff_of_false ?_ hgem
    split
    · nofun
    · split
      · nofun
      · split <;> nofun

theorem exists_mem_declaredIn :
    (∃ gem ∈ declaredIn source line, gem.Read ∧ gem.name = name) ↔
      source = some .gem ∧ readSpec line = some name := by
  rw [readSpec_eq_some]
  unfold declaredIn LockedGem.Read
  split
  next source declared hdeclared =>
    simp only [List.mem_singleton, exists_eq_left, hdeclared, Option.some.injEq]
    constructor
    · rintro ⟨⟨hsource, hdot⟩, rfl⟩
      exact ⟨hsource, rfl, hdot⟩
    · rintro ⟨hsource, rfl, hdot⟩
      exact ⟨⟨hsource, hdot⟩, rfl⟩
  next hnone =>
    refine iff_of_false (by simp) ?_
    rintro ⟨rfl, hdeclared, -⟩
    exact hnone _ _ rfl hdeclared

/-- The scanner keeps track of the section as the lock has it. -/
theorem mem_foldl_scanLine (rest : List Text) (gems : List Text) :
    name ∈ (rest.foldl scanLine (gems, decide (source = some .gem))).1 ↔
      name ∈ gems ∨ ∃ gem ∈ declaredGems source rest, gem.Read ∧ gem.name = name := by
  induction rest generalizing gems source with
  | nil => simp [declaredGems]
  | cons line rest ih =>
    rw [List.foldl_cons, declaredGems]
    cases hheader : isHeader line with
    | true =>
      have hscan : scanLine (gems, decide (source = some .gem)) line =
          (gems, decide (Source.ofHeader line = some .gem)) := by
        simp only [scanLine, hheader, if_true, ofHeader_eq_gem]
        exact congrArg _ (beq_eq_decide line _)
      rw [hscan, ih, if_pos rfl]
    | false =>
      obtain ⟨hsection, hgems⟩ :=
        @mem_scanLine line name (gems, decide (source = some .gem)) hheader
      have hscan : scanLine (gems, decide (source = some .gem)) line =
          ((scanLine (gems, decide (source = some .gem)) line).1,
            decide (source = some .gem)) := Prod.ext rfl hsection
      rw [hscan, ih, hgems, decide_eq_true_iff, ← exists_mem_declaredIn, or_assoc]
      simp only [Bool.false_eq_true, if_false, List.mem_append, or_and_right, exists_or]

theorem mem_parseGemfileLockGems {text : Text} :
    name ∈ parseGemfileLockGems text ↔
      ∃ gem ∈ declaredGems none (lines text), gem.Read ∧ gem.name = name := by
  refine (@mem_foldl_scanLine name none (lines text) []).trans ?_
  simp

end Specs

/-! ### The names of the RBI files -/

section Files

variable {name file : Text}

theorem splitExtension_eq {stem ext : Text} :
    splitExtension file = (stem, some ext) ↔
      stem ≠ [] ∧ '.' ∉ ext ∧ file = stem ++ '.' :: ext := by
  constructor
  · intro h
    unfold splitExtension at h
    split at h
    next c rest hdrop =>
      obtain ⟨rfl, hext⟩ := Prod.mk.inj h
      obtain rfl := Option.some.inj hext
      have hsplit := List.takeWhile_append_dropWhile (p := (· ≠ '.')) (l := file.reverse)
      refine ⟨by simp, fun hdot ↦ ?_, ?_⟩
      · simpa using List.mem_takeWhile_imp (List.mem_reverse.mp hdot)
      · rw [hdrop] at hsplit
        have hback := (List.reverse_reverse file).symm.trans (congrArg List.reverse hsplit).symm
        refine hback.trans ?_
        simp
    next => cases h
  · rintro ⟨hne, hdot, rfl⟩
    obtain ⟨c, rest, hstem⟩ := List.exists_cons_of_ne_nil (List.reverse_ne_nil_iff.mpr hne)
    have hreverse : (stem ++ '.' :: ext).reverse = ext.reverse ++ '.' :: stem.reverse := by simp
    have hrun : ∀ c ∈ ext.reverse, decide (c ≠ '.') := by
      intro c hc
      exact decide_eq_true fun heq ↦ hdot (heq ▸ List.mem_reverse.mp hc)
    obtain ⟨htake, hdrop⟩ :=
      takeWhile_append_stop '.' stem.reverse hrun (by decide)
    unfold splitExtension
    simp only [hreverse, htake, hdrop, List.reverse_reverse]
    rw [hstem]
    simp only
    rw [← hstem, List.reverse_reverse]

/-- The name of an RBI file up to the first `@`. -/
theorem rbiName_eq_some (hname : '@' ∉ name) :
    rbiName file = some name ↔ ∃ version, name ++ '@' :: version ++ ".rbi".toList = file := by
  have hrun : ∀ {run : Text}, '@' ∉ run → ∀ c ∈ run, decide (c ≠ '@') := fun hrun c hc ↦
    decide_eq_true fun heq ↦ hrun (heq ▸ hc)
  constructor
  · intro h
    unfold rbiName at h
    simp only [Option.ite_none_right_eq_some, Option.some.injEq] at h
    obtain ⟨hext, hat, htake⟩ := h
    obtain ⟨-, -, hfile⟩ := splitExtension_eq.mp (Prod.ext rfl hext)
    obtain ⟨before, version, hstem, hbefore⟩ := List.eq_append_cons_of_mem hat
    rw [hstem, (takeWhile_append_stop '@' version (hrun hbefore) (by decide)).1] at htake
    subst htake
    exact ⟨version, (hfile.trans (congrArg (· ++ '.' :: "rbi".toList) hstem)).symm⟩
  · rintro ⟨version, rfl⟩
    have hsplit : splitExtension (name ++ '@' :: version ++ ".rbi".toList) =
        (name ++ '@' :: version, some "rbi".toList) :=
      splitExtension_eq.mpr ⟨by simp, by decide, rfl⟩
    unfold rbiName
    simp only [hsplit, if_true]
    rw [if_pos (List.mem_append_right _ List.mem_cons_self),
      (takeWhile_append_stop '@' version (hrun hname) (by decide)).1]

theorem mem_gemRbiNames {files : List Text} (hname : '@' ∉ name) :
    name ∈ gemRbiNames files ↔
      ∃ version, name ++ '@' :: version ++ ".rbi".toList ∈ files := by
  unfold gemRbiNames
  simp only [List.mem_filterMap, rbiName_eq_some hname]
  constructor
  · rintro ⟨file, hfile, version, rfl⟩
    exact ⟨version, hfile⟩
  · rintro ⟨version, hfile⟩
    exact ⟨_, hfile, version, rfl⟩

end Files

/-! ### The coverage -/

section Coverage

variable {root : Root} {name : Text} {gem : LockedGem}

theorem name_legal {source : Option Source} {rest : List Text}
    (hgem : gem ∈ declaredGems source rest) : '@' ∉ gem.name := by
  induction rest generalizing source with
  | nil => cases hgem
  | cons line rest ih =>
    rw [declaredGems] at hgem
    split at hgem
    · exact ih hgem
    · rcases List.mem_append.mp hgem with hline | hrest
      · unfold declaredIn at hline
        split at hline
        next source declared hdeclared =>
          rw [List.mem_singleton.mp hline]
          intro hat
          exact absurd ((declaredName_eq_some.mp hdeclared).2.1 _ hat) (by decide)
        next => cases hline
      · exact ih hrest

/-- The coverage is complete when the scanner reads a gem, and all that it reads have RBI files. -/
theorem tapiocaCoverageComplete_iff :
    root.tapiocaCoverageComplete = true ↔
      (∃ gem ∈ root.lockedGems, gem.Read) ∧
        ∀ gem ∈ root.lockedGems, gem.Read → root.Covers gem.name := by
  unfold Root.tapiocaCoverageComplete Root.lockedGems Root.Covers
  cases root.lockText with
  | none => simp
  | some text =>
    cases root.gemsDir with
    | none =>
      refine iff_of_false (by simp) ?_
      rintro ⟨⟨gem, hgem, hread⟩, hcovered⟩
      obtain ⟨files, hfiles, -⟩ := hcovered gem hgem hread
      cases hfiles
    | some files =>
      simp only [Bool.and_eq_true, Bool.not_eq_true', List.isEmpty_eq_false_iff_exists_mem,
        List.all_eq_true, decide_eq_true_eq, mem_parseGemfileLockGems]
      constructor
      · rintro ⟨⟨-, gem, hgem, hread, -⟩, hcovered⟩
        refine ⟨⟨gem, hgem, hread⟩, fun other hother hreads ↦ ⟨files, rfl, ?_⟩⟩
        exact (mem_gemRbiNames (name_legal hother)).mp (hcovered _ ⟨other, hother, hreads, rfl⟩)
      · rintro ⟨⟨gem, hgem, hread⟩, hcovered⟩
        refine ⟨⟨gem.name, gem, hgem, hread, rfl⟩, ?_⟩
        rintro name ⟨other, hother, hreads, rfl⟩
        obtain ⟨found, hfound, hversion⟩ := hcovered other hother hreads
        obtain rfl := Option.some.inj hfound
        exact (mem_gemRbiNames (name_legal hother)).mpr hversion

/-- Complete coverage accounts for every gem of the lock exactly when the gems that the scanner
does not read have RBI files, unless one that it reads has none, or it reads none. -/
theorem accounts_iff : root.Accounts ↔ root.Scanned := by
  unfold Root.Accounts Root.Scanned
  rw [tapiocaCoverageComplete_iff]
  constructor
  · intro h
    by_cases huncovered : ∃ gem ∈ root.lockedGems, gem.Read ∧ ¬ root.Covers gem.name
    · exact .inr (.inl huncovered)
    · by_cases hread : ∃ gem ∈ root.lockedGems, gem.Read
      · refine .inl fun gem hgem _ ↦ h ⟨hread, fun other hother hreads ↦ ?_⟩ gem hgem
        by_contra hcovers
        exact huncovered ⟨other, hother, hreads, hcovers⟩
      · exact .inr (.inr fun gem hgem hreads ↦ hread ⟨gem, hgem, hreads⟩)
  · rintro hscanned ⟨⟨first, hfirst, hread⟩, hcovered⟩ gem hgem
    rcases hscanned with hothers | ⟨other, hother, hreads, huncovered⟩ | hnone
    · by_cases hreads : gem.Read
      · exact hcovered gem hgem hreads
      · exact hothers gem hgem hreads
    · exact absurd (hcovered other hother hreads) huncovered
    · exact absurd hread (hnone first hfirst)

/-- Where no gem is detected there is no lock. -/
theorem lockedGems_of_not_gemsDetected (h : root.gemsDetected = false) :
    root.lockedGems = [] := by
  have hnone : root.lockText = none := by
    unfold Root.gemsDetected at h
    unfold Root.lockText
    cases hresolved : root.resolved with
    | none => rfl
    | some dirs =>
      rw [hresolved] at h
      simp only [List.any_eq_false, Bool.or_eq_true, not_or] at h
      have hlock : (dirs.take 4).findSome? Dir.lock = none :=
        List.findSome?_eq_none_iff.mpr fun dir hdir ↦ by simpa using (h dir hdir).1.2
      simp [hlock]
  unfold Root.lockedGems
  rw [hnone]

/-- The coverage of a root is complete in fact exactly when the scanner leaves no gem out that has
no RBI file; and where this holds of every root, the closed world has every locked gem accounted
for. -/
theorem closedWorld_accounts (roots : List Root) :
    (∀ root : Root, root.Accounts ↔ root.Scanned) ∧
      ((∀ root ∈ roots, root.Scanned) → wireClosedWorld roots = true →
        ∀ root ∈ roots, ∀ gem ∈ root.lockedGems, root.Covers gem.name) := by
  refine ⟨fun root ↦ accounts_iff, fun hscanned hwired root hroot gem hgem ↦ ?_⟩
  unfold wireClosedWorld at hwired
  rw [List.all_eq_true] at hwired
  have hsafe := hwired root hroot
  rw [Bool.or_eq_true, Bool.not_eq_true'] at hsafe
  rcases hsafe with hgemless | hcomplete
  · rw [lockedGems_of_not_gemsDetected hgemless] at hgem
    cases hgem
  · exact accounts_iff.mpr (hscanned root hroot) hcomplete gem hgem

/-- A project with a gem from RubyGems and one of its own, of which only the first has an RBI
file. -/
def localPatch : Root where
  resolved := some [
    { gemfile := true
      lock := some (some ("GEM\n  specs:\n    rake (13.0.6)\n\n" ++
        "PATH\n  remote: .\n  specs:\n    patch (0.1.0)\n").toList)
      gemspec := true }]
  gemsDir := some ["rake@13.0.6.rbi".toList]

theorem localPatch_unaccounted : ¬ ∀ root : Root, root.Accounts := by
  intro h
  have hcomplete : localPatch.tapiocaCoverageComplete = true := by decide
  have hlocked : (⟨.path, "patch".toList⟩ : LockedGem) ∈ localPatch.lockedGems := by decide
  obtain ⟨files, hfiles, version, hversion⟩ := h localPatch hcomplete _ hlocked
  obtain rfl := Option.some.inj hfiles
  cases List.mem_singleton.mp hversion

end Coverage

end Itaruby.Command
