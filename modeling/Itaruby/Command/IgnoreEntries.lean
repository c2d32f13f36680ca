import Itaruby.Library.Substrings
import Mathlib.Data.UInt

/-!
The `--ignore` entries of `sorbet/config`: which files of the project they name. Paths and entries
are their bytes.
-/

set_option autoImplicit false
set_option relaxedAutoImplicit false

namespace Itaruby.Discovery

abbrev Bytes := List UInt8

def slash : UInt8 := 47

/-- One slash at the end is dropped. -/
def normalizeIgnoreEntry (path : Bytes) : Bytes :=
  if path.getLast? = some slash then path.dropLast else path

section

variable (path entry : Bytes)

/-- `none` where the index is out of range. -/
def endsAtBoundary (stop : ℕ) : Option Bool :=
  if stop = path.length then some true else path[stop]?.map (· == slash)

/-- A match counts where it stands right after a slash and ends at one. -/
def matchCounts (place : ℕ) : Option Bool :=
  match place with
  | 0 => none
  | before + 1 =>
    path[before]?.bind fun c ↦
      if c = slash then endsAtBoundary path (place + entry.length) else some false

def ignoreEntryMatches : Option Bool :=
  if entry = [] ∨ entry = [slash] then some false
  else if entry.head? = some slash then
    if entry.isPrefixOf path then endsAtBoundary path entry.length else some false
  else (path.matchIndices entry).anyM (matchCounts path entry)

end

def pathIsIgnored (rel : Bytes) (ignoreList : List Bytes) : Option Bool :=
  ignoreList.anyM (ignoreEntryMatches (slash :: rel))

/-! ### Components -/

/-- A path relative to the input directory. -/
structure RelPath where
  components : List Bytes
  nonempty : components ≠ []
  names : ∀ c ∈ components, c ≠ [] ∧ slash ∉ c

namespace RelPath

def text (rel : RelPath) : Bytes := [slash].intercalate rel.components

theorem splitOn_text (rel : RelPath) : rel.text.splitOn slash = rel.components :=
  List.splitOn_intercalate slash (fun c hc ↦ (rel.names c hc).2) rel.nonempty

end RelPath

/-- The components of the entry begin those of the path, or with no slash before them stand
anywhere among these in one run. -/
def Names (components : List Bytes) (entry : Bytes) : Prop :=
  if entry.head? = some slash then entry.tail.splitOn slash <+: components
  else entry.splitOn slash <:+: components

section

variable (path entry : Bytes)

/-- The entry begins after a slash of the path and ends before one or at the end. -/
def StandsAt (place : ℕ) : Prop :=
  ∃ before after, path ++ [slash] = before ++ slash :: (entry ++ slash :: after) ∧
    place = before.length + 1

/-- The place is inside a match that began before. -/
def Hidden (place : ℕ) : Prop :=
  ∃ g ∈ path.matchIndices entry, g < place ∧ place < g + entry.length

/-- The search comes to the entry, if it stands in the path at all. -/
def Findable : Prop :=
  entry.head? = some slash ∨ ∃ place, StandsAt path entry place ∧ ¬ Hidden path entry place

end

section

variable {rel entry : Bytes}

theorem endsAtBoundary_of_prefix {text path : Bytes} (h : text <+: path) :
    ∃ b, endsAtBoundary path text.length = some b ∧
      (b = true ↔ ∃ after, path ++ [slash] = text ++ slash :: after) := by
  obtain ⟨rest, rfl⟩ := h
  unfold endsAtBoundary
  cases rest with
  | nil => simp
  | cons c rest =>
    refine ⟨c == slash, by simp, ?_⟩
    rw [beq_iff_eq]
    constructor
    · rintro rfl
      exact ⟨rest ++ [slash], by simp⟩
    · rintro ⟨after, hafter⟩
      rw [List.append_assoc, List.append_cancel_left_eq] at hafter
      exact (List.cons.inj hafter).1

theorem StandsAt.split {path : Bytes} {place : ℕ} (h : StandsAt path entry place) :
    ∃ before rest, path = before ++ slash :: (entry ++ rest) ∧ place = before.length + 1 := by
  obtain ⟨before, after, hpath, hplace⟩ := h
  refine ⟨before, (slash :: after).dropLast, ?_, hplace⟩
  have hcut := congrArg List.dropLast hpath
  rw [List.dropLast_concat, List.dropLast_append_of_ne_nil (List.cons_ne_nil _ _),
    List.dropLast_cons_of_ne_nil (by simp), List.dropLast_append_of_ne_nil (List.cons_ne_nil _ _)]
    at hcut
  exact hcut

theorem matchCounts_spec {path before rest : Bytes} {c : UInt8}
    (hpath : path = before ++ c :: (entry ++ rest)) :
    ∃ b, matchCounts path entry (before.length + 1) = some b ∧
      (b = true ↔ StandsAt path entry (before.length + 1)) := by
  have hstands : StandsAt path entry (before.length + 1) ↔
      c = slash ∧ ∃ after, path ++ [slash] = (before ++ c :: entry) ++ slash :: after := by
    constructor
    · rintro ⟨before', after, hframe, hlength⟩
      have hfirst := hframe
      rw [hpath, List.append_assoc] at hfirst
      obtain ⟨rfl, htail⟩ := List.append_inj hfirst (by omega)
      have hc : c = slash := (List.cons.inj htail).1
      refine ⟨hc, after, ?_⟩
      rw [hframe, hc]
      simp
    · rintro ⟨rfl, after, hframe⟩
      exact ⟨before, after, by simpa using hframe, rfl⟩
  have hget : path[before.length]? = some c := by simp [hpath]
  rw [hstands, matchCounts, hget, Option.bind_some]
  by_cases hc : c = slash
  · have hprefix : before ++ c :: entry <+: path := ⟨rest, by simp [hpath]⟩
    have hlength : before.length + 1 + entry.length = (before ++ c :: entry).length := by
      simp
      omega
    rw [if_pos hc, hlength]
    simpa [hc] using endsAtBoundary_of_prefix hprefix
  · exact ⟨false, by rw [if_neg hc], by simp [hc]⟩

theorem anyM_eq_some {α : Type} {f : α → Option Bool} {l : List α}
    (h : ∀ x ∈ l, ∃ b, f x = some b) :
    ∃ b, l.anyM f = some b ∧ (b = true ↔ ∃ x ∈ l, f x = some true) := by
  induction l with
  | nil => exact ⟨false, rfl, by simp⟩
  | cons x rest ih =>
    obtain ⟨b, hb, hany⟩ := ih fun y hy ↦ h y (List.mem_cons_of_mem x hy)
    obtain ⟨first, hfirst⟩ := h x List.mem_cons_self
    cases first with
    | true => exact ⟨true, by simp [List.anyM, hfirst], by simp [hfirst]⟩
    | false => exact ⟨b, by simpa [List.anyM, hfirst] using hb, by simp [hfirst, hany]⟩

end

section

variable (rel : RelPath) {entry : Bytes}

theorem names_iff_standsAt (hrel : entry.head? ≠ some slash) :
    Names rel.components entry ↔ ∃ place, StandsAt (slash :: rel.text) entry place := by
  rw [Names, if_neg hrel, ← rel.splitOn_text]
  constructor
  · rintro ⟨fields, fields', h⟩
    obtain ⟨after, hframe⟩ := List.framed_of_run h.symm
    exact ⟨_, _, after, hframe, rfl⟩
  · rintro ⟨place, before, after, hframe, _⟩
    exact ⟨_, _, (List.run_of_framed hframe).symm⟩

theorem names_iff_begins (hroot : entry.head? = some slash) :
    Names rel.components entry ↔
      ∃ after, slash :: rel.text ++ [slash] = entry ++ slash :: after := by
  obtain ⟨_, hentry⟩ := List.head?_eq_some_iff.mp hroot
  rw [Names, if_pos hroot, ← rel.splitOn_text, hentry, List.tail_cons]
  constructor
  · rintro ⟨fields, h⟩
    have hrun : rel.text.splitOn slash = [] ++ List.splitOn slash _ ++ fields := h.symm
    obtain ⟨after, hframe⟩ := List.framed_of_run hrun
    exact ⟨after, by simpa [List.withSep] using hframe⟩
  · rintro ⟨after, hframe⟩
    have hstart : slash :: (rel.text ++ [slash]) = [] ++ slash :: (_ ++ slash :: after) := hframe
    have hrun := List.run_of_framed hstart
    exact ⟨_, by simpa using hrun.symm⟩

theorem not_names_of_blank (hblank : entry = [] ∨ entry = [slash]) :
    ¬ Names rel.components entry := by
  have hnil : [] ∉ rel.components := fun hmem ↦ (rel.names _ hmem).1 rfl
  rcases hblank with rfl | rfl
  · exact fun h ↦ hnil (h.subset List.mem_cons_self)
  · exact fun h ↦ hnil (h.subset List.mem_cons_self)

theorem not_hidden_of_mem {path : Bytes} {place : ℕ} (hne : entry ≠ [])
    (hplace : place ∈ path.matchIndices entry) : ¬ Hidden path entry place := by
  rintro ⟨g, hg, hlt, hover⟩
  have hfree := ((List.mem_matchIndices_iff hne).mp hplace).2 g hg hlt
  omega

theorem mem_of_not_hidden {path : Bytes} {place : ℕ} (hne : entry ≠ [])
    (hplaced : StandsAt path entry place) (hfree : ¬ Hidden path entry place) :
    place ∈ path.matchIndices entry := by
  obtain ⟨before, rest, hpath, rfl⟩ := hplaced.split
  refine (List.mem_matchIndices_iff hne).mpr ⟨⟨rest, ?_⟩, ?_⟩
  · rw [hpath, ← List.drop_drop]
    simp
  · intro g hg hlt
    by_contra hover
    exact hfree ⟨g, hg, hlt, by omega⟩

/-- Every match of an entry with no slash before it has a byte before it. -/
theorem matchCounts_of_mem (rel : Bytes) (hroot : entry.head? ≠ some slash) (hne : entry ≠ [])
    (place : ℕ) (hplace : place ∈ (slash :: rel).matchIndices entry) :
    ∃ b, matchCounts (slash :: rel) entry place = some b ∧
      (b = true ↔ StandsAt (slash :: rel) entry place) := by
  obtain ⟨rest, hrest⟩ := ((List.mem_matchIndices_iff hne).mp hplace).1
  cases place with
  | zero =>
    have hhead := congrArg List.head? hrest
    rw [List.drop_zero, List.head?_append_of_ne_nil _ hne, List.head?_cons] at hhead
    exact absurd hhead hroot
  | succ before =>
    have hlt : before < (slash :: rel).length := by
      by_contra hge
      rw [List.drop_eq_nil_of_le (by omega)] at hrest
      exact hne (List.append_eq_nil_iff.mp hrest).1
    have hpath : slash :: rel = (slash :: rel).take before ++
        (slash :: rel)[before] :: (entry ++ rest) := by
      rw [hrest, List.getElem_cons_drop, List.take_append_drop]
    have hbefore : ((slash :: rel).take before).length = before := by
      rw [List.length_take]
      omega
    simpa only [hbefore] using matchCounts_spec hpath

theorem ignoreEntryMatches_spec (entry : Bytes) :
    ∃ b, ignoreEntryMatches (slash :: rel.text) entry = some b ∧
      (b = true ↔ Names rel.components entry ∧ Findable (slash :: rel.text) entry) := by
  unfold ignoreEntryMatches
  by_cases hblank : entry = [] ∨ entry = [slash]
  · exact ⟨false, by rw [if_pos hblank], by simp [not_names_of_blank rel hblank]⟩
  · rw [if_neg hblank]
    by_cases hroot : entry.head? = some slash
    · rw [if_pos hroot, names_iff_begins rel hroot]
      have hfindable : Findable (slash :: rel.text) entry := .inl hroot
      split
      · rename_i hprefix
        simpa [hfindable] using endsAtBoundary_of_prefix (List.isPrefixOf_iff_prefix.mp hprefix)
      · rename_i hprefix
        refine ⟨false, rfl, ?_⟩
        constructor
        · intro h
          cases h
        · rintro ⟨⟨after, hframe⟩, -⟩
          refine absurd (List.isPrefixOf_iff_prefix.mpr ?_) hprefix
          have hcut := congrArg List.dropLast hframe
          rw [List.dropLast_concat, List.dropLast_append_of_ne_nil (List.cons_ne_nil _ _)] at hcut
          exact ⟨_, hcut.symm⟩
    · rw [if_neg hroot, names_iff_standsAt rel hroot]
      have hne : entry ≠ [] := fun h ↦ hblank (.inl h)
      have hspec := matchCounts_of_mem rel.text hroot hne
      obtain ⟨b, hb, hany⟩ :=
        anyM_eq_some fun place hplace ↦ (hspec place hplace).imp fun _ ↦ And.left
      refine ⟨b, hb, hany.trans ?_⟩
      constructor
      · rintro ⟨place, hplace, hcounts⟩
        obtain ⟨b', hb', hstands⟩ := hspec place hplace
        have hplaced := hstands.mp (Option.some.inj (hb'.symm.trans hcounts))
        exact ⟨⟨place, hplaced⟩, .inr ⟨place, hplaced, not_hidden_of_mem hne hplace⟩⟩
      · rintro ⟨-, hfind⟩
        obtain ⟨place, hplaced, hfree⟩ := hfind.resolve_left hroot
        have hplace := mem_of_not_hidden hne hplaced hfree
        obtain ⟨b', hb', hstands⟩ := hspec place hplace
        exact ⟨place, hplace, by rw [hb', hstands.mpr hplaced]⟩

/-- The indices of the check are in range. It names what the components of the entries name, if and
only if it finds one of the entries that name the path, where there are any. -/
theorem pathIsIgnored_iff (rel : RelPath) (ignoreList : List Bytes) :
    ∃ b, pathIsIgnored rel.text ignoreList = some b ∧
      ((b = true ↔ ∃ entry ∈ ignoreList, Names rel.components entry) ↔
        ((∃ entry ∈ ignoreList, Names rel.components entry) →
          ∃ entry ∈ ignoreList,
            Names rel.components entry ∧ Findable (slash :: rel.text) entry)) := by
  have hspec := fun entry ↦ ignoreEntryMatches_spec rel entry
  obtain ⟨b, hb, hany⟩ := anyM_eq_some fun entry (_ : entry ∈ ignoreList) ↦
    (hspec entry).imp fun _ ↦ And.left
  have hfound : b = true ↔ ∃ entry ∈ ignoreList,
      Names rel.components entry ∧ Findable (slash :: rel.text) entry := by
    refine hany.trans (exists_congr fun entry ↦ and_congr_right fun _ ↦ ?_)
    obtain ⟨b', hb', hnames⟩ := hspec entry
    rw [hb', Option.some_inj, hnames]
  refine ⟨b, hb, ?_⟩
  rw [hfound]
  constructor
  · exact fun h ↦ h.mpr
  · intro h
    constructor
    · exact fun ⟨entry, hmem, hnames, _⟩ ↦ ⟨entry, hmem, hnames⟩
    · exact h

/-- An entry of one component is found wherever it stands. -/
theorem findable_of_single (hnames : Names rel.components entry) (hsingle : slash ∉ entry) :
    Findable (slash :: rel.text) entry := by
  have hroot : entry.head? ≠ some slash := fun h ↦ hsingle (List.mem_of_mem_head? h)
  obtain ⟨place, hplaced⟩ := (names_iff_standsAt rel hroot).mp hnames
  refine .inr ⟨place, hplaced, ?_⟩
  rintro ⟨g, hg, hlt, hover⟩
  have hne : entry ≠ [] := by
    rintro rfl
    simp at hover
    omega
  obtain ⟨rest, hrest⟩ := ((List.mem_matchIndices_iff hne).mp hg).1
  obtain ⟨before, rest', hpath, rfl⟩ := hplaced.split
  have hget : (slash :: rel.text)[before.length]? = some slash := by simp [hpath]
  have hinside : (entry ++ rest)[before.length - g]? = some slash := by
    rw [hrest, List.getElem?_drop]
    rwa [Nat.add_sub_cancel' (by omega)]
  rw [List.getElem?_append_left (by omega)] at hinside
  exact hsingle (List.mem_of_getElem? hinside)

end

/-! ### Entries as they are written -/

/-- A slash at the end of an entry makes no difference. -/
theorem normalizeIgnoreEntry_slash {entry : Bytes} (h : entry.getLast? ≠ some slash) :
    normalizeIgnoreEntry (entry ++ [slash]) = entry ∧ normalizeIgnoreEntry entry = entry := by
  constructor
  · simp [normalizeIgnoreEntry]
  · rw [normalizeIgnoreEntry, if_neg h]

def letterA : UInt8 := 97

/-- `ba/a/a` -/
def repeatedName : RelPath where
  components := [[letterA + 1, letterA], [letterA], [letterA]]
  nonempty := List.cons_ne_nil _ _
  names := by decide

/-- `ba/a/a` is not ignored by the entry `a/a`: the search finds it inside the first component, and
goes on behind that. -/
theorem repeatedName_kept :
    pathIsIgnored repeatedName.text [[letterA, slash, letterA]] = some false ∧
      Names repeatedName.components [letterA, slash, letterA] := by
  refine ⟨by decide, ?_⟩
  have hsplit : [letterA, slash, letterA].splitOn slash = [[letterA], [letterA]] := by
    have hletter : slash ∉ [letterA] := by decide
    have hcut := List.splitOn_append_cons_self_of_not_mem hletter [letterA]
    have hlast : [letterA].splitOn slash = [[letterA]] := List.splitOn_eq_singleton hletter
    rwa [hlast] at hcut
  rw [Names, if_neg (by decide), hsplit]
  exact ⟨[[letterA + 1, letterA]], [], rfl⟩

end Itaruby.Discovery
