import Itaruby.Server.State
import Mathlib.Data.Fintype.EquivFin

/-!
`ProjectFiles` over the life of the server: what the workspace gives at the start, and what each
notification makes of it.
-/

set_option autoImplicit false
set_option relaxedAutoImplicit false

namespace Itaruby.Server

/-! ### The values of a map -/

namespace PathMap

variable {β : Type} {m : PathMap β} {path : Path} {b c : β}

theorem mem_values : b ∈ m.values ↔ ∃ path, m.lookup path = some b := by
  simp only [values, List.mem_map]
  constructor
  · rintro ⟨⟨path, value⟩, hmem, rfl⟩
    exact ⟨path, AList.mem_lookup_iff.mpr hmem⟩
  · rintro ⟨path, h⟩
    exact ⟨⟨path, b⟩, AList.mem_lookup_iff.mp h, rfl⟩

theorem mem_values_insert (hnew : path ∉ m) :
    c ∈ values (m.insert path b) ↔ c = b ∨ c ∈ m.values := by
  simp only [values, AList.entries_insert_of_notMem hnew, List.map_cons, List.mem_cons]

theorem mem_values_of_mem_insert (h : c ∈ values (m.insert path b)) : c = b ∨ c ∈ m.values := by
  obtain ⟨other, hlookup⟩ := mem_values.mp h
  by_cases hother : other = path
  · subst hother
    rw [AList.lookup_insert] at hlookup
    exact .inl (Option.some.inj hlookup).symm
  · rw [AList.lookup_insert_ne hother] at hlookup
    exact .inr (mem_values.mpr ⟨other, hlookup⟩)

end PathMap

/-! ### The files that are known -/

/-- Every file lies under its own path, and was created before the next one. -/
structure Filed (created : ℕ) (files : PathMap SourceFile) : Prop where
  named : ∀ path file, files.lookup path = some file → file.path = path
  before : ∀ path file, files.lookup path = some file → file.id < created

namespace Filed

variable {created : ℕ} {files : PathMap SourceFile} {path : Path} {file : SourceFile}

theorem insert (h : Filed created files) (hpath : file.path = path) (hid : file.id < created) :
    Filed created (files.insert path file) := by
  constructor
  all_goals
    intro other found hlookup
    by_cases hother : other = path
    · subst hother
      rw [AList.lookup_insert] at hlookup
      cases hlookup
      assumption
    · rw [AList.lookup_insert_ne hother] at hlookup
      first
        | exact h.named other found hlookup
        | exact h.before other found hlookup

theorem mono (h : Filed created files) {later : ℕ} (hle : created ≤ later) :
    Filed later files :=
  ⟨h.named, fun path file hlookup ↦ (h.before path file hlookup).trans_le hle⟩

theorem lookup_of_mem (h : Filed created files) (hfile : file ∈ files.values) :
    files.lookup file.path = some file := by
  obtain ⟨path, hlookup⟩ := PathMap.mem_values.mp hfile
  rwa [h.named path file hlookup]

theorem insert_new (h : Filed created files) :
    Filed (created + 1) (files.insert path ⟨created, path⟩) :=
  (h.mono (Nat.le_succ created)).insert rfl (Nat.lt_succ_self created)

theorem fresh (h : Filed created files) : (⟨created, path⟩ : SourceFile) ∉ files.values := by
  intro hmem
  have hlt := h.before _ _ (h.lookup_of_mem hmem)
  exact absurd hlt (Nat.lt_irrefl created)

end Filed

/-! ### Loading the workspace -/

/-- What is found is filed, and no ignored file is among the files of the project. -/
structure Loading.Fits (l : Loading) : Prop where
  filed : Filed l.db.created l.files
  ignoredBefore : ∀ file ∈ l.ignored, file.id < l.db.created
  apart : ∀ file ∈ l.files.values, file ∉ l.ignored
  unset : l.db.inputs.ignored = none

section Load

variable {ws : Workspace} {l : Loading} {path : Path}

theorem Loading.Fits.add (h : l.Fits) (text : String) :
    Fits { l with
      db := (l.db.newFile path text).1
      files := l.files.insert path ⟨l.db.created, path⟩ } where
  filed := h.filed.insert_new
  ignoredBefore file hfile := (h.ignoredBefore file hfile).trans (Nat.lt_succ_self _)
  apart file hfile := by
    rcases PathMap.mem_values_of_mem_insert hfile with rfl | hold
    · exact fun hmem ↦ absurd (h.ignoredBefore _ hmem) (Nat.lt_irrefl _)
    · exact h.apart file hold
  unset := h.unset

theorem Loading.Fits.ignore (h : l.Fits) (text : String) :
    Fits { l with
      db := (l.db.newFile path text).1
      ignored := l.ignored ++ [⟨l.db.created, path⟩] } where
  filed := h.filed.mono (Nat.le_succ _)
  ignoredBefore file hfile := by
    rcases List.mem_append.mp hfile with hold | hnew
    · exact (h.ignoredBefore file hold).trans (Nat.lt_succ_self _)
    · rw [List.mem_singleton.mp hnew]
      exact Nat.lt_succ_self _
  apart file hfile hmem := by
    rcases List.mem_append.mp hmem with hold | hnew
    · exact h.apart file hfile hold
    · rw [List.mem_singleton.mp hnew] at hfile
      exact h.filed.fresh hfile
  unset := h.unset

theorem Loading.Fits.discover (h : l.Fits) (path : Path) : (l.discover ws path).Fits := by
  simp only [Loading.discover, Db.newFile]
  split
  next => exact h
  next text _ =>
    split
    next => exact h.ignore text
    next => exact h.add text

theorem Loading.Fits.declare (h : l.Fits) (path : Path) : (l.declare ws path).Fits := by
  simp only [Loading.declare, Db.newFile]
  split
  next => exact h
  next =>
    split
    next => exact h
    next text _ => exact h.add text

theorem Workspace.loading_fits (ws : Workspace) : ws.loading.Fits := by
  have hempty : Loading.Fits ⟨.empty, ∅, []⟩ :=
    ⟨⟨nofun, nofun⟩, nofun, nofun, rfl⟩
  have hdiscovered : (ws.discovered.foldl (Loading.discover ws) ⟨.empty, ∅, []⟩).Fits :=
    List.foldlRecOn _ _ hempty fun _ hl path _ ↦ hl.discover path
  exact List.foldlRecOn _ _ hdiscovered fun _ hl path _ ↦ hl.declare path

theorem mem_discover_files {other : Path} (h : other ∈ (l.discover ws path).files) :
    ws.ignored other = false ∨ other ∈ l.files := by
  simp only [Loading.discover, Db.newFile] at h
  split at h
  next => exact .inr h
  next =>
    split at h
    next => exact .inr h
    next hkept =>
      rcases (AList.mem_insert _).mp h with rfl | hold
      · exact .inl (by simpa using hkept)
      · exact .inr hold

theorem mem_discover_ignored {other : Path} :
    (∃ file ∈ (l.discover ws path).ignored, file.path = other) ↔
      (∃ file ∈ l.ignored, file.path = other) ∨
        other = path ∧ (ws.read other).isSome ∧ ws.ignored other := by
  simp only [Loading.discover, Db.newFile]
  split
  next hread =>
    refine ⟨.inl, ?_⟩
    rintro (hold | ⟨rfl, hsome, -⟩)
    · exact hold
    · rw [hread] at hsome
      cases hsome
  next text hread =>
    split
    next hignored =>
      simp only [List.mem_append, List.mem_singleton, or_and_right, exists_or, exists_eq_left]
      refine or_congr_right ⟨?_, fun h ↦ h.1.symm⟩
      rintro rfl
      exact ⟨rfl, by rw [hread]; rfl, hignored⟩
    next hkept =>
      refine ⟨.inl, ?_⟩
      rintro (hold | ⟨rfl, -, hignored⟩)
      · exact hold
      · exact absurd hignored hkept

theorem mem_declare_files {other : Path} :
    other ∈ (l.declare ws path).files ↔
      other ∈ l.files ∨ other = path ∧ (ws.readSchema other).isSome := by
  simp only [Loading.declare, Db.newFile]
  split
  next hknown =>
    refine ⟨.inl, ?_⟩
    rintro (hold | ⟨rfl, -⟩)
    · exact hold
    · exact hknown
  next =>
    split
    next hread =>
      refine ⟨.inl, ?_⟩
      rintro (hold | ⟨rfl, hsome⟩)
      · exact hold
      · rw [hread] at hsome
        cases hsome
    next text hread =>
      rw [AList.mem_insert, or_comm]
      refine or_congr_right ⟨?_, And.left⟩
      rintro rfl
      exact ⟨rfl, by rw [hread]; rfl⟩

theorem declare_ignored : (l.declare ws path).ignored = l.ignored := by
  simp only [Loading.declare, Db.newFile]
  split
  next => rfl
  next => split <;> rfl

theorem mem_foldl_discover_files {paths : List Path} {other : Path}
    (h : other ∈ (paths.foldl (Loading.discover ws) l).files) :
    ws.ignored other = false ∨ other ∈ l.files := by
  induction paths generalizing l with
  | nil => exact .inr h
  | cons path paths ih =>
    rcases ih h with hkept | hfile
    · exact .inl hkept
    · exact mem_discover_files hfile

theorem mem_foldl_discover_ignored {paths : List Path} {other : Path} :
    (∃ file ∈ (paths.foldl (Loading.discover ws) l).ignored, file.path = other) ↔
      (∃ file ∈ l.ignored, file.path = other) ∨
        other ∈ paths ∧ (ws.read other).isSome ∧ ws.ignored other := by
  induction paths generalizing l with
  | nil => simp
  | cons path paths ih =>
    rw [List.foldl_cons, ih, mem_discover_ignored, List.mem_cons, or_assoc, ← or_and_right]

theorem mem_foldl_declare_files {paths : List Path} {other : Path} :
    other ∈ (paths.foldl (Loading.declare ws) l).files ↔
      other ∈ l.files ∨ other ∈ paths ∧ (ws.readSchema other).isSome := by
  induction paths generalizing l with
  | nil => simp
  | cons path paths ih =>
    rw [List.foldl_cons, ih, mem_declare_files, List.mem_cons, or_assoc, ← or_and_right]

theorem foldl_declare_ignored {paths : List Path} :
    (paths.foldl (Loading.declare ws) l).ignored = l.ignored := by
  induction paths generalizing l with
  | nil => rfl
  | cons path paths ih => rw [List.foldl_cons, ih, declare_ignored]

/-- The ignored files that are found are those that the walk can read. -/
theorem Workspace.mem_loading_ignored :
    (∃ file ∈ ws.loading.ignored, file.path = path) ↔
      path ∈ ws.discovered ∧ (ws.read path).isSome ∧ ws.ignored path := by
  rw [Workspace.loading, foldl_declare_ignored, mem_foldl_discover_ignored]
  simp

/-- A path that is ignored is a file of the project only as a declaration source. -/
theorem Workspace.mem_loading_files (h : path ∈ ws.loading.files) :
    ws.ignored path = false ∨ path ∈ ws.declarationsOnly ∧ (ws.readSchema path).isSome := by
  rcases mem_foldl_declare_files.mp h with hfile | hdeclared
  · rcases mem_foldl_discover_files hfile with hkept | hempty
    · exact .inl hkept
    · exact absurd hempty (AList.notMem_empty _)
  · exact .inr hdeclared

theorem Workspace.mem_loading_files_of_declared (h : path ∈ ws.declarationsOnly)
    (hread : (ws.readSchema path).isSome) : path ∈ ws.loading.files :=
  mem_foldl_declare_files.mpr (.inr ⟨h, hread⟩)

end Load

/-! ### The server after the start -/

/-- The states of the main loop, over any notifications. -/
inductive Reachable (ws : Workspace) : MainLoop → Prop
  | start : Reachable ws (loadWorkspace ws)
  | handle {m : MainLoop} (n : Notification) (h : Reachable ws m) :
      Reachable ws (m.handleNotification n).1

/-- The path that a notification opens for the first time, under the root and not ignored. -/
def MainLoop.opensNew (m : MainLoop) : Notification → Option Path
  | .didOpen (some path) _ _ true false => if path ∈ m.files then none else some path
  | _ => none

/-- One list of files has the files of the other, and one new file at the path if there is one. -/
def Adds (before after : List SourceFile) : Option Path → Prop
  | none => ∀ file, file ∈ after ↔ file ∈ before
  | some path =>
    ∃ added ∉ before, added.path = path ∧ ∀ file, file ∈ after ↔ file = added ∨ file ∈ before

/-- `ProjectFiles` is what the next new file makes of it, but for that file. -/
def MainLoop.Rebuilt (m : MainLoop) : Prop :=
  ∀ file, file ∈ m.db.projectFiles ↔ file ∈ m.files.values ∧ file ∉ m.db.ignoredFiles

section Handle

variable {ws : Workspace} {m m' : MainLoop} {n : Notification} {out : Option Outgoing}
  {path : Path} {file : SourceFile}

/-- Every file is filed, and every ignored file was created before the next one. -/
structure MainLoop.Kept (m : MainLoop) : Prop where
  filed : Filed m.db.created m.files
  ignoredBefore : ∀ file ∈ m.db.ignoredFiles, file.id < m.db.created

/-! Handling a notification touches the files in one of three ways. -/

theorem MainLoop.Kept.handle (h : m.Kept) (hn : m.Handling n m' out) : m'.Kept := by
  cases hn with
  | unchanged | warned | closed => exact ⟨h.filed, h.ignoredBefore⟩
  | opened | changed => exact ⟨h.filed, h.ignoredBefore⟩
  | openedIgnored =>
    refine ⟨h.filed.mono (Nat.le_succ _), fun file hfile ↦ ?_⟩
    rcases List.mem_append.mp hfile with hold | hnew
    · exact (h.ignoredBefore file hold).trans (Nat.lt_succ_self _)
    · rw [List.mem_singleton.mp hnew]
      exact Nat.lt_succ_self _
  | openedNew =>
    exact ⟨h.filed.insert_new, fun file hfile ↦
      (h.ignoredBefore file hfile).trans (Nat.lt_succ_self _)⟩

/-- Opening a new file makes `ProjectFiles` of the files that are known. -/
theorem mem_openNew_projectFiles {text : String} (hnew : path ∉ m.files) :
    file ∈ (m.openNew path text).db.projectFiles ↔
      (file = ⟨m.db.created, path⟩ ∨ file ∈ m.files.values) ∧ file ∉ m.db.ignoredFiles := by
  change file ∈ (PathMap.values (m.files.insert path ⟨m.db.created, path⟩)).filter
    (· ∉ m.db.ignoredFiles) ↔ _
  rw [List.mem_filter, PathMap.mem_values_insert hnew, decide_eq_true_iff]

theorem MainLoop.Kept.new_notIgnored (h : m.Kept) :
    (⟨m.db.created, path⟩ : SourceFile) ∉ m.db.ignoredFiles := fun hmem ↦
  absurd (h.ignoredBefore _ hmem) (Nat.lt_irrefl _)

/-- While `ProjectFiles` is what the files make of it, opening a file only adds it. -/
theorem MainLoop.Rebuilt.adds (hm : m.Rebuilt) (h : m.Kept) (hn : m.Handling n m' out) :
    Adds m.db.projectFiles m'.db.projectFiles (m.opensNew n) := by
  cases hn with
  | unchanged n hknown =>
    have hnone : m.opensNew n = none := by
      unfold MainLoop.opensNew
      split
      next path version text => exact if_pos (hknown path version text rfl)
      next => rfl
    rw [hnone]
    exact fun _ ↦ Iff.rfl
  | @opened path version text ignored file hknown =>
    have hmem : path ∈ m.files := AList.lookup_isSome.mp (by rw [hknown]; rfl)
    have hnone : m.opensNew (.didOpen (some path) version text true ignored) = none := by
      cases ignored with
      | false => exact if_pos hmem
      | true => rfl
    rw [hnone]
    exact fun _ ↦ Iff.rfl
  | warned | changed | closed | openedIgnored => exact fun _ ↦ Iff.rfl
  | @openedNew path version text hnew =>
    have hsome : m.opensNew (.didOpen (some path) version text true false) = some path :=
      if_neg hnew
    rw [hsome]
    refine ⟨⟨m.db.created, path⟩, fun hmem ↦ h.filed.fresh ((hm _).mp hmem).1, rfl, fun file ↦ ?_⟩
    rw [show file ∈ ((m.openNew path text).schedule path version).1.db.projectFiles ↔ _ from
      mem_openNew_projectFiles hnew, hm file, or_and_right]
    refine or_congr_left ⟨And.left, ?_⟩
    rintro rfl
    exact ⟨rfl, h.new_notIgnored⟩

theorem MainLoop.Rebuilt.handle (hm : m.Rebuilt) (h : m.Kept) (hn : m.Handling n m' out) :
    m'.Rebuilt := by
  cases hn with
  | unchanged | warned | closed | opened | changed => exact hm
  | openedIgnored =>
    intro file
    change file ∈ m.db.projectFiles ↔
      file ∈ m.files.values ∧ file ∉ m.db.ignoredFiles ++ [⟨m.db.created, _⟩]
    rw [hm file, List.mem_append, List.mem_singleton, not_or]
    refine and_congr_right fun hfile ↦ ⟨fun hkept ↦ ⟨hkept, ?_⟩, And.left⟩
    rintro rfl
    exact h.filed.fresh hfile
  | @openedNew path version text hnew =>
    intro file
    refine (mem_openNew_projectFiles hnew).trans ?_
    rw [← PathMap.mem_values_insert hnew]
    rfl

end Handle

/-! ### What the server starts with -/

section Start

variable {ws : Workspace} {m : MainLoop} {path : Path} {file : SourceFile}

theorem projectFiles_loadWorkspace :
    (loadWorkspace ws).db.projectFiles = ws.loading.files.values := by
  simp only [loadWorkspace]
  split <;> rfl

theorem ignoredFiles_loadWorkspace : (loadWorkspace ws).db.ignoredFiles = ws.loading.ignored := by
  simp only [loadWorkspace]
  split
  next hempty =>
    change ws.loading.db.inputs.ignored.getD [] = _
    rw [ws.loading_fits.unset, List.isEmpty_iff.mp hempty]
    rfl
  next => rfl

theorem created_loadWorkspace : (loadWorkspace ws).db.created = ws.loading.db.created := by
  simp only [loadWorkspace]
  split <;> rfl

theorem filed_foldl_insert {created : ℕ} {files : PathMap SourceFile} (h : Filed created files)
    {added : List SourceFile} (hadded : ∀ file ∈ added, file.id < created) :
    Filed created (added.foldl (fun files file ↦ files.insert file.path file) files) := by
  induction added generalizing files with
  | nil => exact h
  | cons file added ih =>
    exact ih (h.insert rfl (hadded file List.mem_cons_self)) fun other hother ↦
      hadded other (List.mem_cons_of_mem _ hother)

theorem lookup_foldl_insert_of_notMem {files : PathMap SourceFile} {added : List SourceFile}
    (h : ∀ file ∈ added, file.path ≠ path) :
    (added.foldl (fun files file ↦ files.insert file.path file) files).lookup path =
      files.lookup path := by
  induction added generalizing files with
  | nil => rfl
  | cons first added ih =>
    rw [List.foldl_cons, ih fun file hfile ↦ h file (List.mem_cons_of_mem _ hfile),
      AList.lookup_insert_ne (h first List.mem_cons_self).symm]

/-- A file that is added later takes the place of the one at its path. -/
theorem lookup_foldl_insert_of_mem (files : PathMap SourceFile) {added : List SourceFile}
    (h : ∃ file ∈ added, file.path = path) :
    ∃ file ∈ added,
      (added.foldl (fun files file ↦ files.insert file.path file) files).lookup path =
        some file := by
  induction added generalizing files with
  | nil =>
    obtain ⟨file, hmem, -⟩ := h
    cases hmem
  | cons first added ih =>
    by_cases hlater : ∃ file ∈ added, file.path = path
    · obtain ⟨file, hmem, hlookup⟩ := ih (files.insert first.path first) hlater
      exact ⟨file, List.mem_cons_of_mem _ hmem, hlookup⟩
    · have hfirst : first.path = path := by
        obtain ⟨file, hmem, hpath⟩ := h
        rcases List.mem_cons.mp hmem with rfl | hmem
        · exact hpath
        · exact absurd ⟨file, hmem, hpath⟩ hlater
      refine ⟨first, List.mem_cons_self, ?_⟩
      rw [List.foldl_cons, lookup_foldl_insert_of_notMem (by simpa using hlater), ← hfirst,
        AList.lookup_insert]

theorem loadWorkspace_kept (ws : Workspace) : (loadWorkspace ws).Kept where
  filed := by
    rw [created_loadWorkspace]
    exact filed_foldl_insert ws.loading_fits.filed ws.loading_fits.ignoredBefore
  ignoredBefore := by
    rw [created_loadWorkspace, ignoredFiles_loadWorkspace]
    exact ws.loading_fits.ignoredBefore

/-- The walk of the root finds an ignored file that is also a declaration source. -/
def Workspace.Overlaps (ws : Workspace) (path : Path) : Prop :=
  (path ∈ ws.discovered ∧ (ws.read path).isSome ∧ ws.ignored path) ∧
    path ∈ ws.declarationsOnly ∧ (ws.readSchema path).isSome

theorem loadWorkspace_rebuilt (h : ¬ ∃ path, ws.Overlaps path) : (loadWorkspace ws).Rebuilt := by
  intro file
  rw [projectFiles_loadWorkspace, ignoredFiles_loadWorkspace]
  have hfits := ws.loading_fits
  constructor
  · intro hmem
    refine ⟨PathMap.mem_values.mpr ⟨file.path, ?_⟩, hfits.apart file hmem⟩
    have hlookup := hfits.filed.lookup_of_mem hmem
    change (ws.loading.ignored.foldl _ ws.loading.files).lookup file.path = _
    rw [lookup_foldl_insert_of_notMem, hlookup]
    intro other hother hpath
    have hignored := Workspace.mem_loading_ignored.mp ⟨other, hother, hpath⟩
    have hknown : file.path ∈ ws.loading.files := AList.lookup_isSome.mp (by rw [hlookup]; rfl)
    rcases Workspace.mem_loading_files hknown with hkept | hdeclared
    · rw [hkept] at hignored
      exact absurd hignored.2.2 nofun
    · exact h ⟨file.path, hignored, hdeclared⟩
  · rintro ⟨hmem, hkept⟩
    obtain ⟨path, hlookup⟩ := PathMap.mem_values.mp hmem
    change (ws.loading.ignored.foldl _ ws.loading.files).lookup path = _ at hlookup
    by_cases hignored : ∃ other ∈ ws.loading.ignored, other.path = path
    · obtain ⟨other, hother, hfound⟩ := lookup_foldl_insert_of_mem _ hignored
      rw [hfound] at hlookup
      cases hlookup
      exact absurd hother hkept
    · rw [lookup_foldl_insert_of_notMem (by simpa using hignored)] at hlookup
      exact PathMap.mem_values.mpr ⟨path, hlookup⟩

theorem Reachable.kept (h : Reachable ws m) : m.Kept := by
  induction h with
  | start => exact loadWorkspace_kept ws
  | handle n _ ih => exact ih.handle (MainLoop.handling _ n)

theorem Reachable.rebuilt (hws : ¬ ∃ path, ws.Overlaps path) (h : Reachable ws m) :
    m.Rebuilt := by
  induction h with
  | start => exact loadWorkspace_rebuilt hws
  | handle n h ih => exact ih.handle h.kept (MainLoop.handling _ n)

/-- The declaration source at an ignored path is in `ProjectFiles`, but not among the files. -/
theorem exists_lost (h : ws.Overlaps path) :
    ∃ file ∈ (loadWorkspace ws).db.projectFiles, file ∉ (loadWorkspace ws).files.values := by
  obtain ⟨hignored, hdeclared, hread⟩ := h
  obtain ⟨file, hlookup⟩ := Option.isSome_iff_exists.mp
    (AList.lookup_isSome.mpr (ws.mem_loading_files_of_declared hdeclared hread))
  have hfits := ws.loading_fits
  have hmem : file ∈ ws.loading.files.values := PathMap.mem_values.mpr ⟨path, hlookup⟩
  refine ⟨file, by rwa [projectFiles_loadWorkspace], fun hvalue ↦ ?_⟩
  have hfound := (loadWorkspace_kept ws).filed.lookup_of_mem hvalue
  obtain ⟨other, hother, hat⟩ := lookup_foldl_insert_of_mem ws.loading.files
    (Workspace.mem_loading_ignored.mpr hignored)
  rw [hfits.filed.named path file hlookup] at hfound
  rw [show (loadWorkspace ws).files.lookup path = some other from hat] at hfound
  cases hfound
  exact hfits.apart file hmem hother

/-- Opening a file only adds it, in every state of the server, exactly when no ignored file of the
walk is also a declaration source. -/
theorem openings_add_iff (ws : Workspace) :
    (∀ m, Reachable ws m → ∀ n,
        Adds m.db.projectFiles (m.handleNotification n).1.db.projectFiles (m.opensNew n)) ↔
      ¬ ∃ path, ws.Overlaps path := by
  constructor
  · rintro h ⟨path, hoverlaps⟩
    obtain ⟨lost, hproject, hlost⟩ := exists_lost hoverlaps
    obtain ⟨new, hnew⟩ := Infinite.exists_notMem_finset (loadWorkspace ws).files.keys.toFinset
    have hnew : new ∉ (loadWorkspace ws).files := fun hmem ↦
      hnew (List.mem_toFinset.mpr (AList.mem_keys.mp hmem))
    have hadds := h _ .start (.didOpen (some new) 1 "" true false)
    have hsome : (loadWorkspace ws).opensNew (.didOpen (some new) 1 "" true false) = some new :=
      if_neg hnew
    rw [hsome] at hadds
    obtain ⟨added, -, -, hadds⟩ := hadds
    have hhandled : (loadWorkspace ws).handleNotification (.didOpen (some new) 1 "" true false) =
        ((loadWorkspace ws).openNew new "").schedule new 1 := by
      simp [MainLoop.handleNotification, AList.lookup_eq_none.mpr hnew]
    rw [hhandled] at hadds
    have hafter : lost ∈ ((loadWorkspace ws).openNew new "").db.projectFiles :=
      (hadds lost).mpr (.inr hproject)
    rcases ((mem_openNew_projectFiles hnew).mp hafter).1 with rfl | hvalue
    · have hfits := ws.loading_fits
      rw [projectFiles_loadWorkspace, created_loadWorkspace] at hproject
      exact hfits.filed.fresh hproject
    · exact hlost hvalue
  · intro hws m h n
    exact (h.rebuilt hws).adds h.kept (m.handling n)

/-- A schema that `sorbet/config` ignores. -/
def schemaIgnored : Workspace where
  discovered := ["/app/db/schema.rb"]
  read _ := some "ActiveRecord::Schema.define { }"
  ignored path := path == "/app/db/schema.rb"
  declarationsOnly := ["/app/db/schema.rb"]
  readSchema _ := some "ActiveRecord::Schema.define { }"

/-- Opening a model then drops the schema from `ProjectFiles`. -/
theorem schemaIgnored_drops_schema : ¬ ∀ ws m, Reachable ws m → ∀ n,
    Adds m.db.projectFiles (m.handleNotification n).1.db.projectFiles (m.opensNew n) := by
  intro h
  obtain ⟨_, -, -, hadds⟩ := h schemaIgnored _ .start
    (.didOpen (some "/app/user.rb") 1 "class User\nend" true false)
  have hbefore : (⟨1, "/app/db/schema.rb"⟩ : SourceFile) ∈
      (loadWorkspace schemaIgnored).db.projectFiles := by decide
  exact absurd ((hadds _).mpr (.inr hbefore)) (by decide)

end Start

end Itaruby.Server
