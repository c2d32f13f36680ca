import Itaruby.Server.ProjectFiles

/-!
One source for each path: over the life of the server `ProjectFiles` and `IgnoredFiles` name a
path once, and the source of an open document has the text that the client last gave it.
-/

set_option autoImplicit false
set_option relaxedAutoImplicit false

namespace Itaruby.Server

/-! ### The documents of the client -/

/-- What the client has told of the documents under the root: the text of each open one after its
last `didOpen` or `didChange`, and the text of the first `didOpen` of each path. -/
structure Docs where
  current : Path → Option String
  first : Path → Option String

namespace Docs

def empty : Docs := ⟨fun _ ↦ none, fun _ ↦ none⟩

/-- A document is open with a text, for the first time if its path was never opened. -/
def opened (docs : Docs) (path : Path) (text : String) : Docs where
  current := Function.update docs.current path (some text)
  first := Function.update docs.first path (some ((docs.first path).getD text))

def changed (docs : Docs) (path : Path) (text : String) : Docs :=
  { docs with
    current := Function.update docs.current path ((docs.current path).map fun _ ↦ text) }

def closed (docs : Docs) (path : Path) : Docs :=
  { docs with current := Function.update docs.current path none }

/-- What a notification tells of the documents; one outside the root is not taken. -/
def after (docs : Docs) : Notification → Docs
  | .didOpen (some path) _ text true _ => docs.opened path text
  | .didOpen (some path) _ _ false _ => docs.closed path
  | .didChange (some path) _ changes =>
    match changes.getLast? with
    | some text => docs.changed path text
    | none => docs
  | .didClose (some path) => docs.closed path
  | _ => docs

end Docs

/-- The states of the server with what the client has told, over the notifications allowed. -/
inductive Served (ws : Workspace) (allowed : MainLoop → Notification → Prop) :
    MainLoop → Docs → Prop
  | start : Served ws allowed (loadWorkspace ws) .empty
  | handle {m : MainLoop} {docs : Docs} {n : Notification} (hn : allowed m n)
      (h : Served ws allowed m docs) : Served ws allowed (m.handleNotification n).1 (docs.after n)

/-- The sources that the checker reads. -/
def MainLoop.sources (m : MainLoop) : List SourceFile := m.db.projectFiles ++ m.db.ignoredFiles

/-- One source for each path, under the root or declared, with the text of its document. -/
structure MainLoop.OneSource (m : MainLoop) (ws : Workspace) (under : Path → Prop) (docs : Docs) :
    Prop where
  paths : (m.sources.map SourceFile.path).Nodup
  rooted : ∀ file ∈ m.db.projectFiles, under file.path ∨ file.path ∈ ws.declarationsOnly
  texts : ∀ path text, docs.current path = some text → ∀ file ∈ m.sources, file.path = path →
    m.db.inputs.texts file.id = some text

/-- An open document is read with the text that it has now; one whose file was new under an
ignored path is not known to the loop, and is read as it was first opened. -/
def MainLoop.text (m : MainLoop) (docs : Docs) (path : Path) : Option String :=
  if path ∈ m.files then docs.current path else docs.first path

/-- What is known of the project root: it finds and contains only what is under it, and the walk
comes to a path once. -/
structure Workspace.Walks (ws : Workspace) (under : Path → Prop) : Prop where
  once : ws.discovered.Nodup
  found : ∀ path ∈ ws.discovered, under path

/-- The root contains only what is under it. -/
def Notification.Contained (under : Path → Prop) : Notification → Prop
  | .didOpen (some path) _ _ true _ => under path
  | _ => True

/-- The notification opens a file anew that `IgnoredFiles` has, but the loop does not know. -/
def MainLoop.Reopens (m : MainLoop) : Notification → Prop
  | .didOpen (some path) _ _ true _ =>
    path ∉ m.files ∧ ∃ file ∈ m.db.ignoredFiles, file.path = path
  | _ => False

/-! ### What the walk of the root finds -/

section Load

variable {ws : Workspace} {l : Loading} {path : Path}

theorem discover_ignored_paths (l : Loading) (path : Path) :
    (l.discover ws path).ignored.map SourceFile.path = l.ignored.map SourceFile.path ∨
      (l.discover ws path).ignored.map SourceFile.path =
        l.ignored.map SourceFile.path ++ [path] := by
  unfold Loading.discover
  split
  · exact .inl rfl
  · simp only [Db.newFile]
    split
    · exact .inr (by simp)
    · exact .inl rfl

theorem foldl_discover_ignored_sublist (paths : List Path) (l : Loading) :
    ((paths.foldl (Loading.discover ws) l).ignored.map SourceFile.path).Sublist
      (l.ignored.map SourceFile.path ++ paths) := by
  induction paths generalizing l with
  | nil => simp
  | cons path paths ih =>
    refine (ih _).trans ?_
    rcases @discover_ignored_paths ws l path with heq | heq
    · rw [heq]
      exact (List.sublist_cons_self path paths).append_left _
    · rw [heq, List.append_assoc]
      exact List.Sublist.refl _

theorem Workspace.loading_ignored_nodup (h : ws.discovered.Nodup) :
    (ws.loading.ignored.map SourceFile.path).Nodup := by
  rw [Workspace.loading, foldl_declare_ignored]
  exact h.sublist (by simpa using foldl_discover_ignored_sublist ws.discovered ⟨.empty, ∅, []⟩)

theorem mem_discover_files_path {other : Path} (h : other ∈ (l.discover ws path).files) :
    other = path ∨ other ∈ l.files := by
  unfold Loading.discover at h
  split at h
  · exact .inr h
  · simp only [Db.newFile] at h
    split at h
    · exact .inr h
    · exact (AList.mem_insert _).mp h

theorem mem_foldl_discover_files_path {paths : List Path} {other : Path}
    (h : other ∈ (paths.foldl (Loading.discover ws) l).files) :
    other ∈ paths ∨ other ∈ l.files := by
  induction paths generalizing l with
  | nil => exact .inr h
  | cons path paths ih =>
    rcases ih h with hlater | hnow
    · exact .inl (List.mem_cons_of_mem _ hlater)
    · rcases mem_discover_files_path hnow with rfl | hold
      · exact .inl List.mem_cons_self
      · exact .inr hold

/-- The files that are loaded were discovered or declared. -/
theorem Workspace.mem_loading_files_path (h : path ∈ ws.loading.files) :
    path ∈ ws.discovered ∨ path ∈ ws.declarationsOnly := by
  rcases mem_foldl_declare_files.mp h with hfound | hdeclared
  · rcases mem_foldl_discover_files_path hfound with hpath | hempty
    · exact .inl hpath
    · exact absurd hempty (AList.notMem_empty _)
  · exact .inr hdeclared.1

/-- The files of the loop and the ignored ones are known by their numbers. -/
def Numbered (files : PathMap SourceFile) (ignored : List SourceFile) : Prop :=
  ∀ file file', (file ∈ files.values ∨ file ∈ ignored) →
    (file' ∈ files.values ∨ file' ∈ ignored) → file.id = file'.id → file = file'

/-- A file with the next number keeps the others apart. -/
theorem Numbered.add {files files' : PathMap SourceFile} {ignored ignored' : List SourceFile}
    (h : Numbered files ignored) {new : SourceFile}
    (hbefore : ∀ file, (file ∈ files.values ∨ file ∈ ignored) → file.id < new.id)
    (hnew : ∀ file, (file ∈ files'.values ∨ file ∈ ignored') →
      file = new ∨ (file ∈ files.values ∨ file ∈ ignored)) :
    Numbered files' ignored' := by
  intro file file' hfile hfile' hid
  rcases hnew file hfile with rfl | hold
  · rcases hnew file' hfile' with rfl | hold'
    · rfl
    · exact absurd hid (hbefore file' hold').ne'
  · rcases hnew file' hfile' with rfl | hold'
    · exact absurd hid (hbefore file hold).ne
    · exact h file file' hold hold' hid

theorem Numbered.insert {files : PathMap SourceFile} {ignored : List SourceFile}
    (h : Numbered files ignored) {new : SourceFile}
    (hbefore : ∀ file, (file ∈ files.values ∨ file ∈ ignored) → file.id < new.id) (path : Path) :
    Numbered (files.insert path new) ignored := by
  refine h.add hbefore fun file hfile ↦ ?_
  rcases hfile with hvalue | hignored
  · exact (PathMap.mem_values_of_mem_insert hvalue).imp_right .inl
  · exact .inr (.inr hignored)

theorem Numbered.append {files : PathMap SourceFile} {ignored : List SourceFile}
    (h : Numbered files ignored) {new : SourceFile}
    (hbefore : ∀ file, (file ∈ files.values ∨ file ∈ ignored) → file.id < new.id) :
    Numbered files (ignored ++ [new]) := by
  refine h.add hbefore fun file hfile ↦ ?_
  rcases hfile with hvalue | hignored
  · exact .inr (.inl hvalue)
  · rcases List.mem_append.mp hignored with hold | hlast
    · exact .inr (.inr hold)
    · exact .inl (List.mem_singleton.mp hlast)

theorem Loading.Fits.lt_created (h : l.Fits) {file : SourceFile}
    (hfile : file ∈ l.files.values ∨ file ∈ l.ignored) : file.id < l.db.created := by
  rcases hfile with hvalue | hignored
  · exact h.filed.before _ _ (h.filed.lookup_of_mem hvalue)
  · exact h.ignoredBefore file hignored

theorem Loading.Fits.discover_numbered (hfits : l.Fits) (h : Numbered l.files l.ignored) :
    Numbered (l.discover ws path).files (l.discover ws path).ignored := by
  unfold Loading.discover
  split
  · exact h
  · simp only [Db.newFile]
    split
    · exact h.append fun file hfile ↦ hfits.lt_created hfile
    · exact h.insert (fun file hfile ↦ hfits.lt_created hfile) path

theorem Loading.Fits.declare_numbered (hfits : l.Fits) (h : Numbered l.files l.ignored) :
    Numbered (l.declare ws path).files (l.declare ws path).ignored := by
  unfold Loading.declare
  split
  · exact h
  · split
    · exact h
    · exact h.insert (fun file hfile ↦ hfits.lt_created hfile) path

theorem Workspace.loading_numbered (ws : Workspace) :
    Numbered ws.loading.files ws.loading.ignored := by
  have hempty : Loading.Fits ⟨.empty, ∅, []⟩ := ⟨⟨nofun, nofun⟩, nofun, nofun, rfl⟩
  have hstart : Numbered ∅ [] := by
    intro file file' hfile
    rcases hfile with hvalue | hignored
    · cases hvalue
    · cases hignored
  have hdiscovered :=
    List.foldlRecOn (motive := fun l : Loading ↦ l.Fits ∧ Numbered l.files l.ignored)
      ws.discovered (Loading.discover ws) ⟨hempty, hstart⟩
      fun _ hl path _ ↦ ⟨hl.1.discover path, hl.1.discover_numbered hl.2⟩
  have hdeclared :=
    List.foldlRecOn (motive := fun l : Loading ↦ l.Fits ∧ Numbered l.files l.ignored)
      ws.declarationsOnly (Loading.declare ws) hdiscovered
      fun _ hl path _ ↦ ⟨hl.1.declare path, hl.1.declare_numbered hl.2⟩
  exact hdeclared.2

end Load

/-! ### The sources over a run -/

/-- The sources are those that the files make, each under its own path and its own number. -/
structure MainLoop.Sourced (m : MainLoop) (ws : Workspace) (under : Path → Prop) : Prop where
  kept : m.Kept
  rebuilt : m.Rebuilt
  projectPaths : (m.db.projectFiles.map SourceFile.path).Nodup
  ignoredPaths : (m.db.ignoredFiles.map SourceFile.path).Nodup
  known : ∀ file ∈ m.db.ignoredFiles, file.path ∈ m.files → m.files.lookup file.path = some file
  numbered : Numbered m.files m.db.ignoredFiles
  rooted : ∀ path ∈ m.files, under path ∨ path ∈ ws.declarationsOnly

theorem Filed.paths_nodup {created : ℕ} {files : PathMap SourceFile} (h : Filed created files) :
    (files.values.map SourceFile.path).Nodup := by
  have hkeys : files.values.map SourceFile.path = files.keys := by
    unfold PathMap.values AList.keys List.keys
    rw [List.map_map]
    refine List.map_congr_left fun entry hentry ↦ ?_
    obtain ⟨path, file⟩ := entry
    exact h.named path file (AList.mem_lookup_iff.mpr hentry)
  rw [hkeys]
  exact files.keys_nodup

section Start

variable {ws : Workspace} {under : Path → Prop}

/-- An ignored file of the walk takes the place of what was at its path. -/
theorem loadWorkspace_lookup_ignored (hwalks : ws.Walks under) {file : SourceFile}
    (hfile : file ∈ ws.loading.ignored) :
    (loadWorkspace ws).files.lookup file.path = some file := by
  obtain ⟨found, hfound, hlookup⟩ :=
    lookup_foldl_insert_of_mem ws.loading.files ⟨file, hfile, rfl⟩
  change (loadWorkspace ws).files.lookup file.path = some found at hlookup
  have hpath := (loadWorkspace_kept ws).filed.named _ _ hlookup
  rw [hlookup, List.inj_on_of_nodup_map (ws.loading_ignored_nodup hwalks.once) hfound hfile hpath]

theorem loadWorkspace_lookup (hwalks : ws.Walks under) {path : Path} {file : SourceFile}
    (h : (loadWorkspace ws).files.lookup path = some file) :
    file ∈ ws.loading.files.values ∨ file ∈ ws.loading.ignored := by
  by_cases hignored : ∃ other ∈ ws.loading.ignored, other.path = path
  · obtain ⟨other, hother, rfl⟩ := hignored
    rw [loadWorkspace_lookup_ignored hwalks hother] at h
    exact .inr (Option.some.inj h ▸ hother)
  · change (ws.loading.ignored.foldl _ ws.loading.files).lookup path = _ at h
    rw [lookup_foldl_insert_of_notMem (by simpa using hignored)] at h
    exact .inl (PathMap.mem_values.mpr ⟨path, h⟩)

theorem loadWorkspace_sourced (hwalks : ws.Walks under) (hws : ¬ ∃ path, ws.Overlaps path) :
    (loadWorkspace ws).Sourced ws under where
  kept := loadWorkspace_kept ws
  rebuilt := loadWorkspace_rebuilt hws
  projectPaths := by
    rw [projectFiles_loadWorkspace]
    exact ws.loading_fits.filed.paths_nodup
  ignoredPaths := by
    rw [ignoredFiles_loadWorkspace]
    exact ws.loading_ignored_nodup hwalks.once
  known file hfile _ := by
    rw [ignoredFiles_loadWorkspace] at hfile
    exact loadWorkspace_lookup_ignored hwalks hfile
  numbered := by
    have hloaded : ∀ file, (file ∈ (loadWorkspace ws).files.values ∨
        file ∈ (loadWorkspace ws).db.ignoredFiles) →
        file ∈ ws.loading.files.values ∨ file ∈ ws.loading.ignored := by
      intro file hfile
      rcases hfile with hvalue | hignored
      · obtain ⟨path, hlookup⟩ := PathMap.mem_values.mp hvalue
        exact loadWorkspace_lookup hwalks hlookup
      · rw [ignoredFiles_loadWorkspace] at hignored
        exact .inr hignored
    intro file file' hfile hfile'
    exact ws.loading_numbered file file' (hloaded file hfile) (hloaded file' hfile')
  rooted path hpath := by
    obtain ⟨file, hlookup⟩ := Option.isSome_iff_exists.mp (AList.lookup_isSome.mpr hpath)
    have hnamed := (loadWorkspace_kept ws).filed.named path file hlookup
    rcases loadWorkspace_lookup hwalks hlookup with hvalue | hignored
    · have hloaded : path ∈ ws.loading.files := by
        have hfound := ws.loading_fits.filed.lookup_of_mem hvalue
        rw [hnamed] at hfound
        exact AList.lookup_isSome.mp (by rw [hfound]; rfl)
      exact (ws.mem_loading_files_path hloaded).imp_left (hwalks.found path)
    · have hdiscovered := (Workspace.mem_loading_ignored.mp ⟨file, hignored, hnamed⟩).1
      exact .inl (hwalks.found path hdiscovered)

end Start

section Handle

variable {ws : Workspace} {under : Path → Prop} {m m' : MainLoop} {n : Notification}
  {out : Option Outgoing} {path : Path}

theorem MainLoop.Kept.lt_created (h : m.Kept) {file : SourceFile}
    (hfile : file ∈ m.files.values ∨ file ∈ m.db.ignoredFiles) : file.id < m.db.created := by
  rcases hfile with hvalue | hignored
  · exact h.filed.before _ _ (h.filed.lookup_of_mem hvalue)
  · exact h.ignoredBefore file hignored

/-- A new ignored file is the only source of its path. -/
theorem MainLoop.Sourced.openIgnored (h : m.Sourced ws under) {text : String}
    (hkept : (m.openIgnored path text).Kept) (hrebuilt : (m.openIgnored path text).Rebuilt)
    (hnew : path ∉ m.files) (hfresh : ∀ file ∈ m.db.ignoredFiles, file.path ≠ path) :
    (m.openIgnored path text).Sourced ws under where
  kept := hkept
  rebuilt := hrebuilt
  projectPaths := h.projectPaths
  ignoredPaths := by
    change ((m.db.ignoredFiles ++ [(⟨m.db.created, path⟩ : SourceFile)]).map _).Nodup
    rw [List.map_append, List.nodup_append]
    refine ⟨h.ignoredPaths, List.nodup_singleton _, ?_⟩
    intro a ha b hb heq
    obtain ⟨file, hfile, rfl⟩ := List.mem_map.mp ha
    exact hfresh file hfile (heq.trans (List.mem_singleton.mp hb))
  known file hfile hknown := by
    rcases List.mem_append.mp hfile with hold | hlast
    · exact h.known file hold hknown
    · obtain rfl := List.mem_singleton.mp hlast
      exact absurd hknown hnew
  numbered := h.numbered.append fun file hfile ↦ h.kept.lt_created hfile
  rooted := h.rooted

/-- A new file of the project is the only source of its path. -/
theorem MainLoop.Sourced.openNew (h : m.Sourced ws under) {text : String}
    (hkept : (m.openNew path text).Kept) (hrebuilt : (m.openNew path text).Rebuilt)
    (hfresh : ∀ file ∈ m.db.ignoredFiles, file.path ≠ path) (hunder : under path) :
    (m.openNew path text).Sourced ws under where
  kept := hkept
  rebuilt := hrebuilt
  projectPaths := by
    have hfiled : Filed (m.db.created + 1) (m.files.insert path ⟨m.db.created, path⟩) :=
      h.kept.filed.insert_new
    exact hfiled.paths_nodup.sublist (List.filter_sublist.map _)
  ignoredPaths := h.ignoredPaths
  known file hfile hknown := by
    change (m.files.insert path ⟨m.db.created, path⟩).lookup file.path = some file
    have hne := hfresh file hfile
    rw [AList.lookup_insert_ne hne]
    refine h.known file hfile ?_
    exact ((AList.mem_insert _).mp hknown).resolve_left hne
  numbered := h.numbered.insert (fun file hfile ↦ h.kept.lt_created hfile) path
  rooted p hp := by
    rcases (AList.mem_insert _).mp hp with rfl | hold
    · exact .inl hunder
    · exact h.rooted p hold

/-- The parts of the state that say where the sources are. -/
theorem MainLoop.Sourced.of_same (h : m.Sourced ws under) (hkept : m'.Kept)
    (hfiles : m'.files = m.files) (hproject : m'.db.projectFiles = m.db.projectFiles)
    (hignored : m'.db.ignoredFiles = m.db.ignoredFiles) : m'.Sourced ws under where
  kept := hkept
  rebuilt := by
    unfold MainLoop.Rebuilt
    rw [hfiles, hproject, hignored]
    exact h.rebuilt
  projectPaths := hproject ▸ h.projectPaths
  ignoredPaths := hignored ▸ h.ignoredPaths
  known := by
    rw [hfiles, hignored]
    exact h.known
  numbered := by
    rw [hfiles, hignored]
    exact h.numbered
  rooted := by
    rw [hfiles]
    exact h.rooted

theorem MainLoop.Sourced.handle (h : m.Sourced ws under) (hn : m.Handling n m' out)
    (hcontained : n.Contained under) (hreopens : ¬ m.Reopens n) : m'.Sourced ws under := by
  have hkept := h.kept.handle hn
  have hrebuilt := h.rebuilt.handle h.kept hn
  cases hn with
  | unchanged => exact h
  | warned => exact h.of_same hkept rfl rfl rfl
  | opened => exact h.of_same hkept rfl rfl rfl
  | changed => exact h.of_same hkept rfl rfl rfl
  | closed => exact h.of_same hkept rfl rfl rfl
  | @openedIgnored path version text hnew =>
    exact h.openIgnored hkept hrebuilt hnew fun file hfile hpath ↦
      hreopens ⟨hnew, file, hfile, hpath⟩
  | @openedNew path version text hnew =>
    have hfresh : ∀ file ∈ m.db.ignoredFiles, file.path ≠ path := fun file hfile hpath ↦
      hreopens ⟨hnew, file, hfile, hpath⟩
    have hopened : (m.openNew path text).Sourced ws under :=
      h.openNew ⟨hkept.filed, hkept.ignoredBefore⟩ hrebuilt hfresh hcontained
    exact hopened.of_same hkept rfl rfl rfl

end Handle

/-! ### The texts over a run -/

/-- The texts are those that the client told: the last one of an open document that the loop
knows, the first one of a file that was new under an ignored path. -/
structure MainLoop.Told (m : MainLoop) (docs : Docs) : Prop where
  read : ∀ path text, docs.current path = some text →
    path ∈ m.files ∨ ∃ file ∈ m.db.ignoredFiles, file.path = path
  current : ∀ path file text, m.files.lookup path = some file → docs.current path = some text →
    m.db.inputs.texts file.id = some text
  late : ∀ file ∈ m.db.ignoredFiles, file.path ∉ m.files →
    m.db.inputs.texts file.id = docs.first file.path
  unopened : ∀ path ∉ m.files, (∀ file ∈ m.db.ignoredFiles, file.path ≠ path) →
    docs.first path = none

section Texts

variable {ws : Workspace} {under : Path → Prop} {m m' : MainLoop} {n : Notification}
  {docs docs' : Docs} {out : Option Outgoing} {path : Path} {file : SourceFile} {text : String}

theorem mem_files_of_lookup (h : m.files.lookup path = some file) : path ∈ m.files :=
  AList.lookup_isSome.mp (by rw [h]; rfl)

theorem mem_values_of_lookup (h : m.files.lookup path = some file) : file ∈ m.files.values :=
  PathMap.mem_values.mpr ⟨path, h⟩

theorem loadWorkspace_told (ws : Workspace) : (loadWorkspace ws).Told .empty where
  read _ _ hcurrent := by cases hcurrent
  current _ _ _ _ hcurrent := by cases hcurrent
  late file hfile hunknown := by
    rw [ignoredFiles_loadWorkspace] at hfile
    obtain ⟨found, -, hlookup⟩ :=
      lookup_foldl_insert_of_mem ws.loading.files ⟨file, hfile, rfl⟩
    change (loadWorkspace ws).files.lookup file.path = some found at hlookup
    exact absurd (mem_files_of_lookup hlookup) hunknown
  unopened _ _ _ := rfl

/-- Two files of the loop at different paths have different numbers. -/
theorem MainLoop.Sourced.id_ne (h : m.Sourced ws under) (hlookup : m.files.lookup path = some file)
    {other : SourceFile} (hother : other ∈ m.files.values ∨ other ∈ m.db.ignoredFiles)
    (hne : other.path ≠ path) : other.id ≠ file.id := by
  intro hid
  have heq := h.numbered other file hother (.inl (mem_values_of_lookup hlookup)) hid
  exact hne (heq ▸ h.kept.filed.named path file hlookup)

/-- A known file takes the text that the client gives its document. -/
theorem MainLoop.Told.setText (h : m.Told docs) (hm : m.Sourced ws under)
    (hlookup : m.files.lookup path = some file)
    (hothers : ∀ other ≠ path, docs'.current other = docs.current other ∧
      docs'.first other = docs.first other)
    (htext : ∀ later, docs'.current path = some later → later = text)
    (hfiles : m'.files = m.files) (hignored : m'.db.ignoredFiles = m.db.ignoredFiles)
    (htexts : m'.db.inputs.texts = Function.update m.db.inputs.texts file.id (some text)) :
    m'.Told docs' where
  read other later hlater := by
    rw [hfiles, hignored]
    by_cases hother : other = path
    · exact .inl (hother ▸ mem_files_of_lookup hlookup)
    · rw [(hothers other hother).1] at hlater
      exact h.read other later hlater
  current other found later hfound hlater := by
    rw [hfiles] at hfound
    rw [htexts]
    by_cases hother : other = path
    · subst hother
      obtain rfl := Option.some.inj (hlookup.symm.trans hfound)
      rw [Function.update_self, htext later hlater]
    · have hnamed := hm.kept.filed.named other found hfound
      have hid := hm.id_ne hlookup (.inl (mem_values_of_lookup hfound)) (hnamed.symm ▸ hother)
      rw [(hothers other hother).1] at hlater
      rw [Function.update_of_ne hid]
      exact h.current other found later hfound hlater
  late other hmem hunknown := by
    rw [hfiles] at hunknown
    rw [hignored] at hmem
    have hother : other.path ≠ path := fun heq ↦ hunknown (heq ▸ mem_files_of_lookup hlookup)
    rw [htexts, Function.update_of_ne (hm.id_ne hlookup (.inr hmem) hother),
      (hothers _ hother).2]
    exact h.late other hmem hunknown
  unopened other hunknown hfresh := by
    rw [hfiles] at hunknown
    rw [hignored] at hfresh
    have hother : other ≠ path := fun heq ↦ hunknown (heq ▸ mem_files_of_lookup hlookup)
    rw [(hothers other hother).2]
    exact h.unopened other hunknown hfresh

/-- Nothing is said of the text of a document that is not open. -/
theorem MainLoop.Told.closed (h : m.Told docs) (path : Path) : m.Told (docs.closed path) where
  read other later hlater := by
    by_cases hother : other = path
    · rw [hother] at hlater
      simp [Docs.closed] at hlater
    · simp only [Docs.closed, Function.update_of_ne hother] at hlater
      exact h.read other later hlater
  current other found later hfound hlater := by
    by_cases hother : other = path
    · rw [hother] at hlater
      simp [Docs.closed] at hlater
    · simp only [Docs.closed, Function.update_of_ne hother] at hlater
      exact h.current other found later hfound hlater
  late := h.late
  unopened := h.unopened

/-- A change of a document that is not known to the loop is not taken. -/
theorem MainLoop.Told.changed_unknown (h : m.Told docs) (hunknown : path ∉ m.files) :
    m.Told (docs.changed path text) where
  read other later hlater := by
    by_cases hother : other = path
    · subst hother
      simp only [Docs.changed, Function.update_self, Option.map_eq_some_iff] at hlater
      obtain ⟨before, hbefore, -⟩ := hlater
      exact h.read other before hbefore
    · simp only [Docs.changed, Function.update_of_ne hother] at hlater
      exact h.read other later hlater
  current other found later hfound hlater := by
    have hother : other ≠ path := fun heq ↦ hunknown (heq ▸ mem_files_of_lookup hfound)
    simp only [Docs.changed, Function.update_of_ne hother] at hlater
    exact h.current other found later hfound hlater
  late := h.late
  unopened := h.unopened

theorem Docs.first_opened (hfirst : docs.first path = none) :
    (docs.opened path text).first path = some text := by
  simp [Docs.opened, hfirst]

theorem MainLoop.Told.openIgnored (h : m.Told docs) (hm : m.Sourced ws under)
    (hnew : path ∉ m.files) (hfresh : ∀ file ∈ m.db.ignoredFiles, file.path ≠ path) :
    (m.openIgnored path text).Told (docs.opened path text) where
  read other later hlater := by
    by_cases hother : other = path
    · exact .inr ⟨⟨m.db.created, path⟩, List.mem_append_right _ List.mem_cons_self, hother.symm⟩
    · simp only [Docs.opened, Function.update_of_ne hother] at hlater
      rcases h.read other later hlater with hknown | ⟨file, hfile, hpath⟩
      · exact .inl hknown
      · exact .inr ⟨file, List.mem_append_left _ hfile, hpath⟩
  current other found later hfound hlater := by
    have hother : other ≠ path := fun heq ↦ hnew (heq ▸ mem_files_of_lookup hfound)
    have hid := hm.kept.lt_created (.inl (mem_values_of_lookup hfound))
    simp only [Docs.opened, Function.update_of_ne hother] at hlater
    change Function.update m.db.inputs.texts m.db.created (some text) found.id = _
    rw [Function.update_of_ne hid.ne]
    exact h.current other found later hfound hlater
  late other hmem hunknown := by
    change Function.update m.db.inputs.texts m.db.created (some text) other.id = _
    rcases List.mem_append.mp hmem with hold | hlast
    · have hid := hm.kept.lt_created (.inr hold)
      rw [Function.update_of_ne hid.ne, h.late other hold hunknown]
      exact (Function.update_of_ne (hfresh other hold) _ _).symm
    · obtain rfl := List.mem_singleton.mp hlast
      rw [Function.update_self, Docs.first_opened (h.unopened path hnew hfresh)]
  unopened other hunknown hother := by
    have hne : other ≠ path := fun heq ↦
      hother ⟨m.db.created, path⟩ (List.mem_append_right _ List.mem_cons_self) heq.symm
    simp only [Docs.opened, Function.update_of_ne hne]
    exact h.unopened other hunknown fun file hfile ↦
      hother file (List.mem_append_left _ hfile)

theorem MainLoop.Told.openNew (h : m.Told docs) (hm : m.Sourced ws under)
    (hfiles : m'.files = m.files.insert path ⟨m.db.created, path⟩)
    (hignored : m'.db.ignoredFiles = m.db.ignoredFiles)
    (htexts : m'.db.inputs.texts = Function.update m.db.inputs.texts m.db.created (some text)) :
    m'.Told (docs.opened path text) where
  read other later hlater := by
    rw [hfiles, hignored, AList.mem_insert]
    by_cases hother : other = path
    · exact .inl (.inl hother)
    · simp only [Docs.opened, Function.update_of_ne hother] at hlater
      exact (h.read other later hlater).imp_left .inr
  current other found later hfound hlater := by
    rw [hfiles] at hfound
    rw [htexts]
    by_cases hother : other = path
    · subst hother
      rw [AList.lookup_insert] at hfound
      obtain rfl := Option.some.inj hfound
      rw [Function.update_self]
      exact (Function.update_self other _ docs.current).symm.trans hlater
    · rw [AList.lookup_insert_ne hother] at hfound
      have hid := hm.kept.lt_created (.inl (mem_values_of_lookup hfound))
      simp only [Docs.opened, Function.update_of_ne hother] at hlater
      rw [Function.update_of_ne hid.ne]
      exact h.current other found later hfound hlater
  late other hmem hunknown := by
    rw [hignored] at hmem
    rw [hfiles, AList.mem_insert, not_or] at hunknown
    rw [htexts, Function.update_of_ne (hm.kept.lt_created (.inr hmem)).ne,
      h.late other hmem hunknown.2]
    exact (Function.update_of_ne hunknown.1 _ _).symm
  unopened other hunknown hfresh := by
    rw [hignored] at hfresh
    rw [hfiles, AList.mem_insert, not_or] at hunknown
    simp only [Docs.opened, Function.update_of_ne hunknown.1]
    exact h.unopened other hunknown.2 hfresh

theorem Docs.opened_others {other : Path} (hother : other ≠ path) :
    (docs.opened path text).current other = docs.current other ∧
      (docs.opened path text).first other = docs.first other :=
  ⟨Function.update_of_ne hother _ _, Function.update_of_ne hother _ _⟩

theorem MainLoop.Told.didOpen (h : m.Told docs) (hm : m.Sourced ws under) {version : ℤ}
    {contained ignored : Bool}
    (hreopens : ¬ m.Reopens (.didOpen (some path) version text contained ignored)) :
    (m.handleNotification (.didOpen (some path) version text contained ignored)).1.Told
      (docs.after (.didOpen (some path) version text contained ignored)) := by
  cases contained with
  | false =>
    simp only [MainLoop.handleNotification, Bool.not_false, if_true]
    split
    · exact h.closed path
    · exact ⟨(h.closed path).read, (h.closed path).current, h.late, h.unopened⟩
  | true =>
    simp only [MainLoop.handleNotification, Bool.not_true, Bool.false_eq_true, if_false]
    cases hlookup : m.files.lookup path with
    | some file =>
      refine h.setText hm hlookup (fun other hother ↦ Docs.opened_others hother) ?_ rfl rfl rfl
      intro later hlater
      exact Option.some.inj (hlater.symm.trans (Function.update_self path _ docs.current))
    | none =>
      have hnew : path ∉ m.files := AList.lookup_eq_none.mp hlookup
      have hfresh : ∀ file ∈ m.db.ignoredFiles, file.path ≠ path := fun file hfile hpath ↦
        hreopens ⟨hnew, file, hfile, hpath⟩
      cases ignored with
      | true => exact h.openIgnored hm hnew hfresh
      | false => exact h.openNew hm rfl rfl rfl

theorem MainLoop.Told.didChange (h : m.Told docs) (hm : m.Sourced ws under) {version : ℤ}
    {changes : List String} :
    (m.handleNotification (.didChange (some path) version changes)).1.Told
      (docs.after (.didChange (some path) version changes)) := by
  simp only [MainLoop.handleNotification, Docs.after]
  cases changes.getLast? with
  | none => exact h
  | some text =>
    cases hlookup : m.files.lookup path with
    | none => exact h.changed_unknown (AList.lookup_eq_none.mp hlookup)
    | some file =>
      refine h.setText hm hlookup ?_ ?_ rfl rfl rfl
      · intro other hother
        exact ⟨Function.update_of_ne hother _ _, rfl⟩
      · intro later hlater
        simp only [Docs.changed, Function.update_self, Option.map_eq_some_iff] at hlater
        obtain ⟨before, -, heq⟩ := hlater
        exact heq.symm

theorem MainLoop.Told.handle (h : m.Told docs) (hm : m.Sourced ws under)
    (hreopens : ¬ m.Reopens n) : (m.handleNotification n).1.Told (docs.after n) := by
  cases n with
  | didOpen path version text contained ignored =>
    cases path with
    | none => exact h
    | some path => exact h.didOpen hm hreopens
  | didChange path version changes =>
    cases path with
    | none => exact h
    | some path => exact h.didChange hm
  | didClose path =>
    cases path with
    | none => exact h
    | some path =>
      have hclosed := h.closed path
      simp only [MainLoop.handleNotification]
      split
      · exact ⟨hclosed.read, hclosed.current, hclosed.late, hclosed.unopened⟩
      · exact hclosed
  | didSave => exact h
  | other => exact h

end Texts

/-! ### One source for each path -/

section OneSource

variable {ws : Workspace} {under : Path → Prop} {m : MainLoop} {docs : Docs}

theorem MainLoop.Sourced.mem_files (h : m.Sourced ws under) {file : SourceFile}
    (hfile : file ∈ m.db.projectFiles) : m.files.lookup file.path = some file :=
  h.kept.filed.lookup_of_mem ((h.rebuilt file).mp hfile).1

theorem MainLoop.Sourced.paths_nodup (h : m.Sourced ws under) :
    (m.sources.map SourceFile.path).Nodup := by
  unfold MainLoop.sources
  rw [List.map_append, List.nodup_append]
  refine ⟨h.projectPaths, h.ignoredPaths, ?_⟩
  intro a ha b hb heq
  obtain ⟨file, hfile, rfl⟩ := List.mem_map.mp ha
  obtain ⟨ignored, hignored, rfl⟩ := List.mem_map.mp hb
  have hlookup := h.mem_files hfile
  rw [heq] at hlookup
  have hsame := h.known ignored hignored (mem_files_of_lookup hlookup)
  obtain rfl := Option.some.inj (hlookup.symm.trans hsame)
  exact ((h.rebuilt file).mp hfile).2 hignored

/-- An open document has a source, with the text that the loop keeps for it. -/
theorem MainLoop.Told.exists_source (h : m.Told docs) (hm : m.Sourced ws under) {path : Path}
    {text : String} (hopen : docs.current path = some text) :
    ∃ file ∈ m.sources, file.path = path ∧ m.db.inputs.texts file.id = m.text docs path := by
  by_cases hknown : path ∈ m.files
  · obtain ⟨file, hlookup⟩ := Option.isSome_iff_exists.mp (AList.lookup_isSome.mpr hknown)
    refine ⟨file, ?_, hm.kept.filed.named path file hlookup, ?_⟩
    · by_cases hignored : file ∈ m.db.ignoredFiles
      · exact List.mem_append_right _ hignored
      · exact List.mem_append_left _
          ((hm.rebuilt file).mpr ⟨mem_values_of_lookup hlookup, hignored⟩)
    · rw [MainLoop.text, if_pos hknown, h.current path file text hlookup hopen, hopen]
  · obtain ⟨file, hfile, rfl⟩ := (h.read path text hopen).resolve_left hknown
    refine ⟨file, List.mem_append_right _ hfile, rfl, ?_⟩
    rw [MainLoop.text, if_neg hknown, h.late file hfile hknown]

/-- The notification is about a contained path, and opens no unknown ignored file again. -/
def MainLoop.Takes (under : Path → Prop) (m : MainLoop) (n : Notification) : Prop :=
  n.Contained under ∧ ¬ m.Reopens n

theorem Served.mono {allowed allowed' : MainLoop → Notification → Prop}
    (hle : ∀ m n, allowed m n → allowed' m n) (h : Served ws allowed m docs) :
    Served ws allowed' m docs := by
  induction h with
  | start => exact .start
  | handle hn _ ih => exact ih.handle (hle _ _ hn)

theorem Served.sourced_told (hwalks : ws.Walks under) (hws : ¬ ∃ path, ws.Overlaps path)
    (h : Served ws (MainLoop.Takes under) m docs) : m.Sourced ws under ∧ m.Told docs := by
  induction h with
  | start => exact ⟨loadWorkspace_sourced hwalks hws, loadWorkspace_told ws⟩
  | @handle m docs n hn _ ih =>
    obtain ⟨hsourced, htold⟩ := ih
    obtain ⟨hcontained, hreopens⟩ := hn
    exact ⟨hsourced.handle (m.handling n) hcontained hreopens, htold.handle hsourced hreopens⟩

/-- Each path has one source, under the root or declared, and an open document is read with its
present text, or as it was first opened when its file was new under an ignored path. -/
theorem one_source_per_path (hwalks : ws.Walks under) (hws : ¬ ∃ path, ws.Overlaps path)
    (h : Served ws (MainLoop.Takes under) m docs) :
    (m.sources.map SourceFile.path).Nodup ∧
      (∀ file ∈ m.db.projectFiles, under file.path ∨ file.path ∈ ws.declarationsOnly) ∧
      ∀ path text, docs.current path = some text →
        ∃ file ∈ m.sources, file.path = path ∧ m.db.inputs.texts file.id = m.text docs path := by
  obtain ⟨hsourced, htold⟩ := h.sourced_told hwalks hws
  refine ⟨hsourced.paths_nodup, fun file hfile ↦ ?_, fun path text hopen ↦ ?_⟩
  · exact hsourced.rooted _ (mem_files_of_lookup (hsourced.mem_files hfile))
  · exact htold.exists_source hsourced hopen

/-- A project with one model, and nothing else on the disk. -/
def oneModel : Workspace where
  discovered := ["/app/user.rb"]
  read _ := some "class User; end"
  ignored _ := false
  declarationsOnly := []
  readSchema _ := none

/-- The client opens the model and changes it, then opens a new file under an ignored path and
changes that. -/
def modelChanged : List Notification :=
  [.didOpen (some "/app/user.rb") 1 "class User; end" true false,
    .didChange (some "/app/user.rb") 2 ["class Person; end"],
    .didOpen (some "/app/tmp/a.rb") 1 "class A; end" true true,
    .didChange (some "/app/tmp/a.rb") 2 ["class B; end"]]

/-- The state of the server and what the client told, after notifications. -/
def afterAll (ws : Workspace) (ns : List Notification) : MainLoop × Docs :=
  ns.foldl (fun s n ↦ ((s.1.handleNotification n).1, s.2.after n)) (loadWorkspace ws, .empty)

/-- What lies in the directory of the application. -/
def InApp (path : Path) : Prop := ['/', 'a', 'p', 'p', '/'] <+: path.toList

theorem oneModel_walks : oneModel.Walks InApp where
  once := by decide
  found := by
    unfold InApp
    decide

theorem oneModel_apart : ¬ ∃ path, oneModel.Overlaps path := by
  rintro ⟨path, -, hdeclared, -⟩
  cases hdeclared

theorem modelChanged_served :
    Served oneModel (MainLoop.Takes InApp) (afterAll oneModel modelChanged).1
      (afterAll oneModel modelChanged).2 := by
  have hcontained : InApp "/app/user.rb" ∧ InApp "/app/tmp/a.rb" := by
    unfold InApp
    decide
  refine .handle ⟨trivial, id⟩ (.handle ⟨hcontained.2, ?_⟩
    (.handle ⟨trivial, id⟩ (.handle ⟨hcontained.1, ?_⟩ .start)))
  · rintro ⟨-, file, hfile, -⟩
    change file ∈ (afterAll oneModel (modelChanged.take 2)).1.db.ignoredFiles at hfile
    have hnone : (afterAll oneModel (modelChanged.take 2)).1.db.ignoredFiles = [] := by decide
    rw [hnone] at hfile
    cases hfile
  · rintro ⟨hnew, -⟩
    exact absurd (by decide) hnew

/-- Both documents have a source of their own. -/
theorem modelChanged_sources :
    ∃ file ∈ (afterAll oneModel modelChanged).1.sources, file.path = "/app/user.rb" ∧
      (afterAll oneModel modelChanged).1.db.inputs.texts file.id = some "class Person; end" :=
  (one_source_per_path oneModel_walks oneModel_apart modelChanged_served).2.2 "/app/user.rb"
    "class Person; end" (by decide)

/-- The file under the ignored path is still read as it was first opened. -/
theorem modelChanged_stale : ¬ ∀ ws under m docs, Workspace.Walks ws under →
    (¬ ∃ path, ws.Overlaps path) → Served ws (fun _ n ↦ n.Contained under) m docs →
    m.OneSource ws under docs := by
  intro h
  have hserved := Served.mono (fun _ _ hn ↦ hn.1) modelChanged_served
  have htext := (h _ _ _ _ oneModel_walks oneModel_apart hserved).texts "/app/tmp/a.rb"
    "class B; end" (by decide) ⟨1, "/app/tmp/a.rb"⟩ (by decide) rfl
  exact absurd htext (by decide)

end OneSource

end Itaruby.Server
