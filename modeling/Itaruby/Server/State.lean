import Mathlib.Data.List.AList

/-!
The state of the language server, how the workspace is loaded into it, and what each notification
of the client does to it.
-/

set_option autoImplicit false
set_option relaxedAutoImplicit false

namespace Itaruby.Server

/-- The path of a document. Its URI stands for the same document. -/
abbrev Path := String

/-- A hash map of paths. -/
abbrev PathMap (β : Type) := AList fun _ : Path ↦ β

def PathMap.values {β : Type} (m : PathMap β) : List β := m.entries.map Sigma.snd

/-- A salsa input: the text of a file, known by the number of its creation. -/
structure SourceFile where
  id : ℕ
  path : Path
deriving DecidableEq, Repr

/-! ### The database -/

/-- The values of the salsa inputs that the server sets after the start. -/
structure Inputs where
  texts : ℕ → Option String
  project : Option (List SourceFile)
  ignored : Option (List SourceFile)

/-- Setting an input begins a revision; creating one does not. -/
structure Db where
  inputs : Inputs
  created : ℕ
  revision : ℕ

namespace Db

def empty : Db := ⟨⟨fun _ ↦ none, none, none⟩, 0, 0⟩

def newFile (db : Db) (path : Path) (text : String) : Db × SourceFile :=
  ({ db with
      inputs := { db.inputs with texts := Function.update db.inputs.texts db.created (some text) }
      created := db.created + 1 },
    ⟨db.created, path⟩)

def setText (db : Db) (file : SourceFile) (text : String) : Db :=
  { db with
    inputs := { db.inputs with texts := Function.update db.inputs.texts file.id (some text) }
    revision := db.revision + 1 }

/-- `ProjectFiles::new` when there is none yet, `set_files` after. -/
def setProject (db : Db) (files : List SourceFile) : Db :=
  { db with
    inputs := { db.inputs with project := some files }
    revision := if db.inputs.project.isSome then db.revision + 1 else db.revision }

/-- `IgnoredFiles::new` when there is none yet, `set_files` after. -/
def setIgnored (db : Db) (files : List SourceFile) : Db :=
  { db with
    inputs := { db.inputs with ignored := some files }
    revision := if db.inputs.ignored.isSome then db.revision + 1 else db.revision }

def projectFiles (db : Db) : List SourceFile := db.inputs.project.getD []

def ignoredFiles (db : Db) : List SourceFile := db.inputs.ignored.getD []

end Db

/-! ### The main loop -/

/-- An open document to check, with its version. -/
structure Item where
  file : SourceFile
  path : Path
  version : ℤ
deriving DecidableEq, Repr

/-- A snapshot of the database and the open files to check. -/
structure RecomputeRequest where
  inputs : Inputs
  revision : ℕ
  items : List Item

/-- What the message loop owns. -/
structure MainLoop where
  db : Db
  files : PathMap SourceFile
  opened : PathMap ℤ
  warned : List Path
  declarationsOnly : List Path

namespace MainLoop

/-- `schedule_recompute`: a declaration source is never published, even when it is open. -/
def recompute (m : MainLoop) : RecomputeRequest where
  inputs := m.db.inputs
  revision := m.db.revision
  items := m.opened.entries.filterMap fun ⟨path, version⟩ ↦
    if path ∈ m.declarationsOnly then none
    else (m.files.lookup path).map fun file ↦ ⟨file, path, version⟩

end MainLoop

/-- What handling a notification sends: a warning that a path lies outside the root, the empty
diagnostics of a closed document, or a request for the worker. -/
inductive Outgoing
  | warning (path : Path)
  | clear (path : Path)
  | request (r : RecomputeRequest)

/-- A notification, with the path of its URI if that is the URI of a file. `contained` and
`ignored` are what the project root answers of the path when the notification is handled. -/
inductive Notification
  | didOpen (path : Option Path) (version : ℤ) (text : String) (contained ignored : Bool)
  | didChange (path : Option Path) (version : ℤ) (changes : List String)
  | didClose (path : Option Path)
  | didSave
  | other

namespace MainLoop

/-- The document is open at this version, and its diagnostics are due. -/
def schedule (m : MainLoop) (path : Path) (version : ℤ) : MainLoop × Option Outgoing :=
  let m := { m with opened := m.opened.insert path version }
  (m, some (.request m.recompute))

/-- A new file under an ignored path joins `IgnoredFiles`, and stays out of `files`. -/
def openIgnored (m : MainLoop) (path : Path) (text : String) : MainLoop :=
  let (db, file) := m.db.newFile path text
  { m with db := db.setIgnored (db.ignoredFiles ++ [file]) }

/-- A new file joins `files`, and `ProjectFiles` becomes all of these but the ignored ones. -/
def openNew (m : MainLoop) (path : Path) (text : String) : MainLoop :=
  let (db, file) := m.db.newFile path text
  let files : PathMap SourceFile := m.files.insert path file
  { m with db := db.setProject (files.values.filter (· ∉ db.ignoredFiles)), files := files }

def handleNotification (m : MainLoop) : Notification → MainLoop × Option Outgoing
  | .didOpen none _ _ _ _ => (m, none)
  | .didOpen (some path) version text contained ignored =>
    if !contained then
      if path ∈ m.warned then (m, none)
      else ({ m with warned := path :: m.warned }, some (.warning path))
    else
      match m.files.lookup path with
      | some file => { m with db := m.db.setText file text }.schedule path version
      | none =>
        if ignored then (m.openIgnored path text, none)
        else (m.openNew path text).schedule path version
  | .didChange none _ _ => (m, none)
  | .didChange (some path) version changes =>
    match changes.getLast? with
    | none => (m, none)
    | some text =>
      match m.files.lookup path with
      | some file => { m with db := m.db.setText file text }.schedule path version
      | none => (m, none)
  | .didClose none => (m, none)
  | .didClose (some path) =>
    if path ∈ m.files then
      ({ m with opened := m.opened.erase path }, some (.clear path))
    else (m, none)
  | .didSave => (m, none)
  | .other => (m, none)

/-- What a notification can do, with what it sends. -/
inductive Handling (m : MainLoop) : Notification → MainLoop → Option Outgoing → Prop
  | unchanged (n : Notification)
      (known : ∀ path version text, n = .didOpen (some path) version text true false →
        path ∈ m.files) : Handling m n m none
  | warned {path : Path} {version : ℤ} {text : String} {ignored : Bool} :
      Handling m (.didOpen (some path) version text false ignored)
        { m with warned := path :: m.warned } (some (.warning path))
  | opened {path : Path} {version : ℤ} {text : String} {ignored : Bool} {file : SourceFile}
      (known : m.files.lookup path = some file) :
      Handling m (.didOpen (some path) version text true ignored)
        ({ m with db := m.db.setText file text }.schedule path version).1
        ({ m with db := m.db.setText file text }.schedule path version).2
  | openedIgnored {path : Path} {version : ℤ} {text : String} (new : path ∉ m.files) :
      Handling m (.didOpen (some path) version text true true) (m.openIgnored path text) none
  | openedNew {path : Path} {version : ℤ} {text : String} (new : path ∉ m.files) :
      Handling m (.didOpen (some path) version text true false)
        ((m.openNew path text).schedule path version).1
        ((m.openNew path text).schedule path version).2
  | changed {path : Path} {version : ℤ} {changes : List String} {text : String}
      {file : SourceFile} (last : changes.getLast? = some text)
      (known : m.files.lookup path = some file) :
      Handling m (.didChange (some path) version changes)
        ({ m with db := m.db.setText file text }.schedule path version).1
        ({ m with db := m.db.setText file text }.schedule path version).2
  | closed {path : Path} (known : path ∈ m.files) :
      Handling m (.didClose (some path)) { m with opened := m.opened.erase path }
        (some (.clear path))

theorem handling (m : MainLoop) (n : Notification) :
    Handling m n (m.handleNotification n).1 (m.handleNotification n).2 := by
  cases n with
  | didOpen path version text contained ignored =>
    cases path with
    | none => exact .unchanged _ nofun
    | some path =>
      simp only [handleNotification]
      cases contained with
      | false =>
        simp only [Bool.not_false, if_true]
        split
        · exact .unchanged _ nofun
        · exact .warned
      | true =>
        simp only [Bool.not_true, Bool.false_eq_true, if_false]
        cases hlookup : m.files.lookup path with
        | some file => exact .opened hlookup
        | none =>
          have hnew : path ∉ m.files := AList.lookup_eq_none.mp hlookup
          cases ignored with
          | true => exact .openedIgnored hnew
          | false => exact .openedNew hnew
  | didChange path version changes =>
    cases path with
    | none => exact .unchanged _ nofun
    | some path =>
      simp only [handleNotification]
      cases hlast : changes.getLast? with
      | none => exact .unchanged _ nofun
      | some text =>
        cases hlookup : m.files.lookup path with
        | some file => exact .changed hlast hlookup
        | none => exact .unchanged _ nofun
  | didClose path =>
    cases path with
    | none => exact .unchanged _ nofun
    | some path =>
      simp only [handleNotification]
      split
      next hknown => exact .closed hknown
      next => exact .unchanged _ nofun
  | didSave => exact .unchanged _ nofun
  | other => exact .unchanged _ nofun

end MainLoop

/-! ### The workspace at the start -/

/-- What the server finds on the disk: the files of the walk of the root, the declaration sources
of the discovery, and the texts of both, each as it is when it is read. -/
structure Workspace where
  discovered : List Path
  read : Path → Option String
  ignored : Path → Bool
  declarationsOnly : List Path
  readSchema : Path → Option String

/-- The database while the workspace is loaded, with the files found so far. -/
structure Loading where
  db : Db
  files : PathMap SourceFile
  ignored : List SourceFile

namespace Loading

/-- One file of the walk of the root. -/
def discover (ws : Workspace) (l : Loading) (path : Path) : Loading :=
  match ws.read path with
  | none => l
  | some text =>
    let (db, file) := l.db.newFile path text
    if ws.ignored path then { l with db := db, ignored := l.ignored ++ [file] }
    else { l with db := db, files := l.files.insert path file }

/-- One declaration source, unless the walk found it as a file of the project. -/
def declare (ws : Workspace) (l : Loading) (path : Path) : Loading :=
  if path ∈ l.files then l
  else
    match ws.readSchema path with
    | none => l
    | some text =>
      let (db, file) := l.db.newFile path text
      { l with db := db, files := l.files.insert path file }

end Loading

/-- The files of the workspace before `ProjectFiles` is made of them. -/
def Workspace.loading (ws : Workspace) : Loading :=
  ws.declarationsOnly.foldl (Loading.declare ws)
    (ws.discovered.foldl (Loading.discover ws) ⟨.empty, ∅, []⟩)

/-- `load_workspace`: the ignored files ride in `files` only after `ProjectFiles` is built. -/
def loadWorkspace (ws : Workspace) : MainLoop :=
  let l := ws.loading
  let db := l.db.setProject l.files.values
  { db := if l.ignored.isEmpty then db else db.setIgnored l.ignored
    files := l.ignored.foldl (fun files file ↦ files.insert file.path file) l.files
    opened := ∅
    warned := []
    declarationsOnly := ws.declarationsOnly ++ l.ignored.map SourceFile.path }

end Itaruby.Server
