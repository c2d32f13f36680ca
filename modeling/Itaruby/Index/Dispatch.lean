import Itaruby.Index.Inheritance
import Itaruby.Ruby.Mixins

/-!
The chain of the index against the ancestors of a running program. A project is
given as the bodies its files execute, in order; the walker files the arguments of
a body's mixin calls in one flat list, while Ruby mixes in the last argument of a
call first. A name the index cannot resolve is a module of some other library,
which may define anything.
-/

set_option autoImplicit false
set_option relaxedAutoImplicit false

namespace Itaruby

open Linearization

/-- A class or module of the program: one of the project, or one of a library. -/
inductive Ref (ε : Type)
  | project (id : ClassId)
  | external (e : ε)
  deriving DecidableEq

def Ref.id? {ε : Type} : Ref ε → Option ClassId
  | .project id => some id
  | .external _ => none

/-- The statements of a class body that decide dispatch. -/
inductive BodyStmt
  | define (md : MethodDef)
  | mixin (kind : Ruby.MixinKind) (args : List ConstPath)

/-- A stretch of a class body as it is executed; a body interrupted by a nested one goes on
as another stretch. -/
structure ClassBody where
  path : ConstPath
  nesting : List ConstPath
  isModule : Bool := false
  superclass : Option ConstPath := none
  stmts : List BodyStmt := []

namespace ClassBody

def defs (body : ClassBody) : List MethodDef :=
  body.stmts.filterMap fun
    | .define md => some md
    | .mixin _ _ => none

/-- The arguments of all calls of one kind, in the order they are written. -/
def args (body : ClassBody) (kind : Ruby.MixinKind) : List ConstPath :=
  body.stmts.flatMap fun
    | .define _ => []
    | .mixin k args => if k = kind then args else []

/-- What `walk_body` records of the body. -/
def fragment (body : ClassBody) : ClassFragment where
  path := body.path
  nesting := body.nesting
  isModule := body.isModule
  superclass := body.superclass
  includes := body.args .inclusion
  prepends := body.args .prepending
  methods := body.defs

end ClassBody

/-- What a fragment tells of the instances of its class. -/
def ClassFragment.instanceSide (frag : ClassFragment) : ClassFragment where
  path := frag.path
  nesting := frag.nesting
  isModule := frag.isModule
  superclass := frag.superclass
  includes := frag.includes
  prepends := frag.prepends
  methods := frag.methods

/-- The files in load order, which is the order they are merged in. -/
abbrev Project := List (SourceFile × List ClassBody)

namespace Project

def files (project : Project) : List (SourceFile × FileDefs) :=
  project.map fun (file, bodies) ↦ (file, { fragments := bodies.map ClassBody.fragment })

def bodies (project : Project) : List ClassBody := project.flatMap Prod.snd

def fragments (project : Project) : List (SourceFile × List ClassFragment) :=
  project.map fun (file, bodies) ↦ (file, bodies.map ClassBody.fragment)

/-- What the files tell of instances, apart from patches by name. -/
def instanceSides (files : List (SourceFile × FileDefs)) :
    List (SourceFile × List ClassFragment) :=
  files.map fun (file, defs) ↦
    (file, (defs.fragments.filter fun frag ↦ frag.declaredOwnerRequired = false).map
      ClassFragment.instanceSide)

/-- The walker files of each body what `fragment` says, and whatever else it finds there. -/
def WrittenIn (project : Project) (files : List (SourceFile × FileDefs)) : Prop :=
  instanceSides files = project.fragments

/-- The bodies of the class at a path, with their files. -/
def bodiesAt (project : Project) (path : ConstPath) : List (SourceFile × ClassBody) :=
  project.flatMap fun (file, bodies) ↦
    (bodies.filter fun body ↦ body.path = path).map fun body ↦ (file, body)

/-- The definition of `name` that was executed last in the class at `path`. -/
def lastDef (project : Project) (path : ConstPath) (name : String) : Option MethodSig :=
  ((project.bodiesAt path).flatMap fun (file, body) ↦
    body.defs.map fun md ↦ (file, md)).reverse.findSome? fun (file, md) ↦
      if md.name = name then some (methodSig md file) else none

end Project

namespace ProjectIndex

variable {ε : Type} (ix : ProjectIndex) (denote : ClassId → ConstPath → ε)

/-- What a mixin name written in class `id` stands for. -/
def refOf (id : ClassId) (name : ConstPath) : Ref ε :=
  match ix.resolveConst (ix.classOf id).nesting name with
  | some m => .project m
  | none => .external (denote id name)

/-- The mixin calls of a body as Ruby executes them: the arguments of a call from the last
to the first. -/
def callsOf (body : ClassBody) : List (Ruby.Call (Ref ε)) :=
  match ix.byPath.lookup body.path with
  | none => []
  | some id => body.stmts.flatMap fun
    | .define _ => []
    | .mixin kind args =>
      args.reverse.map fun name ↦ ⟨kind, .project id, ix.refOf denote id name⟩

def calls (project : Project) : List (Ruby.Call (Ref ε)) :=
  project.bodies.flatMap (ix.callsOf denote)

/-- The superclasses Ruby sees are those the headers name; the chain of a class without a
header ends where the implicit `Object` begins. -/
structure Loads (H : Ruby.Hierarchy (Ref ε)) : Prop where
  isModule : ∀ a, H.isModule (.project a) = (ix.classOf a).isModule
  root : ∀ a, H.sup (.project a) = none → a ∉ ix.ambiguousAncestry →
    (ix.classOf a).superclass = none
  superclass : ∀ a p, H.sup (.project a) = some (.project p) → a ∉ ix.ambiguousAncestry →
    (ix.superclassOf a).Returns (some p)
  external : ∀ a e, H.sup (.project a) = some (.external e) → a ∉ ix.ambiguousAncestry →
    (ix.classOf a).superclass.isSome ∧ (ix.superclassOf a).Returns none
  library : ∀ e, H.sup (.external e) = none

/-- The classes and modules of the chain of `c` mix in one module per call, and none of them
mixes in a module that another one does. -/
structure PlainMixins (project : Project) (c : ClassId) : Prop where
  walk : (ix.ancestors c).Converges
  unambiguous : ∀ a, Relation.ReflTransGen ix.Ancestor c a → a ∉ ix.ambiguousAncestry
  single : ∀ a, Relation.ReflTransGen ix.Ancestor c a → ∀ body ∈ project.bodies,
    ix.byPath.lookup body.path = some a → ∀ kind args, .mixin kind args ∈ body.stmts →
      args.length ≤ 1
  once : (ix.calls denote project).Pairwise fun k k' ↦ ∀ a a',
    Relation.ReflTransGen ix.Ancestor c a → Relation.ReflTransGen ix.Ancestor c a' →
      k.target = .project a → k'.target = .project a' → k.module ≠ k'.module

/-! ### The merged table -/

def mixinsOf (cls : ClassDef) : Ruby.MixinKind → List ConstPath
  | .inclusion => cls.includes
  | .prepending => cls.prepends

/-- The table holds of each class what the bodies at its path write. -/
structure Records (project : Project) : Prop where
  bound : ∀ path id, ix.byPath.lookup path = some id → id < ix.classes.length
  path : ∀ path id, ix.byPath.lookup path = some id → (ix.classOf id).path = path
  mixins : ∀ kind path id, ix.byPath.lookup path = some id →
    mixinsOf (ix.classOf id) kind = (project.bodiesAt path).flatMap fun (_, body) ↦ body.args kind
  methods : ∀ name path id, ix.byPath.lookup path = some id →
    (ix.classOf id).methods.lookup name = project.lastDef path name

def mixinView (kind : Ruby.MixinKind) : FieldView (List ConstPath) where
  view cls := mixinsOf cls kind
  merge names _ frag := names ++ match kind with
    | .inclusion => frag.includes
    | .prepending => frag.prepends
  view_superclass _ _ := by cases kind <;> rfl
  view_merge _ _ _ := by cases kind <;> rfl

def methodView (name : String) : FieldView (Option MethodSig) where
  view cls := cls.methods.lookup name
  merge found file frag := (frag.methods.reverse.findSome? fun (md : MethodDef) ↦
    if md.name = name then some (methodSig md file) else none).or found
  view_superclass _ _ := rfl
  view_merge cls frag file := lookup_insertMethods cls.methods frag.methods file name

variable {ix} {project : Project} {files : List (SourceFile × FileDefs)}

/-- The fragments at a path tell of instances what the bodies at that path do. -/
theorem fragmentsAt_written (hwritten : project.WrittenIn files) (path : ConstPath) :
    (fragmentsAt files path).map (fun (file, frag) ↦ (file, frag.instanceSide)) =
      (project.bodiesAt path).map fun (file, body) ↦ (file, body.fragment) := by
  let here (entry : SourceFile × List ClassFragment) : List (SourceFile × ClassFragment) :=
    (entry.2.filter fun frag ↦ frag.path = path).map fun frag ↦ (entry.1, frag)
  have hfiles : (fragmentsAt files path).map (fun (file, frag) ↦ (file, frag.instanceSide)) =
      (Project.instanceSides files).flatMap here := by
    unfold fragmentsAt Project.instanceSides
    rw [List.flatMap_map, List.map_flatMap]
    refine List.flatMap_congr fun entry _ ↦ ?_
    simp only [here, List.filter_map, List.filter_filter, List.map_map, Function.comp_def]
    refine congrArg _ (List.filter_congr fun frag _ ↦ ?_)
    exact Bool.decide_and _ _
  have hbodies : (project.bodiesAt path).map (fun (file, body) ↦ (file, body.fragment)) =
      project.fragments.flatMap here := by
    unfold Project.bodiesAt Project.fragments
    rw [List.flatMap_map, List.map_flatMap]
    refine List.flatMap_congr fun entry _ ↦ ?_
    simp only [here, List.filter_map, List.map_map, Function.comp_def]
    rfl
  rw [hfiles, hwritten, hbodies]

theorem writtenIn_files (project : Project) : project.WrittenIn project.files := by
  unfold Project.WrittenIn Project.instanceSides Project.files Project.fragments
  rw [List.map_map]
  refine List.map_congr_left fun entry _ ↦ ?_
  have hall : (entry.2.map ClassBody.fragment).filter
      (fun frag ↦ frag.declaredOwnerRequired = false) = entry.2.map ClassBody.fragment := by
    refine List.filter_eq_self.mpr fun frag hfrag ↦ ?_
    obtain ⟨body, -, rfl⟩ := List.mem_map.mp hfrag
    rfl
  simp only [Function.comp_apply, hall, List.map_map]
  rfl

section Merged

variable (hix : (mergeFiles {} files).reconcileSuperclasses.Returns ix)
  (hwritten : project.WrittenIn files)

include hix hwritten

theorem view_of_lookup {β : Type} (V : FieldView β)
    (hV : ∀ view file frag, V.merge view file frag.instanceSide = V.merge view file frag)
    {path : ConstPath} {id : ClassId} (hid : ix.byPath.lookup path = some id) :
    V.view (ix.classOf id) = (project.bodiesAt path).foldl
      (fun view (file, body) ↦ V.merge view file body.fragment) (V.view { path }) := by
  have hsame := reconcileSuperclasses_sameBodies hix
  have hempty : ({} : ProjectIndex).WellKeyed := fun _ _ h ↦ by simp at h
  have hview := (mergeFiles_spec (V := V) files hempty).2 path
  have hstrip : (fragmentsAt files path).foldl
      (fun view (file, frag) ↦ V.merge view file frag) (V.view { path }) =
        ((fragmentsAt files path).map fun (file, frag) ↦ (file, frag.instanceSide)).foldl
          (fun view (file, frag) ↦ V.merge view file frag) (V.view { path }) := by
    rw [List.foldl_map]
    simp only [hV]
  rw [hsame.byPath] at hid
  rw [viewAt, hid] at hview
  dsimp only at hview
  rw [hsame.view V, hview]
  refine Eq.trans ?_ (hstrip.trans ?_)
  · simp [viewAt]
  · rw [fragmentsAt_written hwritten, List.foldl_map]

theorem records : ix.Records project where
  bound path id hid := by
    have hsame := reconcileSuperclasses_sameBodies hix
    have hempty : ({} : ProjectIndex).WellKeyed := fun _ _ h ↦ by simp at h
    have hkeyed := (mergeFiles_spec (V := methodView "") files hempty).1
    rw [hsame.byPath] at hid
    rw [hsame.length]
    exact (hkeyed path id hid).1
  path path id hid := by
    have h := view_of_lookup hix hwritten
      ⟨ClassDef.path, fun path _ _ ↦ path, fun _ _ ↦ rfl, fun _ _ _ ↦ rfl⟩ (fun _ _ _ ↦ rfl) hid
    simpa using h
  mixins kind path id hid := by
    have hfold : ∀ (l : List (SourceFile × ClassBody)) (names : List ConstPath),
        l.foldl (fun view (file, body) ↦ (mixinView kind).merge view file body.fragment) names =
          names ++ l.flatMap fun (_, body) ↦ body.args kind := by
      intro l
      induction l with
      | nil => simp
      | cons entry l ih =>
        intro names
        rw [List.foldl_cons, ih, List.flatMap_cons, ← List.append_assoc]
        cases kind <;> rfl
    have h := view_of_lookup hix hwritten (mixinView kind) (fun _ _ _ ↦ by cases kind <;> rfl) hid
    rw [hfold] at h
    cases kind <;> exact h
  methods name path id hid := by
    have hfold : ∀ (l : List (SourceFile × ClassBody)) (found : Option MethodSig),
        l.foldl (fun view (file, body) ↦ (methodView name).merge view file body.fragment) found =
          ((l.flatMap fun (file, body) ↦ body.defs.map fun md ↦ (file, md)).reverse.findSome?
            fun (file, md) ↦
              if md.name = name then some (methodSig md file) else none).or found := by
      intro l
      induction l with
      | nil => simp
      | cons entry l ih =>
        intro found
        obtain ⟨file, body⟩ := entry
        rw [List.foldl_cons, ih, List.flatMap_cons, List.reverse_append, List.findSome?_append,
          Option.or_assoc, ← List.map_reverse, List.findSome?_map]
        rfl
    have h := view_of_lookup hix hwritten (methodView name) (fun _ _ _ ↦ rfl) hid
    rw [hfold] at h
    simpa [methodView, Project.lastDef] using h

end Merged

/-! ### The calls of a class -/

section Calls

variable {denote : ClassId → ConstPath → ε}
  (hrec : ix.Records project)

theorem target_of_mem_calls {call : Ruby.Call (Ref ε)} (h : call ∈ ix.calls denote project) :
    ∃ body ∈ project.bodies, ∃ id, ix.byPath.lookup body.path = some id ∧
      call.target = .project id ∧
      ∃ name ∈ body.args call.kind, call.module = ix.refOf denote id name := by
  obtain ⟨body, hbody, hcall⟩ := List.mem_flatMap.mp h
  unfold callsOf at hcall
  cases hid : ix.byPath.lookup body.path with
  | none => simp [hid] at hcall
  | some id =>
    rw [hid] at hcall
    obtain ⟨stmt, hstmt, hcall⟩ := List.mem_flatMap.mp hcall
    cases stmt with
    | define md => simp at hcall
    | mixin kind args =>
      obtain ⟨name, hname, rfl⟩ := List.mem_map.mp hcall
      refine ⟨body, hbody, id, hid, rfl, name, ?_, rfl⟩
      exact List.mem_flatMap.mpr ⟨_, hstmt, by simpa using hname⟩

theorem entries_external (kind : Ruby.MixinKind) (e : ε) [DecidableEq ε] :
    Ruby.entries (ix.calls denote project) kind (.external e) = [] := by
  refine List.eq_nil_iff_forall_not_mem.mpr fun x hx ↦ ?_
  obtain ⟨call, hcall, -, htarget, -⟩ := Ruby.mem_entries_iff.mp hx
  obtain ⟨body, -, id, -, heq, -⟩ := target_of_mem_calls hcall
  simp [htarget] at heq

/-- The calls of one body on its own class, when none has several arguments. -/
theorem filter_callsOf_self [DecidableEq ε] {body : ClassBody} {id : ClassId}
    (hid : ix.byPath.lookup body.path = some id) (kind : Ruby.MixinKind)
    (hsingle : ∀ kind args, .mixin kind args ∈ body.stmts → args.length ≤ 1) :
    ((ix.callsOf denote body).filter fun call ↦
        call.kind = kind ∧ call.target = .project id).map Ruby.Call.module =
      (body.args kind).map (ix.refOf denote id) := by
  unfold callsOf ClassBody.args
  rw [hid]
  dsimp only
  rw [List.filter_flatMap, List.map_flatMap, List.map_flatMap]
  refine List.flatMap_congr fun stmt hstmt ↦ ?_
  cases stmt with
  | define md => rfl
  | mixin k args =>
    have hlength := hsingle k args hstmt
    have hreverse : args.reverse = args := by
      cases args with
      | nil => rfl
      | cons a rest =>
        cases rest with
        | nil => rfl
        | cons b rest => simp at hlength
    dsimp only
    rw [hreverse, List.filter_map]
    by_cases hk : k = kind
    · simp [hk, Function.comp_def]
    · simp [hk, Function.comp_def]

theorem filter_callsOf_other [DecidableEq ε] {body : ClassBody} {id : ClassId}
    (hid : ix.byPath.lookup body.path ≠ some id) (kind : Ruby.MixinKind) :
    (ix.callsOf denote body).filter (fun call ↦ call.kind = kind ∧ call.target = .project id) =
      [] := by
  refine List.filter_eq_nil_iff.mpr fun call hcall hmatch ↦ ?_
  unfold callsOf at hcall
  cases hlookup : ix.byPath.lookup body.path with
  | none => simp [hlookup] at hcall
  | some a =>
    rw [hlookup] at hcall
    obtain ⟨stmt, -, hcall⟩ := List.mem_flatMap.mp hcall
    cases stmt with
    | define md => simp at hcall
    | mixin k args =>
      obtain ⟨name, -, rfl⟩ := List.mem_map.mp hcall
      simp only [Ref.project.injEq, decide_eq_true_eq] at hmatch
      exact hid (hlookup.trans (congrArg some hmatch.2))

include hrec

/-- The modules mixed into a class, newest first, are its flat list of names reversed. -/
theorem entries_project [DecidableEq ε] (kind : Ruby.MixinKind) {path : ConstPath} {id : ClassId}
    (hid : ix.byPath.lookup path = some id)
    (hsingle : ∀ body ∈ project.bodies, ix.byPath.lookup body.path = some id →
      ∀ kind args, .mixin kind args ∈ body.stmts → args.length ≤ 1) :
    Ruby.entries (ix.calls denote project) kind (.project id) =
      ((mixinsOf (ix.classOf id) kind).map (ix.refOf denote id)).reverse := by
  unfold Ruby.entries calls
  congr 1
  rw [hrec.mixins kind _ _ hid, List.filter_flatMap, List.map_flatMap, List.map_flatMap]
  unfold Project.bodies Project.bodiesAt
  rw [List.flatMap_assoc, List.flatMap_assoc]
  refine List.flatMap_congr fun entry hentry ↦ ?_
  obtain ⟨file, bodies⟩ := entry
  have hmem : ∀ body ∈ bodies, body ∈ project.bodies := fun body hbody ↦
    List.mem_flatMap.mpr ⟨_, hentry, hbody⟩
  clear hentry
  dsimp only
  induction bodies with
  | nil => rfl
  | cons body rest ih =>
    have hrest := ih fun b hb ↦ hmem b (List.mem_cons_of_mem _ hb)
    rw [List.flatMap_cons, hrest, List.filter_cons]
    by_cases hpath : body.path = path
    · have hlookup : ix.byPath.lookup body.path = some id := hpath ▸ hid
      rw [filter_callsOf_self hlookup kind (hsingle body (hmem body List.mem_cons_self) hlookup)]
      simp [hpath]
    · have hne : ix.byPath.lookup body.path ≠ some id := fun h ↦
        hpath ((hrec.path _ _ h).symm.trans (hrec.path _ _ hid))
      rw [filter_callsOf_other hne]
      simp [hpath]

end Calls

/-! ### The order of the chain -/

/-- The classes of the chain of `c`, and whatever libraries they name. -/
def Below (ix : ProjectIndex) (c : ClassId) : Ref ε → Prop
  | .project a => Relation.ReflTransGen ix.Ancestor c a
  | .external _ => True

section Order

variable {denote : ClassId → ConstPath → ε} {H : Ruby.Hierarchy (Ref ε)}
  {s : Ruby.Chains (Ref ε)} {c : ClassId} {path : ConstPath}

theorem exists_path_of_reach (hc : ix.byPath.lookup path = some c) {a : ClassId}
    (ha : Relation.ReflTransGen ix.Ancestor c a) : ∃ q, ix.byPath.lookup q = some a := by
  rcases Relation.ReflTransGen.cases_tail ha with rfl | ⟨b, -, hba⟩
  · exact ⟨path, hc⟩
  · exact ix.exists_path_of_mem_targets (ancestor_mem_targets hba)

variable (hrec : ix.Records project)

include hrec

theorem mem_mixinsOf {body : ClassBody} (hbody : body ∈ project.bodies) {id : ClassId}
    (hid : ix.byPath.lookup body.path = some id) {kind : Ruby.MixinKind} {name : ConstPath}
    (hname : name ∈ body.args kind) : name ∈ mixinsOf (ix.classOf id) kind := by
  obtain ⟨⟨file, bodies⟩, hentry, hmem⟩ := List.mem_flatMap.mp hbody
  rw [hrec.mixins kind _ _ hid]
  refine List.mem_flatMap.mpr ⟨(file, body), List.mem_flatMap.mpr ⟨_, hentry, ?_⟩, hname⟩
  exact List.mem_map.mpr ⟨body, List.mem_filter.mpr ⟨hmem, by simp⟩, rfl⟩

theorem region (hload : ix.Loads H) (hplain : ix.PlainMixins denote project c) :
    Ruby.Region H (ix.calls denote project) (ix.Below c) where
  closed := by
    intro call hcall htarget
    obtain ⟨body, hbody, id, hid, heq, name, hname, hmodule⟩ := target_of_mem_calls hcall
    rw [heq] at htarget
    rw [hmodule, refOf]
    cases hm : ix.resolveConst (ix.classOf id).nesting name with
    | none => trivial
    | some m =>
      have hmem := mem_mixinsOf hrec hbody hid hname
      have hwritten : name ∈ (ix.classOf id).prepends ++ (ix.classOf id).includes := by
        revert hmem
        cases call.kind
        · exact fun h ↦ List.mem_append_right _ h
        · exact fun h ↦ List.mem_append_left _ h
      exact Relation.ReflTransGen.tail htarget (Or.inl ⟨name, hwritten, hm⟩)
  superclass := by
    intro a b ha hsup
    cases a with
    | external e => simp [hload.library e] at hsup
    | project a =>
      cases b with
      | external e => trivial
      | project p =>
        exact Relation.ReflTransGen.tail ha
          (Or.inr (hload.superclass a p hsup (hplain.unambiguous a ha)))
  once := by
    refine hplain.once.imp_of_mem fun {k k'} hk hk' h hR hR' ↦ ?_
    obtain ⟨-, -, id, -, heq, -⟩ := target_of_mem_calls hk
    obtain ⟨-, -, id', -, heq', -⟩ := target_of_mem_calls hk'
    rw [heq] at hR
    rw [heq'] at hR'
    exact h id id' hR hR' heq heq'

omit hrec in
theorem filterMap_flatMap_refs {f : Ref ε → List (Ref ε)}
    (hexternal : ∀ e, f (.external e) = [.external e]) (id : ClassId) (names : List ConstPath) :
    ((names.map (ix.refOf denote id)).flatMap f).filterMap Ref.id? =
      (names.map (ix.resolveConst (ix.classOf id).nesting)).reduceOption.flatMap
        fun m ↦ (f (.project m)).filterMap Ref.id? := by
  induction names with
  | nil => rfl
  | cons name rest ih =>
    rw [List.map_cons, List.flatMap_cons, List.filterMap_append, ih, List.map_cons, refOf]
    cases ix.resolveConst (ix.classOf id).nesting name with
    | none => simp [hexternal, List.reduceOption_cons_of_none, Ref.id?]
    | some m => rw [List.reduceOption_cons_of_some, List.flatMap_cons]

variable [DecidableEq ε] (hc : ix.byPath.lookup path = some c) (hload : ix.Loads H)
  (hrun : Ruby.Run H (ix.calls denote project) s) (hplain : ix.PlainMixins denote project c)

include hload hrun hplain

theorem ancestors_external (e : ε) : Ruby.ancestors H s (.external e) = [.external e] := by
  rw [Ruby.ancestors_eq hrun (region hrec hload hplain) (a := .external e) trivial,
    entries_external, entries_external, hload.library e]
  rfl

theorem superclass_eq {a : ClassId} {target : Option ClassId}
    (ha : Relation.ReflTransGen ix.Ancestor c a)
    (htarget : (ix.classOf a).superclass = none ∧ target = none ∨
      (ix.classOf a).superclass.isSome ∧ (ix.superclassOf a).Returns target) :
    ((H.sup (.project a)).toList.flatMap (Ruby.ancestors H s)).filterMap Ref.id? =
      [target].reduceOption.flatMap
        fun m ↦ (Ruby.ancestors H s (.project m)).filterMap Ref.id? := by
  have hamb := hplain.unambiguous a ha
  cases hsup : H.sup (.project a) with
  | none =>
    rcases htarget with ⟨-, rfl⟩ | ⟨hsome, -⟩
    · rfl
    · simp [hload.root a hsup hamb] at hsome
  | some b =>
    cases b with
    | project p =>
      have hp := hload.superclass a p hsup hamb
      rcases htarget with ⟨hnone, rfl⟩ | ⟨-, htarget⟩
      · unfold superclassOf at hp
        simp [hnone] at hp
      · obtain rfl := htarget.unique hp
        simp [List.reduceOption]
    | external e =>
      obtain ⟨hsome, hnone⟩ := hload.external a e hsup hamb
      rcases htarget with ⟨h, -⟩ | ⟨-, htarget⟩
      · simp [h] at hsome
      · obtain rfl := htarget.unique hnone
        simp [List.reduceOption, ancestors_external hrec hload hrun hplain, Ref.id?]

include hc

/-- The unfolding of the calls, cut down to project classes, satisfies the equation of the
walk. -/
theorem chain_eq {n : ℕ} {a : ClassId} {e : Expansion ClassId}
    (ha : Relation.ReflTransGen ix.Ancestor c a) (he : ix.expander.expandAt n a = some e) :
    (Ruby.ancestors H s (.project a)).filterMap Ref.id? =
      e.before.reduceOption.flatMap
          (fun m ↦ (Ruby.ancestors H s (.project m)).filterMap Ref.id?) ++
        a :: e.after.reduceOption.flatMap
          (fun m ↦ (Ruby.ancestors H s (.project m)).filterMap Ref.id?) := by
  have hexternal := ancestors_external hrec hload hrun hplain
  obtain ⟨q, hq⟩ := exists_path_of_reach hc ha
  have hmixins : ∀ kind, ((Ruby.entries (ix.calls denote project) kind (.project a)).flatMap
      (Ruby.ancestors H s)).filterMap Ref.id? =
        ((mixinsOf (ix.classOf a) kind).reverse.map
          (ix.resolveConst (ix.classOf a).nesting)).reduceOption.flatMap
            fun m ↦ (Ruby.ancestors H s (.project m)).filterMap Ref.id? := by
    intro kind
    rw [entries_project hrec kind hq (hplain.single a ha), ← List.map_reverse,
      filterMap_flatMap_refs hexternal]
  rw [Ruby.ancestors_eq hrun (region hrec hload hplain) (a := .project a) ha, List.filterMap_append,
    List.filterMap_cons, List.filterMap_append, hmixins, hmixins]
  rcases exists_expandAt_iff.mp ⟨n, he⟩ with ⟨hsc, rfl⟩ | ⟨sc, target, hsc, htarget, rfl⟩
  · rw [superclass_eq hrec hload hrun hplain ha (Or.inl ⟨hsc, rfl⟩)]
    simp [expansionOf, mixinsOf, Ref.id?]
  · rw [superclass_eq hrec hload hrun hplain ha (Or.inr ⟨by simp [hsc], htarget⟩)]
    simp [expansionOf, mixinsOf, Ref.id?, List.reduceOption_append]

/-- The chain of `c` lists the project's classes in the order of Ruby's ancestors. -/
theorem ancestors_order : ∃ complete, (ix.ancestors c).Returns
    ((Ruby.ancestors H s (.project c)).filterMap Ref.id?, complete) := by
  obtain ⟨⟨chain, complete⟩, hchain⟩ := hplain.walk
  obtain ⟨n, st, hst, heq⟩ := returns_ancestors_iff.mp hchain
  have hregion := region hrec hload hplain
  have hnodup : ∀ a, Relation.ReflTransGen ix.Ancestor c a →
      ((Ruby.ancestors H s (.project a)).filterMap Ref.id?).Nodup := by
    intro a ha
    refine List.Nodup.filterMap ?_
      ((Ruby.run_flat hrun hregion).ancestors_nodup hregion hrun.isModule ha)
    intro r r' id hr hr'
    cases r <;> cases r' <;> simp_all [Ref.id?]
  have hself : ∀ a, Relation.ReflTransGen ix.Ancestor c a →
      a ∈ (Ruby.ancestors H s (.project a)).filterMap Ref.id? := by
    intro a ha
    refine List.mem_filterMap.mpr ⟨.project a, List.mem_append_left _ ?_, rfl⟩
    exact (Ruby.run_flat hrun hregion).self_mem ha
  have hout := Expander.out_eq_of_tree
    (fun n a e ha he ↦ ⟨fun w hw ↦ ha.tail ((edge_iff ⟨n, e, he⟩).mp ⟨n, e, he, hw⟩),
      chain_eq hrec hc hload hrun hplain ha he⟩) hnodup hself hst Relation.ReflTransGen.refl
  rw [← (Prod.mk.inj heq).1, hout] at hchain
  exact ⟨complete, hchain⟩

end Order

/-! ### Dispatch -/

/-- The first class or module of the order that has `name`. The program's own classes have
what was executed last in them; `answers` tells which library modules have it. -/
def dispatch (ix : ProjectIndex) (project : Project) (answers : ε → Bool) (name : String)
    (order : List (Ref ε)) : Option (Ref ε) :=
  order.find? fun
    | .project a => (project.lastDef (ix.classOf a).path name).isSome
    | .external e => answers e

/-- A definition that is found is the one that runs, whatever the libraries define, and no
library module comes before it. -/
def FoundRuns (ix : ProjectIndex) (project : Project) (c : ClassId) (name : String)
    (order : List (Ref ε)) : Prop :=
  ∀ sig owner, (ix.lookupMethod c name).Returns (.found sig owner) →
    (∀ answers, ix.dispatch project answers name order = some (.project owner)) ∧
      project.lastDef (ix.classOf owner).path name = some sig ∧
      ∀ l r, order = l ++ .project owner :: r → ∀ x ∈ l, x.id?.isSome

/-- No library module comes before the first class of the order that has `name`, as long as
no class up to it is open. -/
def ResolvedBefore (ix : ProjectIndex) (name : String) (order : List (Ref ε)) : Prop :=
  ∀ l owner r, order = l ++ .project owner :: r →
    (∀ a, .project a ∈ l → ix.InstanceSilent name a) →
    (ix.classOf owner).opaqueOpen = false → (ix.classOf owner).defines name = true →
      ∀ x ∈ l, x.id?.isSome

section Found

variable {H : Ruby.Hierarchy (Ref ε)} {s : Ruby.Chains (Ref ε)} {c : ClassId} {path : ConstPath}

theorem filterMap_split {order l r : List (Ref ε)} {owner : ClassId}
    (h : order = l ++ .project owner :: r) :
    order.filterMap Ref.id? = l.filterMap Ref.id? ++ owner :: r.filterMap Ref.id? := by
  rw [h, List.filterMap_append, List.filterMap_cons]
  rfl

theorem mem_filterMap_id {l : List (Ref ε)} {a : ClassId} :
    a ∈ l.filterMap Ref.id? ↔ .project a ∈ l := by
  rw [List.mem_filterMap]
  constructor
  · rintro ⟨r, hr, heq⟩
    cases r with
    | project b =>
      obtain rfl : b = a := Option.some.inj heq
      exact hr
    | external e => simp [Ref.id?] at heq
  · exact fun h ↦ ⟨_, h, rfl⟩

/-- The classes before the owner of a found method, in an order that the chain agrees with. -/
theorem split_of_found {order : List (Ref ε)} {complete : Bool}
    (hchain : (ix.ancestors c).Returns (order.filterMap Ref.id?, complete)) {name : String}
    {sig : MethodSig} {owner : ClassId}
    (hfound : (ix.lookupMethod c name).Returns (.found sig owner)) {l r : List (Ref ε)}
    (hsplit : order = l ++ .project owner :: r) :
    (∀ a, .project a ∈ l → ix.InstanceSilent name a) ∧
      (ix.classOf owner).opaqueOpen = false ∧
      (ix.classOf owner).methods.lookup name = some sig := by
  obtain ⟨chain, complete', hchain', hscan⟩ := lookupMethod_found_iff.mp hfound
  obtain ⟨rfl, -⟩ := Prod.mk.inj (hchain.unique hchain')
  obtain ⟨l', r', heq, hsilent, howner⟩ := scanInstance_eq_found_iff.mp hscan
  have hnodup := ancestors_nodup hchain
  have hsame := filterMap_split hsplit
  rw [heq] at hsame hnodup
  have hout : owner ∉ l' ∧ owner ∉ r' := by
    have := List.nodup_middle.mp hnodup
    rw [List.nodup_cons, List.mem_append, not_or] at this
    exact this.1
  obtain ⟨rfl, -, -⟩ := (List.append_cons_inj_of_notMem hout.1 hout.2).mp hsame
  exact ⟨fun a ha ↦ hsilent a (mem_filterMap_id.mpr ha), howner⟩

variable [DecidableEq ε] {denote : ClassId → ConstPath → ε}
  (hrec : ix.Records project)
  (hc : ix.byPath.lookup path = some c) (hload : ix.Loads H)
  (hrun : Ruby.Run H (ix.calls denote project) s) (hplain : ix.PlainMixins denote project c)

include hrec hc hload hrun hplain

theorem lastDef_of_mem_ancestors {a : ClassId} (ha : .project a ∈ Ruby.ancestors H s (.project c))
    (name : String) :
    project.lastDef (ix.classOf a).path name = (ix.classOf a).methods.lookup name := by
  obtain ⟨complete, hchain⟩ := ancestors_order hrec hc hload hrun hplain
  have hreach := (mem_ancestors_iff hchain).mp (mem_filterMap_id.mpr ha)
  obtain ⟨q, hq⟩ := exists_path_of_reach hc hreach
  rw [hrec.methods _ _ _ hq, hrec.path _ _ hq]

theorem foundRuns_iff (name : String) :
    ix.FoundRuns project c name (Ruby.ancestors H s (.project c)) ↔
      ix.ResolvedBefore name (Ruby.ancestors H s (.project c)) := by
  obtain ⟨complete, hchain⟩ := ancestors_order hrec hc hload hrun hplain
  constructor
  · intro h l owner r hsplit hsilent hopen hdef
    obtain ⟨sig, hsig⟩ := Option.isSome_iff_exists.mp hdef
    have hfound : (ix.lookupMethod c name).Returns (.found sig owner) := by
      refine lookupMethod_found_iff.mpr ⟨_, complete, hchain, scanInstance_eq_found_iff.mpr ?_⟩
      refine ⟨_, _, filterMap_split hsplit, fun a ha ↦ hsilent a ?_, hopen, hsig⟩
      exact mem_filterMap_id.mp ha
    exact (h sig owner hfound).2.2 l r hsplit
  · intro h sig owner hfound
    obtain ⟨chain', complete', hchain', hscan⟩ := lookupMethod_found_iff.mp hfound
    obtain ⟨rfl, -⟩ := Prod.mk.inj (hchain.unique hchain')
    obtain ⟨l', r', heq, -⟩ := scanInstance_eq_found_iff.mp hscan
    have hmem : .project owner ∈ Ruby.ancestors H s (.project c) :=
      mem_filterMap_id.mp (by simp [heq])
    obtain ⟨l, r, hsplit⟩ := List.append_of_mem hmem
    obtain ⟨hsilent, hopen, hsig⟩ := split_of_found hchain hfound hsplit
    have hlast := fun {a} (ha : .project a ∈ Ruby.ancestors H s (.project c)) ↦
      lastDef_of_mem_ancestors hrec hc hload hrun hplain ha name
    have hresolved : ∀ l r, Ruby.ancestors H s (.project c) = l ++ .project owner :: r →
        ∀ x ∈ l, x.id?.isSome := by
      intro l r hsplit
      obtain ⟨hsilent, hopen, hsig⟩ := split_of_found hchain hfound hsplit
      exact h l owner r hsplit hsilent hopen (by simp [ClassDef.defines, hsig])
    refine ⟨fun answers ↦ ?_, (hlast hmem).trans hsig, hresolved⟩
    unfold dispatch
    rw [List.find?_eq_some_iff_append]
    refine ⟨by simp [hlast hmem, hsig], l, r, hsplit, fun x hx ↦ ?_⟩
    cases x with
    | external e => simpa [Ref.id?] using hresolved l r hsplit _ hx
    | project a =>
      have ha : .project a ∈ Ruby.ancestors H s (.project c) := by simp [hsplit, hx]
      have hnone : (ix.classOf a).methods.lookup name = none := by
        simpa [ClassDef.defines] using (hsilent a hx).2
      simp [hlast ha, hnone]

end Found

section Merged

variable [DecidableEq ε] {denote : ClassId → ConstPath → ε} {H : Ruby.Hierarchy (Ref ε)}
  {s : Ruby.Chains (Ref ε)} {c : ClassId} {path : ConstPath}
  (hix : (mergeFiles {} project.files).reconcileSuperclasses.Returns ix)
  (hc : ix.byPath.lookup path = some c) (hload : ix.Loads H)
  (hrun : Ruby.Run H (ix.calls denote project) s) (hplain : ix.PlainMixins denote project c)

include hix hc hload hrun hplain

end Merged

/-! ### Two arguments in one call -/

/-- Two modules that define `greet` and a class `Host` with the given body. -/
def greeters (stmts : List BodyStmt) : Project :=
  [("greeters.rb",
    [{ path := ["Loud"], nesting := [["Loud"]], isModule := true,
       stmts := [.define { name := "greet", required := 1,
                           nameSpan := (18, 23), defSpan := (14, 35) }] },
     { path := ["Quiet"], nesting := [["Quiet"]], isModule := true,
       stmts := [.define { name := "greet", nameSpan := (58, 63), defSpan := (54, 69) }] },
     { path := ["Host"], nesting := [["Host"]], stmts }])]

def greeterIndex (stmts : List BodyStmt) : ProjectIndex := mergeFiles {} (greeters stmts).files

/-- No class of the program has a superclass. -/
def rootHierarchy (ix : ProjectIndex) : Ruby.Hierarchy (Ref ConstPath) where
  isModule
    | .project a => (ix.classOf a).isModule
    | .external _ => true
  sup _ := none
  above _ := []
  above_eq _ := rfl
  sup_of_module _ _ := rfl
  isModule_of_sup _ _ h := by simp at h

def asWritten (_ : ClassId) (name : ConstPath) : ConstPath := name

/-- `include Loud, Quiet` -/
def oneCall : List BodyStmt := [.mixin .inclusion [["Loud"], ["Quiet"]]]

/-- `include Quiet`, then `include Loud` -/
def twoCalls : List BodyStmt := [.mixin .inclusion [["Quiet"]], .mixin .inclusion [["Loud"]]]

/-- Ruby's chains after the module of `first` and then that of `second` are included in
`Host`. -/
def hostChains (ix : ProjectIndex) (first second : ClassId) : Ruby.Chains (Ref ConstPath) :=
  Ruby.relayAll (rootHierarchy ix)
    (Ruby.relayAll (rootHierarchy ix) Ruby.initialChains
      ⟨.inclusion, .project 2, .project first⟩ [])
    ⟨.inclusion, .project 2, .project second⟩ []

theorem hostChains_run (ix : ProjectIndex) {first second : ClassId}
    (hfirst : (ix.classOf first).isModule = true) (hsecond : (ix.classOf second).isModule = true)
    (hhost : (ix.classOf 2).isModule = false) :
    Ruby.Run (rootHierarchy ix)
      [⟨.inclusion, .project 2, .project first⟩, ⟨.inclusion, .project 2, .project second⟩]
      (hostChains ix first second) := by
  have hne : ∀ m, (ix.classOf m).isModule = true → m ≠ 2 := by
    rintro m hm rfl
    simp [hhost] at hm
  have hinitial : ∀ d : Ref ConstPath, d ≠ .project 2 →
      .project 2 ∉ (Ruby.initialChains d : List (Ref ConstPath)) := fun d hd h ↦
    hd (List.mem_singleton.mp h).symm
  refine .snoc (.snoc .nil (.of_not_held hfirst ?_ hinitial)) (.of_not_held hsecond ?_ ?_)
  · exact hinitial _ fun h ↦ hne first hfirst (Ref.project.inj h)
  · have hd : (Ref.project second : Ref ConstPath) ≠ .project 2 :=
      fun h ↦ hne second hsecond (Ref.project.inj h)
    rw [Ruby.relayAll, List.foldl_nil, Function.update_of_ne hd]
    exact hinitial _ hd
  · intro d hd
    rw [Ruby.relayAll, List.foldl_nil, Function.update_of_ne hd]
    exact hinitial d hd

theorem rootHierarchy_loads {ix : ProjectIndex} (h : ∀ a, (ix.classOf a).superclass = none) :
    ix.Loads (rootHierarchy ix) where
  isModule _ := rfl
  root a _ _ := h a
  superclass _ _ hsup := by simp [rootHierarchy] at hsup
  external _ _ hsup := by simp [rootHierarchy] at hsup
  library _ := rfl

theorem greeterIndex_superclass (stmts : List BodyStmt) (a : ClassId) :
    ((greeterIndex stmts).classOf a).superclass = none := by
  match a with
  | 0 => rfl
  | 1 => rfl
  | 2 => rfl
  | _ + 3 => rfl

end ProjectIndex

end Itaruby
