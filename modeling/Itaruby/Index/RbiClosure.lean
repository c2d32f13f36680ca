import Itaruby.Index.Basic
import Itaruby.Library.KeyedSearch

/-!
What the RBI files say of an external class: the constants of its ancestors and the methods of
its instances and of its class object. Both are searches over the namespaces that the
fragments name. The search for constants follows the edges of the first fragment that a file
has of a namespace, the search for methods those of all of them, but it looks an edge up in the
file it was written in before it asks the map of all files.
-/

set_option autoImplicit false
set_option relaxedAutoImplicit false

namespace Itaruby

/-- The files that declare a namespace, and what each file says. -/
structure RbiTree where
  map : ConstPath → Option (List SourceFile)
  defs : SourceFile → FileDefs

/-! ### Constants -/

def directChild (path node : ConstPath) : Option String :=
  if node.isPrefixOf path then
    match path.drop node.length with
    | [child] => some child
    | _ => none
  else none

/-- The fragments of a path in one file. -/
def fragmentsOf (defs : FileDefs) (path : ConstPath) : List ClassFragment :=
  defs.fragments.filter fun frag ↦ frag.path = path

def harvestRbiConsts (defs : FileDefs) (node : ConstPath) : List String :=
  (fragmentsOf defs node).flatMap ClassFragment.consts ++
    (defs.fragments.filterMap fun frag ↦ directChild frag.path node) ++
    defs.consts.filterMap fun entry ↦ directChild entry.1 node

/-- The names of the ancestors of a fragment. -/
def ancestryEdges (frag : ClassFragment) : List ConstPath :=
  (frag.superclass.toList ++ frag.includes ++ frag.prepends).map trimCbase

/-- What `queue_rbi_edges` pushes: the edges of the first fragment only. -/
def queueRbiEdges (defs : FileDefs) (node : ConstPath) : List ConstPath :=
  match defs.fragments.find? fun frag ↦ frag.path = node with
  | none => []
  | some frag => ancestryEdges frag

/-! ### Methods -/

structure MethodWorkItem where
  node : ConstPath
  onSingletonTrack : Bool
  parent : Option (SourceFile × ConstPath)
  deriving DecidableEq

/-- The names found so far, each with the text of its signature. -/
structure RbiMethodSets where
  instanceMethods : AList fun _ : String ↦ Option String := ∅
  singletonMethods : AList fun _ : String ↦ Option String := ∅

/-- `entry(name).or_insert_with(..)`. -/
def orInsert (table : AList fun _ : String ↦ Option String) (md : MethodDef) :
    AList fun _ : String ↦ Option String :=
  match table.lookup md.name with
  | some _ => table
  | none => table.insert md.name md.sorbetRet

namespace RbiMethodSets

def table (sets : RbiMethodSets) (singleton : Bool) : AList fun _ : String ↦ Option String :=
  if singleton then sets.singletonMethods else sets.instanceMethods

def record (singleton : Bool) (sets : RbiMethodSets) (md : MethodDef) : RbiMethodSets :=
  if singleton then { sets with singletonMethods := orInsert sets.singletonMethods md }
  else { sets with instanceMethods := orInsert sets.instanceMethods md }

def Has (sets : RbiMethodSets) (singleton : Bool) (name : String) : Prop :=
  ((sets.table singleton).lookup name).isSome

end RbiMethodSets

def harvestFragMethods (frag : ClassFragment) (onSingletonTrack : Bool) (sets : RbiMethodSets) :
    RbiMethodSets :=
  frag.methods.foldl (RbiMethodSets.record onSingletonTrack)
    (frag.singletonMethods.foldl (RbiMethodSets.record true) sets)

def queueMethodEdges (frag : ClassFragment) (onSingletonTrack : Bool) (file : SourceFile) :
    List MethodWorkItem :=
  let item (singleton : Bool) (edge : ConstPath) : MethodWorkItem :=
    { node := trimCbase edge, onSingletonTrack := singleton, parent := some (file, frag.path) }
  (frag.superclass.toList ++ frag.includes ++ frag.prepends).map (item onSingletonTrack) ++
    if onSingletonTrack then [] else (frag.extends' ++ frag.mixesInClassMethods).map (item true)

/-- A namespace on a track, with the files an item found it in. -/
structure MethodNode where
  path : ConstPath
  onSingletonTrack : Bool
  files : List SourceFile

namespace RbiTree

variable (tree : RbiTree)

def ancestorSearch : KeyedSearch ConstPath (ConstPath × List SourceFile) ConstPath (Finset String)
    where
  cap := 48
  resolve node := some (node, (tree.map node).getD [])
  key := Prod.fst
  visit node consts := node.2.foldl
    (fun consts file ↦ consts ∪ (harvestRbiConsts (tree.defs file) node.1).toFinset) consts
  next node := (node.2.flatMap fun file ↦ queueRbiEdges (tree.defs file) node.1).reverse

def computeRbiAncestorClosure (start : ConstPath) : Fueled (Finset String) :=
  tree.ancestorSearch.run start ∅

def declaresIn (file : SourceFile) (path : ConstPath) : Bool :=
  (tree.defs file).fragments.any fun frag ↦ frag.path = path

/-- The text itself in the parent's file, then below the parent, then anywhere. -/
def resolveMethodNode (node : ConstPath) :
    Option (SourceFile × ConstPath) → Option (ConstPath × List SourceFile)
  | none => (tree.map node).map fun files ↦ (node, files)
  | some (parentFile, parentPath) =>
    if tree.declaresIn parentFile node then some (node, [parentFile])
    else if tree.declaresIn parentFile (parentPath ++ node) then
      some (parentPath ++ node, [parentFile])
    else (tree.map node).map fun files ↦ (node, files)

def harvestFile (path : ConstPath) (onSingletonTrack : Bool) (sets : RbiMethodSets)
    (file : SourceFile) : RbiMethodSets :=
  (fragmentsOf (tree.defs file) path).foldl
    (fun sets frag ↦ harvestFragMethods frag onSingletonTrack sets) sets

def methodSearch : KeyedSearch MethodWorkItem MethodNode (ConstPath × Bool) RbiMethodSets where
  cap := 4096
  resolve item := (tree.resolveMethodNode item.node item.parent).map fun found ↦
    { path := found.1, onSingletonTrack := item.onSingletonTrack, files := found.2 }
  key node := (node.path, node.onSingletonTrack)
  visit node sets := node.files.foldl (tree.harvestFile node.path node.onSingletonTrack) sets
  next node := (node.files.flatMap fun file ↦
    (fragmentsOf (tree.defs file) node.path).flatMap fun frag ↦
      queueMethodEdges frag node.onSingletonTrack file).reverse

def methodStart (start : ConstPath) : MethodWorkItem :=
  { node := start, onSingletonTrack := false, parent := none }

def computeRbiMethodClosure (start : ConstPath) : Fueled RbiMethodSets :=
  tree.methodSearch.run (methodStart start) {}

/-! ### Reachability -/

/-- The files the map lists for a namespace. -/
def listed (node : ConstPath) : List SourceFile := (tree.map node).getD []

/-- Some fragment of `a` names `b` as an ancestor. -/
def ConstEdge (a b : ConstPath) : Prop :=
  ∃ file ∈ tree.listed a, ∃ frag ∈ fragmentsOf (tree.defs file) a, b ∈ ancestryEdges frag

/-- The first fragment of `a` in some file does. -/
def FirstEdge (a b : ConstPath) : Prop :=
  ∃ file ∈ tree.listed a, b ∈ queueRbiEdges (tree.defs file) a

def DeclaresConst (node : ConstPath) (name : String) : Prop :=
  ∃ file ∈ tree.listed node, name ∈ harvestRbiConsts (tree.defs file) node

def ReachableConst (start : ConstPath) (name : String) : Prop :=
  ∃ node, Relation.ReflTransGen tree.ConstEdge start node ∧ tree.DeclaresConst node name

/-- A file declares a namespace that is reached on a track: the map lists it there, or an edge
written in it found the namespace in it. -/
inductive MethodReach (start : ConstPath) : ConstPath → Bool → SourceFile → Prop
  | start {file : SourceFile} : file ∈ tree.listed start → MethodReach start start false file
  | edge {path path' : ConstPath} {track : Bool} {file file' : SourceFile} {frag : ClassFragment}
      {item : MethodWorkItem} {files : List SourceFile} :
      MethodReach start path track file → frag ∈ fragmentsOf (tree.defs file) path →
      item ∈ queueMethodEdges frag track file →
      tree.resolveMethodNode item.node item.parent = some (path', files) →
      file' ∈ files ∨ file' ∈ tree.listed path' →
      MethodReach start path' item.onSingletonTrack file'

end RbiTree

/-- A fragment on a track gives its methods to the track, and its singleton methods to the class
object on either one. -/
def ClassFragment.Gives (frag : ClassFragment) (track singleton : Bool) (name : String) : Prop :=
  (singleton = true ∧ ∃ md ∈ frag.singletonMethods, md.name = name) ∨
    (track = singleton ∧ ∃ md ∈ frag.methods, md.name = name)

namespace RbiTree

variable (tree : RbiTree)

def ReachableMethod (start : ConstPath) (singleton : Bool) (name : String) : Prop :=
  ∃ path track file, tree.MethodReach start path track file ∧
    ∃ frag ∈ fragmentsOf (tree.defs file) path, frag.Gives track singleton name

/-- Edges that lead to one namespace on one track find the same files that declare it. -/
def FindsAlike (start : ConstPath) : Prop :=
  ∀ item item', tree.methodSearch.Queued (methodStart start) item →
    tree.methodSearch.Queued (methodStart start) item' →
    item.onSingletonTrack = item'.onSingletonTrack → ∀ path files files',
      tree.resolveMethodNode item.node item.parent = some (path, files) →
      tree.resolveMethodNode item'.node item'.parent = some (path, files') →
        ∀ file ∈ files, fragmentsOf (tree.defs file) path ≠ [] → file ∈ files'

/-- A file in which an edge finds its namespace gives the method. -/
def FoundMethod (start : ConstPath) (singleton : Bool) (name : String) : Prop :=
  ∃ item, tree.methodSearch.Queued (methodStart start) item ∧ ∃ path files,
    tree.resolveMethodNode item.node item.parent = some (path, files) ∧ ∃ file ∈ files,
      ∃ frag ∈ fragmentsOf (tree.defs file) path, frag.Gives item.onSingletonTrack singleton name

/-- The files in which the edges find their namespaces give every reachable method. -/
def FoundSuffices (start : ConstPath) : Prop :=
  ∀ singleton name, tree.ReachableMethod start singleton name →
    tree.FoundMethod start singleton name

/-- The namespaces that the first fragments lead to declare every reachable constant. -/
def FirstSuffices (start : ConstPath) : Prop :=
  ∀ name, tree.ReachableConst start name →
    ∃ node, Relation.ReflTransGen tree.FirstEdge start node ∧ tree.DeclaresConst node name

/-- The searches of `tree'` end with what is reachable in `tree`. -/
structure Exact (tree tree' : RbiTree) (start : ConstPath) : Prop where
  consts : ∃ consts, (tree'.computeRbiAncestorClosure start).Returns consts ∧
    ∀ name, name ∈ consts ↔ tree.ReachableConst start name
  methods : ∃ sets, (tree'.computeRbiMethodClosure start).Returns sets ∧
    ∀ singleton name, sets.Has singleton name ↔ tree.ReachableMethod start singleton name

/-! ### What a visit records -/

theorem isSome_lookup_orInsert {table : AList fun _ : String ↦ Option String} {md : MethodDef}
    {name : String} :
    ((orInsert table md).lookup name).isSome ↔ (table.lookup name).isSome ∨ md.name = name := by
  unfold orInsert
  cases hfound : table.lookup md.name with
  | some ret =>
    refine ⟨.inl, ?_⟩
    rintro (h | rfl)
    · exact h
    · simp [hfound]
  | none =>
    by_cases heq : name = md.name
    · subst heq
      simp [AList.lookup_insert]
    · rw [AList.lookup_insert_ne heq]
      simp [Ne.symm heq]

theorem has_record {sets : RbiMethodSets} {track singleton : Bool} {md : MethodDef}
    {name : String} :
    (sets.record track md).Has singleton name ↔
      sets.Has singleton name ∨ (track = singleton ∧ md.name = name) := by
  unfold RbiMethodSets.Has RbiMethodSets.record RbiMethodSets.table
  cases track <;> cases singleton <;> simp [isSome_lookup_orInsert]

theorem has_harvestFragMethods {sets : RbiMethodSets} {frag : ClassFragment}
    {track singleton : Bool} {name : String} :
    (harvestFragMethods frag track sets).Has singleton name ↔
      sets.Has singleton name ∨ frag.Gives track singleton name := by
  have hrecord : ∀ (track : Bool) (mds : List MethodDef) (sets : RbiMethodSets),
      (mds.foldl (RbiMethodSets.record track) sets).Has singleton name ↔
        sets.Has singleton name ∨ ∃ md ∈ mds, track = singleton ∧ md.name = name :=
    fun track mds sets ↦ KeyedSearch.foldl_iff (P := fun sets ↦ sets.Has singleton name)
      (Q := fun md : MethodDef ↦ track = singleton ∧ md.name = name)
      (fun _ _ ↦ has_record) mds sets
  unfold harvestFragMethods ClassFragment.Gives
  rw [hrecord, hrecord, or_assoc]
  refine or_congr Iff.rfl (or_congr ?_ ?_)
  · constructor
    · rintro ⟨md, hmd, rfl, hname⟩
      exact ⟨rfl, md, hmd, hname⟩
    · rintro ⟨rfl, md, hmd, hname⟩
      exact ⟨md, hmd, rfl, hname⟩
  · constructor
    · rintro ⟨md, hmd, rfl, hname⟩
      exact ⟨rfl, md, hmd, hname⟩
    · rintro ⟨rfl, md, hmd, hname⟩
      exact ⟨md, hmd, rfl, hname⟩

variable {tree : RbiTree} {start : ConstPath}

theorem has_harvestFile {path : ConstPath} {track singleton : Bool} {sets : RbiMethodSets}
    {file : SourceFile} {name : String} :
    (tree.harvestFile path track sets file).Has singleton name ↔
      sets.Has singleton name ∨
        ∃ frag ∈ fragmentsOf (tree.defs file) path, frag.Gives track singleton name :=
  KeyedSearch.foldl_iff (P := fun sets ↦ RbiMethodSets.Has sets singleton name)
    (Q := fun frag : ClassFragment ↦ frag.Gives track singleton name)
    (fun _ _ ↦ has_harvestFragMethods) (fragmentsOf (tree.defs file) path) sets

theorem has_visit {sets : RbiMethodSets} {node : MethodNode} {singleton : Bool} {name : String} :
    (tree.methodSearch.visit node sets).Has singleton name ↔
      sets.Has singleton name ∨ ∃ file ∈ node.files,
        ∃ frag ∈ fragmentsOf (tree.defs file) node.path,
          frag.Gives node.onSingletonTrack singleton name :=
  KeyedSearch.foldl_iff (P := fun sets ↦ RbiMethodSets.Has sets singleton name)
    (Q := fun file ↦ ∃ frag ∈ fragmentsOf (tree.defs file) node.path,
      frag.Gives node.onSingletonTrack singleton name)
    (fun _ _ ↦ has_harvestFile) node.files sets

theorem mem_visit {consts : Finset String} {node : ConstPath × List SourceFile} {name : String} :
    name ∈ tree.ancestorSearch.visit node consts ↔
      name ∈ consts ∨ ∃ file ∈ node.2, name ∈ harvestRbiConsts (tree.defs file) node.1 :=
  KeyedSearch.foldl_iff (P := fun consts : Finset String ↦ name ∈ consts)
    (fun _ file ↦ by rw [Finset.mem_union, List.mem_toFinset]) node.2 consts

/-! ### The search for constants -/

theorem ancestor_queued_iff {node : ConstPath} :
    tree.ancestorSearch.Queued start node ↔ Relation.ReflTransGen tree.FirstEdge start node := by
  have hnext : ∀ a b, b ∈ tree.ancestorSearch.next (a, tree.listed a) ↔ tree.FirstEdge a b := by
    intro a b
    change b ∈ (List.flatMap _ _).reverse ↔ _
    rw [List.mem_reverse, List.mem_flatMap]
    rfl
  constructor
  · intro h
    induction h with
    | start => exact .refl
    | next hitem hresolve hmem ih =>
      obtain rfl := Option.some.inj hresolve
      exact ih.tail ((hnext _ _).mp hmem)
  · intro h
    induction h with
    | refl => exact .start
    | tail hitem hedge ih => exact .next ih rfl ((hnext _ _).mpr hedge)

theorem ancestor_reaches_iff {node : ConstPath × List SourceFile} :
    tree.ancestorSearch.Reaches start node ↔
      Relation.ReflTransGen tree.FirstEdge start node.1 ∧ node.2 = tree.listed node.1 := by
  unfold KeyedSearch.Reaches
  constructor
  · rintro ⟨item, hitem, hresolve⟩
    obtain rfl := Option.some.inj hresolve
    exact ⟨ancestor_queued_iff.mp hitem, rfl⟩
  · rintro ⟨hreach, hfiles⟩
    refine ⟨node.1, ancestor_queued_iff.mpr hreach, ?_⟩
    change some (node.1, tree.listed node.1) = some node
    rw [← hfiles]

theorem ancestor_consistent : tree.ancestorSearch.Consistent start := by
  intro node node' hnode hnode' hkey
  obtain ⟨path, files⟩ := node
  obtain ⟨path', files'⟩ := node'
  obtain rfl : path = path' := hkey
  obtain rfl : files = tree.listed path := (ancestor_reaches_iff.mp hnode).2
  obtain rfl : files' = tree.listed path := (ancestor_reaches_iff.mp hnode').2
  exact List.Subset.refl _

/-- Within the cap the search finds what the first fragments lead to. -/
theorem mem_computeRbiAncestorClosure (hcap : tree.ancestorSearch.WithinCap start)
    {consts : Finset String} (h : (tree.computeRbiAncestorClosure start).Returns consts)
    {name : String} :
    name ∈ consts ↔ ∃ node, Relation.ReflTransGen tree.FirstEdge start node ∧
      tree.DeclaresConst node name := by
  obtain ⟨done, hdone⟩ := KeyedSearch.returns_run h
  have hmem : name ∈ consts ↔ ∃ node ∈ done, ∃ file ∈ node.2,
      name ∈ harvestRbiConsts (tree.defs file) node.1 := by
    rw [hdone.result_iff (P := fun consts ↦ name ∈ consts) fun _ _ ↦ mem_visit]
    simp
  rw [hmem]
  constructor
  · rintro ⟨node, hnode, file, hfile, hname⟩
    obtain ⟨hreach, hfiles⟩ := ancestor_reaches_iff.mp (hdone.reached node hnode)
    exact ⟨node.1, hreach, file, hfiles ▸ hfile, hname⟩
  · rintro ⟨node, hreach, file, hfile, hname⟩
    obtain ⟨other, hother, hkey⟩ := hdone.exists_visited hcap ancestor_consistent
      (ancestor_reaches_iff.mpr ⟨hreach, rfl⟩ : tree.ancestorSearch.Reaches start
        (node, tree.listed node))
    obtain ⟨-, hfiles⟩ := ancestor_reaches_iff.mp (hdone.reached other hother)
    obtain rfl : other.1 = node := hkey
    exact ⟨other, hother, file, hfiles ▸ hfile, hname⟩

theorem firstEdge_constEdge {a b : ConstPath} (h : tree.FirstEdge a b) : tree.ConstEdge a b := by
  obtain ⟨file, hfile, hmem⟩ := h
  unfold queueRbiEdges at hmem
  split at hmem
  · cases hmem
  · next frag hfound =>
    refine ⟨file, hfile, frag, List.mem_filter.mpr ⟨List.mem_of_find?_eq_some hfound, ?_⟩, hmem⟩
    exact List.find?_some (p := fun frag : ClassFragment ↦ decide (frag.path = a)) hfound

/-- Files that declare a namespace once lead with their first fragment where they lead. -/
theorem firstSuffices_of_single
    (hsingle : ∀ file path, (fragmentsOf (tree.defs file) path).length ≤ 1) :
    tree.FirstSuffices start := by
  have hedge : tree.ConstEdge ≤ tree.FirstEdge := by
    rintro a b ⟨file, hfile, frag, hfrag, hb⟩
    have hone : fragmentsOf (tree.defs file) a = [frag] := by
      have hlength : (fragmentsOf (tree.defs file) a).length = 1 :=
        Nat.le_antisymm (hsingle file a) (List.length_pos_of_mem hfrag)
      obtain ⟨other, hother⟩ := List.length_eq_one_iff.mp hlength
      rw [hother] at hfrag ⊢
      rw [List.mem_singleton.mp hfrag]
    have hfirst : (tree.defs file).fragments.find? (fun frag ↦ frag.path = a) = some frag := by
      rw [← List.head?_filter]
      exact congrArg List.head? hone
    refine ⟨file, hfile, ?_⟩
    unfold queueRbiEdges
    rw [hfirst]
    exact hb
  rintro name ⟨node, hreach, hdeclares⟩
  exact ⟨node, Relation.ReflTransGen.mono hedge _ _ hreach, hdeclares⟩

theorem consts_exact_iff (hcap : tree.ancestorSearch.WithinCap start) :
    (∃ consts, (tree.computeRbiAncestorClosure start).Returns consts ∧
      ∀ name, name ∈ consts ↔ tree.ReachableConst start name) ↔ tree.FirstSuffices start := by
  constructor
  · rintro ⟨consts, hconsts, hexact⟩ name hname
    exact (mem_computeRbiAncestorClosure hcap hconsts).mp ((hexact name).mpr hname)
  · intro hfirst
    obtain ⟨consts, hconsts⟩ := tree.ancestorSearch.run_converges start ∅
    refine ⟨consts, hconsts, fun name ↦ ?_⟩
    rw [mem_computeRbiAncestorClosure hcap hconsts]
    constructor
    · rintro ⟨node, hreach, hdeclares⟩
      have hall := Relation.ReflTransGen.mono
        (fun _ _ ↦ firstEdge_constEdge : tree.FirstEdge ≤ tree.ConstEdge) _ _ hreach
      exact ⟨node, hall, hdeclares⟩
    · exact hfirst name

/-! ### The search for methods -/

theorem methodSearch_resolve_iff {item : MethodWorkItem} {node : MethodNode} :
    tree.methodSearch.resolve item = some node ↔
      tree.resolveMethodNode item.node item.parent = some (node.path, node.files) ∧
        node.onSingletonTrack = item.onSingletonTrack := by
  change (tree.resolveMethodNode item.node item.parent).map _ = some node ↔ _
  rw [Option.map_eq_some_iff]
  constructor
  · rintro ⟨found, hfound, rfl⟩
    exact ⟨hfound, rfl⟩
  · rintro ⟨hfound, htrack⟩
    refine ⟨_, hfound, ?_⟩
    rw [← htrack]

theorem mem_methodSearch_next {node : MethodNode} {item : MethodWorkItem} :
    item ∈ tree.methodSearch.next node ↔ ∃ file ∈ node.files,
      ∃ frag ∈ fragmentsOf (tree.defs file) node.path,
        item ∈ queueMethodEdges frag node.onSingletonTrack file := by
  change item ∈ (List.flatMap _ _).reverse ↔ _
  rw [List.mem_reverse, List.mem_flatMap]
  simp only [List.mem_flatMap]

/-- The files that an item finds are reached. -/
theorem methodReach_of_queued {item : MethodWorkItem}
    (h : tree.methodSearch.Queued (methodStart start) item) {path : ConstPath}
    {files : List SourceFile}
    (hfound : tree.resolveMethodNode item.node item.parent = some (path, files)) :
    ∀ file ∈ files, tree.MethodReach start path item.onSingletonTrack file := by
  induction h generalizing path files with
  | start =>
    obtain ⟨known, hknown, heq⟩ := Option.map_eq_some_iff.mp hfound
    obtain ⟨rfl, rfl⟩ := Prod.mk.inj heq
    have hlisted : tree.listed start = known := congrArg (fun l ↦ Option.getD l []) hknown
    exact fun file hfile ↦ .start (hlisted ▸ hfile)
  | @next item item' node hitem hnode hmem ih =>
    obtain ⟨hparent, htrack⟩ := methodSearch_resolve_iff.mp hnode
    obtain ⟨file, hfile, frag, hfrag, hqueued⟩ := mem_methodSearch_next.mp hmem
    intro file' hfile'
    have hreach := ih hparent file hfile
    rw [← htrack] at hreach
    exact .edge hreach hfrag hqueued hfound (.inl hfile')

theorem method_consistent (halike : tree.FindsAlike start) :
    tree.methodSearch.Consistent (methodStart start) := by
  rintro ⟨path, track, files⟩ ⟨path', track', files'⟩ ⟨item, hitem, hresolve⟩
    ⟨item', hitem', hresolve'⟩ hkey i hi
  obtain ⟨rfl, rfl⟩ : path = path' ∧ track = track' := Prod.mk.inj hkey
  obtain ⟨hfound, htrack⟩ := methodSearch_resolve_iff.mp hresolve
  obtain ⟨hfound', htrack'⟩ := methodSearch_resolve_iff.mp hresolve'
  obtain ⟨file, hfile, frag, hfrag, hqueued⟩ := mem_methodSearch_next.mp hi
  refine mem_methodSearch_next.mpr ⟨file, ?_, frag, hfrag, hqueued⟩
  exact halike item item' hitem hitem' (htrack.symm.trans htrack') path files files' hfound
    hfound' file hfile (List.ne_nil_of_mem hfrag)

theorem reachableMethod_of_found {singleton : Bool} {name : String}
    (h : tree.FoundMethod start singleton name) : tree.ReachableMethod start singleton name := by
  obtain ⟨item, hitem, path, files, hfound, file, hfile, hgives⟩ := h
  exact ⟨path, item.onSingletonTrack, file, methodReach_of_queued hitem hfound file hfile, hgives⟩

/-- Within the cap the search finds what the files of its edges give. -/
theorem has_computeRbiMethodClosure (hcap : tree.methodSearch.WithinCap (methodStart start))
    (halike : tree.FindsAlike start) {sets : RbiMethodSets}
    (h : (tree.computeRbiMethodClosure start).Returns sets) {singleton : Bool} {name : String} :
    sets.Has singleton name ↔ tree.FoundMethod start singleton name := by
  obtain ⟨done, hdone⟩ := KeyedSearch.returns_run h
  have hmem : sets.Has singleton name ↔ ∃ node ∈ done, ∃ file ∈ node.files,
      ∃ frag ∈ fragmentsOf (tree.defs file) node.path,
        frag.Gives node.onSingletonTrack singleton name := by
    rw [hdone.result_iff (P := fun sets ↦ RbiMethodSets.Has sets singleton name)
      fun _ _ ↦ has_visit]
    cases singleton <;> simp [RbiMethodSets.Has, RbiMethodSets.table]
  rw [hmem]
  constructor
  · rintro ⟨⟨path, track, files⟩, hnode, file, hfile, hgives⟩
    obtain ⟨item, hitem, hresolve⟩ := hdone.reached _ hnode
    obtain ⟨hfound, rfl⟩ := methodSearch_resolve_iff.mp hresolve
    exact ⟨item, hitem, path, files, hfound, file, hfile, hgives⟩
  · rintro ⟨item, hitem, path, files, hfound, file, hfile, frag, hfrag, hgives⟩
    have hnode : tree.methodSearch.Reaches (methodStart start)
        ⟨path, item.onSingletonTrack, files⟩ :=
      ⟨item, hitem, methodSearch_resolve_iff.mpr ⟨hfound, rfl⟩⟩
    obtain ⟨⟨path', track, files'⟩, hother, hkey⟩ :=
      hdone.exists_visited hcap (method_consistent halike) hnode
    obtain ⟨rfl, rfl⟩ : path' = path ∧ track = item.onSingletonTrack := Prod.mk.inj hkey
    obtain ⟨item', hitem', hresolve'⟩ := hdone.reached _ hother
    obtain ⟨hfound', htrack'⟩ := methodSearch_resolve_iff.mp hresolve'
    have hfile' := halike item item' hitem hitem' htrack' path' files files' hfound hfound' file
      hfile (List.ne_nil_of_mem hfrag)
    exact ⟨_, hother, file, hfile', frag, hfrag, hgives⟩

theorem methods_exact_iff (hcap : tree.methodSearch.WithinCap (methodStart start))
    (halike : tree.FindsAlike start) :
    (∃ sets, (tree.computeRbiMethodClosure start).Returns sets ∧
      ∀ singleton name, sets.Has singleton name ↔ tree.ReachableMethod start singleton name) ↔
        tree.FoundSuffices start := by
  constructor
  · rintro ⟨sets, hsets, hexact⟩ singleton name hname
    exact (has_computeRbiMethodClosure hcap halike hsets).mp ((hexact singleton name).mpr hname)
  · intro hfound
    obtain ⟨sets, hsets⟩ := tree.methodSearch.run_converges (methodStart start) {}
    refine ⟨sets, hsets, fun singleton name ↦ ?_⟩
    rw [has_computeRbiMethodClosure hcap halike hsets]
    exact ⟨reachableMethod_of_found, hfound singleton name⟩

end RbiTree

/-! ### The order of files and edges -/

/-- The same fragment with its edges in another order. -/
structure ClassFragment.SameEdges (frag frag' : ClassFragment) : Prop where
  path : frag'.path = frag.path
  superclass : frag'.superclass = frag.superclass
  includes : frag'.includes.Perm frag.includes
  prepends : frag'.prepends.Perm frag.prepends
  extends' : frag'.extends'.Perm frag.extends'
  mixesInClassMethods : frag'.mixesInClassMethods.Perm frag.mixesInClassMethods
  consts : frag'.consts = frag.consts
  methods : frag'.methods = frag.methods
  singletonMethods : frag'.singletonMethods = frag.singletonMethods

namespace ClassFragment.SameEdges

variable {frag frag' : ClassFragment} (h : frag.SameEdges frag')

theorem refl (frag : ClassFragment) : frag.SameEdges frag :=
  ⟨rfl, rfl, .refl _, .refl _, .refl _, .refl _, rfl, rfl, rfl⟩

include h

theorem symm : frag'.SameEdges frag :=
  ⟨h.path.symm, h.superclass.symm, h.includes.symm, h.prepends.symm, h.extends'.symm,
    h.mixesInClassMethods.symm, h.consts.symm, h.methods.symm, h.singletonMethods.symm⟩

theorem ancestryEdges_subset : ancestryEdges frag ⊆ ancestryEdges frag' := by
  unfold ancestryEdges
  rw [h.superclass]
  exact (((List.Perm.append_left _ h.includes.symm).append h.prepends.symm).map _).subset

theorem queueMethodEdges_subset (track : Bool) (file : SourceFile) :
    queueMethodEdges frag track file ⊆ queueMethodEdges frag' track file := by
  have hancestors := (List.Perm.append_left frag.superclass.toList h.includes.symm).append
    h.prepends.symm
  unfold queueMethodEdges
  rw [h.superclass, h.path]
  refine List.Perm.subset (List.Perm.append (hancestors.map _) ?_)
  split_ifs
  · exact .refl _
  · exact (h.extends'.symm.append h.mixesInClassMethods.symm).map _

theorem gives {track singleton : Bool} {name : String} (hgives : frag.Gives track singleton name) :
    frag'.Gives track singleton name := by
  unfold Gives
  rw [h.methods, h.singletonMethods]
  exact hgives

end ClassFragment.SameEdges

namespace RbiTree

/-- The same tree with the files of a namespace, and the edges of a fragment, in another order. -/
structure Reordered (tree tree' : RbiTree) : Prop where
  map : ∀ node, Option.Rel List.Perm (tree.map node) (tree'.map node)
  fragments : ∀ file,
    List.Forall₂ ClassFragment.SameEdges (tree.defs file).fragments (tree'.defs file).fragments
  consts : ∀ file, (tree'.defs file).consts = (tree.defs file).consts

theorem exists_of_forall₂ {α β : Type} {R : α → β → Prop} {l : List α} {l' : List β}
    (h : List.Forall₂ R l l') {a : α} (ha : a ∈ l) : ∃ b ∈ l', R a b := by
  induction h with
  | nil => cases ha
  | cons hhead _ ih =>
    rcases List.mem_cons.mp ha with rfl | ha
    · exact ⟨_, List.mem_cons_self, hhead⟩
    · obtain ⟨b, hb, hR⟩ := ih ha
      exact ⟨b, List.mem_cons_of_mem _ hb, hR⟩

namespace Reordered

variable {tree tree' : RbiTree}

theorem refl (tree : RbiTree) : tree.Reordered tree where
  map node := by
    cases tree.map node with
    | none => exact .none
    | some files => exact .some (.refl files)
  fragments file := List.forall₂_same.mpr fun frag _ ↦ .refl frag
  consts _ := rfl

theorem symm (h : tree.Reordered tree') : tree'.Reordered tree where
  map node := by
    have hmap := h.map node
    generalize tree.map node = files at hmap
    generalize tree'.map node = files' at hmap
    cases hmap with
    | none => exact .none
    | some hperm => exact .some hperm.symm
  fragments file := (h.fragments file).flip.imp fun _ _ hsame ↦ hsame.symm
  consts file := (h.consts file).symm

variable (h : tree.Reordered tree')

include h

theorem listed_subset (node : ConstPath) : tree.listed node ⊆ tree'.listed node := by
  have hmap := h.map node
  unfold listed
  generalize tree.map node = files at hmap
  generalize tree'.map node = files' at hmap
  cases hmap with
  | none => exact List.Subset.refl _
  | some hperm => exact hperm.subset

theorem exists_fragment {file : SourceFile} {path : ConstPath} {frag : ClassFragment}
    (hfrag : frag ∈ fragmentsOf (tree.defs file) path) :
    ∃ frag' ∈ fragmentsOf (tree'.defs file) path, frag.SameEdges frag' := by
  obtain ⟨hmem, hpath⟩ := List.mem_filter.mp hfrag
  obtain ⟨frag', hmem', hsame⟩ := exists_of_forall₂ (h.fragments file) hmem
  exact ⟨frag', List.mem_filter.mpr ⟨hmem', hsame.path ▸ hpath⟩, hsame⟩

theorem constEdge {a b : ConstPath} (hedge : tree.ConstEdge a b) : tree'.ConstEdge a b := by
  obtain ⟨file, hfile, frag, hfrag, hb⟩ := hedge
  obtain ⟨frag', hfrag', hsame⟩ := h.exists_fragment hfrag
  exact ⟨file, h.listed_subset a hfile, frag', hfrag', hsame.ancestryEdges_subset hb⟩

theorem firstEdge {a b : ConstPath} (hedge : tree.FirstEdge a b) : tree'.FirstEdge a b := by
  obtain ⟨file, hfile, hb⟩ := hedge
  refine ⟨file, h.listed_subset a hfile, ?_⟩
  unfold queueRbiEdges at hb ⊢
  have hfragments := h.fragments file
  generalize (tree.defs file).fragments = frags at hb hfragments
  generalize (tree'.defs file).fragments = frags' at hfragments ⊢
  induction hfragments with
  | nil => exact hb
  | @cons frag frag' _ _ hsame _ ih =>
    rw [List.find?_cons] at hb ⊢
    rw [hsame.path]
    by_cases hpath : frag.path = a
    · simp only [hpath, decide_true] at hb ⊢
      exact hsame.ancestryEdges_subset hb
    · simp only [hpath, decide_false] at hb ⊢
      exact ih hb

theorem declaresConst {node : ConstPath} {name : String} (hname : tree.DeclaresConst node name) :
    tree'.DeclaresConst node name := by
  obtain ⟨file, hfile, hname⟩ := hname
  refine ⟨file, h.listed_subset node hfile, ?_⟩
  unfold harvestRbiConsts at hname ⊢
  rw [h.consts]
  simp only [List.mem_append, List.mem_flatMap, List.mem_filterMap] at hname ⊢
  refine hname.imp_left (Or.imp ?_ ?_)
  · rintro ⟨frag, hfrag, hname⟩
    obtain ⟨frag', hfrag', hsame⟩ := h.exists_fragment hfrag
    exact ⟨frag', hfrag', hsame.consts ▸ hname⟩
  · rintro ⟨frag, hfrag, hchild⟩
    obtain ⟨frag', hfrag', hsame⟩ := exists_of_forall₂ (h.fragments file) hfrag
    exact ⟨frag', hfrag', hsame.path ▸ hchild⟩

theorem declaresIn (file : SourceFile) (path : ConstPath) :
    tree.declaresIn file path = tree'.declaresIn file path := by
  unfold RbiTree.declaresIn
  have hfragments := h.fragments file
  generalize (tree.defs file).fragments = frags at hfragments
  generalize (tree'.defs file).fragments = frags' at hfragments
  induction hfragments with
  | nil => rfl
  | cons hsame _ ih => rw [List.any_cons, List.any_cons, ih, hsame.path]

theorem resolveMethodNode {node path : ConstPath} {parent : Option (SourceFile × ConstPath)}
    {files : List SourceFile} (hfound : tree.resolveMethodNode node parent = some (path, files)) :
    ∃ files', tree'.resolveMethodNode node parent = some (path, files') ∧ files ⊆ files' ∧
      files' ⊆ files := by
  have hglobal : (tree.map node).map (fun files ↦ (node, files)) = some (path, files) →
      ∃ files', (tree'.map node).map (fun files ↦ (node, files)) = some (path, files') ∧
        files ⊆ files' ∧ files' ⊆ files := by
    intro hmapped
    have hmap := h.map node
    generalize tree.map node = known at hmapped hmap
    generalize tree'.map node = known' at hmap
    cases hmap with
    | none => cases hmapped
    | some hperm =>
      obtain ⟨rfl, rfl⟩ := Prod.mk.inj (Option.some.inj hmapped)
      exact ⟨_, rfl, hperm.subset, hperm.symm.subset⟩
  cases parent with
  | none => exact hglobal hfound
  | some parent =>
    obtain ⟨parentFile, parentPath⟩ := parent
    dsimp only [RbiTree.resolveMethodNode] at hfound ⊢
    simp only [← h.declaresIn]
    split_ifs at hfound ⊢
    · exact ⟨files, hfound, List.Subset.refl _, List.Subset.refl _⟩
    · exact ⟨files, hfound, List.Subset.refl _, List.Subset.refl _⟩
    · exact hglobal hfound

theorem methodReach {start path : ConstPath} {track : Bool} {file : SourceFile}
    (hreach : tree.MethodReach start path track file) :
    tree'.MethodReach start path track file := by
  induction hreach with
  | start hfile => exact .start (h.listed_subset start hfile)
  | edge hreach hfrag hqueued hfound hfile ih =>
    obtain ⟨frag', hfrag', hsame⟩ := h.exists_fragment hfrag
    obtain ⟨files', hfound', hsub, -⟩ := h.resolveMethodNode hfound
    refine .edge ih hfrag' (hsame.queueMethodEdges_subset _ _ hqueued) hfound' ?_
    exact hfile.imp (fun hfile ↦ hsub hfile) fun hfile ↦ h.listed_subset _ hfile

theorem queued {start : ConstPath} {item : MethodWorkItem}
    (hitem : tree.methodSearch.Queued (methodStart start) item) :
    tree'.methodSearch.Queued (methodStart start) item := by
  induction hitem with
  | start => exact .start
  | @next item item' node hitem hnode hmem ih =>
    obtain ⟨hfound, htrack⟩ := methodSearch_resolve_iff.mp hnode
    obtain ⟨files', hfound', hsub, -⟩ := h.resolveMethodNode hfound
    obtain ⟨file, hfile, frag, hfrag, hqueued⟩ := mem_methodSearch_next.mp hmem
    obtain ⟨frag', hfrag', hsame⟩ := h.exists_fragment hfrag
    have hnode' : tree'.methodSearch.resolve item =
        some ⟨node.path, node.onSingletonTrack, files'⟩ :=
      methodSearch_resolve_iff.mpr ⟨hfound', htrack⟩
    refine .next ih hnode' (mem_methodSearch_next.mpr ?_)
    exact ⟨file, hsub hfile, frag', hfrag', hsame.queueMethodEdges_subset _ _ hqueued⟩

/-! ### What does not depend on the order -/

theorem reachableConst {start : ConstPath} {name : String}
    (hname : tree.ReachableConst start name) : tree'.ReachableConst start name := by
  obtain ⟨node, hreach, hdeclares⟩ := hname
  have hreach' := Relation.ReflTransGen.mono
    (fun _ _ ↦ h.constEdge : tree.ConstEdge ≤ tree'.ConstEdge) _ _ hreach
  exact ⟨node, hreach', h.declaresConst hdeclares⟩

theorem firstReach {start node : ConstPath}
    (hreach : Relation.ReflTransGen tree.FirstEdge start node) :
    Relation.ReflTransGen tree'.FirstEdge start node :=
  Relation.ReflTransGen.mono (fun _ _ ↦ h.firstEdge : tree.FirstEdge ≤ tree'.FirstEdge) _ _ hreach

theorem reachableMethod {start : ConstPath} {singleton : Bool} {name : String}
    (hname : tree.ReachableMethod start singleton name) :
    tree'.ReachableMethod start singleton name := by
  obtain ⟨path, track, file, hreach, frag, hfrag, hgives⟩ := hname
  obtain ⟨frag', hfrag', hsame⟩ := h.exists_fragment hfrag
  exact ⟨path, track, file, h.methodReach hreach, frag', hfrag', hsame.gives hgives⟩

theorem firstSuffices {start : ConstPath} (hfirst : tree.FirstSuffices start) :
    tree'.FirstSuffices start := by
  intro name hname
  obtain ⟨node, hreach, hdeclares⟩ := hfirst name (h.symm.reachableConst hname)
  exact ⟨node, h.firstReach hreach, h.declaresConst hdeclares⟩

theorem foundMethod {start : ConstPath} {singleton : Bool} {name : String}
    (hname : tree.FoundMethod start singleton name) : tree'.FoundMethod start singleton name := by
  obtain ⟨item, hitem, path, files, hfound, file, hfile, frag, hfrag, hgives⟩ := hname
  obtain ⟨files', hfound', hsub, -⟩ := h.resolveMethodNode hfound
  obtain ⟨frag', hfrag', hsame⟩ := h.exists_fragment hfrag
  exact ⟨item, h.queued hitem, path, files', hfound', file, hsub hfile, frag', hfrag',
    hsame.gives hgives⟩

theorem foundSuffices {start : ConstPath} (hfound : tree.FoundSuffices start) :
    tree'.FoundSuffices start := fun singleton name hname ↦
  h.foundMethod (hfound singleton name (h.symm.reachableMethod hname))

theorem findsAlike {start : ConstPath} (halike : tree.FindsAlike start) :
    tree'.FindsAlike start := by
  intro item item' hitem hitem' htrack path files files' hfound hfound' file hfile hdeclares
  obtain ⟨known, hknown, hsub, -⟩ := h.symm.resolveMethodNode hfound
  obtain ⟨known', hknown', -, hsub'⟩ := h.symm.resolveMethodNode hfound'
  obtain ⟨frag, hfrag⟩ := List.exists_mem_of_ne_nil _ hdeclares
  obtain ⟨frag', hfrag', -⟩ := h.symm.exists_fragment hfrag
  exact hsub' (halike item item' (h.symm.queued hitem) (h.symm.queued hitem') htrack path known
    known' hknown hknown' file (hsub hfile) (List.ne_nil_of_mem hfrag'))

theorem ancestorWithinCap {start : ConstPath} (hcap : tree.ancestorSearch.WithinCap start) :
    tree'.ancestorSearch.WithinCap start := by
  obtain ⟨keys, hcard, hkeys⟩ := hcap
  refine ⟨keys, hcard, fun node hnode ↦ ?_⟩
  obtain ⟨hreach, -⟩ := ancestor_reaches_iff.mp hnode
  exact hkeys (node.1, tree.listed node.1)
    (ancestor_reaches_iff.mpr ⟨h.symm.firstReach hreach, rfl⟩)

theorem methodWithinCap {start : ConstPath}
    (hcap : tree.methodSearch.WithinCap (methodStart start)) :
    tree'.methodSearch.WithinCap (methodStart start) := by
  obtain ⟨keys, hcard, hkeys⟩ := hcap
  refine ⟨keys, hcard, fun node hnode ↦ ?_⟩
  obtain ⟨item, hitem, hresolve⟩ := hnode
  obtain ⟨hfound, htrack⟩ := methodSearch_resolve_iff.mp hresolve
  obtain ⟨files', hfound', -, -⟩ := h.symm.resolveMethodNode hfound
  exact hkeys ⟨node.path, node.onSingletonTrack, files'⟩
    ⟨item, h.symm.queued hitem, methodSearch_resolve_iff.mpr ⟨hfound', htrack⟩⟩

end Reordered

/-- Within the caps, and when edges that lead to one namespace find it alike, the two searches
end with what is reachable, in whatever order files and edges are listed, exactly when the first
fragments lead to every reachable constant and the edges find every reachable method. -/
theorem closures_exact_iff {tree : RbiTree} {start : ConstPath}
    (hconsts : tree.ancestorSearch.WithinCap start)
    (hmethods : tree.methodSearch.WithinCap (methodStart start))
    (halike : tree.FindsAlike start) :
    (∀ tree', tree.Reordered tree' → tree.Exact tree' start) ↔
      tree.FirstSuffices start ∧ tree.FoundSuffices start := by
  constructor
  · intro hexact
    have hown := hexact tree (.refl tree)
    exact ⟨(consts_exact_iff hconsts).mp hown.consts, (methods_exact_iff hmethods halike).mp
      hown.methods⟩
  · rintro ⟨hfirst, hfound⟩ tree' h
    constructor
    · obtain ⟨consts, hreturns, hmem⟩ :=
        (consts_exact_iff (h.ancestorWithinCap hconsts)).mpr (h.firstSuffices hfirst)
      exact ⟨consts, hreturns, fun name ↦
        (hmem name).trans ⟨h.symm.reachableConst, h.reachableConst⟩⟩
    · obtain ⟨sets, hreturns, hmem⟩ :=
        (methods_exact_iff (h.methodWithinCap hmethods) (h.findsAlike halike)).mpr
          (h.foundSuffices hfound)
      exact ⟨sets, hreturns, fun singleton name ↦
        (hmem singleton name).trans ⟨h.symm.reachableMethod, h.reachableMethod⟩⟩

/-! ### A file that reopens a namespace, and a stub of another one -/

/-- `class Foo; end`, `class Foo; include Bar; end` and `module Bar; LIMIT = 1; end`. -/
def reopenedTree : RbiTree where
  map
    | ["Foo"] => some ["foo.rbi"]
    | ["Bar"] => some ["foo.rbi"]
    | _ => none
  defs _ := { fragments :=
    [{ path := ["Foo"], nesting := [["Foo"]], isModule := false },
     { path := ["Foo"], nesting := [["Foo"]], isModule := false, includes := [["Bar"]] },
     { path := ["Bar"], nesting := [["Bar"]], isModule := true, consts := ["LIMIT"] }] }

/-- `class Foo; include Bar; end` beside a stub of `Bar`, and `module Bar; def bar; end; end`. -/
def stubTree : RbiTree where
  map
    | ["Foo"] => some ["foo.rbi"]
    | ["Bar"] => some ["bar.rbi", "foo.rbi"]
    | _ => none
  defs file :=
    if file = "foo.rbi" then
      { fragments :=
        [{ path := ["Foo"], nesting := [["Foo"]], isModule := false, includes := [["Bar"]] },
         { path := ["Bar"], nesting := [["Bar"]], isModule := true }] }
    else
      { fragments :=
        [{ path := ["Bar"], nesting := [["Bar"]], isModule := true,
           methods := [.synthetic "bar" 0 (16, 19)] }] }

/-- The first search loses the constant that only the second fragment of `Foo` leads to, the
second the method of the file that its edge does not look into. -/
theorem closures_lose :
    ¬ reopenedTree.Exact reopenedTree ["Foo"] ∧ ¬ stubTree.Exact stubTree ["Foo"] := by
  constructor
  · intro h
    obtain ⟨consts, hconsts, hexact⟩ := h.consts
    have hnone : (reopenedTree.computeRbiAncestorClosure ["Foo"]).Returns ∅ := ⟨4, by decide⟩
    obtain rfl := hconsts.unique hnone
    have hedge : reopenedTree.ConstEdge ["Foo"] ["Bar"] :=
      ⟨"foo.rbi", by decide, _, List.mem_cons_of_mem _ List.mem_cons_self, by decide⟩
    have hreach : reopenedTree.ReachableConst ["Foo"] "LIMIT" :=
      ⟨["Bar"], .single hedge, "foo.rbi", by decide, by decide⟩
    exact Finset.notMem_empty _ ((hexact "LIMIT").mpr hreach)
  · intro h
    obtain ⟨sets, hsets, hexact⟩ := h.methods
    have hnone : (stubTree.computeRbiMethodClosure ["Foo"]).Returns {} := ⟨6, by rfl⟩
    obtain rfl := hsets.unique hnone
    have hfoo : stubTree.MethodReach ["Foo"] ["Foo"] false "foo.rbi" := .start (by decide)
    have hfound : stubTree.resolveMethodNode ["Bar"] (some ("foo.rbi", ["Foo"])) =
        some (["Bar"], ["foo.rbi"]) := by decide
    have hlisted : "bar.rbi" ∈ stubTree.listed ["Bar"] := by decide
    have hbar : stubTree.MethodReach ["Foo"] ["Bar"] false "bar.rbi" :=
      .edge hfoo List.mem_cons_self List.mem_cons_self hfound (.inr hlisted)
    have hmethod : stubTree.ReachableMethod ["Foo"] false "bar" :=
      ⟨["Bar"], false, "bar.rbi", hbar, _, List.mem_cons_self,
        .inr ⟨rfl, _, List.mem_cons_self, rfl⟩⟩
    have hhas := (hexact false "bar").mpr hmethod
    simp [RbiMethodSets.Has, RbiMethodSets.table] at hhas

/-- `class Foo; include Bar; end` and `module Bar; LIMIT = 1; def bar; end; end`, a file each. -/
def splitTree : RbiTree where
  map
    | ["Foo"] => some ["foo.rbi"]
    | ["Bar"] => some ["bar.rbi"]
    | _ => none
  defs file :=
    if file = "foo.rbi" then
      { fragments :=
        [{ path := ["Foo"], nesting := [["Foo"]], isModule := false, includes := [["Bar"]] }] }
    else
      { fragments :=
        [{ path := ["Bar"], nesting := [["Bar"]], isModule := true, consts := ["LIMIT"],
           methods := [.synthetic "bar" 0 (16, 19)] }] }

/-- The items of the search for the methods of `Foo`. -/
def splitItems : List MethodWorkItem :=
  [methodStart ["Foo"],
    { node := ["Bar"], onSingletonTrack := false, parent := some ("foo.rbi", ["Foo"]) }]

theorem splitItems_closed : ∀ i ∈ splitItems, ∀ node, splitTree.methodSearch.resolve i = some node →
    ∀ j ∈ splitTree.methodSearch.next node, j ∈ splitItems := by
  have hall : ∀ i ∈ splitItems, ∀ j ∈ (splitTree.methodSearch.resolve i).elim []
      splitTree.methodSearch.next, j ∈ splitItems := by decide
  intro i hi node hnode j hj
  refine hall i hi j ?_
  rw [hnode]
  exact hj

theorem splitTree_queued {item : MethodWorkItem}
    (h : splitTree.methodSearch.Queued (methodStart ["Foo"]) item) : item ∈ splitItems :=
  h.mem_of_closed List.mem_cons_self splitItems_closed

theorem splitTree_methodReach {path : ConstPath} {track : Bool} {file : SourceFile}
    (h : splitTree.MethodReach ["Foo"] path track file) :
    path = ["Foo"] ∧ track = false ∧ file = "foo.rbi" ∨
      path = ["Bar"] ∧ track = false ∧ file = "bar.rbi" := by
  induction h with
  | start hfile => exact .inl ⟨rfl, rfl, List.mem_singleton.mp hfile⟩
  | edge _ hfrag hqueued hfound hfile ih =>
    rcases ih with ⟨rfl, rfl, rfl⟩ | ⟨rfl, rfl, rfl⟩
    · obtain rfl := List.mem_singleton.mp hfrag
      obtain rfl := List.mem_singleton.mp hqueued
      obtain ⟨rfl, rfl⟩ := Prod.mk.inj (Option.some.inj hfound)
      exact .inr ⟨rfl, rfl, hfile.elim List.mem_singleton.mp List.mem_singleton.mp⟩
    · obtain rfl := List.mem_singleton.mp hfrag
      cases hqueued

theorem splitTree_foundSuffices : splitTree.FoundSuffices ["Foo"] := by
  rintro singleton name ⟨path, track, file, hreach, hgives⟩
  rcases splitTree_methodReach hreach with ⟨rfl, rfl, rfl⟩ | ⟨rfl, rfl, rfl⟩
  · exact ⟨methodStart ["Foo"], .start, _, _, rfl, "foo.rbi", List.mem_singleton_self _, hgives⟩
  · have hnode : splitTree.methodSearch.resolve (methodStart ["Foo"]) =
        some ⟨["Foo"], false, ["foo.rbi"]⟩ := by rfl
    exact ⟨_, .next .start hnode List.mem_cons_self, ["Bar"], ["bar.rbi"], by rfl, "bar.rbi",
      List.mem_singleton_self _, hgives⟩

theorem splitTree_findsAlike : splitTree.FindsAlike ["Foo"] := by
  have hall : ∀ i ∈ splitItems, ∀ j ∈ splitItems,
      ∀ found ∈ splitTree.resolveMethodNode i.node i.parent,
        ∀ found' ∈ splitTree.resolveMethodNode j.node j.parent,
          found.1 = found'.1 → ∀ file ∈ found.2, file ∈ found'.2 := by decide
  intro item item' hitem hitem' _ path files files' hfound hfound' file hfile _
  exact hall item (splitTree_queued hitem) item' (splitTree_queued hitem') _ hfound _ hfound' rfl
    file hfile

theorem splitTree_single (file : SourceFile) (path : ConstPath) :
    (fragmentsOf (splitTree.defs file) path).length ≤ 1 := by
  refine (List.length_filter_le _ _).trans ?_
  unfold splitTree
  dsimp only
  split_ifs
  · exact Nat.le_refl 1
  · exact Nat.le_refl 1

/-- Every namespace has one file, and each file one fragment of it. -/
theorem splitTree_exact :
    splitTree.FindsAlike ["Foo"] ∧
      ∀ tree', splitTree.Reordered tree' → splitTree.Exact tree' ["Foo"] := by
  have hconsts : splitTree.ancestorSearch.WithinCap ["Foo"] := by
    have hall : ∀ i ∈ [["Foo"], ["Bar"]], ∀ j ∈ splitTree.ancestorSearch.next
        (i, splitTree.listed i), j ∈ [["Foo"], ["Bar"]] := by decide
    refine KeyedSearch.withinCap_of_closed (List.mem_cons_self (l := [["Bar"]])) ?_ (by decide)
    intro i hi node hnode j hj
    obtain rfl := Option.some.inj hnode
    exact hall i hi j hj
  have hmethods : splitTree.methodSearch.WithinCap (methodStart ["Foo"]) :=
    KeyedSearch.withinCap_of_closed List.mem_cons_self splitItems_closed (by decide)
  refine ⟨splitTree_findsAlike, (closures_exact_iff hconsts hmethods splitTree_findsAlike).mpr ?_⟩
  exact ⟨firstSuffices_of_single splitTree_single, splitTree_foundSuffices⟩

end RbiTree

end Itaruby
