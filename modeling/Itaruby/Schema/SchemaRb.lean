import Itaruby.Index.Build
import Itaruby.Library.KeyedWrites
import Itaruby.Walker.Source

/-!
The tables that `db/schema.rb` creates and the names of their models. A column is a call on the
block's parameter under a known type; a table that is created twice is the one created last.
-/

set_option autoImplicit false
set_option relaxedAutoImplicit false

namespace Itaruby

namespace Node

/-- A node before what is below it, in the order of a visit. -/
def preorder (n : Node) : List Node := visit (fun n recur nodes ↦ recur (nodes ++ [n])) n []

/-- A visit that only collects is a fold over the nodes. -/
theorem visit_collect {σ : Type} (f : σ → Node → σ) (n : Node) (s : σ) (nodes : List Node) :
    visit (fun n recur s ↦ recur (f s n)) n (nodes.foldl f s) =
      (visit (fun n recur nodes ↦ recur (nodes ++ [n])) n nodes).foldl f s := by
  -- the children of a node are smaller than the node
  induction hsize : sizeOf n using Nat.strong_induction_on generalizing n nodes with
  | _ size ih =>
    subst hsize
    have hall (children : List Node) (hchildren : ∀ c ∈ children, sizeOf c < sizeOf n)
        (nodes : List Node) :
        visitAll (fun n recur s ↦ recur (f s n)) children (nodes.foldl f s) =
          (visitAll (fun n recur nodes ↦ recur (nodes ++ [n])) children nodes).foldl f s := by
      induction children generalizing nodes with
      | nil => rw [visitAll, visitAll]
      | cons c rest ihrest =>
        rw [visitAll, visitAll, ih _ (hchildren c List.mem_cons_self) c nodes rfl]
        exact ihrest (fun c hc ↦ hchildren c (List.mem_cons_of_mem _ hc)) _
    rw [visit_eq, visit_eq]
    have hcons : f (nodes.foldl f s) n = (nodes ++ [n]).foldl f s := by
      rw [List.foldl_append]
      rfl
    rw [hcons]
    exact hall n.children (fun c hc ↦ sizeOf_lt_of_mem_children hc) _

end Node

namespace SchemaRb

open KeyedWrites

/-! ### The collector -/

abbrev SchemaTable := AList fun _ : String ↦ SchemaColumn

abbrev SchemaIndex := AList fun _ : String ↦ SchemaTable

/-- `KNOWN_COLUMN_TYPES` -/
def knownColumnTypes : List String :=
  ["string", "text", "integer", "bigint", "boolean", "decimal", "date", "datetime", "json",
    "jsonb", "inet"]

def isSymbol (expected : String) : Node → Bool
  | .symbolNode _ unescaped => unescaped == expected
  | _ => false

def isIdFalse : Node → Bool
  | .assocNode _ key (.falseNode _) => isSymbol "id" key
  | _ => false

/-- `id: false` among the options of the table. -/
def idFalse (args : List Node) : Bool :=
  args.any fun arg ↦
    match arg with
    | .keywordHashNode _ elements => elements.any isIdFalse
    | _ => false

/-- One name of `t.<type> "name", ..`. -/
def collectNamed (typeName : String) (span : Span) (table : SchemaTable) : Node → SchemaTable
  | .stringNode _ colName => table.insert colName { typeName, span }
  | _ => table

def collectColumn (table : SchemaTable) (node : Node) : SchemaTable :=
  match node.asCall with
  | none => table
  | some call =>
    if call.receiver.isNone then table
    else if call.name = "column" then
      match call.arguments with
      | .stringNode _ colName :: .symbolNode _ typeName :: _ =>
        table.insert colName { typeName, span := node.loc }
      | _ => table
    else if call.name ∈ knownColumnTypes then
      call.arguments.foldl (collectNamed call.name node.loc) table
    else table

/-- The statements of a block's body; a `rescue` leaves those before it. -/
def blockStatements : Node → List Node
  | .statementsNode _ body => body
  | .beginNode _ statements _ _ _ => (statements.bind Node.statementsOf).getD []
  | node => [node]

def walkBlockBody (body : Node) (table : SchemaTable) : SchemaTable :=
  (blockStatements body).foldl collectColumn table

/-- The table starts with its implicit primary key. -/
def startTable (call : CallSite) : SchemaTable :=
  if idFalse call.arguments then ∅
  else (∅ : SchemaTable).insert "id" { typeName := "integer", span := call.loc }

def collectCreateTable (call : CallSite) (tables : SchemaIndex) : SchemaIndex :=
  match call.arguments.head?, call.blockBody with
  | some (.stringNode _ tableName), some body =>
    tables.insert tableName (walkBlockBody body (startTable call))
  | _, _ => tables

/-- `visit_call_node`; what is below a `create_table` is visited as well. -/
def enter (n : Node) (recur : SchemaIndex → SchemaIndex) (tables : SchemaIndex) : SchemaIndex :=
  match n.asCall with
  | some call =>
    recur (if call.name = "create_table" then collectCreateTable call tables else tables)
  | none => recur tables

/-- `parse_schema_text`, on the tree of the text. -/
def parseSchema (root : Node) : SchemaIndex := Node.visit enter root ∅

/-! ### Types and names -/

def colRbsTy (typeName : String) : RbsTy :=
  if typeName = "string" ∨ typeName = "text" then .simple "String"
  else if typeName = "integer" ∨ typeName = "bigint" then .simple "Integer"
  else if typeName = "boolean" then .simple "bool"
  else .simple "untyped"

/-- The case of a character: `is_uppercase`, `is_lowercase` and `to_lowercase`. -/
structure CaseTable where
  isUppercase : Char → Bool
  isLowercase : Char → Bool
  toLowercase : Char → Text

/-- `snake_case` of what follows a character. -/
def snakeCaseAfter (cases : CaseTable) : Option Char → Text → Text
  | _, [] => []
  | prev, c :: rest =>
    if cases.isUppercase c then
      let prevLowerOrDigit := prev.any fun p ↦ cases.isLowercase p || p.isDigit
      let nextLower := rest.head?.any cases.isLowercase
      (if prev.isSome && (prevLowerOrDigit || nextLower) then ['_'] else []) ++
        cases.toLowercase c ++ snakeCaseAfter cases (some c) rest
    else c :: snakeCaseAfter cases (some c) rest

def snakeCase (cases : CaseTable) (name : Text) : Text := snakeCaseAfter cases none name

def pluralize (word : Text) : Text :=
  match word.reverse with
  | 'y' :: before :: _ =>
    if before ∈ ['a', 'e', 'i', 'o', 'u'] then word ++ ['s'] else word.dropLast ++ "ies".toList
  | 's' :: _ | 'x' :: _ | 'z' :: _ | 'h' :: 'c' :: _ | 'h' :: 's' :: _ => word ++ "es".toList
  | _ => word ++ ['s']

/-- Of the path only the last name counts. -/
def deriveTableName (cases : CaseTable) (classPath : ConstPath) : String :=
  String.ofList (pluralize (snakeCase cases (classPath.getLast?.getD "").toList))

/-! ### What the text says -/

def namedColumn (typeName : String) (span : Span) : Node → Option (String × SchemaColumn)
  | .stringNode _ colName => some (colName, { typeName, span })
  | _ => none

/-- The columns of one statement, in the order they are written. -/
def columnsOf (node : Node) : List (String × SchemaColumn) :=
  match node.asCall with
  | none => []
  | some call =>
    if call.receiver.isNone then []
    else if call.name = "column" then
      match call.arguments with
      | .stringNode _ colName :: .symbolNode _ typeName :: _ =>
        [(colName, { typeName, span := node.loc })]
      | _ => []
    else if call.name ∈ knownColumnTypes then
      call.arguments.filterMap (namedColumn call.name node.loc)
    else []

/-- The columns that a `create_table` writes, its implicit key first. -/
def writtenColumns (call : CallSite) (body : Node) : List (String × SchemaColumn) :=
  (if idFalse call.arguments then [] else [("id", { typeName := "integer", span := call.loc })]) ++
    (blockStatements body).flatMap columnsOf

/-- The node creates the table. -/
structure Creates (n : Node) (tableName : String) (call : CallSite) (body : Node) : Prop where
  isCall : n.asCall = some call
  name : call.name = "create_table"
  tableName : ∃ loc, call.arguments.head? = some (.stringNode loc tableName)
  hasBody : call.blockBody = some body

/-- The call is the last one in the text that creates the table. -/
def CreatesLast (root : Node) (tableName : String) (call : CallSite) (body : Node) : Prop :=
  ∃ before n after, root.preorder = before ++ n :: after ∧ Creates n tableName call body ∧
    ∀ m ∈ after, ∀ call body, ¬ Creates m tableName call body

theorem foldl_collectNamed (typeName : String) (span : Span) (args : List Node)
    (table : SchemaTable) :
    args.foldl (collectNamed typeName span) table =
      overwrite table (args.filterMap (namedColumn typeName span)) := by
  induction args generalizing table with
  | nil => rfl
  | cons arg rest ih =>
    rw [List.foldl_cons, ih, List.filterMap_cons]
    unfold collectNamed namedColumn
    split
    · rfl
    · rfl

theorem collectColumn_eq (table : SchemaTable) (node : Node) :
    collectColumn table node = overwrite table (columnsOf node) := by
  unfold collectColumn columnsOf
  cases node.asCall with
  | none => rfl
  | some call =>
    dsimp only
    split_ifs
    · rfl
    · split
      · rfl
      · rfl
    · exact foldl_collectNamed _ _ _ _
    · rfl

theorem walkBlockBody_eq (body : Node) (table : SchemaTable) :
    walkBlockBody body table = overwrite table ((blockStatements body).flatMap columnsOf) := by
  unfold walkBlockBody
  induction blockStatements body generalizing table with
  | nil => rfl
  | cons stmt rest ih =>
    rw [List.foldl_cons, ih, collectColumn_eq, List.flatMap_cons, overwrite_append]

theorem table_eq (call : CallSite) (body : Node) :
    walkBlockBody body (startTable call) = overwrite ∅ (writtenColumns call body) := by
  rw [walkBlockBody_eq, writtenColumns, overwrite_append]
  unfold startTable
  split_ifs
  · rfl
  · rfl

/-- The table that a node creates. -/
def createdTable (n : Node) : Option (String × SchemaTable) :=
  n.asCall.bind fun call ↦
    if call.name = "create_table" then
      match call.arguments.head?, call.blockBody with
      | some (.stringNode _ tableName), some body =>
        some (tableName, overwrite ∅ (writtenColumns call body))
      | _, _ => none
    else none

theorem createdTable_eq_some_iff {n : Node} {tableName : String} {table : SchemaTable} :
    createdTable n = some (tableName, table) ↔
      ∃ call body, Creates n tableName call body ∧
        overwrite ∅ (writtenColumns call body) = table := by
  unfold createdTable
  constructor
  · intro h
    obtain ⟨call, hcall, h⟩ := Option.bind_eq_some_iff.mp h
    split_ifs at h with hname
    split at h
    · rename_i loc tableName' body hhead hbody
      obtain ⟨rfl, rfl⟩ := Prod.mk.inj (Option.some.inj h)
      exact ⟨call, body, ⟨hcall, hname, ⟨loc, hhead⟩, hbody⟩, rfl⟩
    · cases h
  · rintro ⟨call, body, ⟨hcall, hname, ⟨loc, hhead⟩, hbody⟩, rfl⟩
    rw [hcall, Option.bind_some, if_pos hname, hhead, hbody]

theorem collectCreateTable_eq {call : CallSite} {n : Node} (hcall : n.asCall = some call)
    (hname : call.name = "create_table") (tables : SchemaIndex) :
    collectCreateTable call tables = overwrite tables (createdTable n).toList := by
  unfold collectCreateTable createdTable
  rw [hcall, Option.bind_some, if_pos hname]
  split
  · rw [table_eq]
    rfl
  · rfl

theorem enter_eq (n : Node) (recur : SchemaIndex → SchemaIndex) (tables : SchemaIndex) :
    enter n recur tables = recur (overwrite tables (createdTable n).toList) := by
  unfold enter
  cases hcall : n.asCall with
  | none =>
    have hnone : createdTable n = none := by
      unfold createdTable
      rw [hcall]
      rfl
    rw [hnone]
    rfl
  | some call =>
    dsimp only
    split_ifs with hname
    · rw [collectCreateTable_eq hcall hname]
    · have hnone : createdTable n = none := by
        unfold createdTable
        rw [hcall, Option.bind_some, if_neg hname]
      rw [hnone]
      rfl

/-- The tables of a text are those of its nodes, one after the other. -/
theorem parseSchema_eq (root : Node) :
    parseSchema root = overwrite ∅ (root.preorder.filterMap createdTable) := by
  have hfold (nodes : List Node) (tables : SchemaIndex) :
      nodes.foldl (fun tables n ↦ overwrite tables (createdTable n).toList) tables =
        overwrite tables (nodes.filterMap createdTable) := by
    induction nodes generalizing tables with
    | nil => rfl
    | cons n rest ih =>
      rw [List.foldl_cons, ih, List.filterMap_cons]
      cases createdTable n with
      | none => rfl
      | some write => rfl
  have henter : enter = fun n recur tables ↦ recur (overwrite tables (createdTable n).toList) :=
    funext fun n ↦ funext fun recur ↦ funext fun tables ↦ enter_eq n recur tables
  unfold parseSchema
  rw [henter, ← hfold]
  exact Node.visit_collect (fun tables n ↦ overwrite tables (createdTable n).toList) root ∅ []

/-- A table of the text has the columns that it is created with last. -/
theorem lookup_parseSchema_eq_some_iff {root : Node} {tableName : String} {table : SchemaTable} :
    (parseSchema root).lookup tableName = some table ↔
      ∃ call body, CreatesLast root tableName call body ∧
        overwrite ∅ (writtenColumns call body) = table := by
  rw [parseSchema_eq, lookup_overwrite_eq_some_iff, lastWrite_filterMap]
  constructor
  · rintro (⟨before, n, after, hroot, hn, hafter⟩ | ⟨-, h⟩)
    · obtain ⟨call, body, hcreates, htable⟩ := createdTable_eq_some_iff.mp hn
      refine ⟨call, body, ⟨before, n, after, hroot, hcreates, fun m hm call body hm' ↦ ?_⟩, htable⟩
      exact hafter m hm _ (createdTable_eq_some_iff.mpr ⟨call, body, hm', rfl⟩)
    · simp at h
  · rintro ⟨call, body, ⟨before, n, after, hroot, hcreates, hafter⟩, htable⟩
    refine .inl ⟨before, n, after, hroot,
      createdTable_eq_some_iff.mpr ⟨call, body, hcreates, htable⟩, fun m hm table' hm' ↦ ?_⟩
    obtain ⟨call', body', hcreates', -⟩ := createdTable_eq_some_iff.mp hm'
    exact hafter m hm call' body' hcreates'

/-- A column of the table is what is written of it last. -/
theorem lookup_column_iff {call : CallSite} {body : Node} {colName : String}
    {column : SchemaColumn} :
    (overwrite ∅ (writtenColumns call body) : SchemaTable).lookup colName = some column ↔
      LastWrite (writtenColumns call body) colName column := by
  rw [lookup_overwrite_eq_some_iff]
  simp

end SchemaRb

end Itaruby
