import Itaruby.Schema.StructureSql

/-!
Dumps as `pg_dump` prints them: the statements of a dump, where the columns of each table stand in
its text, and what it is for the scanner to read just these.
-/

set_option autoImplicit false
set_option relaxedAutoImplicit false

namespace Itaruby.StructureSql

/-! ### The statements of a dump -/

/-- The text begins with a visible character. -/
def Starts (text : Text) : Prop := ∃ c rest, text = c :: rest ∧ Text.isWhiteSpace c = false

/-- The text ends with a visible character that is no comma. -/
def Ends (text : Text) : Prop :=
  ∃ init c, text = init ++ [c] ∧ Text.isWhiteSpace c = false ∧ c ≠ ','

def OnOneLine (text : Text) : Prop := '\n' ∉ text ∧ '\r' ∉ text

/-- A lower-case letter or an underscore, and then these and digits. -/
def IsBare (name : Text) : Prop :=
  (∃ c rest, name = c :: rest ∧ (c.isLower ∨ c = '_')) ∧
    ∀ c ∈ name, c.isLower ∨ c.isDigit ∨ c = '_'

/-- An identifier, with its name as it is in the database. -/
structure Ident where
  name : Text
  quoted : Bool
  nonempty : name ≠ []
  oneLine : OnOneLine name
  bare : quoted = false → IsBare name

/-- A quote in the name is doubled. -/
def Ident.print (ident : Ident) : Text :=
  if ident.quoted then
    '"' :: ident.name.flatMap (fun c ↦ if c = '"' then ['"', '"'] else [c]) ++ ['"']
  else ident.name

/-- The type of a column with what follows it on the line. -/
structure Definition where
  text : Text
  oneLine : OnOneLine text
  starts : Starts text
  ends : Ends text
  typed : toAsciiUppercase (text.takeWhile fun c ↦ !Text.isWhiteSpace c) ∉ typeStopWords

/-- A constraint of the table. -/
structure Constraint where
  text : Text
  oneLine : OnOneLine text
  ends : Ends text
  keyword : ∃ keyword ∈ nonColumnPrefixes, keyword <+: text

/-- A line of the body. -/
inductive Item
  | column (name : Ident) (definition : Definition)
  | constraint (constraint : Constraint)

def Item.columnName : Item → Option Text
  | .column name _ => some name.name
  | .constraint _ => none

def Item.line : Item → Text
  | .column name definition => "    ".toList ++ (name.print ++ ' ' :: definition.text)
  | .constraint c => "    ".toList ++ c.text

/-- Every line but the last one ends with a comma. -/
def itemLines : List Item → List Text
  | [] => []
  | [item] => [item.line]
  | item :: items => (item.line ++ [',']) :: itemLines items

/-- A clause after the body. -/
inductive Clause
  | inherits (parents : Text) (oneLine : OnOneLine parents)
  | partitionBy (key : Text) (oneLine : OnOneLine key) (ends : Ends key)
  | storage (options : Text) (oneLine : OnOneLine options)

def Clause.line : Clause → Text
  | .inherits parents _ => "INHERITS (".toList ++ parents ++ [')']
  | .partitionBy key _ _ => "PARTITION BY ".toList ++ key
  | .storage options _ => "WITH (".toList ++ options ++ [')']

def clauseLines : List Clause → List Text
  | [] => []
  | [clause] => [clause.line ++ [';']]
  | clause :: clauses => clause.line :: clauseLines clauses

/-- A `CREATE TABLE` block. The names of its columns are distinct. -/
structure Block where
  schema : Option Ident
  name : Ident
  items : List Item
  clauses : List Clause
  distinct : (items.filterMap Item.columnName).Nodup

namespace Block

/-- The name of the table with its schema. -/
def qualified (b : Block) : Text :=
  (match b.schema with
    | some schema => schema.print ++ ['.']
    | none => []) ++ b.name.print

def header (b : Block) : Text := "CREATE TABLE ".toList ++ (b.qualified ++ " (".toList)

/-- The semicolon stands after the body, or after the last clause. -/
def endLines (b : Block) : List Text :=
  match b.clauses with
  | [] => [");".toList]
  | clauses => [')'] :: clauseLines clauses

def lines (b : Block) : List Text := b.header :: itemLines b.items ++ b.endLines

end Block

/-- A statement of a dump: the block of a table, or the lines of any other one. -/
inductive Statement
  | block (b : Block)
  | other (lines : List Text) (oneLine : ∀ line ∈ lines, OnOneLine line)

def Statement.lines : Statement → List Text
  | .block b => b.lines
  | .other lines _ => lines

/-- The text of a dump: every line with its end. -/
def unlines (lines : List Text) : Text := lines.flatMap (· ++ ['\n'])

def dumpText (dump : List Statement) : Text := unlines (dump.flatMap Statement.lines)

/-! ### What the blocks stand for -/

/-- The lines at an offset. -/
def place (start : ℕ) : List Text → List Row
  | [] => []
  | line :: lines => ⟨line, start⟩ :: place (start + line.length + 1) lines

/-- The offset after the lines. -/
def after (start : ℕ) (lines : List Text) : ℕ := start + (unlines lines).length

/-- The blocks of a dump with their offsets. -/
def blocksAt (start : ℕ) : List Statement → List (ℕ × Block)
  | [] => []
  | .block b :: rest => (start, b) :: blocksAt (after start b.lines) rest
  | .other lines _ :: rest => blocksAt (after start lines) rest

/-- Where the items of the rows put a column. -/
def columnOf (items : List Item) (rows : List Row) (name : Text) : Option Span :=
  ((items.zip rows).find? fun entry ↦ decide (entry.1.columnName = some name)).map
    fun entry ↦ entry.2.span

namespace Block

/-- The lines of the body of a block that stands at an offset. -/
def bodyAt (b : Block) (start : ℕ) : List Row :=
  place (start + b.header.length + 1) (itemLines b.items)

/-- The columns of the block by their names, each where its line stands. -/
def columnsAt (b : Block) (start : ℕ) : Text → Option Span :=
  columnOf b.items (b.bodyAt start)

end Block

/-- The bare names of the tables. -/
def tableNames (dump : List Statement) : List Text :=
  dump.filterMap fun
    | .block b => some b.name.name
    | .other _ _ => none

/-- Where the columns of a table stand. -/
def spans (table : SchemaTable) (name : Text) : Option Span := (table name).map SchemaColumn.span

/-- There is one table for each block, with the columns of its own lines, and no other table. -/
structure Exact (index : SchemaIndex) (dump : List Statement) : Prop where
  distinct : (tableNames dump).Nodup
  only : ∀ name table, index name = some table → name ∈ tableNames dump
  columns : ∀ entry ∈ blocksAt 0 dump,
    (index entry.2.name.name).map spans = some (entry.2.columnsAt entry.1)

/-! ### When a dump is read -/

/-- The name stands as it is in the header. -/
def Block.Titled (b : Block) : Prop :=
  '.' ∉ b.name.name ∧ '(' ∉ b.name.name ∧ '"' ∉ b.name.name ∧
    ∀ schema, b.schema = some schema → '(' ∉ schema.name

/-- A column whose line reads as itself: a quoted name has no quote, and a bare one does not begin
as a constraint does. -/
def Item.Readable : Item → Prop
  | .column name definition =>
    if name.quoted then '"' ∉ name.name
    else ∀ keyword ∈ nonColumnPrefixes,
      ¬ keyword <+: toAsciiUppercase (name.name ++ ' ' :: definition.text)
  | .constraint _ => True

namespace Statement

/-- The title of a block is read, and the lines of another statement open no table. -/
def Legible : Statement → Prop
  | .block b => b.Titled
  | .other lines _ => ∀ line ∈ lines, openedTable line = none

/-- No clause comes after the body. -/
def Closed : Statement → Prop
  | .block b => b.clauses = []
  | .other _ _ => True

def Readable : Statement → Prop
  | .block b => ∀ item ∈ b.items, item.Readable
  | .other _ _ => True

end Statement

end Itaruby.StructureSql
