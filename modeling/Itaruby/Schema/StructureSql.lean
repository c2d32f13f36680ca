import Itaruby.Walker.Source
import Mathlib.Logic.Function.Basic

/-!
The scanner of `db/structure.sql`: which tables and columns it reads in the text of a dump. Offsets
count characters.
-/

set_option autoImplicit false
set_option relaxedAutoImplicit false

namespace Itaruby.StructureSql

structure SchemaColumn where
  typeName : Text
  span : Span
deriving DecidableEq, Repr

/-- The columns of a table by their names. -/
abbrev SchemaTable := Text → Option SchemaColumn

/-- The tables by their bare names. -/
abbrev SchemaIndex := Text → Option SchemaTable

/-! ### Lines -/

/-- A line without its end, and its offset. -/
structure Row where
  text : Text
  start : ℕ
deriving DecidableEq, Repr

def Row.span (row : Row) : Span := (row.start, row.start + row.text.length)

/-- The lines of what follows the start of a line, which is kept in reverse. -/
def rowsFrom (start : ℕ) (line : Text) : Text → List Row
  | [] => if line = [] then [] else [⟨(line.dropWhile (· = '\r')).reverse, start⟩]
  | '\n' :: rest =>
    ⟨(line.dropWhile (· = '\r')).reverse, start⟩ :: rowsFrom (start + line.length + 1) [] rest
  | c :: rest => rowsFrom start (c :: line) rest

/-- What `next_line` gives until the text ends. -/
def rows (text : Text) : List Row := rowsFrom 0 [] text

/-- `split_whitespace` of what follows the start of a word, which is kept in reverse. -/
def wordsFrom (word : Text) : Text → List Text
  | [] => if word = [] then [] else [word.reverse]
  | c :: rest =>
    if Text.isWhiteSpace c then
      if word = [] then wordsFrom [] rest else word.reverse :: wordsFrom [] rest
    else wordsFrom (c :: word) rest

def splitWhitespace (text : Text) : List Text := wordsFrom [] text

def toAsciiUppercase (text : Text) : Text := text.map Char.toUpper

def toAsciiLowercase (text : Text) : Text := text.map Char.toLower

/-! ### The header of a table -/

/-- What stands before the last `stop`, and after it. -/
def splitLast (stop : Char) (text : Text) : Option (Text × Text) :=
  match text.reverse.dropWhile (· ≠ stop) with
  | [] => none
  | _ :: before => some (before.reverse, (text.reverse.takeWhile (· ≠ stop)).reverse)

def stripQuotes (text : Text) : Text :=
  if 2 ≤ text.length ∧ text.head? = some '"' ∧ text.getLast? = some '"' then
    (text.drop 1).dropLast
  else text

def isCreateTable (trimmed : Text) : Bool :=
  toAsciiUppercase (trimmed.take 12) == "CREATE TABLE".toList

/-- The schema before the last dot is dropped. -/
def afterSchema (identPart : Text) : Text :=
  match splitLast '.' identPart with
  | some (_, name) => name
  | none => identPart

def parseTableName (header : Text) : Option Text :=
  let rest := Text.trimStart (header.drop 12)
  if '(' ∈ rest then
    let identPart := Text.trim (rest.takeWhile (· ≠ '('))
    if identPart = [] then none
    else
      let name := stripQuotes (Text.trim (afterSchema identPart))
      if name = [] then none else some name
  else none

/-! ### The lines of the body -/

def nonColumnPrefixes : List Text :=
  ["CONSTRAINT".toList, "PRIMARY KEY".toList, "FOREIGN KEY".toList, "UNIQUE".toList,
    "CHECK".toList, "EXCLUDE".toList, "LIKE".toList]

/-- An identifier, quoted or bare, and the rest of the line. -/
def splitIdentifier : Text → Option (Text × Text)
  | '"' :: rest =>
    if '"' ∈ rest then
      some (rest.takeWhile (· ≠ '"'), (rest.dropWhile (· ≠ '"')).drop 1)
    else none
  | text =>
    if text.any Text.isWhiteSpace then
      let ident := text.takeWhile fun c ↦ !Text.isWhiteSpace c
      match ident.head? with
      | some c =>
        if c.isAlpha || c == '_' then some (ident, text.drop ident.length) else none
      | none => none
    else none

def typeStopWords : List Text :=
  ["NOT".toList, "NULL".toList, "DEFAULT".toList, "REFERENCES".toList, "GENERATED".toList,
    "COLLATE".toList, "CHECK".toList, "UNIQUE".toList, "PRIMARY".toList, "CONSTRAINT".toList]

/-- A precision at the end of a type is dropped. -/
def stripPrecision (type : Text) : Text :=
  if type.getLast? = some ')' then
    match splitLast '(' type with
    | some (before, _) => Text.trimEnd before
    | none => type
  else type

def extractType (rest : Text) : Option Text :=
  let tokens := (splitWhitespace rest).takeWhile fun token ↦
    !typeStopWords.contains (toAsciiUppercase token)
  if tokens = [] then none else some (stripPrecision (List.intercalate [' '] tokens))

def stripComma (text : Text) : Text :=
  if text.getLast? = some ',' then text.dropLast else text

def parseColumnLine (line : Text) : Option (Text × Text) :=
  let trimmed := Text.trim (stripComma (Text.trim line))
  if trimmed = [] then none
  else if nonColumnPrefixes.any (·.isPrefixOf (toAsciiUppercase trimmed)) then none
  else
    match splitIdentifier trimmed with
    | none => none
    | some (ident, rest) =>
      (extractType (Text.trim rest)).map fun type ↦ (ident, toAsciiLowercase type)

def canonicalizeSqlType (raw : Text) : Text :=
  if raw ∈ ["smallint".toList, "integer".toList, "bigint".toList, "serial".toList,
      "bigserial".toList] then "integer".toList
  else if raw ∈ ["text".toList, "character varying".toList, "varchar".toList,
      "character".toList, "char".toList, "citext".toList] then "string".toList
  else raw

/-! ### The scan -/

/-- The tables that are closed, and the one that is open. -/
structure Scan where
  tables : SchemaIndex
  current : Option (Text × SchemaTable)

/-- The table that a line opens. -/
def openedTable (line : Text) : Option Text :=
  let trimmed := Text.trimStart line
  if isCreateTable trimmed then parseTableName trimmed else none

def closesTable (line : Text) : Bool := ");".toList.isPrefixOf (Text.trim line)

/-- The column that a line adds to the open table. -/
def addColumn (table : SchemaTable) (row : Row) : SchemaTable :=
  match parseColumnLine row.text with
  | none => table
  | some (name, type) =>
    Function.update table name (some ⟨canonicalizeSqlType type, row.span⟩)

/-- One line. A table is taken up when it is closed, and dropped when the text ends before. -/
def scanRow (s : Scan) (row : Row) : Scan :=
  match s.current with
  | none => { s with current := (openedTable row.text).map (·, fun _ ↦ none) }
  | some (name, table) =>
    if closesTable row.text then ⟨Function.update s.tables name (some table), none⟩
    else { s with current := some (name, addColumn table row) }

def parseStructureSqlText (text : Text) : SchemaIndex :=
  ((rows text).foldl scanRow ⟨fun _ ↦ none, none⟩).tables

set_option maxRecDepth 2000 in
/-- A constraint is no column. -/
example :
    let index := parseStructureSqlText "CREATE TABLE s.t (\n  a integer,\n  CHECK (a)\n);\n".toList
    (index "t".toList).map (fun table ↦ (table "a".toList, table "CHECK".toList)) =
      some (some ⟨"integer".toList, (19, 31)⟩, none) := by
  decide

end Itaruby.StructureSql
