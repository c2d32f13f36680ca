import Itaruby.Index.Basic
import Itaruby.Library.Parsing
import Itaruby.Walker.Source

/-!
The parser of inline RBS signatures. A position is the text that is left.
-/

set_option autoImplicit false
set_option relaxedAutoImplicit false

namespace Itaruby.RbsComment

/-! ### Parsers -/

/-- What is wrong, and the text that is left there. -/
structure Failure where
  what : String
  rest : Text
  offset : Bool := true
deriving DecidableEq, Repr

abbrev Parser (α : Type) : Type := StateT Text (Except Failure) α

namespace Parser

variable {α : Type}

def fail (what : String) : Parser α := fun rest ↦ .error { what, rest }

/-- A failure whose text names no offset. -/
def failPlain (what : String) : Parser α := fun rest ↦ .error { what, rest, offset := false }

def isBlank (c : Char) : Bool := c == ' ' || c == '\t'

def skipWs : Parser Unit := fun rest ↦ .ok ((), rest.dropWhile isBlank)

def peek : Parser (Option Char) := fun rest ↦ .ok (rest.head?, rest)

/-- The character after the next one. -/
def peekSecond : Parser (Option Char) := fun rest ↦ .ok (rest.tail.head?, rest)

/-- The next character is passed over. -/
def advance : Parser Unit := fun rest ↦ .ok ((), rest.tail)

def eat (c : Char) : Parser Bool
  | d :: rest => if d = c then .ok (true, rest) else .ok (false, d :: rest)
  | [] => .ok (false, [])

def eatArrow : Parser Bool := do
  if ← eat '-' then eat '>' else return false

def isIdentByte (c : Char) : Bool := c.isAlphanum || c == '_'

/-- The characters of an identifier at the start, and the rest. -/
def spanIdent : Text → Text × Text
  | ':' :: ':' :: rest => (':' :: ':' :: (spanIdent rest).1, (spanIdent rest).2)
  | c :: rest =>
    if isIdentByte c then (c :: (spanIdent rest).1, (spanIdent rest).2) else ([], c :: rest)
  | [] => ([], [])

def ident : Parser Text := fun rest ↦
  if (spanIdent rest).1 = [] then fail "expected identifier" rest else .ok (spanIdent rest)

/-- `ident`, which leaves the position where it is when it fails. -/
def tryIdent : Parser (Option Text) := fun rest ↦
  match ident rest with
  | .ok (name, rest) => .ok (some name, rest)
  | .error _ => .ok (none, rest)

def skipParamName : Parser Unit := do
  skipWs
  let _ ← tryIdent
  return ()

/-! ### Type parameters -/

/-- The depth and `at_name_position` after a character. -/
def pastChar (depth : ℕ) : Char → ℕ × Bool
  | '[' => (depth + 1, false)
  | ']' => (depth - 1, false)
  | ',' => (depth, depth == 1)
  | _ => (depth, false)

/-- The loop, one step for each name or character. -/
def typeParamsLoop : ℕ → ℕ → Bool → List Text → Parser (List Text)
  | 0, _, _, _ => fail "too long"
  | n + 1, depth, atNamePosition, names =>
    if depth = 0 then return names
    else do
      let found ← if depth = 1 ∧ atNamePosition then (do skipWs; tryIdent) else pure none
      match found with
      | some name => typeParamsLoop n depth false (names ++ [name])
      | none =>
        match ← peek with
        | some c => do
          advance
          typeParamsLoop n (pastChar depth c).1 (pastChar depth c).2 names
        | none => failPlain "unterminated type parameter list"

def parseTypeParams : Parser (List Text) := do
  skipWs
  if ← eat '[' then fun rest ↦ typeParamsLoop (rest.length + 1) 1 true [] rest
  else return []

end Parser

end Itaruby.RbsComment
