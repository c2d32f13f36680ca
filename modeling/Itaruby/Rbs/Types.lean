import Itaruby.Rbs.Parser

/-!
The parser of types, parameters and whole signatures. Types, parameter lists and the
loops over their parts call each other; every call takes one of the steps given.
-/

set_option autoImplicit false
set_option relaxedAutoImplicit false

namespace Itaruby.RbsComment

namespace Parser

variable {α : Type}

/-- A name followed by a single colon, which is passed over. Otherwise the position stays. -/
def keywordName (admits : Text → Bool) : Parser (Option Text) := do
  let save ← get
  match ← tryIdent with
  | none => return none
  | some name =>
    let colon ← peek
    let second ← peekSecond
    if colon = some ':' ∧ second ≠ some ':' ∧ admits name then do
      advance
      return some name
    else do
      set save
      return none

def startsLowercase (name : Text) : Bool := name.head?.any fun c ↦ c.isLower || c == '_'

def postfixNilable (base : RbsTy) : Parser RbsTy := do
  if ← eat '?' then return .nilable base else return base

def untyped : RbsTy := .simple "untyped"

/-- `(list)`, where the parentheses may be left out. -/
def optionalList (list : Parser α) : Parser Unit := do
  if ← eat '(' then do
    let _ ← list
    skipWs
  else return ()

/-! ### Parameters -/

section Params

variable (ty : Parser RbsTy)

def restParam : Parser (Option RbsParam) := do
  if (← peekSecond) = some '*' then do
    advance
    advance
    let _ ← ty
    skipParamName
    return none
  else do
    advance
    let t ← ty
    skipParamName
    return some (.optional t)

def optionalParam : Parser (Option RbsParam) := do
  skipWs
  match ← keywordName fun _ ↦ true with
  | some name =>
    let t ← ty
    return some (.keyword (String.ofList name) t false)
  | none =>
    let t ← ty
    skipParamName
    return some (.optional t)

def requiredOrKeywordParam : Parser (Option RbsParam) := do
  match ← keywordName startsLowercase with
  | some name =>
    let t ← ty
    return some (.keyword (String.ofList name) t true)
  | none =>
    let t ← ty
    skipParamName
    return some (.required t)

def param : Parser (Option RbsParam) := do
  skipWs
  if (← peek) = some '*' then restParam ty
  else if ← eat '?' then optionalParam ty
  else requiredOrKeywordParam ty

end Params

/-! ### Types -/

section Types

variable (ty : Parser RbsTy)

def grouped : Parser RbsTy := do
  let inner ← ty
  skipWs
  if ← eat ')' then postfixNilable inner else fail "expected `)`"

def singletonType : Parser RbsTy := do
  let inner ← ty
  skipWs
  if ← eat ')' then postfixNilable (.generic "singleton" [inner]) else fail "expected `)`"

def procType (paramList : Parser (List RbsParam)) : Parser RbsTy := do
  skipWs
  optionalList paramList
  if ← eatArrow then do
    let _ ← ty
    postfixNilable untyped
  else fail "expected `->` in proc type"

def bracketedTypes (typesLoop : List RbsTy → Parser (List RbsTy)) : Parser (List RbsTy) := do
  skipWs
  let first ← ty
  skipWs
  typesLoop [first]

def shapeType (shapeLoop : Parser Unit) : Parser RbsTy := do
  skipWs
  if ← eat '\x7d' then postfixNilable untyped
  else do
    shapeLoop
    postfixNilable untyped

def namedType (args : Parser (List RbsTy)) (name : Text) : Parser RbsTy := do
  if ← eat '[' then do
    let args ← args
    if 2 < args.length then failPlain "generics support at most 2 type arguments"
    else postfixNilable (.generic (String.ofList name) args)
  else postfixNilable (.simple (String.ofList name))

/-- `singleton(`, with nothing between the name and the parenthesis. -/
def opensSingleton (name : Text) : Parser Bool :=
  if name = "singleton".toList then eat '(' else pure false

def paramList (paramLoop : List RbsParam → Parser (List RbsParam)) : Parser (List RbsParam) := do
  skipWs
  if ← eat ')' then return [] else paramLoop []

end Types

def tooDeep : Parser α := fail "too deep"

mutual

def ty : ℕ → Parser RbsTy
  | 0 => tooDeep
  | n + 1 => do
    let first ← intersectionTy n
    skipWs
    if (← peek) = some '|' then do
      let parts ← alternatives n [first]
      return .union parts
    else return first

/-- `while self.eat(b'|')`. -/
def alternatives : ℕ → List RbsTy → Parser (List RbsTy)
  | 0, _ => tooDeep
  | n + 1, parts => do
    if ← eat '|' then do
      skipWs
      let part ← intersectionTy n
      skipWs
      alternatives n (parts ++ [part])
    else return parts

def intersectionTy : ℕ → Parser RbsTy
  | 0 => tooDeep
  | n + 1 => do
    let first ← primary n
    skipWs
    if (← peek) = some '&' then do
      conjuncts n
      return untyped
    else return first

/-- `while self.eat(b'&')`. -/
def conjuncts : ℕ → Parser Unit
  | 0 => tooDeep
  | n + 1 => do
    if ← eat '&' then do
      skipWs
      let _ ← primary n
      skipWs
      conjuncts n
    else return ()

def primary : ℕ → Parser RbsTy
  | 0 => tooDeep
  | n + 1 => do
    skipWs
    if ← eat '?' then do
      let inner ← primary n
      return .nilable inner
    else if ← eat '^' then procType (ty n) (paramList (paramLoop n))
    else if ← eat '(' then grouped (ty n)
    else if ← eat '{' then shapeType (shapeLoop n)
    else if ← eat '[' then do
      let args ← bracketedTypes (ty n) (typesLoop n)
      postfixNilable (.generic "__tuple" args)
    else do
      let name ← ident
      if ← opensSingleton name then singletonType (ty n)
      else namedType (bracketedTypes (ty n) (typesLoop n)) name

/-- The fields of a record, up to its brace. -/
def shapeLoop : ℕ → Parser Unit
  | 0 => tooDeep
  | n + 1 => do
    skipWs
    let _ ← ident
    skipWs
    if ← eat ':' then do
      let _ ← ty n
      skipWs
      if ← eat ',' then shapeLoop n
      else if ← eat '\x7d' then return ()
      else fail "expected `,` or `\x7d` in shape type"
    else fail "expected `:` in shape type"

/-- The types after the first one, up to the bracket. -/
def typesLoop : ℕ → List RbsTy → Parser (List RbsTy)
  | 0, _ => tooDeep
  | n + 1, args => do
    if ← eat ',' then do
      skipWs
      let t ← ty n
      skipWs
      typesLoop n (args ++ [t])
    else if ← eat ']' then return args
    else fail "expected `]`"

def paramLoop : ℕ → List RbsParam → Parser (List RbsParam)
  | 0, _ => tooDeep
  | n + 1, params => do
    let found ← param (ty n)
    skipWs
    if ← eat ',' then do
      skipWs
      paramLoop n (params ++ found.toList)
    else if ← eat ')' then return params ++ found.toList
    else fail "expected `,` or `)`"

end

/-! ### Blocks and signatures -/

def placeholder : Parser Bool := do
  if ← eat '?' then do
    skipWs
    eat ')'
  else return false

/-- `(?)` stands for the whole list. -/
def blockParamList (n : ℕ) : Parser Unit := do
  skipWs
  let save ← get
  if ← placeholder then return ()
  else do
    set save
    let _ ← paramList (paramLoop n)

def skipBlockSelfType (n : ℕ) : Parser Unit := do
  if ← eat '[' then do
    skipWs
    let name ← ident
    if name = "self".toList then do
      skipWs
      if ← eat ':' then do
        let _ ← ty n
        skipWs
        if ← eat ']' then skipWs else fail "expected `]`"
      else fail "expected `:`"
    else fail "expected `self:` in block self-type"
  else return ()

/-- What stands between the braces of a block, and the closing one. -/
def blockBody (n : ℕ) : Parser Unit := do
  skipWs
  optionalList (blockParamList n)
  skipBlockSelfType n
  if ← eatArrow then do
    let _ ← ty n
    skipWs
    if ← eat '\x7d' then return () else fail "expected `\x7d`"
  else fail "expected `->` in block type"

def skipBlockType (n : ℕ) : Parser Unit := do
  skipWs
  let first ← peek
  let second ← peekSecond
  if first = some '?' ∧ second = some '{' then do
    advance
    advance
    blockBody n
  else if first = some '{' then do
    advance
    blockBody n
  else return ()

def atEnd : Parser Unit := fun rest ↦
  if rest = [] then .ok ((), []) else fail "trailing input" rest

def sigParams (n : ℕ) : Parser (List RbsParam) := do
  if ← eat '(' then paramList (paramLoop n) else return []

def signature (n : ℕ) : Parser RbsSig := do
  skipWs
  let typeParams ← parseTypeParams
  skipWs
  let params ← sigParams n
  skipWs
  skipBlockType n
  skipWs
  if ← eatArrow then do
    let ret ← ty n
    skipWs
    atEnd
    return { params, ret, typeParams := typeParams.map String.ofList }
  else fail "expected `->`"

end Parser

/-- Eight steps for each character are more than the calls between two characters. -/
def parseRbsComment (input : Text) : Except Failure RbsSig :=
  Prod.fst <$> Parser.signature (8 * (input.length + 1)) input

end Itaruby.RbsComment
