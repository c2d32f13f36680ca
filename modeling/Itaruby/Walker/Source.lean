import Itaruby.Syntax.Node

/-!
What the walk of one file reads besides its tree: the text the spans index, the `#:`
signature comments by line, and the parsers and inventories that are not part of the
walk. Offsets count characters.
-/

set_option autoImplicit false
set_option relaxedAutoImplicit false

namespace Itaruby

abbrev Text := List Char

namespace Text

instance lawfulBEq : LawfulBEq Text := inferInstance

/-- A property of the letters of one text is decided letter by letter, where the finiteness
of `Char` would offer a walk through all of them. -/
scoped instance (priority := high) decidableLetters (text : Text) (p : Char → Prop)
    [DecidablePred p] : Decidable (∀ c ∈ text, p c) := List.decidableBAll p text

scoped instance (priority := high) decidableFirstLetter (first : Option Char) (p : Char → Prop)
    [DecidablePred p] : Decidable (∀ c ∈ first, p c) :=
  match first with
  | none => isTrue fun _ hc ↦ nomatch hc
  | some c => decidable_of_iff (p c) (by simp)

def slice (text : Text) (span : Span) : Text := (text.drop span.1).take (span.2 - span.1)

/-- `text.contains(needle)`. -/
def contains (text : Text) (needle : String) : Bool :=
  text.tails.any fun rest ↦ needle.toList.isPrefixOf rest

/-- The `White_Space` property. -/
def isWhiteSpace (c : Char) : Bool :=
  let n := c.toNat
  (9 ≤ n && n ≤ 13) || n == 0x20 || n == 0x85 || n == 0xA0 || n == 0x1680 ||
    (0x2000 ≤ n && n ≤ 0x200A) || n == 0x2028 || n == 0x2029 || n == 0x202F || n == 0x205F ||
    n == 0x3000

def trimStart (text : Text) : Text := text.dropWhile isWhiteSpace

def trimEnd (text : Text) : Text := (text.reverse.dropWhile isWhiteSpace).reverse

def trim (text : Text) : Text := text.trimStart.trimEnd

/-- `trim_start_matches("#:")`. -/
def trimSigMarker : Text → Text
  | '#' :: ':' :: rest => trimSigMarker rest
  | text => text

/-- The line an offset is on, counted from zero. -/
def lineOf (text : Text) (offset : ℕ) : ℕ := (text.take offset).count '\n'

/-- `text.replace(placeholder, element)`. -/
def replaceAll (text placeholder element : Text) : Text :=
  match placeholder with
  | [] => text
  | _ :: _ =>
    go text.length text
where
  go : ℕ → Text → Text
    | 0, rest => rest
    | _ + 1, [] => []
    | fuel + 1, c :: rest =>
      if placeholder.isPrefixOf (c :: rest) then
        element ++ go fuel ((c :: rest).drop placeholder.length)
      else c :: go fuel rest

end Text

/-- The result of `ruby_prism::parse`. -/
structure ParseResult where
  node : Node
  comments : List Span
  errors : Bool

/-- The parsers and the inventories the walk consults. -/
structure Frontend where
  parse : Text → ParseResult
  parseRbsComment : Text → Except String RbsSig
  isAlphanumeric : Char → Bool
  isCoreNamespace : String → Bool
  isKnownExternalClassPath : ConstPath → Bool

structure WalkEnv extends Frontend where
  text : Text
  sigComments : AList fun _ : ℕ ↦ Span

/-! ### Signature comments -/

/-- The span of a comment that may be a signature. RDoc directives such as `#:nodoc:` glue a
word onto the marker and are none. -/
def sigCommentSpan (fe : Frontend) (text : Text) (comment : Span) : Option Span :=
  let ctext := (text.slice comment).trimEnd
  match ctext with
  | '#' :: ':' :: after =>
    let gluedWord := match after with
      | c :: _ => fe.isAlphanumeric c || c == '_'
      | [] => false
    if gluedWord then none else some (comment.1, comment.1 + ctext.length)
  | _ => none

def sigCommentsOf (fe : Frontend) (text : Text) (comments : List Span) :
    AList fun _ : ℕ ↦ Span :=
  comments.foldl
    (fun table comment ↦
      match sigCommentSpan fe text comment with
      | some span => table.insert (text.lineOf comment.1) span
      | none => table)
    ∅

/-! ### Method definitions -/

/-- `fill_def_params`; `...` is a keyword rest that takes positionals as well. -/
def fillDefParams (md : MethodDef) (params : Params) : MethodDef :=
  { md with
    required := params.requireds.length + params.posts
    optional := params.optionals
    rest := params.rest || params.keywordRest == .forwarding
    keywords := md.keywords ++ params.keywords
    kwrest := params.keywordRest != .none
    block := params.block }

/-- The signature comment on the line right above a `def`, parsed. -/
def sigAbove (env : WalkEnv) (start : ℕ) : Option (Span × Except String RbsSig) :=
  let line := env.text.lineOf start
  if line = 0 then none
  else
    (env.sigComments.lookup (line - 1)).map fun span ↦
      (span, env.parseRbsComment (env.text.slice span).trimSigMarker.trim)

/-- `build_method_def`, with the signature errors it reports. -/
def buildMethodDef (env : WalkEnv) (site : DefSite) (pendingSorbetRet : Option String) :
    MethodDef × List (ℕ × ℕ × String) :=
  let md : MethodDef :=
    { name := site.name, sorbetRet := pendingSorbetRet, nameSpan := site.nameLoc,
      defSpan := site.loc }
  let md := match site.parameters with
    | some params => fillDefParams md params
    | none => md
  match sigAbove env site.loc.1 with
  | some (_, .ok sig) => ({ md with sig := some sig }, [])
  | some (span, .error e) => (md, [(span.1, span.2, e)])
  | none => (md, [])

namespace CallSite

def hasBlockNode (call : CallSite) : Bool :=
  match call.block with
  | some block => block.isBlockNode
  | none => false

def receiverIsSelf (call : CallSite) : Bool :=
  match call.receiver with
  | some receiver => receiver.isSelf
  | none => false

/-- The body of a literal block. -/
def blockBody (call : CallSite) : Option Node :=
  match call.block with
  | some (.blockNode _ _ _ body) => body
  | _ => none

def blockParameters (call : CallSite) : Option Params :=
  match call.block with
  | some (.blockNode _ parameters _ _) => parameters
  | _ => none

/-- The top-level statements of a literal block. -/
def blockStatements (call : CallSite) : Option (List Node) := call.blockBody.bind Node.statementsOf

def firstLiteralName (call : CallSite) : Option String :=
  call.arguments.head?.bind Node.literalMethodName

end CallSite

/-! ### Sorbet signatures -/

def isSigCallOrDef (n : Node) : Bool :=
  n.asDef.isSome ||
    match n.asCall with
    | some call => call.name == "sig" && call.receiver.isNone && call.block.isSome
    | none => false

/-- `sig_block_stmt`: the one statement of the block. -/
def sigBlockStmt (call : CallSite) : Option Node :=
  match call.blockBody with
  | some (.statementsNode _ [only]) => some only
  | some (.statementsNode ..) => none
  | some body => some body
  | none => none

/-- `extract_sig_return`: the text of the argument of an outermost `returns`. -/
def extractSigReturn (text : Text) (call : CallSite) : Option String :=
  match (sigBlockStmt call).bind Node.asCall with
  | some outer =>
    if outer.name = "returns" then
      match outer.arguments with
      | [arg] => some (String.ofList (text.slice arg.loc).trim)
      | _ => none
    else none
  | none => none

def sigBlockIsRecognized (call : CallSite) : Bool :=
  match (sigBlockStmt call).bind Node.asCall with
  | some outer =>
    if outer.name = "returns" then outer.arguments.length == 1 else outer.name == "void"
  | none => false

end Itaruby
