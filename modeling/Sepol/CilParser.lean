import Sepol.Policydb

/-!
# The parser of CIL texts

`cil_parser` builds the parse tree from the tokens of the lexer (`cil_lexer.l`).  Parentheses and the line marks of a
higher-level language both move the current node, but the parser counts them apart: parentheses in `parenCount`, line
marks by the stack `hllStack`.
-/

namespace Sepol

/-- The types of tokens that `cil_lexer.l` returns; any other number is `other`. -/
inductive CilTokenType where
  | oparen
  | cparen
  | symbol
  | qstring
  | comment
  | hllLinemark
  | newline
  | endOfFile
  | unknown
  | other (type : Nat)
  deriving DecidableEq

structure CilToken where
  type : CilTokenType
  value : CString
  line : Nat

/-- The next token of the sequence; the lexer stays at the end of the file. -/
def cilLexerNext : List CilToken → CilToken × List CilToken
  | [] => (⟨.endOfFile, [], 0⟩, [])
  | tok :: tokens => (tok, tokens)

def cilKeySrcInfo : CString := ['<', 's', 'r', 'c', '_', 'i', 'n', 'f', 'o', '>']
def cilKeySrcCil : CString := ['c', 'i', 'l']
def cilKeySrcHllLms : CString := ['l', 'm', 's']
def cilKeySrcHllLmx : CString := ['l', 'm', 'x']
def cilKeySrcHllLme : CString := ['l', 'm', 'e']

/-- What a node is made for: the text itself, or the mark of the place that the text comes from. -/
inductive CilNodeMade where
  | text
  | mark
  deriving DecidableEq

/-- A node of the parse tree.  `made` is not a field of the source's node: it remembers which code made the node. -/
inductive CilParseNode where
  | node (made : CilNodeMade) (line : Nat) (hllOffset : BitVec 32) (data : Option CString)
      (children : List CilParseNode)

/-- A node without data whose children are still being added. -/
structure CilOpenNode where
  made : CilNodeMade
  line : Nat
  hllOffset : BitVec 32
  children : List CilParseNode

def CilOpenNode.close (n : CilOpenNode) : CilParseNode := .node n.made n.line n.hllOffset none n.children

def CilOpenNode.addChild (n : CilOpenNode) (child : CilParseNode) : CilOpenNode :=
  { n with children := n.children ++ [child] }

/-- The current node and its ancestors, innermost first.  An ancestor holds the children before the way to the current
node, which are all it has. -/
structure CilCursor where
  current : CilOpenNode
  parents : List CilOpenNode

/-- A node with data (`create_node`). -/
def createNode (made : CilNodeMade) (line : Nat) (hllOffset : BitVec 32) (value : CString) : CilParseNode :=
  .node made line hllOffset (some value) []

def CilCursor.insertNode (cursor : CilCursor) (node : CilParseNode) : CilCursor :=
  { cursor with current := cursor.current.addChild node }

/-- Inserts a node without data and makes it the current node. -/
def CilCursor.insertCurrent (cursor : CilCursor) (made : CilNodeMade) (line : Nat) (hllOffset : BitVec 32) :
    CilCursor :=
  { current := ⟨made, line, hllOffset, []⟩, parents := cursor.current :: cursor.parents }

/-- `current = current->parent`, which the root does not have. -/
def CilCursor.parent (cursor : CilCursor) : Option CilCursor :=
  match cursor.parents with
  | [] => none
  | parent :: parents => some { current := parent.addChild cursor.current.close, parents := parents }

/-- The root of the tree around the current node. -/
def CilCursor.root (cursor : CilCursor) : CilOpenNode :=
  cursor.parents.foldl (fun node parent => parent.addChild node.close) cursor.current

structure HllInfo where
  hllOffset : BitVec 32
  hllExpand : Bool

structure CilParserState where
  parenCount : Nat
  cursor : CilCursor
  hllStack : List HllInfo
  hllOffset : BitVec 32
  hllExpand : Bool

/-- The messages of the parser, with the line they are reported at.  The last two are no messages: a step above the
root, and a bound on the rounds that was too small. -/
inductive CilParserError where
  | invalidLineMark (line : Nat)
  | lineMarkEndWithoutStart (line : Nat)
  | tooManyLineMarks (line : Nat)
  | tooManyOpen (line : Nat)
  | closeWithoutOpen (line : Nat)
  | symbolNotInside (line : Nat)
  | openWithoutClose (line : Nat)
  | lineMarkWithoutClose (line : Nat)
  | invalidToken (value : CString) (line : Nat)
  | unknownTokenType (type : Nat) (line : Nat)
  | aboveRoot
  | outOfRounds
  deriving DecidableEq

def cilParserMaxExprDepth : Nat := 4096

def pushHllInfo (s : CilParserState) : CilParserState :=
  { s with hllStack := ⟨s.hllOffset, s.hllExpand⟩ :: s.hllStack }

def popHllInfo (s : CilParserState) : CilParserState :=
  match s.hllStack with
  | [] => s
  | info :: hllStack => { s with hllStack := hllStack, hllOffset := info.hllOffset, hllExpand := info.hllExpand }

/-- Moves to the parent of the current node. -/
def currentParent (s : CilParserState) : Except CilParserError CilParserState :=
  match s.cursor.parent with
  | none => .error .aboveRoot
  | some cursor => .ok { s with cursor := cursor }

/-- A newline counts where the lines are those of the text. -/
def countNewline (s : CilParserState) : CilParserState :=
  if s.hllExpand then s else { s with hllOffset := s.hllOffset + 1 }

/-- A string without its quotes. -/
def unquote (value : CString) : CString := value.dropLast.tail

/-- The text of a symbol or of a string. -/
def CilToken.text (tok : CilToken) : CString :=
  if tok.type = .qstring then unquote tok.value else tok.value

/-- The branch of `add_hll_linemark` for the end of a line mark. -/
def endHllLinemark (s : CilParserState) (line : Nat) : Except CilParserError CilParserState :=
  if s.hllStack.isEmpty then .error (.lineMarkEndWithoutStart line)
  else
    let popped := popHllInfo s
    -- the offset goes on, unless the mark returns to an expanded section
    let hllOffset := if popped.hllExpand then popped.hllOffset else s.hllOffset
    let hllOffset := if s.hllExpand && !popped.hllExpand then hllOffset + 1 else hllOffset
    currentParent { popped with hllOffset := hllOffset }

/-- The branch of `add_hll_linemark` for the start of a line mark, with the token of its type. -/
def startHllLinemark (s : CilParserState) (tok : CilToken) (tokens : List CilToken) :
    Except CilParserError (CilParserState × List CilToken) :=
  let pushed := pushHllInfo s
  if pushed.hllStack.length > cilParserMaxExprDepth then .error (.tooManyLineMarks tok.line)
  else
    let cursor := pushed.cursor.insertCurrent .mark tok.line s.hllOffset
    let cursor := cursor.insertNode (createNode .mark tok.line s.hllOffset cilKeySrcInfo)
    let cursor := cursor.insertNode (createNode .mark tok.line s.hllOffset tok.value)
    let (lineTok, tokens) := cilLexerNext tokens
    if lineTok.type ≠ .symbol then .error (.invalidLineMark lineTok.line)
    else
      let cursor := cursor.insertNode (createNode .mark lineTok.line s.hllOffset lineTok.value)
      let (fileTok, tokens) := cilLexerNext tokens
      if fileTok.type ≠ .symbol ∧ fileTok.type ≠ .qstring then .error (.invalidLineMark fileTok.line)
      else
        let cursor := cursor.insertNode (createNode .mark fileTok.line s.hllOffset fileTok.text)
        .ok ({ pushed with cursor := cursor, hllExpand := decide (tok.value = cilKeySrcHllLmx) }, tokens)

/-- A line mark ends with the line. -/
def newlineHllLinemark (s : CilParserState) (tokens : List CilToken) :
    Except CilParserError (CilParserState × CilToken × List CilToken) :=
  let (tok, tokens) := cilLexerNext tokens
  if tok.type ≠ .newline then .error (.invalidLineMark tok.line)
  else .ok (countNewline s, tok, tokens)

/-- Reads the rest of a line mark; the last token that it reads is returned. -/
def addHllLinemark (s : CilParserState) (tokens : List CilToken) :
    Except CilParserError (CilParserState × CilToken × List CilToken) :=
  let (tok, tokens) := cilLexerNext tokens
  if tok.type ≠ .symbol then .error (.invalidLineMark tok.line)
  else if tok.value ≠ cilKeySrcHllLme ∧ tok.value ≠ cilKeySrcHllLms ∧ tok.value ≠ cilKeySrcHllLmx then
    .error (.invalidLineMark tok.line)
  else if tok.value = cilKeySrcHllLme then do
    newlineHllLinemark (← endHllLinemark s tok.line) tokens
  else do
    let (s, tokens) ← startHllLinemark s tok tokens
    newlineHllLinemark s tokens

/-- The node for the file, with the children that say so (`add_cil_path`). -/
def addCilPath (cursor : CilCursor) (path : CString) : CilCursor :=
  ((((cursor.insertCurrent .mark 0 0).insertNode (createNode .mark 0 0 cilKeySrcInfo)).insertNode
    (createNode .mark 0 0 cilKeySrcCil)).insertNode (createNode .mark 0 0 ['1'])).insertNode
    (createNode .mark 0 0 path)

/-- The tokens of a comment are read up to the end of the line or of the file. -/
def skipComment : List CilToken → CilToken × List CilToken
  | [] => cilLexerNext []
  | tok :: tokens => if tok.type = .newline ∨ tok.type = .endOfFile then (tok, tokens) else skipComment tokens

/-- The checks at the end of the file. -/
def cilParserEnd (s : CilParserState) (tok : CilToken) : Except CilParserError (CilParserState × CilToken) :=
  if s.parenCount > 0 then .error (.openWithoutClose tok.line)
  else if ¬ s.hllStack.isEmpty then .error (.lineMarkWithoutClose tok.line)
  else .ok (s, tok)

/-- The `switch` of the loop, with the token it is about and those after it.  The last token read decides whether the
loop goes on. -/
def cilParserSwitch (s : CilParserState) (tok : CilToken) (tokens : List CilToken) :
    Except CilParserError (CilParserState × CilToken × List CilToken) :=
  match tok.type with
  | .hllLinemark => addHllLinemark s tokens
  | .oparen =>
    if s.parenCount + 1 > cilParserMaxExprDepth then .error (.tooManyOpen tok.line)
    else .ok ({ s with
      parenCount := s.parenCount + 1, cursor := s.cursor.insertCurrent .text tok.line s.hllOffset }, tok, tokens)
  | .cparen =>
    if s.parenCount = 0 then .error (.closeWithoutOpen tok.line)
    else do
      return (← currentParent { s with parenCount := s.parenCount - 1 }, tok, tokens)
  | .qstring | .symbol =>
    if s.parenCount = 0 then .error (.symbolNotInside tok.line)
    else .ok ({ s with cursor := s.cursor.insertNode (createNode .text tok.line s.hllOffset tok.text) }, tok, tokens)
  | .newline => .ok (countNewline s, tok, tokens)
  | .comment =>
    let (last, tokens) := skipComment tokens
    let s := countNewline s
    if last.type ≠ .endOfFile then .ok (s, last, tokens)
    else do
      let (s, last) ← cilParserEnd s last
      return (s, last, tokens)
  | .endOfFile => do
    let (s, tok) ← cilParserEnd s tok
    return (s, tok, tokens)
  | .unknown => .error (.invalidToken tok.value tok.line)
  | .other type => .error (.unknownTokenType type tok.line)

/-- The loop, of at most `rounds` rounds. -/
def cilParserLoop : Nat → CilParserState → List CilToken → Except CilParserError CilParserState
  | 0, _, _ => .error .outOfRounds
  | rounds + 1, s, tokens => do
    let (tok, tokens) := cilLexerNext tokens
    let (s, last, tokens) ← cilParserSwitch s tok tokens
    if last.type = .endOfFile then return s
    else cilParserLoop rounds s tokens

/-- The root of a parse tree with the trees of the files before. -/
def cilParseRoot (before : List CilParseNode) : CilOpenNode := ⟨.mark, 0, 0, before⟩

/-- The state before the first token. -/
def cilParserStart (before : List CilParseNode) (path : CString) : CilParserState where
  parenCount := 0
  cursor := addCilPath ⟨cilParseRoot before, []⟩ path
  hllStack := []
  hllOffset := 1
  hllExpand := false

/-- Adds the tree of the file `path` to the parse tree whose root has the children `before`. -/
def cilParser (rounds : Nat) (before : List CilParseNode) (path : CString) (tokens : List CilToken) :
    Except CilParserError CilOpenNode := do
  return (← cilParserLoop rounds (cilParserStart before path) tokens).cursor.root

end Sepol
