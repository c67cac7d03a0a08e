import TurboXSL.Node
import TurboXSL.Library.Machine

namespace TurboXSL

open Library

/-- A NUL-terminated string: its bytes before the terminator. -/
structure CString where
  bytes : Bytes
  noNul : 0 ∉ bytes

namespace Parse

/-!
# The document parser

`do_parse` is one loop around a switch over `PARSE_STATE`.  All its states
share the cursor `p`, the scan pointer `c` and the three node pointers `ret`
(the open element), `current` and `previous` (the last sibling).  `pass` is
one iteration of that loop.  A read or a move beyond the terminating NUL, and
a NULL pointer that is followed, end the run with a `Stop` of their own, so
that nothing is said about what undefined behaviour does.
-/

/-- `PARSE_STATE` -/
inductive State where
  | init | openTag | close | comment | body | text | xmldecl | insideTag | attrValue
  | cdata | doctype | error
deriving DecidableEq, Repr

/-- How the loop is left. -/
inductive Stop where
  | overread
  | nullDeref
  | returned (node : Ptr) (heap : Heap)

/-- The local variables of `do_parse`.  The line counter `ln` only feeds the
`line` fields and is left out. -/
structure Parser where
  state : State
  p : Bytes
  c : Bytes
  ret : Ptr
  current : Ptr
  attr : Ptr
  previous : Ptr
  commentDepth : Nat
  heap : Heap

/-! ## Character references -/

/-- The five named references, in the order `decode_entity` tries them. -/
def namedEntity (s : Bytes) : Option (Nat × Bytes) :=
  ((matchAt (lit "amp;") s).map fun rest => ('&'.toNat, rest)) <|>
  ((matchAt (lit "quot;") s).map fun rest => ('"'.toNat, rest)) <|>
  ((matchAt (lit "lt;") s).map fun rest => ('<'.toNat, rest)) <|>
  ((matchAt (lit "gt;") s).map fun rest => ('>'.toNat, rest)) <|>
  ((matchAt (lit "apos;") s).map fun rest => ('\''.toNat, rest))

/-- A numeric reference behind its `#`: the `unsigned` it denotes, `?` when
no semicolon follows, and the cursor after it. -/
def numericEntity (s : Bytes) : Nat × Bytes :=
  let found :=
    if byteAt s = 'x'.toUInt8 ∨ byteAt s = 'X'.toUInt8 then strtoul s.tail 16 else strtoul s 10
  if byteAt found.2 = ';'.toUInt8 then (found.1 % 2 ^ 32, found.2.tail)
  else ('?'.toNat, found.2)

/-- `decode_entity`: the bytes appended and the cursor after the reference.
The message about an unknown entity reads three bytes at the cursor. -/
def decodeEntity (s : Bytes) : Except Stop (Bytes × Bytes) :=
  if byteAt s = '#'.toUInt8 then
    .ok (xmlsAddUtf (numericEntity s.tail).1, (numericEntity s.tail).2)
  else
    match namedEntity s with
    | some (u, rest) => .ok (xmlsAddUtf u, rest)
    | none => if s.length < 2 then .error .overread else .ok (xmlsAddUtf '&'.toNat, s)

/-- The loop of `make_unescaped_string`, which stops `stop` bytes before the
end of the document.  Every turn consumes a byte, so `fuel` is never short. -/
def unescapeLoop : Nat → Bytes → Nat → Except Stop Bytes
  | 0, _, _ => .ok []
  | _ + 1, [], _ => .ok []
  | fuel + 1, c :: p, stop =>
      if (c :: p).length ≤ stop then .ok []
      else if c = '&'.toUInt8 then do
        let decoded ← decodeEntity p
        let rest ← unescapeLoop fuel decoded.2 stop
        .ok (decoded.1 ++ rest)
      else do
        let rest ← unescapeLoop fuel p stop
        .ok (c :: rest)

/-- `make_unescaped_string(p, s)` -/
def makeUnescapedString (p s : Bytes) : Except Stop Bytes :=
  unescapeLoop p.length p s.length

/-! ## The scanning loops -/

/-- `while (!(p[0] == first && p[1] == second)) p++`, which does not look for
the terminator. -/
def seekPair (first second : UInt8) : Bytes → Except Stop Bytes
  | [] => .error .overread
  | c :: rest =>
      if c = first ∧ byteAt rest = second then .ok (c :: rest) else seekPair first second rest

/-- `for (; *p != wanted; ++p)`, which does not look for the terminator. -/
def seekByte (wanted : UInt8) : Bytes → Except Stop Bytes
  | [] => .error .overread
  | c :: rest => if c = wanted then .ok (c :: rest) else seekByte wanted rest

/-- The scan of a CDATA section, which stops at `]]>` or at the terminator. -/
def seekCdataEnd : Bytes → Bytes
  | [] => []
  | c :: rest => if (lit "]]>").isPrefixOf (c :: rest) then c :: rest else seekCdataEnd rest

/-- The scan of character data, which stops at `<` or at the terminator. -/
def seekMarkup (p : Bytes) : Bytes := p.dropWhile fun c => c ≠ '<'.toUInt8

/-- The name at the cursor. -/
def nameAt (p : Bytes) : Bytes := p.takeWhile canName

/-- The scan pointer behind the name at the cursor. -/
def afterName (p : Bytes) : Bytes := p.dropWhile canName

/-! ## The states -/

/-- Hang a new node behind `previous`, or as first child below `ret`. -/
def linkNode (heap : Heap) (ret previous : Ptr) (current : NodeId) : Except Stop Heap :=
  let heap := heap.modify current fun n =>
    { n with prev := previous, parent := ret, next := none }
  match previous, ret with
  | some sibling, _ => .ok (heap.modify sibling fun n => { n with next := some current })
  | none, some parent => .ok (heap.modify parent fun n => { n with children := some current })
  | none, none => .error .nullDeref

/-- `INIT`: skip all until an opening bracket. -/
def passInit (s : Parser) : Parser :=
  { s with
    p := s.p.tail
    state := if byteAt s.p = '<'.toUInt8 then .openTag else .init }

/-- `XMLDECL` -/
def passXmldecl (s : Parser) : Except Stop Parser := do
  let p ← seekPair '?'.toUInt8 '>'.toUInt8 s.p
  .ok { s with p := p.drop 2, state := .init }

/-- `COMMENT`; the depth is an `unsigned`. -/
def passComment (s : Parser) : Parser :=
  if (lit "-->").isPrefixOf s.p then
    let depth := (s.commentDepth + (2 ^ 32 - 1)) % 2 ^ 32
    { s with
      p := s.p.drop 3
      commentDepth := depth
      state := if depth = 0 then .text else .comment }
  else { s with p := s.p.tail }

/-- `OPEN` at the name of an element. -/
def openElement (s : Parser) : Except Stop Parser := do
  let p := skipSpaces s.p
  let made := xmlNewNode s.heap (some (nameAt p)) .element
  let heap ← linkNode made.1 s.ret s.previous made.2
  .ok { s with
    p := skipSpaces (afterName p)
    c := afterName p
    current := some made.2
    ret := s.ret.or (some made.2)
    heap := heap
    state := .insideTag }

/-- `OPEN` -/
def passOpen (s : Parser) : Except Stop Parser :=
  if byteAt s.p = '?'.toUInt8 then .ok { s with p := s.p.tail, state := .xmldecl }
  else if (lit "!--").isPrefixOf s.p then
    .ok { s with
      p := s.p.drop 3
      commentDepth := (s.commentDepth + 1) % 2 ^ 32
      state := .comment }
  else if (lit "![CDATA[").isPrefixOf s.p then .ok { s with p := s.p.drop 8, state := .cdata }
  else if (lit "!DOCTYPE").isPrefixOf s.p then .ok { s with p := s.p.drop 8, state := .doctype }
  else if byteAt s.p = '!'.toUInt8 then .error (.returned none s.heap)
  else if byteAt s.p = '/'.toUInt8 then .ok { s with p := s.p.tail, state := .close }
  else openElement s

/-- `CLOSE`.  On a mismatch the document is cut off behind the name. -/
def passClose (s : Parser) : Except Stop Parser :=
  let p := skipSpaces s.p
  match s.ret with
  | none => .error .nullDeref
  | some ret =>
    match (s.heap.get ret).name with
    | none => .error .nullDeref
    | some name =>
      if memcmpEqual name (nameAt p) then do
        let q ← seekByte '>'.toUInt8 (afterName p)
        .ok { s with
          p := q.tail
          c := afterName p
          previous := some ret
          ret := (s.heap.get ret).parent
          state := .text }
      else .ok { s with p := nameAt p, c := [], state := .error }

/-- `INSIDE_TAG` at what must be an attribute. -/
def addAttribute (s : Parser) : Except Stop Parser :=
  let p := skipSpaces s.p
  match s.current with
  | none => .error .nullDeref
  | some current =>
    let made := xmlNewNode s.heap (some (nameAt p)) .attribute
    let heap := made.1.modify made.2 fun n =>
      { n with next := (made.1.get current).attributes, parent := some current }
    let heap := heap.modify current fun n => { n with attributes := some made.2 }
    let q := skipSpaces (afterName p)
    if byteAt q = '='.toUInt8 then
      .ok { s with
        p := skipSpaces q.tail
        c := afterName p
        attr := some made.2
        heap := heap
        state := .attrValue }
    else .ok { s with p := q, c := afterName p, attr := some made.2, heap := heap }

/-- `INSIDE_TAG` -/
def passInsideTag (s : Parser) : Except Stop Parser :=
  if byteAt s.p = '>'.toUInt8 then
    .ok { s with
      p := s.p.tail, ret := s.current, current := none, previous := none, state := .text }
  else if (lit "/>").isPrefixOf s.p then
    .ok { s with p := s.p.drop 2, previous := s.current, state := .text }
  else addAttribute s

/-- Make a text node and hang it behind the last sibling. -/
def addText (s : Parser) (content : Bytes) (flags : Nat) : Except Stop Parser := do
  let made := xmlNewNode s.heap none .text
  let heap := made.1.modify made.2 fun n => { n with content := some content, flags := flags }
  let heap ← linkNode heap s.ret s.previous made.2
  .ok { s with current := some made.2, previous := some made.2, heap := heap }

/-- `CDATA`.  The jump behind an unterminated section leaves the document. -/
def passCdata (s : Parser) : Except Stop Parser :=
  let c := seekCdataEnd s.p
  if c.length < s.p.length then do
    let s' ← addText s (s.p.take (s.p.length - c.length)) xmlFlagNoescape
    if c.length < 3 then .error .overread
    else .ok { s' with p := c.drop 3, c := c, state := .text }
  else .ok { s with c := c, state := .text }

/-- `DOCTYPE` -/
def passDoctype (s : Parser) : Except Stop Parser := do
  let p ← seekPair ']'.toUInt8 '>'.toUInt8 s.p
  .ok { s with p := p.drop 2, state := .text }

/-- `TEXT` -/
def passText (s : Parser) : Except Stop Parser :=
  let c := seekMarkup s.p
  if c.length < s.p.length then do
    let content ← makeUnescapedString s.p c
    let s' ← addText s content 0
    .ok { s' with p := c, c := c, state := .init }
  else .ok { s with c := c, state := .init }

def isQuote (c : UInt8) : Bool :=
  c = '"'.toUInt8 || c = '\''.toUInt8 || c = '`'.toUInt8

/-- The end of `ATTR_VALUE`: `p = skip_spaces(c + 1)`. -/
def leaveAttrValue (s : Parser) : Except Stop Parser :=
  match s.c with
  | [] => .error .overread
  | _ :: rest => .ok { s with p := skipSpaces rest, state := .insideTag }

/-- `ATTR_VALUE`.  The `ERROR` set for an unquoted value is overwritten. -/
def passAttrValue (s : Parser) : Except Stop Parser :=
  if isQuote (byteAt s.p) then do
    let c ← seekByte (byteAt s.p) s.p.tail
    let content ← makeUnescapedString s.p.tail c
    match s.attr with
    | none => .error .nullDeref
    | some attr =>
      leaveAttrValue
        { s with c := c, heap := s.heap.modify attr fun n => { n with content := some content } }
  else leaveAttrValue s

/-- One iteration of the loop of `do_parse`. -/
def pass (s : Parser) : Except Stop Parser :=
  if s.state = .error then .error (.returned none s.heap)
  else if s.p = [] then .error (.returned s.ret s.heap)
  else
    match s.state with
    | .init => .ok (passInit s)
    | .xmldecl => passXmldecl s
    | .comment => .ok (passComment s)
    | .openTag => passOpen s
    | .close => passClose s
    | .insideTag => passInsideTag s
    | .cdata => passCdata s
    | .doctype => passDoctype s
    | .text => passText s
    | .attrValue => passAttrValue s
    | .body => .ok s
    | .error => .error (.returned none s.heap)

/-- `do_parse` on entry: the root node is made, nothing is read yet. -/
def start (heap : Heap) (document : Bytes) : Parser :=
  let made := xmlNewNode heap (some xslSRoot) .empty
  { state := .init, p := document, c := [], ret := some made.2, current := none, attr := none,
    previous := none, commentDepth := 0, heap := made.1 }

/-- `do_parse` returns `node` (NULL for `none`) with `after` as memory. -/
def DoParse (heap : Heap) (document : Bytes) (node : Ptr) (after : Heap) : Prop :=
  Returns pass (start heap document) (.returned node after)

/-- The states of the loop that the document can bring about. -/
def Reachable (heap : Heap) (document : Bytes) (s : Parser) : Prop :=
  Reaches pass (start heap document) s

end Parse
end TurboXSL
