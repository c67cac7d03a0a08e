import TurboXSL.Forest

namespace TurboXSL

/-!
# The supported documents

The grammar of the documents the parser is meant for: an optional XML
declaration and one element, whose content is any sequence of character
data, elements, CDATA sections, comments and processing instructions.  Every
part carries the conditions under which it may be written, so a value of
these types is a document that is well formed.  `render` is its text,
`denote` the forest it stands for.
-/

namespace Document

/-! ## Parts -/

/-- A run of white space. -/
structure Space where
  bytes : Bytes
  white : ∀ c ∈ bytes, xIsWs c = true

/-- A name of an element or an attribute. -/
structure Name where
  bytes : Bytes
  nonempty : bytes ≠ []
  named : ∀ c ∈ bytes, canName c = true

/-- Characters that are ended by a delimiter. -/
structure Enclosed (delimiter : Bytes) where
  bytes : Bytes
  unclosed : ¬ delimiter <:+: bytes
  noNul : 0 ∉ bytes

inductive Quote where
  | double | single
deriving DecidableEq

def Quote.byte : Quote → UInt8
  | .double => '"'.toUInt8
  | .single => '\''.toUInt8

/-- The predefined entities. -/
inductive Entity where
  | amp | quot | lt | gt | apos
deriving DecidableEq

/-- What is written between the ampersand and the next character. -/
def Entity.reference : Entity → Bytes
  | .amp => lit "amp;"
  | .quot => lit "quot;"
  | .lt => lit "lt;"
  | .gt => lit "gt;"
  | .apos => lit "apos;"

def Entity.byte : Entity → UInt8
  | .amp => '&'.toUInt8
  | .quot => '"'.toUInt8
  | .lt => '<'.toUInt8
  | .gt => '>'.toUInt8
  | .apos => '\''.toUInt8

/-- A byte that stands for itself. -/
def Ordinary (c : UInt8) : Prop := c ≠ 0 ∧ c ≠ '<'.toUInt8 ∧ c ≠ '&'.toUInt8

instance : DecidablePred Ordinary := fun _ => inferInstanceAs (Decidable (_ ∧ _ ∧ _))

/-- The digits denote the number of the character. -/
structure Spells (base : Nat) (character : Char) (digits : Bytes) : Prop where
  nonempty : digits ≠ []
  digit : ∀ d ∈ digits, digitValue d < base
  value : digitsValue base digits = character.toNat

/-- One piece of character data or of an attribute value. -/
inductive Piece where
  | plain (c : UInt8) (ordinary : Ordinary c)
  | entity (which : Entity)
  | decimal (character : Char) (digits : Bytes) (spelled : Spells 10 character digits)
  | hexadecimal (character : Char) (digits : Bytes) (spelled : Spells 16 character digits)

def Piece.render : Piece → Bytes
  | .plain c _ => [c]
  | .entity which => '&'.toUInt8 :: which.reference
  | .decimal _ digits _ => lit "&#" ++ digits ++ lit ";"
  | .hexadecimal _ digits _ => lit "&#x" ++ digits ++ lit ";"

/-- A character reference stands for the character's UTF-8 encoding. -/
def Piece.denote : Piece → Bytes
  | .plain c _ => [c]
  | .entity which => [which.byte]
  | .decimal character _ _ => String.utf8EncodeChar character
  | .hexadecimal character _ _ => String.utf8EncodeChar character

def renderPieces (pieces : List Piece) : Bytes := pieces.flatMap Piece.render

def denotePieces (pieces : List Piece) : Bytes := pieces.flatMap Piece.denote

/-- An attribute, with the white space in front of it and around its `=`. -/
structure Attr where
  gap : Space
  gapped : gap.bytes ≠ []
  name : Name
  before : Space
  after : Space
  quote : Quote
  value : List Piece
  enclosed : ∀ c ordinary, Piece.plain c ordinary ∈ value → c ≠ quote.byte

def Attr.render (attr : Attr) : Bytes :=
  attr.gap.bytes ++ attr.name.bytes ++ attr.before.bytes ++ '='.toUInt8 :: attr.after.bytes ++
    attr.quote.byte :: renderPieces attr.value ++ [attr.quote.byte]

def Attr.denote (attr : Attr) : Bytes × Bytes := (attr.name.bytes, denotePieces attr.value)

/-- Attributes are listed newest first. -/
def denoteAttrs (attrs : List Attr) : List (Bytes × Bytes) := (attrs.map Attr.denote).reverse

/-! ## Content -/

/-- The content of an element, in first-child / next-sibling form.  Character
data comes piece by piece; a maximal row of pieces is one run. -/
inductive Content where
  | done
  | text (piece : Piece) (next : Content)
  | element (name : Name) (attrs : List Attr) (inTag inEnd : Space) (children next : Content)
  | empty (name : Name) (attrs : List Attr) (inTag : Space) (next : Content)
  | cdata (characters : Enclosed (lit "]]>")) (next : Content)
  | comment (characters : Enclosed (lit "-->")) (next : Content)
  | pi (characters : Enclosed (lit "?>")) (next : Content)

namespace Content

/-- The text of the content. -/
def render : Content → Bytes
  | .done => []
  | .text piece next => piece.render ++ next.render
  | .element name attrs inTag inEnd children next =>
      lit "<" ++ name.bytes ++ attrs.flatMap Attr.render ++ inTag.bytes ++ lit ">" ++
        children.render ++ lit "</" ++ name.bytes ++ inEnd.bytes ++ lit ">" ++ next.render
  | .empty name attrs inTag next =>
      lit "<" ++ name.bytes ++ attrs.flatMap Attr.render ++ inTag.bytes ++ lit "/>" ++ next.render
  | .cdata characters next => lit "<![CDATA[" ++ characters.bytes ++ lit "]]>" ++ next.render
  | .comment characters next => lit "<!--" ++ characters.bytes ++ lit "-->" ++ next.render
  | .pi characters next => lit "<?" ++ characters.bytes ++ lit "?>" ++ next.render

/-- One element and nothing else. -/
def IsElement : Content → Prop
  | .element _ _ _ _ _ .done => True
  | .empty _ _ _ .done => True
  | _ => False

end Content

/-- The text node of a run of character data; none when the run is empty. -/
def flush (run : List Piece) (next : Forest) : Forest :=
  if run = [] then next else .text (denotePieces run) 0 next

/-- The text node of a CDATA section; none when it is empty. -/
def sectionText (characters : Bytes) (next : Forest) : Forest :=
  if characters = [] then next else .text characters xmlFlagNoescape next

/-- The forest that content stands for behind the pieces of an open `run`:
every run and every CDATA section a text node, comments and processing
instructions nothing. -/
def Content.denote (run : List Piece) : Content → Forest
  | .done => flush run .nil
  | .text piece next => next.denote (run ++ [piece])
  | .element name attrs _ _ children next =>
      flush run (.element name.bytes (denoteAttrs attrs) (children.denote []) (next.denote []))
  | .empty name attrs _ next =>
      flush run (.element name.bytes (denoteAttrs attrs) .nil (next.denote []))
  | .cdata characters next => flush run (sectionText characters.bytes (next.denote []))
  | .comment _ next => flush run (next.denote [])
  | .pi _ next => flush run (next.denote [])

end Document

open Document in
/-- An optional XML declaration, white space behind it, and one element. -/
structure Document where
  declaration : Option (Enclosed (lit "?>") × Space)
  root : Content
  single : root.IsElement

namespace Document

def renderDeclaration : Option (Enclosed (lit "?>") × Space) → Bytes
  | none => []
  | some (characters, space) => lit "<?" ++ characters.bytes ++ lit "?>" ++ space.bytes

def render (document : Document) : Bytes :=
  renderDeclaration document.declaration ++ document.root.render

def denote (document : Document) : Forest := document.root.denote []

end Document
end TurboXSL
