import ChocoRv.Markdown.Basic
import ChocoRv.Text.Printable

/-!
# HTML in documents

HTML stands as it is: inside a text, tags and other constructs between angle brackets; and whole
blocks that start with such a construct and end as its kind says.
-/

namespace ChocoRv.Markdown

namespace Html

/-! ## Tags -/

def isNameChar (b : UInt8) : Bool := Byte.isLetter b || Byte.isDigit b || b == '-'.toUInt8

/-- The name of a tag in front of a text, empty if there is none. -/
def tagName (s : Bytes) : Bytes := if s.head?.any Byte.isLetter then s.takeWhile isNameChar else []

def isAttributeStart (b : UInt8) : Bool :=
  Byte.isLetter b || b == '_'.toUInt8 || b == ':'.toUInt8

def isAttributeChar (b : UInt8) : Bool :=
  isAttributeStart b || Byte.isDigit b || b == '.'.toUInt8 || b == '-'.toUInt8

/-- The marks that do not stand in values without quotes. -/
def valueEnds : Bytes := [0x22, 0x27, '='.toUInt8, '<'.toUInt8, '>'.toUInt8, 0x60]

/-- The bytes of values without quotes. -/
def isValueChar (b : UInt8) : Bool := 0x20 < b && !valueEnds.contains b

/-- What follows the value of an attribute. -/
def value? (s : Bytes) : Option Bytes :=
  match s with
  | [] => none
  | q :: rest =>
    if q == 0x22 || q == 0x27 then after? [q] rest
    else
      let value := s.takeWhile isValueChar
      if value.isEmpty then none else some (s.drop value.length)

/-- What follows an attribute after white space. -/
def attribute? (s : Bytes) : Option Bytes :=
  let name := s.dropWhile isSpace
  if !s.head?.any isSpace || !name.head?.any isAttributeStart then none
  else
    let rest := name.dropWhile isAttributeChar
    match rest.dropWhile isSpace with
    | [] => some rest
    | c :: value =>
      if c == '='.toUInt8 then some ((value? (value.dropWhile isSpace)).getD rest)
      else some rest

/-- What follows the attributes of a tag, at most `n`. -/
def skipAttributes : Nat → Bytes → Bytes
  | 0, s => s
  | n + 1, s =>
    match attribute? s with
    | some rest => skipAttributes n rest
    | none => s

/-- What follows the bracket at the end of a tag. -/
def close? (s : Bytes) : Option Bytes :=
  match s with
  | c :: rest => if c == '>'.toUInt8 then some rest else none
  | [] => none

/-- What follows the bracket at the end of a tag that may have a slash before it. -/
def slashClose? (s : Bytes) : Option Bytes :=
  close? (if s.head? == some '/'.toUInt8 then s.tail else s)

/-- A text without the blanks and line breaks at its start. A carriage return is a part of a line
break only. -/
def skipBreaks : Bytes → Bytes
  | [] => []
  | c :: s =>
    if isMargin c || c == '\n'.toUInt8 then skipBreaks s
    else if c == '\r'.toUInt8 && s.head? == some '\n'.toUInt8 then skipBreaks s
    else c :: s

/-- What follows an opening tag after its bracket. -/
def openTag? (s : Bytes) : Option Bytes :=
  let name := tagName s
  if name.isEmpty then none
  else slashClose? (skipBreaks (skipAttributes s.length (s.drop name.length)))

/-- What follows a closing tag after its bracket and slash. -/
def closeTag? (s : Bytes) : Option Bytes :=
  let name := tagName s
  if name.isEmpty then none else close? (skipBreaks (s.drop name.length))

/-! ## Inside a text -/

def isUpper (b : UInt8) : Bool := 'A'.toUInt8 ≤ b && b ≤ 'Z'.toUInt8

/-- What follows a comment; two have no room for an end of their own. -/
def comment? (s : Bytes) : Option Bytes :=
  if (txt "<!-->").isPrefixOf s then some (s.drop 5)
  else if (txt "<!--->").isPrefixOf s then some (s.drop 6)
  else after? (txt "-->") (s.drop 4)

/-- The start of a text up to the first bytes that encode no character, or that encode the one which
stands for such bytes. -/
def legible (s : Bytes) : Bytes :=
  match s with
  | [] => []
  | a :: rest =>
    match Bytes.codePoint? (a :: rest) with
    | none => []
    | some (c, n) =>
      if c == CodePoint.replacement then []
      else (a :: rest).take n ++ legible (rest.drop (n - 1))
termination_by s.length
decreasing_by all_goals grind

/-- What follows a tag in the legible start of a text. -/
def legibleTag? (tag? : Bytes → Option Bytes) (s : Bytes) : Option Bytes :=
  let start := legible s
  (tag? start).map fun rest => s.drop (start.length - rest.length)

/-- What follows a construct of HTML that a text starts with: a tag, a comment, an instruction, a
declaration or a section of characters. -/
def inline? (s : Bytes) : Option Bytes :=
  match s with
  | _ :: c :: rest =>
    if Byte.isLetter c || Byte.isDigit c then legibleTag? openTag? (c :: rest)
    else if c == '/'.toUInt8 && rest.head?.any (fun d => Byte.isLetter d || Byte.isDigit d) then
      legibleTag? closeTag? rest
    else if (txt "<!--").isPrefixOf s then comment? s
    else if c == '?'.toUInt8 then after? (txt "?>") s
    else if c == '!'.toUInt8 && rest.head?.any isUpper then after? (txt ">") s
    else if (txt "<![CDATA[").isPrefixOf s then after? (txt "]]>") s
    else none
  | _ => none

def isMailChar (b : UInt8) : Bool :=
  Byte.isLetter b || Byte.isDigit b || (txt ".!#$%&*+/=?^_\x7b|\x7d~-").contains b || b == 0x27 ||
    b == 0x60

/-- One part of the name of a host. -/
def isHostPart (s : Bytes) : Bool :=
  let isEnd (b : UInt8) : Bool := Byte.isLetter b || Byte.isDigit b
  s.length ≤ 63 && s.all isNameChar && s.head?.any isEnd && s.getLast?.any isEnd

/-- What follows an address of mail before a bracket. -/
def mail? (s : Bytes) : Option Bytes :=
  let user := s.takeWhile isMailChar
  match s.drop user.length with
  | c :: rest =>
    let host := rest.takeWhile fun b => isNameChar b || b == '.'.toUInt8
    if c == '@'.toUInt8 && !user.isEmpty && (Bytes.split '.'.toUInt8 host).all isHostPart then
      close? (rest.drop host.length)
    else none
  | [] => none

/-- What follows an absolute address before a bracket. -/
def address? (s : Bytes) : Option Bytes :=
  let scheme := s.takeWhile fun b =>
    Byte.isLetter b || Byte.isDigit b || (txt "+.-").contains b
  match s.drop scheme.length with
  | c :: rest =>
    if c == ':'.toUInt8 && scheme.head?.any Byte.isLetter && 2 ≤ scheme.length &&
        scheme.length ≤ 33 then
      close? (rest.dropWhile fun b => 0x20 < b && b != '<'.toUInt8 && b != '>'.toUInt8)
    else none
  | [] => none

/-- What follows an address in angle brackets that a text starts with. -/
def autolink? (s : Bytes) : Option Bytes := (mail? s.tail).or (address? s.tail)

/-! ## Blocks -/

/-- What ends a block of HTML. -/
inductive Ending where
  /-- A line with the closing tag of an element whose content is not HTML. -/
  | tag
  /-- A line with a mark. -/
  | mark (text : Bytes)
  | blankLine
deriving DecidableEq, Repr

/-- The elements whose content is not HTML. -/
def rawElements : List Bytes := [txt "script", txt "pre", txt "style", txt "textarea"]

/-- The elements that start a block with any of their tags. -/
def blockElements : List Bytes :=
  [txt "address", txt "article", txt "aside", txt "base", txt "basefont", txt "blockquote",
   txt "body", txt "caption", txt "center", txt "col", txt "colgroup", txt "dd", txt "details",
   txt "dialog", txt "dir", txt "div", txt "dl", txt "dt", txt "fieldset", txt "figcaption",
   txt "figure", txt "footer", txt "form", txt "frame", txt "frameset", txt "h1", txt "h2",
   txt "h3", txt "h4", txt "h5", txt "h6", txt "head", txt "header", txt "hr", txt "html",
   txt "iframe", txt "legend", txt "li", txt "link", txt "main", txt "menu", txt "menuitem",
   txt "meta", txt "nav", txt "noframes", txt "ol", txt "optgroup", txt "option", txt "p",
   txt "param", txt "search", txt "section", txt "summary", txt "table", txt "tbody", txt "td",
   txt "tfoot", txt "th", txt "thead", txt "title", txt "tr", txt "track", txt "ul"]

def lower (s : Bytes) : Bytes := s.map fun b => if isUpper b then b + 0x20 else b

/-- Whether a line ends an element whose content is not HTML. -/
def endsRaw (line : Bytes) : Bool :=
  rawElements.any fun name => occurs (txt "</" ++ name ++ txt ">") (lower line)

def Ending.isOn (line : Bytes) : Ending → Bool
  | tag => endsRaw line
  | mark text => occurs text line
  | blankLine => isBlankLine line

/-- Whether the name of a tag ends before a text, where a predicate says which spaces end it. -/
def endsName (isGap : UInt8 → Bool) (s : Bytes) : Bool :=
  s.head?.all (fun b => isGap b || b == '>'.toUInt8) || (txt "/>").isPrefixOf s

/-- The constructs other than tags that start a block, with the marks that end it. -/
def markEnd? (s : Bytes) : Option Bytes :=
  if (txt "<!--").isPrefixOf s then some (txt "-->")
  else if (txt "<?").isPrefixOf s then some (txt "?>")
  else if (txt "<!").isPrefixOf s && (s.drop 2).head?.any isUpper then some (txt ">")
  else if (txt "<![CDATA[").isPrefixOf s then some (txt "]]>")
  else none

/-- Whether nothing but spaces is left on a line. -/
def isSpaces (s : Bytes) : Bool :=
  let rest := s.dropWhile (· == ' '.toUInt8)
  rest.isEmpty || rest == txt "\n" || rest == txt "\r\n"

/-- Whether a text after a bracket is a tag that stands on its line alone and starts a block
whatever its name is. A closing tag with attributes does not. -/
def isLoneTag (s : Bytes) : Bool :=
  let closing := s.head? == some '/'.toUInt8
  let tag := if closing then s.tail.dropWhile (· == ' '.toUInt8) else s
  let name := tagName tag
  let attributes := tag.drop name.length
  let rest := skipAttributes attributes.length attributes
  let bareClosing := closing && (s.drop 1).head? != some ' '.toUInt8
  let raw := [txt "script", txt "style", txt "pre"].contains (lower name)
  !name.isEmpty && !raw &&
    !(bareClosing && rest.length != attributes.length) &&
    (slashClose? (rest.dropWhile (· == ' '.toUInt8))).any isSpaces

/-- Whether a text after a bracket is a tag that starts a block by its name. -/
def isBlockTag (s : Bytes) : Bool :=
  let tag :=
    if s.head? == some '/'.toUInt8 then s.tail.dropWhile (· == ' '.toUInt8) else s
  let name := tagName tag
  let after := tag.drop name.length
  let lineEnd (b : UInt8) : Bool := b == ' '.toUInt8 || b == '\n'.toUInt8
  blockElements.contains (lower name) &&
    (endsName lineEnd after || after == txt "\r\n" ||
      (slashClose? ((skipAttributes after.length after).dropWhile (· == ' '.toUInt8))).any isSpaces)

/-- How the block of HTML ends that starts with a line. A tag of any name does not start one below
a paragraph. -/
def start? (belowParagraph : Bool) (line : Bytes) : Option Ending :=
  let spaces := line.takeWhile (· == ' '.toUInt8)
  let s := line.drop spaces.length
  if 3 < spaces.length || s.head? != some '<'.toUInt8 then none
  else
    let tag := s.tail
    if rawElements.any fun name =>
        name.isPrefixOf (lower tag) && endsName Byte.isSpace (tag.drop name.length) then
      some .tag
    else match markEnd? s with
      | some mark => some (.mark mark)
      | none =>
        if isBlockTag tag || (!belowParagraph && isLoneTag tag) then some .blankLine else none

end Html

end ChocoRv.Markdown
