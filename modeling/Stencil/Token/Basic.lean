import Stencil.Token.Position

/-!
The tokens of a template.
-/

namespace Stencil

inductive LineEnding where
  | lf
  | crlf
  deriving DecidableEq, Repr

def LineEnding.text : LineEnding → String
  | lf => "\n"
  | crlf => "\r\n"

inductive SpecialMark where
  | quote
  | backslash
  deriving DecidableEq, Repr

def SpecialMark.text : SpecialMark → String
  | quote => "\""
  | backslash => "\\"

inductive TagKind where
  | escaped
  | unescaped
  | inclusion
  | openSection
  | openInverted
  | openParent
  | openBlock
  | close
  deriving DecidableEq, Repr

namespace TagKind

def sigil : TagKind → String
  | escaped => ""
  | unescaped => "&"
  | inclusion => ">"
  | openSection => "#"
  | openInverted => "^"
  | openParent => "<"
  | openBlock => "$"
  | close => "/"

def isOpening : TagKind → Bool
  | openSection | openInverted | openParent | openBlock => true
  | _ => false

/-- Tags that remove their line from the output when they are alone on it. -/
def isStandalone : TagKind → Bool
  | escaped | unescaped => false
  | _ => true

/-- Tags whose indentation carries over to every line of the included template. -/
def isIndented : TagKind → Bool
  | inclusion | openParent => true
  | _ => false

end TagKind

inductive TokenKind where
  | text (content : String)
  | whitespace (content : String)
  | newline (ending : LineEnding)
  | special (mark : SpecialMark)
  | comment (content : String)
  | delimiters (opening closing : String)
  | tag (kind : TagKind) (name : String)
  | eof
  deriving DecidableEq, Repr

/-- A piece of a template with the text it was read from. -/
structure Token where
  kind : TokenKind
  position : Position
  raw : String
  deriving DecidableEq, Repr

namespace Token

def tag? (token : Token) : Option (TagKind × String) :=
  match token.kind with
  | .tag kind name => some (kind, name)
  | _ => none

def isStandalone (token : Token) : Bool :=
  match token.kind with
  | .tag kind _ => kind.isStandalone
  | _ => false

def isWhitespace (token : Token) : Bool :=
  match token.kind with
  | .whitespace _ => true
  | _ => false

def isNewline (token : Token) : Bool :=
  match token.kind with
  | .newline _ => true
  | _ => false

def isEof (token : Token) : Bool :=
  match token.kind with
  | .eof => true
  | _ => false

def endsLine (token : Token) : Bool := token.isNewline || token.isEof

end Token

end Stencil
