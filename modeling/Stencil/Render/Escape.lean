/-!
Escaping values for the format that they are written into.
-/

namespace Stencil

abbrev Escaper := String → String

namespace Escaper

def plain : Escaper := id

def htmlChar (c : Char) : List Char :=
  if c = '&' then ['&', 'a', 'm', 'p', ';']
  else if c = '<' then ['&', 'l', 't', ';']
  else if c = '>' then ['&', 'g', 't', ';']
  else if c = '"' then ['&', 'q', 'u', 'o', 't', ';']
  else if c = '\x27' then ['&', '#', '3', '9', ';']
  else [c]

def isMarked (text : String) : Bool :=
  text.toList.any fun c => c ∈ ['&', '<', '>', '"', '\x27']

/-- Replaces the characters that have a meaning in HTML. -/
def html : Escaper := fun text =>
  if isMarked text then String.ofList (text.toList.flatMap htmlChar) else text

end Escaper

end Stencil
