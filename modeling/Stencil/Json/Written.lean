import Stencil.Json.Basic

/-!
JSON as it is written: objects keep every entry in the order of the text, and what is well formed
without standing for a value is kept as well, so that it can be passed over.
-/

namespace Stencil.Json

/-- A JSON text. -/
inductive Written where
  /-- A value without parts. -/
  | scalar (value : Json)
  | array (items : List Written)
  | object (entries : List (String × Written))
  /-- A number that is too large, a string with half a character, or parts nested too deeply. -/
  | valueless
  deriving Repr

namespace Written

def ofScalar? : Option Json → Written
  | some value => scalar value
  | none => valueless

def ofMembers (members : List (Option String × Written)) : Written :=
  match members.mapM fun member => member.1.map (·, member.2) with
  | some entries => object entries
  | none => valueless

def scalar? : Written → Option Json
  | scalar value => some value
  | _ => none

def items? : Written → Option (List Written)
  | array items => some items
  | _ => none

def entries? : Written → Option (List (String × Written))
  | object entries => some entries
  | _ => none

mutual

def value? : Written → Option Json
  | scalar value => some value
  | array items => (itemValues? items).map .array
  | object entries => (entryValues? entries).map Json.ofEntries
  | valueless => none

def itemValues? : List Written → Option (List Json)
  | [] => some []
  | item :: rest => do return (← item.value?) :: (← itemValues? rest)

def entryValues? : List (String × Written) → Option (List (String × Json))
  | [] => some []
  | (name, value) :: rest => do return (name, ← value.value?) :: (← entryValues? rest)

end

mutual

def ofJson : Json → Written
  | .array items => array (ofItems items)
  | .object entries => object (ofEntries entries)
  | value => scalar value

def ofItems : List Json → List Written
  | [] => []
  | item :: rest => ofJson item :: ofItems rest

def ofEntries : List (String × Json) → List (String × Written)
  | [] => []
  | (name, value) :: rest => (name, ofJson value) :: ofEntries rest

end

end Written

end Stencil.Json
