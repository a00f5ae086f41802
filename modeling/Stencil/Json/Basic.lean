import Stencil.Table
import Stencil.Number.Double

/-!
JSON values. Whole numbers of 64 bits are kept apart from all other numbers, and the entries of an
object are kept in ascending order of their names.
-/

namespace Stencil

inductive Json where
  | null
  | bool (value : Bool)
  | int (value : Int)
  | double (value : Number.Double)
  | string (text : String)
  | array (items : List Json)
  | object (entries : List (String × Json))
  deriving Repr

namespace Json

/-- The object with the given entries; of two entries with one name the later counts. -/
def ofEntries (entries : List (String × Json)) : Json := object (Table.ofList entries)

def isNull : Json → Bool
  | null => true
  | _ => false

def get? : Json → String → Option Json
  | object entries, name => Table.get? entries name
  | _, _ => none

def asString? : Json → Option String
  | string text => some text
  | _ => none

def asBool? : Json → Option Bool
  | bool value => some value
  | _ => none

def asArray? : Json → Option (List Json)
  | array items => some items
  | _ => none

def asObject? : Json → Option (List (String × Json))
  | object entries => some entries
  | _ => none

def asNat? : Json → Option Nat
  | int (.ofNat n) => some n
  | _ => none

end Json

end Stencil
