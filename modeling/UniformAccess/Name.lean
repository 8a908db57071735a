import UniformAccess.Text.Alphanumeric
import UniformAccess.Text.Uppercase
/-!
# Names

The names of the accessor methods of a property, and which characters a name is made of.
-/
namespace UniformAccess

/-- Identifier characters: letters and numbers of any script, `_` and `$`. -/
def isIdentChar (c : Char) : Bool := Text.isAlphanumeric c || c == '_' || c == '$'

/-- The name with its first character in upper case, which may be more than one character. -/
def capitalize (name : String) : String :=
  match name.toList with
  | [] => ""
  | first :: rest => String.ofList (Text.uppercase first ++ rest)

def getterName (property : String) : String := "get" ++ capitalize property

def setterName (property : String) : String := "set" ++ capitalize property

end UniformAccess
