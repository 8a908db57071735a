/-!
# Keywords, operators and literals

The closed vocabularies of the language, each with the text it is written with.
-/
namespace UniformAccess

inductive Visibility where
  | pub
  | prot
  | priv
deriving DecidableEq, Repr

def Visibility.text : Visibility → String
  | pub => "public"
  | prot => "protected"
  | priv => "private"

inductive Primitive where
  | boolean
  | char
  | byte
  | short
  | int
  | long
  | float
  | double
deriving DecidableEq, Repr

namespace Primitive

def text : Primitive → String
  | boolean => "boolean"
  | char => "char"
  | byte => "byte"
  | short => "short"
  | int => "int"
  | long => "long"
  | float => "float"
  | double => "double"

/-- The class whose objects hold a value of the primitive type. -/
def boxed : Primitive → String
  | boolean => "Boolean"
  | char => "Character"
  | byte => "Byte"
  | short => "Short"
  | int => "Integer"
  | long => "Long"
  | float => "Float"
  | double => "Double"

end Primitive

inductive BinaryOp where
  | or
  | and
  | bitOr
  | bitXor
  | bitAnd
  | eq
  | ne
  | lt
  | gt
  | le
  | ge
  | shl
  | shr
  | ushr
  | add
  | sub
  | mul
  | div
  | rem
deriving DecidableEq, Repr

def BinaryOp.text : BinaryOp → String
  | or => "||"
  | and => "&&"
  | bitOr => "|"
  | bitXor => "^"
  | bitAnd => "&"
  | eq => "=="
  | ne => "!="
  | lt => "<"
  | gt => ">"
  | le => "<="
  | ge => ">="
  | shl => "<<"
  | shr => ">>"
  | ushr => ">>>"
  | add => "+"
  | sub => "-"
  | mul => "*"
  | div => "/"
  | rem => "%"

/-- An assignment, plain or compound. -/
inductive AssignOp where
  | plain
  | add
  | sub
  | mul
  | div
  | rem
  | bitAnd
  | bitOr
  | bitXor
  | shl
  | shr
  | ushr
deriving DecidableEq, Repr

namespace AssignOp

def text : AssignOp → String
  | plain => "="
  | add => "+="
  | sub => "-="
  | mul => "*="
  | div => "/="
  | rem => "%="
  | bitAnd => "&="
  | bitOr => "|="
  | bitXor => "^="
  | shl => "<<="
  | shr => ">>="
  | ushr => ">>>="

/-- The operator that a compound assignment applies to the old value. -/
def binaryOp? : AssignOp → Option BinaryOp
  | plain => none
  | add => some .add
  | sub => some .sub
  | mul => some .mul
  | div => some .div
  | rem => some .rem
  | bitAnd => some .bitAnd
  | bitOr => some .bitOr
  | bitXor => some .bitXor
  | shl => some .shl
  | shr => some .shr
  | ushr => some .ushr

end AssignOp

inductive UnaryOp where
  | plus
  | neg
  | bitNot
  | not
  | preInc
  | preDec
  | postInc
  | postDec
deriving DecidableEq, Repr

namespace UnaryOp

def text : UnaryOp → String
  | plus => "+"
  | neg => "-"
  | bitNot => "~"
  | not => "!"
  | preInc => "++"
  | preDec => "--"
  | postInc => "++"
  | postDec => "--"

/-- Whether the operator stands after its operand. -/
def followsOperand : UnaryOp → Bool
  | postInc => true
  | postDec => true
  | _ => false

end UnaryOp

/-- A literal. Numbers keep the digits they were written with; characters and strings are held without their quotes,
escapes as written. -/
inductive Literal where
  | int (digits : String)
  | long (digits : String)
  | double (digits : String)
  | char (content : String)
  | str (content : String)
  | bool (value : Bool)
  | null
deriving DecidableEq, Repr

def Literal.text : Literal → String
  | int s => s
  | long s => s
  | double s => s
  | char s => "'" ++ s ++ "'"
  | str s => "\"" ++ s ++ "\""
  | bool true => "true"
  | bool false => "false"
  | null => "null"

end UniformAccess
