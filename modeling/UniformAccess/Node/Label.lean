import UniformAccess.Node.Kind
/-!
# Naming a node in a report

The name of a kind, and the text that a node holds itself rather than in a child.
-/
namespace UniformAccess.Kind

def title : Kind → String
  | placeholder => "Dummy"
  | unit _ => "CompilationUnit"
  | package _ => "Package"
  | importDecl _ => "Import"
  | annotationUse .. => "Annotation"
  | classDecl _ => "Class"
  | field _ => "Field"
  | var .. => "Var"
  | method _ => "Method"
  | constructorDecl _ => "Constructor"
  | param _ => "Param"
  | initializer .. => "Initializer"
  | property _ => "Property"
  | primitiveType _ => "PrimitiveTy"
  | classType .. => "ClassTy"
  | arrayType .. => "ArrayTy"
  | voidType => "VoidTy"
  | block _ => "Block"
  | exprStmt _ => "ExprStmt"
  | localVar _ => "LocalVar"
  | ifStmt .. => "If"
  | whileStmt .. => "While"
  | forStmt .. => "For"
  | returnStmt _ => "Return"
  | throwStmt _ => "Throw"
  | emptyStmt => "Empty"
  | nameExpr _ => "Name"
  | fieldAccess .. => "FieldAccess"
  | call .. => "Call"
  | assign .. => "Assign"
  | binary .. => "Binary"
  | unary .. => "Unary"
  | literal _ => "Literal"
  | thisExpr => "This"
  | newObject .. => "New"
  | paren _ => "Paren"
  | lambda .. => "Lambda"
  | conditional .. => "Conditional"
  | cast .. => "Cast"
  | indexExpr .. => "Index"

def label? : Kind → Option String
  | package path => some path
  | importDecl d => some d.path
  | annotationUse name _ => some name
  | classDecl d => some d.name.name
  | var name _ => some name.name
  | method d => some d.name.name
  | constructorDecl d => some d.name.name
  | param d => some d.name.name
  | property d => some d.name.name
  | primitiveType p => some p.text
  | classType _ name _ => some name
  | nameExpr name => some name
  | fieldAccess _ member => some member.name
  | call _ name _ => some name.name
  | assign _ op _ => some op.text
  | binary _ op _ => some op.text
  | unary op _ => some op.text
  | literal l => some l.text
  | _ => none

end UniformAccess.Kind
