import UniformAccess.Draft.Basic
/-! # Drafts of packages, imports, annotations and types -/
namespace UniformAccess.Draft

/-- Drafts `package a.b;`. -/
def package (p : Pos) (path : String) : Draft := ofLength p ("package ".length + path.length + 1) (.package path)

/-- Drafts `import a.b.C;`. -/
def importDecl (p : Pos) (decl : ImportDecl) : Draft :=
  ofLength p
    ("import ".length + decl.path.length + 1 + (if decl.isStatic then "static ".length else 0)
      + (if decl.isAsterisk then ".*".length else 0))
    (.importDecl decl)

/-- Drafts `@Name`. -/
def annotationUse (p : Pos) (name : String) : Draft := ofLength p (name.length + 1) (.annotationUse name [])

def primitiveType (p : Pos) (primitive : Primitive) : Draft :=
  ofLength p primitive.text.length (.primitiveType primitive)

def classType (p : Pos) (name : String) : Draft := ofLength p name.length (.classType none name [])

/-- Drafts `Name<A, B>`. -/
def genericType (p : Pos) (name : String) (args : List NodeId) (t : Tree) : Draft :=
  ⟨.between (some p) (t.stopOfBracketed args (some (p.right name.length))), .classType none name args⟩

/-- Drafts `elem[][]`. -/
def arrayType (elem : NodeId) (dims : Nat) (t : Tree) : Draft :=
  ⟨.between (t.start? elem) ((t.stop? elem).map (·.right (2 * dims))), .arrayType elem dims⟩

def voidType (p : Pos) : Draft := ofLength p "void".length .voidType

end UniformAccess.Draft
