import UniformAccess.Draft.Header
import UniformAccess.Lowering.Error
import UniformAccess.Lowering.Options
/-!
# The import of the observer interface

A unit with properties imports the observer interface, unless it sees it already: by lying in its package, by importing
it or by importing its whole package.
-/
namespace UniformAccess.Lowering

/-- Whether the import shows the observer interface. -/
def isImportOfObserver (o : LoweringOptions) (d : ImportDecl) : Bool :=
  !d.isStatic && d.path == (if d.isAsterisk then o.observerPackage else o.observerPath)

def isInObserverPackage (o : LoweringOptions) : Option NodeId → Edit LowerError Bool
  | none => return false
  | some id => do
    match (← Edit.node id).kind with
    | .package path => return path == o.observerPackage
    | _ => return false

/-- Whether one of the imports shows the observer interface. Those after the first that does are not looked at. -/
def importsObserver (o : LoweringOptions) : List NodeId → Edit LowerError Bool
  | [] => return false
  | id :: rest => do
    match (← Edit.node id).kind with
    | .importDecl d => if isImportOfObserver o d then return true else importsObserver o rest
    | _ => importsObserver o rest

/-- Where a new import goes: on the line after the header if no type begins before the line after that, else on the
header's last line. -/
def importPos (header types : List Node) : Pos :=
  match Pos.latest? (header.filterMap (·.loc.stop?)) with
  | none => ⟨1, 1⟩
  | some stop =>
    if (types.filterMap (·.loc.start?)).all (stop.line + 1 < ·.line) then ⟨stop.line + 1, 1⟩ else stop.right 1

/-- Adds an import of the observer interface if the unit needs one. -/
def addImport (o : LoweringOptions) : Edit LowerError (Option NodeId) := do
  match (← get).unit? with
  | none => Edit.fail .missingUnit
  | some unit =>
    if o.observerPackage.isEmpty then return none
    let inPackage ← isInObserverPackage o unit.package
    let imported ← importsObserver o unit.imports
    if inPackage || imported then return none
    let header ← (unit.package.toList ++ unit.imports).mapM Edit.node
    let types ← unit.types.mapM Edit.node
    let id ← (Draft.importDecl (importPos header types) { path := o.observerPath }).place
    modify (fun t => (t.setKind t.root (.unit { unit with imports := unit.imports ++ [id] })).setParent id t.root)
    return some id

end UniformAccess.Lowering
