/-!
# Options of lowering

How the members of a property are named and laid out, and the unit that declares the interface of their observers.
-/
namespace UniformAccess

structure LoweringOptions where
  /-- The package of the observer interface, empty for the package without a name. -/
  observerPackage : String := "grande"
  observerName : String := "PropertyObserver"
  /-- What the name of a backing field begins with; the name of the property follows. -/
  backingLead : String := "_"
  /-- What the name of an observer field ends in, after the name of the property. -/
  observerTail : String := "Observer"
  /-- The name of a setter's parameter. -/
  paramName : String := "value"
  /-- How many columns further right the statements of a body are than the member. -/
  indent : Nat := 4
deriving DecidableEq, Repr

namespace LoweringOptions

def backingName (o : LoweringOptions) (property : String) : String := o.backingLead ++ property

def observerFieldName (o : LoweringOptions) (property : String) : String := property ++ o.observerTail

/-- The full name of the observer interface. -/
def observerPath (o : LoweringOptions) : String :=
  if o.observerPackage.isEmpty then o.observerName else o.observerPackage ++ "." ++ o.observerName

/-! ## The unit of the observer interface -/

/-- The file name of the unit: a folder for each part of the package. -/
def observerUnitName (o : LoweringOptions) : String :=
  (if o.observerPackage.isEmpty then "" else o.observerPackage.map (fun c => if c = '.' then '/' else c) ++ "/")
    ++ o.observerName ++ ".java"

def observerUnitText (o : LoweringOptions) : String :=
  (if o.observerPackage.isEmpty then "" else "package " ++ o.observerPackage ++ ";\n\n")
    ++ "public interface " ++ o.observerName ++ "<T> \x7b\n"
    ++ String.ofList (List.replicate o.indent ' ') ++ "void changed(T oldValue, T newValue);\n\x7d\n"

end LoweringOptions

end UniformAccess
