import UniformAccess.Lowering.Lower
import UniformAccess.Printing.Print
import UniformAccess.Resolution
/-!
# Pipelines

A pipeline takes units, lowers each of them, and keeps the accesses in it for resolution. A unit that cannot be lowered
is put aside with the reason.
-/
namespace UniformAccess

/-- A named text for the compiler. -/
structure Source where
  name : String
  text : String
deriving DecidableEq, Repr

/-- The text under a line with its name. -/
def Source.display (s : Source) : String := "// " ++ s.name ++ "\n" ++ s.text

/-- A complaint of the compiler about a position of a source. -/
structure Diagnostic where
  unit : String
  pos : Pos
  message : String
deriving DecidableEq, Repr

def Diagnostic.display (d : Diagnostic) : String :=
  d.unit ++ ":" ++ toString d.pos.line ++ ":" ++ toString d.pos.col ++ ": " ++ d.message

/-- A compiler answers sources with its complaints, or fails. It may remember earlier calls in a state of its own. -/
abbrev Compiler (σ ε : Type) := List Source → StateM σ (Except ε (List Diagnostic))

structure PipelineOptions where
  lowering : LoweringOptions := {}
  /-- How many rounds of complaints are resolved at most. -/
  maxRounds : Nat := 16
  /-- Whether the compiler is given the unit of the observer interface. -/
  emitObserver : Bool := true
deriving DecidableEq, Repr

/-- A unit that was lowered. -/
structure PipelineUnit where
  name : String
  tracked : Tracked
  /-- The accesses that are not handed to the resolver yet. -/
  accesses : List NodeId := []
deriving DecidableEq, Repr

def PipelineUnit.tree (u : PipelineUnit) : Tree := u.tracked.tree

structure Pipeline where
  options : PipelineOptions := {}
  units : List PipelineUnit := []
  /-- The units that could not be lowered. -/
  failed : List (String × LowerError) := []
  /-- The names of all properties lowered so far, in order and each once. -/
  properties : List String := []
deriving DecidableEq, Repr

/-- A sorted list of names with one more name in it. -/
def insertName (name : String) : List String → List String
  | [] => [name]
  | n :: rest =>
    if name = n then n :: rest else if name < n then name :: n :: rest else n :: insertName name rest

namespace Pipeline

/-- Lowers a tree and adds it as a unit. The error is a node that lowering looked for in vain. -/
def addUnit (p : Pipeline) (name : String) (t : Tree) : Except NodeId Pipeline :=
  match lower p.options.lowering t with
  | .ok lowered tree =>
    .ok
      { p with
        units := p.units ++ [{ name, tracked := { tree }, accesses := lowered.accesses }]
        properties := lowered.properties.foldl (fun names n => insertName n names) p.properties }
  | .error (.failed e) _ => .ok { p with failed := p.failed ++ [(name, e)] }
  | .error (.absent id) _ => .error id

def unit? (p : Pipeline) (name : String) : Option PipelineUnit := p.units.find? (·.name == name)

/-- The unit of the observer interface, if the compiler is to see it. -/
def observerSource (p : Pipeline) : List Source :=
  if p.options.emitObserver && !p.properties.isEmpty then
    [⟨p.options.lowering.observerUnitName, p.options.lowering.observerUnitText⟩]
  else []

/-- What the compiler sees. -/
def sources (p : Pipeline) : List Source := p.units.map (fun u => ⟨u.name, u.tree.print.text⟩) ++ p.observerSource

/-- Where the nodes of each unit stand in its source. -/
def layouts (p : Pipeline) : List Layout := p.units.map (·.tree.print.layout)

/-- Hands the accesses of each unit to its resolver. Only now are the properties of all units known. -/
def track (p : Pipeline) : Pipeline :=
  { p with
    units := p.units.map (fun u =>
      if u.accesses.isEmpty then u
      else
        { u with
          tracked := { u.tracked with resolver := .ofAccesses u.tree u.accesses p.properties }
          accesses := [] }) }

end Pipeline

end UniformAccess
