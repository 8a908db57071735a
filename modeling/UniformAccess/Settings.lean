import UniformAccess.Pipeline.Basic
/-!
# Settings as data

Options are read from plain data. A record of options is given by its fields, each of which may be left out, or as the
list of its fields in order, which may stop early. Fields that are not known are passed over; a value of the wrong type
makes the whole unreadable.
-/
namespace UniformAccess

/-- Plain data. A number is either whole or not; which one that is not whole does not matter. -/
inductive Data where
  | null
  | bool (value : Bool)
  | whole (value : Int)
  | fraction
  | text (value : String)
  | list (items : List Data)
  | record (fields : List (String × Data))
deriving Inhabited

namespace Data

def text? : Data → Option String
  | text s => some s
  | _ => none

def bool? : Data → Option Bool
  | bool b => some b
  | _ => none

/-- A whole number from zero up to `bound`, without it. -/
def nat? (bound : Nat) : Data → Option Nat
  | whole n => if 0 ≤ n ∧ n < bound then some n.toNat else none
  | _ => none

/-- The values of named fields, in the order of the names; nothing for a field that is left out. A list gives the fields
in order and must not have more. -/
def fields? (names : List String) : Data → Option (List (Option Data))
  | record fields => some (names.map (fun name => fields.lookup name))
  | list items =>
    if items.length ≤ names.length then
      some (items.map some ++ List.replicate (names.length - items.length) none)
    else none
  | _ => none

/-- A field's value as read, or the usual value if it is left out. -/
def orElse {α : Type} (usual : α) (read : Data → Option α) : Option Data → Option α
  | none => some usual
  | some d => read d

end Data

/-- Reads the options of lowering. -/
def LoweringOptions.ofData? (d : Data) : Option LoweringOptions := do
  let usual : LoweringOptions := {}
  let names := ["observer_package", "observer_name", "field_prefix", "observer_suffix", "param_name", "indent"]
  match ← d.fields? names with
  | [package, name, lead, tail, param, indent] =>
    return {
      observerPackage := ← Data.orElse usual.observerPackage Data.text? package
      observerName := ← Data.orElse usual.observerName Data.text? name
      backingLead := ← Data.orElse usual.backingLead Data.text? lead
      observerTail := ← Data.orElse usual.observerTail Data.text? tail
      paramName := ← Data.orElse usual.paramName Data.text? param
      indent := ← Data.orElse usual.indent (Data.nat? (Nat.pow 2 32)) indent }
  | _ => none

/-- Reads the options of a pipeline. -/
def PipelineOptions.ofData? (d : Data) : Option PipelineOptions := do
  let usual : PipelineOptions := {}
  match ← d.fields? ["lower", "max_rounds", "emit_observer"] with
  | [lowering, maxRounds, emitObserver] =>
    return {
      lowering := ← Data.orElse usual.lowering LoweringOptions.ofData? lowering
      maxRounds := ← Data.orElse usual.maxRounds (Data.nat? (Nat.pow 2 64)) maxRounds
      emitObserver := ← Data.orElse usual.emitObserver Data.bool? emitObserver }
  | _ => none

end UniformAccess
