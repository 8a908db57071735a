import UniformAccess.Pipeline.Basic
/-!
# Running a pipeline

A round gives the sources of all units to the compiler and resolves its complaints, each against the text that the
compiler saw. Rounds follow until the compiler is content, a round resolves nothing, or there have been too many.
-/
namespace UniformAccess

/-- What a run came to. -/
structure Outcome where
  /-- The sources of the last round. -/
  sources : List Source
  /-- The complaints of the last round. -/
  unresolved : List Diagnostic
  /-- The units that were left out. -/
  failed : List (String × LowerError)
  /-- How often the compiler was called. -/
  rounds : Nat
deriving DecidableEq, Repr

inductive RunError (ε : Type) where
  | compile (error : ε)
  | resolve (error : ResolveError)
deriving DecidableEq, Repr

/-- The pipeline and the state of the compiler. -/
structure RunState (σ : Type) where
  pipeline : Pipeline
  compiler : σ

abbrev Run (σ ε : Type) := EStateM (Stop (RunError ε)) (RunState σ)

namespace Run

variable {σ ε : Type}

def compile (compiler : Compiler σ ε) (sources : List Source) : Run σ ε (List Diagnostic) := fun s =>
  match compiler sources s.compiler with
  | (.ok diagnostics, state) => .ok diagnostics { s with compiler := state }
  | (.error e, state) => .error (.failed (.compile e)) { s with compiler := state }

/-- Resolves a complaint in unit number `i`, whose text was laid out as given. -/
def resolveIn (i : Nat) (layout : Option Layout) (p : Pos) : Run σ ε Bool := fun s =>
  match s.pipeline.units[i]? with
  | none => .ok false s
  | some u =>
    let store (tracked : Tracked) : RunState σ :=
      { s with pipeline := { s.pipeline with units := s.pipeline.units.set i { u with tracked } } }
    match Resolution.resolve layout p u.tracked with
    | .ok resolved tracked => .ok resolved (store tracked)
    | .error (.failed e) tracked => .error (.failed (.resolve e)) (store tracked)
    | .error (.absent id) tracked => .error (.absent id) (store tracked)

/-- Resolves a complaint in the first unit of the name it gives. -/
def resolve (layouts : List Layout) (d : Diagnostic) : Run σ ε Bool := do
  match (← get).pipeline.units.findIdx? (·.name == d.unit) with
  | some i => resolveIn i layouts[i]? d.pos
  | none => return false

/-- Resolves complaints in turn, and gives those that nothing was done about. -/
def resolveAll (layouts : List Layout) : List Diagnostic → Run σ ε (List Diagnostic)
  | [] => return []
  | d :: rest => do
    let resolved ← resolve layouts d
    let unresolved ← resolveAll layouts rest
    return if resolved then unresolved else d :: unresolved

/-- Runs round number `round` and those after it; `left` more rounds may be resolved. -/
def rounds (compiler : Compiler σ ε) (round : Nat) : (left : Nat) → Run σ ε Outcome
  | 0 => do
    let p := (← get).pipeline
    let diagnostics ← compile compiler p.sources
    return ⟨p.sources, diagnostics, p.failed, round⟩
  | left + 1 => do
    let p := (← get).pipeline
    let diagnostics ← compile compiler p.sources
    if diagnostics.isEmpty then return ⟨p.sources, [], p.failed, round⟩
    let unresolved ← resolveAll p.layouts diagnostics
    if unresolved.length = diagnostics.length then return ⟨p.sources, unresolved, p.failed, round⟩
    rounds compiler (round + 1) left

end Run

/-- Runs a pipeline with a compiler to the end. -/
def Pipeline.run {σ ε : Type} (compiler : Compiler σ ε) : Run σ ε Outcome := do
  modify (fun s => { s with pipeline := s.pipeline.track })
  Run.rounds compiler 1 (← get).pipeline.options.maxRounds

end UniformAccess
