/-
The notes a node's current dispatch holds (`src/note.rs`): what the dispatch was composed with, and every note the run
delivered to the node since.
-/
import Mathlib.Tactic
import OnePipeline.Model.Projection

namespace OnePipeline

inductive Placement where
  | composedIntoIt
  | deliveredSince
deriving DecidableEq, Repr

/-- one standing note, where it sits, and the envelope and position it was sent at where the record names them -/
structure Held where
  note : RecordedNote
  placement : Placement
  sent : Option (UInt64 × UInt32)
deriving DecidableEq, Repr

/-- a record of this crate's own that cannot be read as what its kind says it carries -/
structure UnreadableRecord where
  kind : String
  stream : String
  seq : ℕ
  field : String
deriving DecidableEq, Repr

def carriedKey : String := "notes_carried"

/-- the note a committed delivery carried -/
def RecordedNote.ofDelivery : Operation → Option RecordedNote
  | .noteDelivered _ addressee text criterion reached _ _ => some { addressee, text, criterion, reached }
  | _ => none

/-- what an operation makes of the notes standing for a node -/
def standOperation (node : String) (held : List Held) (operation : Operation) : List Held :=
  match operation with
  | .noteDelivered whose _ _ _ _ envelope index =>
    if whose = node then
      match RecordedNote.ofDelivery operation with
      | some note =>
        held ++ [{ note, placement := .deliveredSince, sent := envelope.bind fun e => index.map fun i => (e, i) }]
      | none => held
    else held
  | .noteWithdrawn whose envelope index _ _ _ =>
    if whose = node then held.filter fun h => h.placement ≠ .deliveredSince ∨ h.sent ≠ some (envelope, index) else held
  | _ => held

def standOperations (node : String) (held : List Held) (operations : List Operation) : List Held :=
  operations.foldl (standOperation node) held

/-- what a dispatch composed with a list of notes holds of them -/
def composedHeld (notes : List RecordedNote) : List Held :=
  notes.map fun note => { note, placement := .composedIntoIt, sent := none }

/-- the notes a dispatch's record names it was composed with -/
def composedOf (e : Envelope) (composed : Composed) : Except UnreadableRecord (List RecordedNote) :=
  match composed with
  | .unstated => .ok []
  | .unreadable => .error { kind := "node-dispatched", stream := e.stream, seq := e.seq, field := carriedKey }
  | .notes notes => .ok notes

def operationsOf (e : Envelope) (kind : String) (operations : Option (List Operation)) :
    Except UnreadableRecord (List Operation) :=
  match operations with
  | none => .error { kind, stream := e.stream, seq := e.seq, field := "operations" }
  | some operations => .ok operations

/-- one record onto the notes standing for a node -/
def standOne (node : String) (held : List Held) (e : Envelope) : Except UnreadableRecord (List Held) :=
  match e.body with
  | .nodeDispatched composed =>
    if e.node = some node then do
      let notes ← composedOf e composed
      pure (composedHeld notes)
    else pure held
  | .editCommitted operations => do
    let operations ← operationsOf e "edit-committed" operations
    pure (standOperations node held operations)
  | .commandAccepted operations => do
    let operations ← operationsOf e "command-accepted" operations
    pure (standOperations node held operations)
  | _ => pure held

/-- what stands for a node out of a run's journal, or the record that could not be read -/
def standing (journal : List Envelope) (node : String) : Except UnreadableRecord (List Held) :=
  journal.foldlM (standOne node) []

end OnePipeline
