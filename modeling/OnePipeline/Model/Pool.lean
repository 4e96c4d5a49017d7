/-
What the driver's loop knows of the workspaces its lifecycle nodes wait on (`src/pool.rs`): `begin_pass`, `admit`, `refused`
and `next_read`.

Instants are natural numbers on one clock. What the identity answers about its capacity is given with the ask that reads it.
-/
import Mathlib.Tactic
import OnePipeline.Core.Maps
import OnePipeline.Model.Plan

namespace OnePipeline

/-- an idle slot a request cannot take, and why -/
structure IneligibleSlot where
  number : ℕ
  reason : String
deriving DecidableEq, Repr

/-- an identity's capacity as it was read; `none` is an unlimited overflow -/
structure WorkspaceHold where
  identity : String
  pool : ℕ
  slots : ℕ
  idle : ℕ
  maintaining : ℕ
  overflow : Option ℕ
  overflowInUse : ℕ
deriving DecidableEq, Repr

/-- one reading a node is held on, and the idle slots it names that the node cannot take -/
structure PoolReading where
  hold : WorkspaceHold
  ineligible : List IneligibleSlot
deriving DecidableEq, Repr

/-- what an identity answers about a request: its numbers, whether it would place the session now, and whether one more beside a
number of them -/
structure WorkspaceCapacity extends WorkspaceHold where
  ineligible : List IneligibleSlot
  admitted : Bool
  admits : ℕ → Bool

def PoolReading.ofCapacity (capacity : WorkspaceCapacity) : PoolReading := { hold := capacity.toWorkspaceHold, ineligible := capacity.ineligible }

/-- whether a node's session would be placed now -/
inductive Admission where
  | admitted
  | held
  | unread
deriving DecidableEq, Repr

/-- the pace is never zero -/
structure Workspaces where
  placing : StrMap String := ∅
  held : StrMap WorkspaceHold := ∅
  unusable : StrMap (List IneligibleSlot) := ∅
  refused : StrMap (ℕ × PoolReading) := ∅
  readAt : Option ℕ := none
  every : ℕ
  paced : 0 < every

/-- a node asked for: when, what its identity answers to a read, and when it answers -/
structure Ask where
  node : String
  at' : ℕ
  capacity : Except String WorkspaceCapacity
  answered : ℕ

/-- a refusal of a node's open, and the reading taken after it where one could be -/
structure OpenRefusal where
  node : String
  at' : ℕ
  reading : Option PoolReading

namespace Workspaces

def beginPass (w : Workspaces) (inFlight : String → Bool) : Workspaces :=
  { w with held := ∅, unusable := ∅, placing := w.placing.filter fun node _ => inFlight node }

/-- a node held this pass on a reading -/
def hold (w : Workspaces) (node : String) (reading : PoolReading) : Workspaces :=
  { w with
    held := w.held.insert node reading.hold
    unusable := if reading.ineligible.isEmpty then w.unusable.erase node else w.unusable.insert node reading.ineligible }

/-- the refusal that stands until the paced read -/
def standing (w : Workspaces) (node : String) (now : ℕ) : Option PoolReading :=
  match w.refused[node]? with
  | some (since, reading) => if now - since < w.every then some reading else none
  | none => none

/-- the dispatches placed on an identity and not yet seen to open -/
def already (w : Workspaces) (identity : String) : ℕ := (w.placing.toList.filter fun p => p.2 = identity).length

def admitNode (w : Workspaces) (ask : Ask) : Workspaces × Admission :=
  match w.standing ask.node ask.at' with
  | some reading => (w.hold ask.node reading, .held)
  | none =>
    let w := { w with refused := w.refused.erase ask.node }
    match ask.capacity with
    -- its own open decides
    | .error _ => (w, .unread)
    | .ok capacity =>
      let w := { w with readAt := some ask.answered }
      let already := w.already capacity.identity
      if capacity.admitted && (already == 0 || capacity.admits already) then
        ({ w with placing := w.placing.insert ask.node capacity.identity }, .admitted)
      else (w.hold ask.node (.ofCapacity capacity), .held)

/-- a node's open refused: held on the reading taken after it -/
def refuse (w : Workspaces) (refusal : OpenRefusal) : Workspaces :=
  match refusal.reading with
  | some reading => { w with refused := w.refused.insert refusal.node (refusal.at', reading) }
  | none => w

/-- how long the loop may wait for a paced read; `none` where no bound is set -/
def nextRead (w : Workspaces) (now : ℕ) : Option ℕ :=
  if w.held.isEmpty && w.refused.isEmpty then none
  else
    let until' (since : ℕ) : ℕ := w.every - (now - since)
    let refusals := w.refused.values.map fun p => until' p.1
    let reads := (w.readAt.map until').toList
    some ((refusals ++ reads).min?.getD 0)

/-! ## Passes -/

/-- the nodes a pass asks for, in order -/
def asked (w : Workspaces) (asks : List Ask) : Workspaces := asks.foldl (fun w ask => (w.admitNode ask).1) w

/-- a pass of the loop: what is in flight at its start, the nodes it asks for, whether it changed anything, when it ended, and
the refusals that arrive before the next -/
structure Turn where
  inFlight : String → Bool
  asks : List Ask
  changed : Bool
  ended : ℕ
  refusals : List OpenRefusal

/-- the state a pass ends in -/
def passed (w : Workspaces) (turn : Turn) : Workspaces := (w.beginPass turn.inFlight).asked turn.asks

/-- the state the pass after it begins in -/
def turned (w : Workspaces) (turn : Turn) : Workspaces := turn.refusals.foldl refuse (w.passed turn)

/-- the state before the pass after a run of them -/
def ran (w : Workspaces) (turns : List Turn) : Workspaces := turns.foldl turned w

end Workspaces

end OnePipeline
