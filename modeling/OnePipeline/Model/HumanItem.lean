/-
Human items (`src/human_items.rs`): the records a person is asked through, what each must satisfy to be written or read,
and the one record a journal line carries.

A line is a record here: what `serde` writes it reads back, so decoding one is the checks the reader makes of it.
-/
import Mathlib.Tactic
import OnePipeline.Core.Text
import OnePipeline.Model.Plan
import OnePipeline.Model.Record

namespace OnePipeline.HumanItems

/-! ## Items -/

/-- the store's priority vocabulary -/
inductive Priority where
  | urgent
  | high
  | medium
  | low
  | none
deriving DecidableEq, Repr, Inhabited

inductive HumanItemKind where
  | task
  | question
deriving DecidableEq, Repr, Inhabited

inductive HumanItemState where
  | «open»
  | answered
  | completed
  | dismissed
deriving DecidableEq, Repr, Inhabited

structure HumanItemOwner where
  session : String
  run : Option String
  plan : Option String
deriving DecidableEq, Repr, Inhabited

/-- the scope an open item holds -/
inductive HumanItemBlock where
  | nothing
  | work (run node : String)
  | plan (plan : String)
  | host
deriving DecidableEq, Repr, Inhabited

structure HumanItemResolution where
  actor : String
  onBehalfOf : Option String
  text : Option String
  reason : Option String
deriving DecidableEq, Repr, Inhabited

structure HumanItemApproval where
  boardCopy : String
  key : String
deriving DecidableEq, Repr, Inhabited

structure HumanItemTracker where
  task : String
  url : String
deriving DecidableEq, Repr, Inhabited

/-- what a raise supplies -/
structure HumanItemInput where
  schemaVersion : ℕ := 1
  dedupKey : String
  kind : HumanItemKind
  title : String
  body : String
  priority : Priority
  owner : HumanItemOwner
  block : HumanItemBlock
  approval : Option HumanItemApproval := none
deriving DecidableEq, Repr, Inhabited

structure HumanItem where
  schemaVersion : ℕ := 1
  id : String
  dedupKey : String
  kind : HumanItemKind
  title : String
  body : String
  priority : Priority
  owner : HumanItemOwner
  block : HumanItemBlock
  approval : Option HumanItemApproval := none
  state : HumanItemState := .open
  resolution : Option HumanItemResolution := none
  tracker : Option HumanItemTracker := none
  createdAt : String
  updatedAt : String
deriving DecidableEq, Repr, Inhabited

/-- whether an item holds work now -/
def HumanItem.isBlocking (item : HumanItem) : Bool := item.state = .open && item.block ≠ .nothing

/-! ## What an item may say -/

def HumanItemInput.validate (input : HumanItemInput) : Except String Unit :=
  if input.schemaVersion ≠ 1 then .error "expected schema_version 1"
  else if input.kind = .question ∧ input.approval.isSome then .error "approval is only valid on tasks"
  else if input.priority = .none ∨ Text.isBlank input.title ∨ Text.isBlank input.body then
    .error "human items require title, body and priority"
  else .ok ()

/-- the states, kinds and resolutions that go together -/
def resolvedAs : HumanItemKind → HumanItemState → Option HumanItemResolution → Bool
  | _, .open, none => true
  | .question, .answered, some r => r.text.any (fun text => !Text.isBlank text) && r.reason.isNone
  | .task, .completed, some r => r.text.all (fun text => !Text.isBlank text) && r.reason.isNone
  | _, .dismissed, some r => r.text.isNone
  | _, _, _ => false

def HumanItem.validate (item : HumanItem) : Except String Unit :=
  if item.schemaVersion ≠ 1 then .error "expected schema_version 1"
  else if item.priority = .none ∨ Text.isBlank item.title ∨ Text.isBlank item.body then
    .error "human items require title, body and priority"
  else if resolvedAs item.kind item.state item.resolution = false then .error "state, kind and resolution conflict"
  else if item.kind = .question ∧ item.approval.isSome then .error "approval is only valid on tasks"
  else .ok ()

/-! ## Events -/

inductive HumanItemEventAction where
  | raised
  | answered
  | completed
  | dismissed
  | autoResolved
  | reopened
  | noted
deriving DecidableEq, Repr, Inhabited

def HumanItemEventAction.asStr : HumanItemEventAction → String
  | raised => "human-item-raised"
  | answered => "human-item-answered"
  | completed => "human-item-completed"
  | dismissed => "human-item-dismissed"
  | autoResolved => "human-item-auto-resolved"
  | reopened => "human-item-reopened"
  | noted => "human-item-noted"

/-- who took a reopen or a note -/
structure HumanItemEventBy where
  actor : String
  onBehalfOf : Option String
deriving DecidableEq, Repr, Inhabited

structure HumanItemEventPayload where
  schemaVersion : ℕ := 1
  itemId : String
  owner : HumanItemOwner
  action : HumanItemEventAction
  item : HumanItem
  resolution : Option HumanItemResolution
  «by» : Option HumanItemEventBy
deriving DecidableEq, Repr, Inhabited

/-- the states an event of an action leaves its item in, and whether it says who acted -/
def eventRule : HumanItemEventAction → List HumanItemState × Bool
  | .raised => ([.open], false)
  | .answered => ([.answered], false)
  | .completed => ([.completed], false)
  | .dismissed | .autoResolved => ([.dismissed], false)
  | .reopened => ([.open], true)
  | .noted => ([.completed, .dismissed], true)

def HumanItemEventPayload.validate (payload : HumanItemEventPayload) : Except String Unit := do
  payload.item.validate
  if payload.schemaVersion ≠ 1 ∨ payload.itemId ≠ payload.item.id ∨ payload.owner ≠ payload.item.owner ∨
      payload.resolution ≠ payload.item.resolution then
    throw "event identity, owner, version or resolution differs from its item"
  if payload.item.state ∉ (eventRule payload.action).1 then throw "event action and item state conflict"
  if (eventRule payload.action).2 ≠ payload.by.isSome then
    throw "only a reopen or a note, and each of those, says who acted"

/-! ## The journal's records -/

/-- the one stream every event is written on -/
def eventStream : String := "human-items"

/-- the envelope version this build writes -/
def envelopeVersion : ℕ := 2

/-- one line of the journal -/
structure Envelope where
  v : ℕ
  stream : String
  seq : ℕ
  kind : String
  /-- the run a reader of the bus tells the event by -/
  runId : Option String
  payload : HumanItemEventPayload
deriving DecidableEq, Repr, Inhabited

/-- what a decoder of a payload asks of it before the payload's own rule -/
def HumanItemEventPayload.decode (payload : HumanItemEventPayload) : Except String HumanItemEventPayload := do
  if payload.by.any fun by_ => Text.isBlank by_.actor then throw "must not be blank"
  payload.validate
  pure payload

/-- one record of the journal: its sequence and the event it carries -/
def parseRecord (line : Envelope) : Except String (ℕ × HumanItemEventPayload) := do
  if line.stream ≠ eventStream then throw s!"it is on stream {Text.debug line.stream}"
  if line.v ∉ envelopeVersionsRead then
    throw s!"it is written at envelope version {line.v}, which this build does not read"
  let payload ← line.payload.decode
  if line.kind ≠ payload.action.asStr then
    throw s!"its kind {line.kind} differs from its payload's action {payload.action.asStr}"
  pure (line.seq, payload)

/-! ## The step an item stands for -/

/-- `ledger::is_valid_run_id`: one path segment that names something -/
def isValidRunId (run : String) : Bool :=
  run ≠ "" && run ≠ "." && run ≠ ".." && run.toList.all fun c => c ≠ '/' ∧ c ≠ '\\'

/-- the dedup key of the item a run's human node gets -/
def nodeKey (run node : String) : String := s!"run:{run}#{node}"

/-- the run and node an item stands for, under the engine's own key and bound to them -/
def nodeOf (item : HumanItem) : Option (String × String) := do
  let rest ← Text.stripPrefix "run:".toList item.dedupKey.toList
  let (run, node) ← Text.splitOnce ['#'] rest
  let run := String.ofList run
  let node := String.ofList node
  if item.block = .work run node ∧ isValidRunId run ∧ item.owner.run = some run then some (run, node) else none

/-- the reason the engine's own resolutions go by, and every other actor does not -/
def engineActor : String := "engine"

/-- why an item cannot be reopened; `undoable` says whether its approval's adapter declares an undo -/
def reopenRefusal (item : HumanItem) (undoable : Bool) : Option String :=
  match item.state with
  | .open => some "the item is open, so there is nothing to reopen"
  | .answered => some "an answered question cannot be reopened"
  | .completed | .dismissed =>
    if (nodeOf item).isSome then
      some ("this item stands for a human step: completing it attested the step and dismissing it dropped the step, and " ++
        "neither can be taken back here")
    else if item.resolution.any fun r => r.actor = engineActor then
      some "the engine resolved this item, so no person's resolution can be taken back"
    else if item.state = .completed ∧ item.approval.isSome ∧ undoable = false then
      some "its approval adapter declares no undo, so the recorded approval cannot be taken back"
    else none

end OnePipeline.HumanItems
