/-
The planner's channel and what answers the decisions standing on it (`src/channel.rs`, `src/findings.rs`,
`src/discharge.rs`): surfaces queued, read and answered, the edit each finding asked for, and the answers a committed edit
appends for the findings it satisfies and for the nodes it takes out of the graph.

The queue is the bus's: a surface keeps the id it was queued under, a read hands one over and holds a blocking one in the
pending slot, and an answer bound to a question leaves a slot holding another. The digest of a finding's key and what spells
a correlation are the linked libraries', `Spelling`.
-/
import Mathlib.Tactic
import OnePipeline.Core.Maps
import OnePipeline.Model.Replay

namespace OnePipeline.Discharge

abbrev Correlation : Type := String

/-! ## What is queued -/

structure Surface where
  id : ℕ := 0
  kind : String
  workstream : Option String
  blocking : Bool
  abandoned : Bool := false
  correlation : Option Correlation
deriving DecidableEq, Repr

namespace Surface

def checkIn : String := "check-in"

def finding : String := "finding"

end Surface

/-- a reply's verdict half; who wrote the ones recorded here is the planner -/
structure Reply where
  completion : Option Bool := none
  message : Option String := none
  reason : Option String := none
deriving DecidableEq, Repr

def Reply.carriesVerdict (reply : Reply) : Bool := reply.completion.isSome || reply.message.isSome || reply.reason.isSome

/-- how an answer came onto the reply log, which its record does not carry -/
inductive Came where
  /-- bound to a question still outstanding -/
  | bound
  /-- beside the edit that answered its question -/
  | beside
deriving DecidableEq, Repr

structure QueuedReply where
  reply : Reply
  correlation : Correlation
  came : Came
deriving DecidableEq, Repr

/-- the edit a finding asks for: the op's word, and the node -/
structure RequestedEdit where
  op : String
  node : String
deriving DecidableEq, Repr

/-- a run's channel, what its findings asked for, and its graph -/
structure Desk where
  graph : Graph
  /-- every surface the log has queued, as it was queued -/
  queued : List Surface := []
  waiting : List Surface := []
  pending : Option Surface := none
  replies : List QueuedReply := []
  requests : StrMap RequestedEdit := ∅

namespace Desk

/-- what is waiting to be read, and what was read and is held -/
def standing (d : Desk) : List Surface := d.waiting ++ d.pending.toList

/-- the questions a reply on the log answers -/
def answered (d : Desk) : List Correlation := d.replies.map QueuedReply.correlation

def nextId (d : Desk) : ℕ := (d.queued.map Surface.id).foldr max 0 + 1

/-- a surface queued; a check-in supersedes the one waiting -/
def push (d : Desk) (surface : Surface) : Desk :=
  let surface := { surface with id := d.nextId, abandoned := false }
  let waiting :=
    if surface.kind = Surface.checkIn then d.waiting.filter fun w => w.kind ≠ Surface.checkIn else d.waiting
  { d with queued := d.queued ++ [surface], waiting := waiting ++ [surface] }

/-- the next surface read: a blocking one first, and an abandoned one last -/
def next (d : Desk) : Option Surface :=
  ((d.waiting.find? fun w => w.blocking && !w.abandoned).or (d.waiting.find? fun w => !w.abandoned)).or d.waiting.head?

/-- the slot after a surface is read: an abandoned one takes it only where nothing else holds it -/
def held (d : Desk) (surface : Surface) : Option Surface :=
  if !surface.blocking then d.pending
  else if surface.abandoned then d.pending.or (some surface)
  else some surface

def claim (d : Desk) : Desk :=
  match d.next with
  | none => d
  | some surface => { d with waiting := d.waiting.filter fun w => w.id ≠ surface.id, pending := d.held surface }

def marked (ids : List ℕ) (surface : Surface) : Surface :=
  if surface.id ∈ ids then { surface with abandoned := true } else surface

/-- marked where it is -/
def abandon (d : Desk) (ids : List ℕ) : Desk :=
  { d with waiting := d.waiting.map (marked ids), pending := d.pending.map (marked ids) }

/-- whether a correlation names a question raised and not answered -/
def outstanding (d : Desk) (correlation : Correlation) : Bool :=
  (d.queued.any fun s => s.correlation = some correlation) && correlation ∉ d.answered

/-- a reply bound to the question it names, which is refused with nothing appended where that is not outstanding -/
def answerBound (d : Desk) (reply : Reply) (correlation : Correlation) : Desk :=
  if d.outstanding correlation then
    { d with
      replies := d.replies ++ [{ reply, correlation, came := .bound }]
      pending := d.pending.filter fun s => s.correlation ≠ some correlation }
  else d

/-- a verdict appended beside the edit that answered its question, which releases the slot -/
def answerAlongside (d : Desk) (reply : Reply) (correlation : Correlation) : Desk :=
  { d with replies := d.replies ++ [{ reply, correlation, came := .beside }], pending := none }

/-- the surface first queued under a correlation, answered or not -/
def raisedUnder (d : Desk) (correlation : Correlation) : Option Surface :=
  d.queued.find? fun s => s.correlation = some correlation

/-- whether a surface is one somebody still waits on the answer of -/
def isDecision (d : Desk) (s : Surface) : Bool :=
  s.blocking && !s.abandoned && !(s.correlation.any fun c => c ∈ d.answered)

/-- whether a blocking surface is outstanding, read or not (`views::blocking_surface`) -/
def blockingSurface (d : Desk) : Bool := d.standing.any d.isDecision

end Desk

/-! ## Findings -/

/-- the library's part of a finding's key: a digest, in hexadecimal, and what parses as a correlation -/
structure Spelling where
  digest : String → String → String
  parses : String → Bool

inductive FindingKind where
  | sessionConflict
deriving DecidableEq, Repr

namespace FindingKind

def word : FindingKind → String
  | sessionConflict => "session-conflict"

def asksFor : FindingKind → String
  | sessionConflict => "retry"

end FindingKind

def readable : ℕ := 40

def digestBytes : ℕ := 12

def isReadable (c : Char) : Bool := c.isAlphanum || c = '.' || c = '_' || c = '-'

section Findings

variable (sp : Spelling)

/-- the key of a finding: its kind and its node, and nothing of the attempt -/
def correlationOf (kind : FindingKind) (node : String) : Option Correlation :=
  let digest := String.ofList ((sp.digest kind.word node).toList.take (2 * digestBytes))
  let shown := String.ofList ((node.toList.map fun c => if isReadable c then c else '-').take readable)
  let key := s!"finding.{kind.word}.{shown}.{digest}"
  if sp.parses key then some key else none

def sessionConflictSurface (node : String) : Surface :=
  { kind := Surface.finding, workstream := some node, blocking := true
    correlation := correlationOf sp .sessionConflict node }

/-- the edit a finding asks for, recorded under its key -/
def Desk.recordRequest (d : Desk) (kind : FindingKind) (node : String) : Desk :=
  match correlationOf sp kind node with
  | some key => { d with requests := d.requests.insert key { op := kind.asksFor, node } }
  | none => d

/-- a node's conflict raised, once what it asks for is recorded -/
def Desk.conflict (d : Desk) (node : String) : Desk :=
  (d.recordRequest sp .sessionConflict node).push (sessionConflictSurface sp node)

end Findings

def satisfies (request : RequestedEdit) : Operation → Bool
  | .retryRequested node _ _ => request.op = "retry" ∧ request.node = node
  | _ => false

def answerOf (request : RequestedEdit) : Reply :=
  { message := some s!"answered by the edit it asked for: a `{request.op}` of '{request.node}' was committed." }

/-- every finding whose requested edit was committed, and which was not answered -/
def answerRequested (d : Desk) (operations : List Operation) : Desk :=
  let answered := d.answered
  d.requests.toList.foldl (fun d p =>
    if p.1 ∈ answered then d
    else if operations.any (satisfies p.2) then d.answerBound (answerOf p.2) p.1
    else d) d

/-! ## Removals -/

inductive Removal where
  | superseded (replacement : String)
  | reworked (replacement : String)
  | dropped
deriving DecidableEq, Repr

def supersededBy : Operation → Option (String × Removal)
  | .retryRequested node replacement _ => some (node, .superseded replacement)
  | .reworkRequested node replacement _ _ _ _ => some (node, .reworked replacement)
  | _ => none

def droppedBy : Operation → Option String
  | .nodeDropped node _ => some node
  | _ => none

/-- every node operations took out of the graph, and by which edit -/
def removedBy (operations : List Operation) : StrMap Removal :=
  let superseded : StrMap Removal := Maps.insertAll ∅ (operations.filterMap supersededBy)
  Maps.insertAll ∅ ((operations.filterMap droppedBy).map fun node => (node, (superseded[node]?).getD .dropped))

def Removal.edit (node : String) : Removal → String
  | superseded replacement => s!"a committed `retry` of '{node}' superseded it with '{replacement}'"
  | reworked replacement => s!"a committed `rework` of '{node}' superseded it with '{replacement}'"
  | dropped => s!"a committed `drop` removed '{node}' from the graph"

def Removal.answer (node : String) (removal : Removal) : Reply :=
  { message := some s!"discharged: the node this decision is about, '{node}', has left the graph."
    reason := some (removal.edit node) }

/-- one standing surface: one under a correlation is answered, unless it is answered already; one under none is to be marked -/
def discharge (removed : StrMap Removal) (acc : Desk × List ℕ) (surface : Surface) : Desk × List ℕ :=
  if !surface.blocking || surface.abandoned then acc
  else
    match surface.workstream.bind fun node => removed[node]?.map fun edit => (node, edit) with
    | none => acc
    | some (node, edit) =>
      match surface.correlation with
      | some correlation =>
        if correlation ∈ acc.1.answered then acc else (acc.1.answerBound (edit.answer node) correlation, acc.2)
      | none => (acc.1, acc.2 ++ [surface.id])

/-- every decision standing about a node operations took out of the graph -/
def answerRemoved (d : Desk) (operations : List Operation) : Desk :=
  let acc := d.standing.foldl (discharge (removedBy operations)) (d, [])
  acc.1.abandon acc.2

/-! ## Commits and replies -/

/-- the surface a `finding` raises, under no correlation -/
def raiseFact (d : Desk) : Operation → Desk
  | .findingRaised node _ blocking => d.push { kind := Surface.finding, workstream := node, blocking, correlation := none }
  | _ => d

/-- a command committed: the graph, the surfaces its operations raise, and what they answer -/
def commit (serde : NodeSerde) (d : Desk) (operations : List Operation) : Desk :=
  let d := { d with graph := operations.foldl (apply serde) d.graph }
  answerRemoved (answerRequested (operations.foldl raiseFact d) operations) operations

def targetOf : Command → Option String
  | .setNodeSets id _ => some id
  | .setRunNodeSets _ => none
  | .add node => some node.id
  | .drop id _ _ => some id
  | .reparent id _ => some id
  | .retry id _ => some id
  | .cancel id _ => some id
  | .requeue id _ => some id
  | .note id _ _ _ _ _ _ => some id
  | .settle id _ _ _ _ => some id
  | .amend id _ => some id
  | .rework id _ _ _ _ _ => some id
  | .retitle id _ _ => some id
  | .decline id _ _ => some id
  | .attest reference => some reference
  | .finding _ _ id => id
  | .withdrawNote _ _ _ => none
  | .review => none
  | .readjust => none
  | .complete _ => none

/-- whether commands carry the edit a finding asked for, and the finding is answered -/
def requestAlongside (d : Desk) (correlation : Correlation) (commands : List Command) : Bool :=
  match d.requests[correlation]? with
  | none => false
  | some request =>
    (commands.any fun command => opOf command = request.op && targetOf command = some request.node) &&
      correlation ∈ d.answered

/-- the answer a command appends for a decision about the node it removes -/
def producedBy (node : String) : Command → Option Reply
  | .retry id replacement => if id = node then some ((Removal.superseded replacement.id).answer node) else none
  | .drop id _ _ => if id = node then some (Removal.dropped.answer node) else none
  | _ => none

/-- whether a question's one answer is the removal these commands carry -/
def removalAlongside (d : Desk) (correlation : Correlation) (commands : List Command) : Bool :=
  match (d.raisedUnder correlation).bind Surface.workstream with
  | none => false
  | some node =>
    match (d.replies.filter fun queued => queued.correlation = correlation).map QueuedReply.reply with
    | [only] => only ∈ commands.filterMap (producedBy node)
    | _ => false

/-- the verdict half of an envelope naming a question, its commands committed before it -/
def deliverVerdictHalf (d : Desk) (named : Correlation) (reply : Reply) (commands : List Command) : Desk :=
  if !reply.carriesVerdict then d
  else if requestAlongside d named commands || removalAlongside d named commands then d.answerAlongside reply named
  else d.answerBound reply named

/-! ## Runs -/

inductive Event where
  /-- a surface raised under no correlation, or under a caller's own -/
  | raise (surface : Surface)
  /-- a reconciler finding -/
  | conflict (node : String)
  | read
  | reply (named : Correlation) (reply : Reply) (commands : List Command)
  | commit (operations : List Operation)

variable (sp : Spelling) (serde : NodeSerde)

def step (d : Desk) : Event → Desk
  | .raise surface => d.push surface
  | .conflict node => d.conflict sp node
  | .read => d.claim
  | .reply named reply commands => deliverVerdictHalf d named reply commands
  | .commit operations => commit serde d operations

end OnePipeline.Discharge
