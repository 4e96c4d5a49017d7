/-
A lifecycle node's attempts (`src/lifecycle.rs`: `execute`, `execute_placed`, `Continuation`, `Placed`, `Conflicted`, `OnRemote`,
`continued`, `diagnosis`, `republished`, `stopped_retrying`), and the requeue of one its identity admitted no session for
(`src/engine.rs`: `WorkspaceExhausted`, and the resume in `start_ready`).

What one attempt does, its sessions, its dispatches and its publication, is its ending and what it learnt, both the step's own. So is
whether the run is being cancelled, and what the run's record says of the node's notes. The counters are a budget's, and pass none.
-/
import Mathlib.Tactic
import OnePipeline.Core.Text
import OnePipeline.Model.Placement

namespace OnePipeline.Attempts

/-! ## What a publication that failed leaves -/

/-- a failure whose fix is more work on the same branch -/
inductive Preserving where
  | checksFailed
  | checksUnsettled
  | pushRejected
  | syncConflict
deriving DecidableEq, Repr

/-- the word the node settles on -/
def Preserving.outcome : Preserving → String
  | .checksFailed => "checks-failed"
  | .checksUnsettled => "checks-unsettled"
  | .pushRejected => "push-rejected"
  | .syncConflict => "sync-conflict"

/-- where a session left its branch -/
inductive SessionTip where
  | «at» (commit : String)
  | unmoved
  | unknown
deriving DecidableEq, Repr

structure Evidence where
  kind : String
  id : String
deriving DecidableEq, Repr

structure Preserved where
  branch : String
  outcome : Preserving
  reason : String
  evidence : List Evidence := []
  bodyAside : Option String := none
  tip : SessionTip
  /-- the paths of the merge its dispatch was handed to conclude -/
  handed : Option (List String) := none
  /-- what its publication says of a change left armed -/
  armed : Option String := none
  /-- the latest earlier attempt's armed sentence, numbered, where it armed nothing itself -/
  armedBefore : Option String := none
deriving DecidableEq, Repr

/-- the dispatches of a node handed its branch's conflict with its base -/
structure Conflicted where
  dispatches : ℕ := 0
  last : Option (List String) := none
deriving DecidableEq, Repr

def Conflicted.read (conflicted : Conflicted) (preserved : Preserved) : Conflicted :=
  match preserved.handed with
  | some conflict => { dispatches := conflicted.dispatches + 1, last := some conflict }
  | none => conflicted

/-- the decision put to the supervisor -/
structure SessionConflict where
  node : String
  dispatched : ℕ
  branch : String
  paths : List String
  because : String
deriving DecidableEq, Repr

def Conflicted.unconverged (conflicted : Conflicted) (node : Node) (preserved : Preserved) : Option SessionConflict :=
  if preserved.outcome ≠ .syncConflict then none
  else do
    let paths ← conflicted.last
    let node ← NodeRef.of node
    some { node := node.asStr, dispatched := conflicted.dispatches, branch := preserved.branch, paths, because := preserved.reason }

/-- where a preserved branch stands on its remote -/
inductive OnRemote where
  | «at» (commit : String)
  | unknown
  | never
deriving DecidableEq, Repr

def OnRemote.after (onRemote : OnRemote) (outcome : Preserving) (published : Option String) : OnRemote :=
  match outcome with
  | .checksFailed | .checksUnsettled =>
    match published with
    | some commit => .at commit
    | none => .unknown
  | .pushRejected | .syncConflict => onRemote

/-- the commit an attempt published again -/
def republished (published : Option String) (tip : SessionTip) : Option String :=
  published.bind fun published =>
    match tip with
    | .at commit => if commit = published then some published else none
    | .unmoved => some published
    | .unknown => none

/-- where the branch stands once an attempt left it -/
def standing (published : Option String) : SessionTip → Option String
  | .at commit => some commit
  | .unmoved => published
  | .unknown => none

/-! ## Settlements -/

structure Settlement where
  node : String
  status : NodeStatus
  outcome : Option String := none
  detail : Option String := none
  branch : Option String := none
  changeUrl : Option String := none
  head : Option String := none
  base : Option String := none
  stack : Option SettledStack := none
  /-- on a restack's settlement, whether an agent was dispatched -/
  restacked : Option Bool := none
deriving DecidableEq, Repr

def compose (detail : String) (bodyAside : Option String) : String :=
  match bodyAside with
  | some why => s!"{detail}. {why}"
  | none => detail

def reasonWithArm (preserved : Preserved) : String :=
  match preserved.armedBefore with
  | some before => s!"{preserved.reason}. {before}"
  | none => preserved.reason

def plural (n : ℕ) : String := if n = 1 then "" else "s"

def infrastructureFailure : String := "infrastructure-failure"

/-- `Failure::RESIDUAL` -/
def residual : String := "publication-failed"

/-- the settlement of a node that will not be dispatched again -/
def stoppedRetrying (node : String) (preserved : Preserved) (endings : List Preserving) : Settlement :=
  let each := ", ".intercalate (endings.zipIdx.map fun p => s!"{p.2 + 1} {p.1.outcome}")
  let rollUp := s!"{endings.length} publication attempt{plural endings.length} on {preserved.branch}: {each}"
  { node, status := .failed, outcome := some preserved.outcome.outcome, branch := some preserved.branch,
    detail := some (compose s!"onevcs: {reasonWithArm preserved}. {rollUp}" preserved.bodyAside) }

/-- the settlement of a node whose attempt left the branch where the one before it did -/
def republishedTheSameCommit (budget : ℕ) (node : String) (preserved : Preserved) (endings : List Preserving) (head : String)
    (attempt : ℕ) : Settlement :=
  let unspent := budget - (attempt - 1)
  let each := ", ".intercalate (endings.map Preserving.outcome)
  let rollUp := s!"{endings.length} publication attempt{plural endings.length} on {preserved.branch} published the same commit, {head}, " ++
    s!"and ended {each}: the refusal is not about the branch, so no further attempt on " ++
    s!"it could answer differently. {unspent} of {budget} publication attempts are unspent"
  { node, status := .failed, outcome := some residual, branch := some preserved.branch, head := some head,
    detail := some (compose s!"onevcs: {reasonWithArm preserved}. {rollUp}" preserved.bodyAside) }

/-- the settlement of a node whose re-dispatch could not be composed -/
def notDispatchedAgain (node : String) (preserved : Preserved) (why : String) : Settlement :=
  { node, status := .failed, outcome := some infrastructureFailure, branch := some preserved.branch,
    detail := some (s!"the node was not dispatched again: {why}. The branch {preserved.branch} still carries the " ++
      "work; re-issue any note the earlier attempt was given and `retry` the node") }

/-! ## The node the next attempt is dispatched as -/

/-- what the next attempt is told of where the branch stands on its remote, and what its repair goes on top of -/
def OnRemote.told : OnRemote → String × String
  | .at commit => (s!"This branch is published on its remote at `{commit}`.", s!"`{commit}`")
  | .unknown =>
    ("This branch was published to its remote, but the commit it stands at there is not known.", "whatever commit the remote holds")
  | .never =>
    ("No attempt so far is known to have published this branch to its remote, so no commit of it is known to be there.",
      "whatever commit of it the remote may already hold")

def diagnosis (preserved : Preserved) (onRemote : OnRemote) (attempt attempts : ℕ) (endings : List Preserving) : String :=
  let each := ", ".intercalate (endings.map Preserving.outcome)
  s!"The previous attempt's publication failed and its branch was preserved. This is attempt {attempt} of {attempts}, and it " ++
    s!"continues that same branch — {preserved.branch} — so the tree that was rejected is the tree this dispatch starts from. " ++
    "Change what the failure below is about; republishing it unaltered meets the same refusal.\n\n" ++
    s!"The publication ended `{preserved.outcome.outcome}`, and `onevcs` said:\n\n{preserved.reason}\n" ++
    (if 1 < endings.length then s!"\nEvery attempt so far ended: {each}.\n" else "") ++
    s!"\n{onRemote.told.1} The repair goes on as new commits on top of {onRemote.told.2} — never as an " ++
    "amend, a rebase, a squash or a force-push of commits already on the remote, which " ++
    "the publishing push refuses as non-fast-forward.\n" ++
    if preserved.evidence.isEmpty then ""
    else
      "\nThe publication recorded this evidence, each fetched with `onevcs artifact cat ID`:\n" ++
        String.join (preserved.evidence.map fun evidence => s!"- {evidence.kind} — {evidence.id}\n")

/-- the launched node, pinned to the preserved branch, with no step skipped, and the diagnosis under its own note -/
def continued (launched : Node) (preserved : Preserved) (onRemote : OnRemote) (attempt attempts : ℕ) (endings : List Preserving) : Node :=
  let diagnosis := diagnosis preserved onRemote attempt attempts endings
  let context :=
    match launched.context.map Text.trim with
    | some note => if note = "" then diagnosis else s!"{note}\n\n{diagnosis}"
    | none => diagnosis
  { launched with branch := some preserved.branch, resume := none, context := some context }

/-! ## The loop -/

/-- an attempt made again, as the record names it -/
structure Redispatch where
  node : String
  attempt : ℕ
  attempts : ℕ
  reason : String
  carried : List RecordedNote
deriving DecidableEq, Repr

def redispatchReason (preserved : Preserved) : String := s!"{preserved.outcome.outcome}: {preserved.reason}"

/-- where a refused re-dispatch stood -/
structure Continuation where
  node : Node
  attempt : ℕ
  attempts : ℕ
  notes : List RecordedNote
  endings : List Preserving
  published : Option String
  onRemote : OnRemote
  preserved : Preserved
  conflicted : Conflicted

/-- the re-dispatch a red verdict read after a deferred republication owes, its reason as the driver bounds and folds it -/
def Continuation.redVerdict (budget : ℕ) (bounded : String → String) (node : Node) (branch head : String) (failed : List String) :
    Continuation :=
  let attempt := min 2 budget
  let checks := ", ".intercalate failed
  let preserved : Preserved :=
    { branch, outcome := .checksFailed, tip := .unknown
      reason := bounded s!"the required checks on {head} concluded red, as a later trigger read them: {checks}" }
  { node := continued node preserved (.at head) attempt budget [.checksFailed], attempt, attempts := budget, notes := []
    endings := [.checksFailed], published := some head, onRemote := .at head, preserved, conflicted := {} }

/-- the re-dispatch a continuation makes again -/
def Continuation.redispatch (continuation : Continuation) : Redispatch where
  node := continuation.node.id
  attempt := continuation.attempt
  attempts := continuation.attempts
  reason := redispatchReason continuation.preserved
  carried := continuation.notes

/-- composed with what the record says at the resume -/
def Continuation.composed (continuation : Continuation) (notes : List RecordedNote) : Continuation := { continuation with notes }

/-- what the loop carries from attempt to attempt -/
structure Loop where
  attempts : ℕ
  node : Node
  attempt : ℕ
  endings : List Preserving
  published : Option String
  onRemote : OnRemote
  notes : List RecordedNote
  lastPreserved : Option Preserved
  conflicted : Conflicted

/-- where the loop starts: at the first attempt, or where a refused re-dispatch left it -/
def Loop.start (budget : ℕ) (node : Node) : Option Continuation → Loop
  | none =>
    { attempts := budget, node, attempt := 1, endings := [], published := none, onRemote := .never, notes := [], lastPreserved := none
      conflicted := {} }
  | some continuation =>
    { attempts := continuation.attempts, node := continuation.node, attempt := continuation.attempt, endings := continuation.endings
      published := continuation.published, onRemote := continuation.onRemote, notes := continuation.notes
      lastPreserved := some continuation.preserved, conflicted := continuation.conflicted }

/-- what an attempt was composed with -/
structure Asked where
  attempt : ℕ
  node : Node
  notes : List RecordedNote

def Loop.asked (loop : Loop) : Asked := { attempt := loop.attempt, node := loop.node, notes := loop.notes }

/-- what a refused attempt leaves for its resume -/
def Loop.continuation (loop : Loop) : Option Continuation :=
  loop.lastPreserved.map fun preserved =>
    { node := loop.node, attempt := loop.attempt, attempts := loop.attempts, notes := loop.notes, endings := loop.endings
      published := loop.published, onRemote := loop.onRemote, preserved, conflicted := loop.conflicted }

/-- one attempt's ending -/
inductive Attempt where
  | settled (settlement : Settlement)
  | preserving (preserved : Preserved)
  /-- its identity admitted no session -/
  | exhausted

/-- an attempt that armed nothing carries the latest one before it that did -/
def Loop.carryArm (loop : Loop) (preserved : Preserved) : Preserved :=
  if preserved.armed.isSome then preserved
  else
    { preserved with
      armedBefore := loop.lastPreserved.bind fun last =>
        (last.armed.map fun sentence => s!"Attempt {loop.attempt - 1}: {sentence}").or last.armedBefore }

/-- the loop once an attempt's failure is read -/
def Loop.read (loop : Loop) (preserved : Preserved) : Loop :=
  let published := standing loop.published preserved.tip
  { loop with
    endings := loop.endings ++ [preserved.outcome]
    conflicted := loop.conflicted.read preserved
    published
    onRemote := loop.onRemote.after preserved.outcome published }

/-- whether its dispatch was handed a merge it did not conclude -/
def Preserved.unconcluded (preserved : Preserved) : Bool := preserved.handed.isSome && decide (preserved.outcome = .syncConflict)

/-- the next attempt, announced -/
def Loop.redispatch (loop : Loop) (preserved : Preserved) (notes : List RecordedNote) : Redispatch where
  node := loop.node.id
  attempt := loop.attempt + 1
  attempts := loop.attempts
  reason := redispatchReason preserved
  carried := notes

/-- what a failed publication comes to: a settlement, with the decision a spent budget puts to the supervisor, or another attempt,
composed with what the record says of the notes -/
def Loop.concluded (loop : Loop) (budget : ℕ) (preserved : Preserved) (cancelled : Bool) (notes : Except String (List RecordedNote)) :
    Settlement × Option SessionConflict ⊕ List RecordedNote :=
  let after := loop.read preserved
  match (republished loop.published preserved.tip).filter fun _ => !preserved.unconcluded with
  | some same => .inl (republishedTheSameCommit budget loop.node.id preserved after.endings same loop.attempt, none)
  | none =>
    if loop.attempts ≤ loop.attempt ∨ cancelled = true then
      .inl (stoppedRetrying loop.node.id preserved after.endings,
        if cancelled then none else after.conflicted.unconverged loop.node preserved)
    else
      match notes with
      | .error why => .inl (notDispatchedAgain loop.node.id preserved why, none)
      | .ok notes => .inr notes

/-- the loop at its next attempt -/
def Loop.next (loop : Loop) (launched : Node) (preserved : Preserved) (notes : List RecordedNote) : Loop :=
  { loop with
    attempt := loop.attempt + 1
    notes
    node := continued launched preserved loop.onRemote (loop.attempt + 1) loop.attempts loop.endings
    lastPreserved := some preserved }

/-! ## What the attempts learn of where the node is placed -/

structure Placed where
  base : Option String := none
  head : Option String := none
  changeUrl : Option String := none
  stack : Option SettledStack := none
  restacking : Bool := false
  agentDispatched : Bool := false

/-- what one attempt reads, where it reads it -/
structure Learnt where
  base : Option String := none
  head : Option String := none
  changeUrl : Option String := none
  stack : Option SettledStack := none
  agentDispatched : Bool := false

def Placed.learn (placed : Placed) (learnt : Learnt) : Placed :=
  { placed with
    base := learnt.base.or placed.base
    head := learnt.head.or placed.head
    changeUrl := learnt.changeUrl.or placed.changeUrl
    stack := learnt.stack.or placed.stack
    agentDispatched := placed.agentDispatched || learnt.agentDispatched }

def Placed.stamp (placed : Placed) (settlement : Settlement) : Settlement :=
  { settlement with
    base := settlement.base.or placed.base
    head := settlement.head.or placed.head
    changeUrl := settlement.changeUrl.or (if settlement.status = .done then none else placed.changeUrl)
    stack := settlement.stack.or placed.stack
    restacked := if placed.restacking then some placed.agentDispatched else none }

/-! ## The node's execution -/

inductive Phase where
  /-- at an attempt of the node as it was launched -/
  | attempting (launched : Node) (loop : Loop) (placed : Placed)
  /-- back in the queue, its identity full -/
  | requeued (resume : Option Continuation)
  /-- settled, before what the attempts learnt is stamped on it -/
  | settled (settlement : Settlement) (placed : Placed)

structure State where
  phase : Phase
  /-- the attempts made, each with what it was composed with and the failure it came to, where it came to one -/
  made : List (Asked × Option Preserved) := []
  /-- the attempts made again, as the journal was told of them -/
  redispatched : List Redispatch := []
  /-- the decisions put to the supervisor -/
  conflicts : List SessionConflict := []

inductive Event where
  /-- one attempt: what it learnt, how it ended, whether the run was being cancelled then, and what its record says of the notes -/
  | attempt (learnt : Learnt) (ending : Attempt) (cancelled : Bool) (notes : Except String (List RecordedNote))
  /-- the identity admits the node, dispatched as it stands then, its notes read again -/
  | admitted (launched : Node) (placed : Placed) (notes : List RecordedNote)

namespace State

variable (budget : ℕ) (s : State)

/-- an execution of a node begun -/
def start (launched : Node) (placed : Placed) (resume : Option Continuation) : State :=
  { phase := .attempting launched (.start budget launched resume) placed }

/-- a failed publication, its branch kept -/
def preserving (launched : Node) (loop : Loop) (placed : Placed) (preserved : Preserved) (cancelled : Bool)
    (notes : Except String (List RecordedNote)) : State :=
  let preserved := loop.carryArm preserved
  let s := { s with made := s.made ++ [(loop.asked, some preserved)] }
  match loop.concluded budget preserved cancelled notes with
  | .inl (settlement, conflict) => { s with phase := .settled settlement placed, conflicts := s.conflicts ++ conflict.toList }
  | .inr notes =>
    { s with
      phase := .attempting launched ((loop.read preserved).next launched preserved notes) placed
      redispatched := s.redispatched ++ [loop.redispatch preserved notes] }

def step : Event → State
  | .attempt learnt ending cancelled notes =>
    match s.phase with
    | .attempting launched loop placed =>
      match ending with
      | .settled settlement =>
        { s with
          phase := .settled settlement (placed.learn learnt)
          made := s.made ++ [(loop.asked, none)] }
      | .preserving preserved => s.preserving budget launched loop (placed.learn learnt) preserved cancelled notes
      -- what the attempts learnt ends with the execution
      | .exhausted => { s with phase := .requeued loop.continuation }
    | .requeued _ | .settled _ _ => s
  | .admitted launched placed notes =>
    match s.phase with
    | .requeued resume =>
      let resume := resume.map (Continuation.composed · notes)
      { s with
        phase := .attempting launched (.start budget launched resume) placed
        redispatched := s.redispatched ++ (resume.map Continuation.redispatch).toList }
    | .attempting _ _ _ | .settled _ _ => s

/-- the settlement an execution returns -/
def settlement? : Option Settlement :=
  match s.phase with
  | .settled settlement placed => some (placed.stamp settlement)
  | .attempting _ _ _ | .requeued _ => none

end State

end OnePipeline.Attempts
