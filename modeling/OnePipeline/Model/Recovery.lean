/-
What a command envelope leaves behind, write by write, and how a writer that takes the run over finishes one its predecessor
died in (`src/engine.rs`: `commit_command`, `record_operation_facts`, `record_delivered`, `hand_envelope`,
`refused_keeping_withdrawals`, `answer_recovered`; `src/withdrawal.rs`).

A script is the list of writes a writer makes, each decided in the state the ones before it left, and a writer may end between
any two. A command is on the record as its JSON text, and two commands are one where their texts are. A note handed to its
receiver is answered `queued`; what its receiver's turn commits later is that turn's.
-/
import Mathlib.Tactic
import OnePipeline.Core.Owed
import OnePipeline.Model.Discharge
import OnePipeline.Model.Holding

namespace OnePipeline.Recovery

open Discharge (Desk Reply Correlation Spelling)

/-! ## What is written -/

/-- a surface as it is raised, before the queue stamps it -/
structure Raised where
  kind : String
  message : String
  source : String
  workstream : Option String := none
  blocking : Bool := false
  correlation : Option Correlation := none
deriving DecidableEq, Repr

def Raised.surface (r : Raised) : Discharge.Surface :=
  { kind := r.kind, workstream := r.workstream, blocking := r.blocking, correlation := r.correlation }

namespace Source

def proposal : String := "proposal"

def reconciler : String := "reconciler"

end Source

/-- a record stating one fact of what happened -/
inductive Fact where
  | completionRequested (reason : String)
  | humanAttested (node : String)
  | nodeSettled (node status : String) (outcome detail : Option String)
  | changeRetitled (node «from» «to» «by» : String)
  | reviewReplyPosted (node comment disposition url : String) (commits : List String)
deriving DecidableEq, Repr

/-- a note in a node's carry store -/
structure Carried where
  node : String
  addressee : Addressee
  text : String
  criterion : Option String
deriving DecidableEq, Repr

inductive Kind where
  | editCommitted
  | commandAccepted
deriving DecidableEq, Repr

inductive Record where
  /-- a command committed or accepted; the record names its envelope, and the command by its text alone: `position` is where
  among the envelope's commands it stands, which the record does not carry -/
  | applied (kind : Kind) (envelope position : ℕ) (author : Author) (command : String) (operations : List Operation)
  | rejected (envelope index : ℕ) (author : Author) (command reason : String)
  /-- an edit a `reply` applied itself, which no queued envelope carried -/
  | unqueued (operations : List Operation)
  | fact (fact : Fact)
  | surfaceQueued (raised : Raised)

inductive Course where
  | delivered
  | refusedKeepingWithdrawals
deriving DecidableEq, Repr

/-- what an envelope commits, command by command, as its writer wrote it down; none for a note handed to its receiver -/
structure Committing where
  envelope : ℕ
  operations : List (Option (List Operation))
  course : Course

inductive CommandVerdict where
  | applied
  | queued
  | refused
  | validated
  | delivered
deriving DecidableEq, Repr

structure CommandResult where
  op : String
  outcome : CommandVerdict
  reason : Option String
  turn : Option NoteTurn
deriving DecidableEq, Repr

structure CommandOutcome where
  id : ℕ
  applied : Bool
  reason : Option String
  results : List CommandResult
deriving DecidableEq, Repr

inductive Write where
  | writeAhead (committing : Committing)
  | record (record : Record)
  | push (raised : Raised)
  | answer (reply : Reply) (correlation : Correlation)
  | abandon (ids : List ℕ)
  | carry (note : Carried)
  | outcome (outcome : CommandOutcome)

/-! ## The run's directory -/

/-- an envelope as the command queue holds it; its id is its place in the queue -/
structure Envelope where
  author : Author
  commands : List Command

structure Durable where
  sent : List Envelope := []
  journal : List Record := []
  desk : Desk
  /-- every surface raised, in order -/
  raised : List Raised := []
  /-- the carry stores -/
  carried : List Carried := []
  /-- what dispatches took out of them -/
  composed : List Carried := []
  committing : ℕ → Option Committing := fun _ => none
  outcomes : List CommandOutcome := []

/-- what is linked or left to a library: how a command is written as JSON, and the reason a withdrawal gives -/
structure Rendering where
  text : Command → String
  reason : Operation → String

namespace Durable

variable (serde : NodeSerde)

/-- the graph the record folds to, one record further -/
def fold (d : Desk) : Record → Desk
  | .applied _ _ _ _ _ operations => { d with graph := operations.foldl (OnePipeline.apply serde) d.graph }
  | .unqueued operations => { d with graph := operations.foldl (OnePipeline.apply serde) d.graph }
  | _ => d

/-- one write made; a bound answer is refused where its question is not outstanding, and appends nothing -/
def apply (s : Durable) : Write → Durable
  | .writeAhead committing =>
    { s with committing := fun id => if id = committing.envelope then some committing else s.committing id }
  | .record record => { s with journal := s.journal ++ [record], desk := fold serde s.desk record }
  | .push raised => { s with desk := s.desk.push raised.surface, raised := s.raised ++ [raised] }
  | .answer reply correlation => { s with desk := s.desk.answerBound reply correlation }
  | .abandon ids => { s with desk := s.desk.abandon ids }
  | .carry note => { s with carried := s.carried ++ [note] }
  | .outcome outcome => { s with outcomes := s.outcomes ++ [outcome] }

/-- what an envelope was last answered -/
def outcomeOf (s : Durable) (id : ℕ) : Option CommandOutcome := s.outcomes.reverse.find? fun o => o.id = id

end Durable

/-- a surface queued, and recorded as queued -/
def raise (raised : Raised) : List Write := [.push raised, .record (.surfaceQueued raised)]

/-! ## Withdrawals -/

/-- a note taken back: by which envelope where a queued one carried the withdrawal, which note, and why -/
structure Withdrawal where
  «by» : Option ℕ
  sent : ℕ
  index : ℕ
  reason : String

section Withdrawals

variable (rendering : Rendering)

def withdrawalOf («by» : Option ℕ) (operation : Operation) : Option Withdrawal :=
  match operation with
  | .noteWithdrawn _ envelope index _ _ _ => some ⟨«by», envelope.toNat, index.toNat, rendering.reason operation⟩
  | _ => none

/-- the withdrawals one record committed -/
def withdrawalsIn : Record → List Withdrawal
  | .applied .editCommitted envelope _ _ _ operations => operations.filterMap (withdrawalOf rendering (some envelope))
  | .unqueued operations => operations.filterMap (withdrawalOf rendering none)
  | _ => []

/-- `withdrawal::readable`, of the withdrawals -/
def readable (s : Durable) : List Withdrawal := s.journal.flatMap (withdrawalsIn rendering)

def withdrawnByWords : Option ℕ → String
  | some id => s!"withdrawn by envelope {id}:"
  | none => "withdrawn by a `withdraw-note`:"

def refused (why : String) (result : CommandResult) : CommandResult :=
  { result with outcome := .refused, reason := some why, turn := none }

/-- a command answered refused, as withdrawn; none where the outcome has no such command -/
def refuseWithdrawn (outcome : CommandOutcome) (w : Withdrawal) : Option CommandOutcome :=
  if w.index < outcome.results.length then
    let why := s!"{withdrawnByWords w.by} {w.reason}"
    some
      { outcome with
        applied := false
        reason := some (s!"command {w.index} ('note') was {why}; every other command's answer stands")
        results := outcome.results.modify w.index (refused why) }
  else none

/-- an envelope answered again, now that a note of it was withdrawn; one not answered yet is left alone -/
def answerWithdrawn (s : Durable) (w : Withdrawal) : List Write :=
  match (s.outcomeOf w.sent).bind fun outcome => refuseWithdrawn outcome w with
  | some outcome => [.outcome outcome]
  | none => []

/-- an outcome, each note of its envelope a committed withdrawal took back answered refused -/
def asWithdrawn (s : Durable) (outcome : CommandOutcome) : CommandOutcome :=
  ((readable rendering s).filter fun w => w.sent = outcome.id).foldl (fun o w => (refuseWithdrawn o w).getD o) outcome

/-- whether an envelope was answered with a withdrawal -/
def answeredWith (s : Durable) (w : Withdrawal) : Bool :=
  (s.outcomeOf w.sent).any fun outcome =>
    (outcome.results[w.index]?).any fun result => result.reason.any fun said => (withdrawnByWords w.by).toList.isPrefixOf said.toList

/-- every withdrawal's answer still owed -/
def answerOwed (serde : NodeSerde) (s : Durable) : List Write :=
  Owed.each (Durable.apply serde) (fun s w => if answeredWith s w then [] else answerWithdrawn s w) (readable rendering s) s

end Withdrawals

/-! ## What an operation states beside its commit -/

def findingSurface (author : Author) (node : Option String) (message : String) (blocking : Bool) : Raised :=
  { kind := Discharge.Surface.finding, message, workstream := node, blocking
    source := if author.isPlanner then Source.proposal else author.word }

def settledFromEvidence : String := "settled-from-evidence"

/-- the writes one operation states its facts with -/
def statedBy (author : Author) : Operation → List Write
  | .completionRequested reason => [.record (.fact (.completionRequested reason))]
  | .humanAttested node => [.record (.fact (.humanAttested node))]
  | .findingRaised node message blocking => raise (findingSurface author node message blocking)
  | .settledFromEvidence node outcome evidence =>
    [.record (.fact (.nodeSettled node outcome.asStr (some settledFromEvidence) (some evidence)))]
  | .retitled node (some «from») «to» _ => [.record (.fact (.changeRetitled node «from» «to» "retitle"))]
  | .declineApplied node comments _ replies =>
    (comments.zip replies).map fun p => .record (.fact (.reviewReplyPosted node p.1.id "declined" p.2 []))
  | .noteDelivered node addressee text criterion (.carried _) _ _ => [.carry ⟨node, addressee, text, criterion⟩]
  | _ => []

/-- `findings::answer_requested`: each finding whose requested edit was committed answered -/
def requestedAnswers (d : Desk) (operations : List Operation) : List Write :=
  d.requests.toList.filterMap fun p =>
    if p.1 ∈ d.answered then none
    else if operations.any (Discharge.satisfies p.2) then some (.answer (Discharge.answerOf p.2) p.1)
    else none

/-- what becomes of one standing surface: an answer, an id to be marked, or nothing -/
inductive Discharging where
  | answered (reply : Reply) (correlation : Correlation)
  | marked (id : ℕ)
  | untouched

def discharging (removed : StrMap Discharge.Removal) (answered : List Correlation) (surface : Discharge.Surface) : Discharging :=
  if !surface.blocking || surface.abandoned then .untouched
  else
    match surface.workstream.bind fun node => removed[node]?.map fun edit => (node, edit) with
    | none => .untouched
    | some (node, edit) =>
      match surface.correlation with
      | some correlation => if correlation ∈ answered then .untouched else .answered (edit.answer node) correlation
      | none => .marked surface.id

/-- the answers to the decisions standing about removed nodes, one to each question, and the ids of those under no question -/
def dischargings (removed : StrMap Discharge.Removal) : List Correlation → List Discharge.Surface → List Write × List ℕ
  | _, [] => ([], [])
  | answered, surface :: rest =>
    match discharging removed answered surface with
    | .answered reply correlation =>
      let (writes, ids) := dischargings removed (answered ++ [correlation]) rest
      (.answer reply correlation :: writes, ids)
    | .marked id =>
      let (writes, ids) := dischargings removed answered rest
      (writes, id :: ids)
    | .untouched => dischargings removed answered rest

/-- `discharge::answer_removed` -/
def removedAnswers (d : Desk) (operations : List Operation) : List Write :=
  let (writes, ids) := dischargings (Discharge.removedBy operations) d.answered d.standing
  writes ++ (if ids.isEmpty then [] else [.abandon ids])

section Commits

variable (serde : NodeSerde) (rendering : Rendering)

/-- everything a committed command states and answers -/
def recordOperationFacts (s : Durable) (author : Author) (operations : List Operation) : List Write :=
  let stated := operations.flatMap (statedBy author)
  let s := Owed.after (Durable.apply serde) s stated
  let requested := requestedAnswers s.desk operations
  let s := Owed.after (Durable.apply serde) s requested
  stated ++ (requested ++ removedAnswers s.desk operations)

def commitsAChange : Operation → Bool
  | .findingRaised .. => false
  | .completionRequested _ => false
  | _ => true

def journalledAs (operations : List Operation) : Kind :=
  if operations.any commitsAChange then .editCommitted else .commandAccepted

/-- the characters a report of an edit is cut to, a quarter of the bus's bound on a payload's text -/
def bounded (bound : ℕ) (text : String) : String := String.ofList (text.toList.take (bound / 4))

def editApplied : String := "edit-applied"

/-- the surface telling the planner of another author's edit; a finding has said its piece already -/
def nonPlannerEdit (bound : ℕ) (author : Author) (command : Command) : Option Raised :=
  match command with
  | .finding _ _ _ => none
  | _ =>
    some
      { kind := editApplied, source := author.word, workstream := Discharge.targetOf command
        message := s!"{author.word} applied an edit: {bounded bound (rendering.text command)}" }

/-- a command, where it stands in its envelope, and what it commits -/
structure Compiled where
  position : ℕ
  command : Command
  operations : List Operation

/-- one compiled command written into the run's record, and acted on -/
def commitCommand (bound : ℕ) (author : Author) (envelope : ℕ) (s : Durable) (c : Compiled) : List Write :=
  let committed := .record (.applied (journalledAs c.operations) envelope c.position author (rendering.text c.command) c.operations)
  let facts := recordOperationFacts serde (s.apply serde committed) author c.operations
  let s := Owed.after (Durable.apply serde) s (committed :: facts)
  let withdrawn := Owed.each (Durable.apply serde) answerWithdrawn
    (c.operations.filterMap (withdrawalOf rendering (some envelope))) s
  let reported := if author.isPlanner then [] else ((nonPlannerEdit rendering bound author c.command).map raise).getD []
  committed :: (facts ++ (withdrawn ++ reported))

/-- one refused command recorded, and surfaced -/
def recordRejection (author : Author) (envelope index : ℕ) (command : Command) (error : String) : List Write :=
  .record (.rejected envelope index author (rendering.text command) error) ::
    raise { kind := "edit-rejected", message := s!"reconciler: rejected — {error}", source := Source.reconciler }

end Commits

/-! ## Answers -/

/-- what became of one command of an envelope -/
inductive Answered where
  | committed (turn : Option NoteTurn)
  | queued
  | refused (reason : String)
  | notAttempted
  | unapplied
deriving DecidableEq, Repr

/-- what the delivery phase did with a command that did not refuse -/
inductive Delivery where
  | committed (operations : List Operation)
  | notAttempted
  /-- a note a committed withdrawal took back, whose record is that withdrawal's -/
  | withdrawn
  /-- a withdrawal that took a live note back from its delivery, which nothing can undo -/
  | takenBack (operations : List Operation)

namespace Delivery

/-- the operations a command commits -/
def commits : Delivery → List Operation
  | committed operations => operations
  | takenBack operations => operations
  | notAttempted => []
  | withdrawn => []

end Delivery

def reachedTurn : Reached → Option NoteTurn
  | .worker turn => turn
  | .supervisor turn => turn
  | _ => none

/-- how the live turn that took a note among operations took it -/
def turnOf (operations : List Operation) : Option NoteTurn :=
  operations.findSome? fun | .noteDelivered _ _ _ _ reached _ _ => reachedTurn reached | _ => none

def readByAConversation : Operation → Bool
  | .noteDelivered _ _ _ _ (.carried _) _ _ => false
  | .noteDelivered .. => true
  | _ => false

/-- what a command that did not refuse is reported as where another refused -/
def unappliedAs (delivery : Delivery) : CommandVerdict :=
  if delivery.commits.any readByAConversation then .delivered else .validated

/-- commands by their places and op words, those a test holds of -/
def listed {α : Type} (which : α → Bool) (commands : List Command) (answered : List α) : String :=
  String.intercalate ", "
    (((commands.zip answered).zipIdx.filter fun p => which p.1.2).map fun p => s!"{p.2} ('{opOf p.1.1}')")

def isRefused {α : Type} : Except String α → Bool
  | .error _ => true
  | .ok _ => false

def appliedEnvelope (id : ℕ) (commands : List Command) (turns : List (Option NoteTurn)) : CommandOutcome :=
  { id, applied := true, reason := none
    results := commands.zipIdx.map fun p =>
      { op := opOf p.1, outcome := .applied, reason := none, turn := (turns[p.2]?).join } }

/-- what each command of a refused envelope is told; `as` says what one that did not refuse is reported as -/
def refusedEnvelope {α : Type} («as» : α → CommandVerdict) (id : ℕ) (commands : List Command) (evaluated : List (Except String α)) :
    CommandOutcome :=
  let refused := listed isRefused commands evaluated
  let plural := if ((commands.zip evaluated).filter fun p => isRefused p.2).length = 1 then "" else "s"
  let blamed : CommandVerdict → String
    | .delivered => s!"not applied: this note reached the conversation it was addressed to, and command{plural} {refused} " ++
      "of the same envelope then refused — an envelope applies all of its commands or none, so nothing of it is in the " ++
      "run's record. The party that read it cannot unread it: resending this envelope hands it over a second time"
    | _ => s!"not applied: this command validated, and command{plural} {refused} of the same envelope did not — an " ++
      "envelope applies all of its commands or none, so resend this one on its own once that is answered"
  { id, applied := false
    reason := evaluated.findSome? fun | .error e => some e | .ok _ => none
    results := (commands.zip evaluated).map fun
      | (command, .ok a) => { op := opOf command, outcome := «as» a, reason := some (blamed («as» a)), turn := none }
      | (command, .error e) => { op := opOf command, outcome := .refused, reason := some e, turn := none } }

/-- the outcome of an envelope some of whose commands committed -/
def partlyApplied (id : ℕ) (commands : List Command) (answered : List Answered) : CommandOutcome :=
  let committed := listed (fun | .committed _ => true | _ => false) commands answered
  let queued := listed (fun a => a = .queued) commands answered
  let refused := listed (fun | .refused _ => true | _ => false) commands answered
  let first := (answered.findSome? fun | .refused reason => some reason | _ => none).getD "no reason was recorded"
  let took :=
    match committed.isEmpty, queued.isEmpty with
    | false, true => s!"command(s) {committed} committed and are in the run's record"
    | true, false => s!"note(s) {queued} queued in their receivers' inboxes"
    | _, _ => s!"command(s) {committed} committed and are in the run's record, and note(s) {queued} queued in their " ++
      "receivers' inboxes"
  let told (command : Command) : Answered → CommandResult
    | .committed turn => { op := opOf command, outcome := .applied, reason := none, turn }
    | .queued => { op := opOf command, outcome := .queued, reason := none, turn := none }
    | .refused reason => { op := opOf command, outcome := .refused, reason := some reason, turn := none }
    | .notAttempted =>
      { op := opOf command, outcome := .validated, turn := none
        reason := some ("not applied: an earlier note of this envelope to the same node refused, so this one was never " ++
          s!"offered; the envelope's command(s) {committed} committed — resend this one on its own") }
    | .unapplied =>
      { op := opOf command, outcome := .validated, turn := none
        reason := some (s!"not applied: command(s) {refused} of this envelope refused as it was delivered, so this one had " ++
          "no effect — resend it on its own") }
  { id, applied := false
    reason := some (s!"applied in part: {took}; command(s) {refused} refused — {first}. What committed is not undone: " ++
      "resend only what refused")
    results := (commands.zip answered).map fun p => told p.1 p.2 }

def took : Answered → Bool
  | .committed _ => true
  | .queued => true
  | _ => false

/-- what a command answered as it was taken is told -/
def taken (result : CommandResult) : Answered → CommandResult
  | .committed turn => { result with turn }
  | .queued => { result with outcome := .queued }
  | _ => result

/-- the one outcome of an envelope whose commands were answered one by one -/
def answeredEnvelope (id : ℕ) (commands : List Command) (answers : List (Option Answered)) : CommandOutcome :=
  let answered := commands.zipIdx.map fun p => ((answers[p.2]?).join).getD .notAttempted
  if answered.all took then
    let outcome := appliedEnvelope id commands []
    { outcome with results := (outcome.results.zip answered).map fun p => taken p.1 p.2 }
  else if !answered.any took then
    refusedEnvelope unappliedAs id commands (answered.map fun | .refused reason => .error reason | _ => .ok .notAttempted)
  else partlyApplied id commands answered

section Scripts

variable (serde : NodeSerde) (rendering : Rendering) (bound : ℕ)

/-! ## What was written down -/

/-- whether an operation withdraws the very note a command names -/
def withdrawsAsWritten (command : Command) (operation : Operation) : Bool :=
  match command, operation with
  | .withdrawNote named index _, .noteWithdrawn _ envelope at_ _ _ _ =>
    index = at_ && Holding.parseU64 (Text.trim named).toList = some envelope
  | _, _ => false

/-- all a command of an envelope refused at delivery may have committed -/
def isAKeptWithdrawal : List Operation → Bool
  | [.noteWithdrawn _ _ _ .live _ _] => true
  | _ => false

/-- what an envelope's writer wrote down before its first record, or why that cannot be read -/
def readCommitting (s : Durable) (id : ℕ) (envelope : Envelope) : Except String Committing :=
  match s.committing id with
  | none => .error "No such file or directory (os error 2)"
  | some written =>
    let kept (command : Command) (operations : Option (List Operation)) : Bool :=
      operations.all fun operations => isAKeptWithdrawal operations && operations.all (withdrawsAsWritten command)
    if written.course = .refusedKeepingWithdrawals && !((envelope.commands.zip written.operations).all fun p => kept p.1 p.2) then
      .error ("it was refused at delivery and names operations other than a live withdrawal it kept beside the " ++
        "`withdraw-note` naming that note")
    else if written.envelope = id && written.operations.length = envelope.commands.length then .ok written
    else .error s!"it names envelope {written.envelope} with {written.operations.length} commands"

/-- the withdrawals one write-ahead names of an envelope's notes -/
def namedWithdrawals (id : ℕ) (commands : List Command) (written : Committing) : List ℕ :=
  (commands.zip written.operations).flatMap fun p =>
    (p.2.getD []).filterMap fun operation =>
      match operation with
      | .noteWithdrawn _ envelope index _ _ _ =>
        if envelope.toNat = id && withdrawsAsWritten p.1 operation then some index.toNat else none
      | _ => none

/-- the positions of an envelope's notes a write-ahead names a withdrawal of -/
def writtenDownWithdrawals (s : Durable) (id : ℕ) : List ℕ :=
  s.sent.zipIdx.flatMap fun p =>
    match readCommitting s p.2 p.1 with
    | .ok written => namedWithdrawals id p.1.commands written
    | .error _ => []

/-- the positions of an envelope's notes a committed withdrawal took back -/
def withdrawnFrom (s : Durable) (id : ℕ) : List ℕ :=
  ((readable rendering s).filter fun w => w.sent = id).map Withdrawal.index

def isNote : Command → Bool
  | .note .. => true
  | _ => false

/-- the positions of an envelope's notes a withdrawal took back, on the record or only written down -/
def withdrawnNotes (s : Durable) (id : ℕ) (commands : List Command) : List ℕ :=
  if commands.any isNote then withdrawnFrom rendering s id ++ writtenDownWithdrawals s id else []

/-- an envelope's answer, written through the withdrawals of its notes -/
def answerThroughWithdrawals (s : Durable) (commands : List Command) (outcome : CommandOutcome) : List Write :=
  [.outcome (if commands.any isNote then asWithdrawn rendering s outcome else outcome)]

/-! ## An envelope judged -/

/-- one command validated, and what its delivery answers: a note its conversation is offered, or anything else -/
inductive Staged where
  | note (answer : Except String (List Operation))
  | step (seated : Bool) (answer : Except String (List Operation))

def isOffered : Option Staged → Bool
  | some (.note _) => true
  | _ => false

/-- an envelope's validation, each note already withdrawn staged as one -/
def seated (s : Durable) (id : ℕ) (commands : List Command) (evaluated : List (Except String Staged)) :
    List (Except String (Option Staged)) :=
  evaluated.zipIdx.map fun p => if p.2 ∈ withdrawnNotes rendering s id commands then .ok none else p.1.map some

/-- every command's value where a phase produced one for all of them -/
def allOrEachRuling {α : Type} (evaluated : List (Except String α)) : Option (List α) :=
  evaluated.mapM fun | .ok a => some a | .error _ => none

def deliveredAs (seated : Bool) (operations : List Operation) : Delivery :=
  if seated then .takenBack operations else .committed operations

/-- the delivery phase run inline: nothing is offered once a command has refused -/
def deliverEnvelope : Bool → List (Option Staged) → List (Except String Delivery)
  | _, [] => []
  | true, _ :: rest => .ok .notAttempted :: deliverEnvelope true rest
  | false, none :: rest => .ok .withdrawn :: deliverEnvelope false rest
  | false, some (.note (.ok operations)) :: rest => .ok (.committed operations) :: deliverEnvelope false rest
  | false, some (.step seated (.ok operations)) :: rest => .ok (deliveredAs seated operations) :: deliverEnvelope false rest
  | false, some (.note (.error e)) :: rest => .error e :: deliverEnvelope true rest
  | false, some (.step _ (.error e)) :: rest => .error e :: deliverEnvelope true rest

/-- everything but the notes delivered, which are left to their receivers -/
def ruleEnvelope : Bool → List (Option Staged) → List (Option (Except String Delivery))
  | _, [] => []
  | refused, some (.note _) :: rest => none :: ruleEnvelope refused rest
  | refused, none :: rest => some (.ok .withdrawn) :: ruleEnvelope refused rest
  | true, some (.step _ _) :: rest => some (.ok .notAttempted) :: ruleEnvelope true rest
  | false, some (.step seated (.ok operations)) :: rest => some (.ok (deliveredAs seated operations)) :: ruleEnvelope false rest
  | false, some (.step _ (.error e)) :: rest => some (.error e) :: ruleEnvelope true rest

/-- operations, each note delivery among them naming the envelope it came in -/
def fromEnvelope (id index : ℕ) (operations : List Operation) : List Operation :=
  operations.map fun
    | .noteDelivered node addressee text criterion reached _ _ =>
      .noteDelivered node addressee text criterion reached (some (UInt64.ofNat id))
        (if index < UInt32.size then some (UInt32.ofNat index) else none)
    | operation => operation

def takenBack : Delivery → Option (List Operation)
  | .takenBack operations => some operations
  | _ => none

def keptAnswer : Except String Delivery → Answered
  | .error e => .refused e
  | .ok (.takenBack _) => .committed none
  | .ok _ => .unapplied

/-- the commands that commit, in order -/
def compiledIn (commands : List Command) (operations : List (Option (List Operation))) : List Compiled :=
  (commands.zip operations).zipIdx.filterMap fun p => p.1.2.map fun operations => ⟨p.2, p.1.1, operations⟩

/-- each refusal recorded, in order -/
def rejections {α : Type} (author : Author) (id : ℕ) (commands : List Command) (evaluated : List (Except String α)) : List Write :=
  (commands.zip evaluated).zipIdx.flatMap fun p =>
    match p.1.2 with
    | .error e => recordRejection rendering author id p.2 p.1.1 e
    | .ok _ => []

/-- an envelope a command of which refused at delivery, each live note it took back kept -/
def refusedKeepingWithdrawals (s : Durable) (id : ℕ) (envelope : Envelope) (evaluated : List (Except String Delivery)) : List Write :=
  let operations := evaluated.map fun ruling => ruling.toOption.bind takenBack
  let kept := operations.any Option.isSome
  let ahead :=
    if kept && 1 < envelope.commands.length then [.writeAhead ⟨id, operations, .refusedKeepingWithdrawals⟩] else []
  let first := ahead ++ rejections rendering envelope.author id envelope.commands evaluated
  let commits := Owed.each (Durable.apply serde) (commitCommand serde rendering bound envelope.author id)
    (compiledIn envelope.commands operations) (Owed.after (Durable.apply serde) s first)
  let outcome :=
    if kept then partlyApplied id envelope.commands (evaluated.map keptAnswer)
    else refusedEnvelope unappliedAs id envelope.commands evaluated
  first ++ (commits ++ answerThroughWithdrawals rendering (Owed.after (Durable.apply serde) s (first ++ commits)) envelope.commands outcome)

/-- whether a delivery has a record of its own -/
def Delivery.recorded : Delivery → Bool
  | withdrawn => false
  | _ => true

/-- an envelope delivered inline: written down where it has several commands, committed one by one, and answered -/
def recordDelivered (s : Durable) (id : ℕ) (envelope : Envelope) (evaluated : List (Except String Delivery)) : List Write :=
  match allOrEachRuling evaluated with
  | none => refusedKeepingWithdrawals serde rendering bound s id envelope evaluated
  | some delivered =>
    let operations := delivered.zipIdx.map fun p => fromEnvelope id p.2 p.1.commits
    let ahead := if 1 < envelope.commands.length then [.writeAhead ⟨id, operations.map some, .delivered⟩] else []
    -- a withdrawn note's record is its withdrawal's
    let recorded := (delivered.zip operations).map fun p => if p.1.recorded then some p.2 else none
    let commits := Owed.each (Durable.apply serde) (commitCommand serde rendering bound envelope.author id)
      (compiledIn envelope.commands recorded) (Owed.after (Durable.apply serde) s ahead)
    ahead ++ (commits ++ answerThroughWithdrawals rendering (Owed.after (Durable.apply serde) s (ahead ++ commits)) envelope.commands
      (appliedEnvelope id envelope.commands (operations.map turnOf)))

def withdrawnLive : String := "withdrawn by a `withdraw-note` before any turn took it"

/-- what a handed envelope commits of one command: nothing of a note handed on, or of one withdrawn -/
def handedOperations (id index : ℕ) : Option (Except String Delivery) → Option (List Operation)
  | some (.ok .withdrawn) => none
  | some (.ok delivery) => some (fromEnvelope id index delivery.commits)
  | _ => none

/-- how a handed envelope answers one command -/
def handedAnswer (operations : Option (List Operation)) : Option (Except String Delivery) → Option Answered
  | none => some .queued
  | some (.ok .withdrawn) => some (.refused withdrawnLive)
  | some _ => operations.map fun operations => .committed (turnOf operations)

/-- an envelope that offers a live note: the rest of it committed now, and its notes handed to their receivers -/
def handEnvelope (s : Durable) (id : ℕ) (envelope : Envelope) (staged : List (Option Staged)) : List Write :=
  let ruled := ruleEnvelope false staged
  if ruled.any fun ruling => ruling.any isRefused then
    refusedKeepingWithdrawals serde rendering bound s id envelope (ruled.map fun ruling => ruling.getD (.ok .notAttempted))
  else
    let operations := ruled.zipIdx.map fun p => handedOperations id p.2 p.1
    let ahead : List Write := [.writeAhead ⟨id, operations, .delivered⟩]
    let commits := Owed.each (Durable.apply serde) (commitCommand serde rendering bound envelope.author id)
      (compiledIn envelope.commands operations) (Owed.after (Durable.apply serde) s ahead)
    let answers := (operations.zip ruled).map fun p => handedAnswer p.1 p.2
    ahead ++ (commits ++ answerThroughWithdrawals rendering (Owed.after (Durable.apply serde) s (ahead ++ commits)) envelope.commands
      (answeredEnvelope id envelope.commands answers))

/-- one envelope judged: refused whole at validation, handed on where a loop has its notes to hand, or delivered inline -/
def reconcileEnvelope (s : Durable) (id : ℕ) (envelope : Envelope) (loop : Bool) (rule : ℕ → Except String Staged) : List Write :=
  let evaluated := seated rendering s id envelope.commands (envelope.commands.zipIdx.map fun p => rule p.2)
  match allOrEachRuling evaluated with
  | none =>
    let first := rejections rendering envelope.author id envelope.commands evaluated
    first ++ answerThroughWithdrawals rendering (Owed.after (Durable.apply serde) s first) envelope.commands
      (refusedEnvelope (fun _ => .validated) id envelope.commands evaluated)
  | some staged =>
    if loop && staged.any isOffered then handEnvelope serde rendering bound s id envelope staged
    else recordDelivered serde rendering bound s id envelope (deliverEnvelope false staged)

/-! ## An envelope recovered -/

/-- what the journal says one envelope's effects were -/
structure Effect where
  committed : List (String × Option NoteTurn)
  rejected : List (String × String)

/-- how the live turn a record's note was taken by took it; an acceptance says nothing of one -/
def recordedTurn : Kind → List Operation → Option NoteTurn
  | .editCommitted, operations => turnOf operations
  | .commandAccepted, _ => none

/-- a command a record of an envelope says was committed -/
def committedIn (id : ℕ) : Record → Option (String × Option NoteTurn)
  | .applied kind envelope _ _ command operations => if envelope = id then some (command, recordedTurn kind operations) else none
  | _ => none

def rejectedIn (id : ℕ) : Record → Option (String × String)
  | .rejected envelope _ _ command reason => if envelope = id then some (command, reason) else none
  | _ => none

/-- the evidence of one envelope, where any record names it -/
def effectOf (s : Durable) (id : ℕ) : Option Effect :=
  let effect : Effect := ⟨s.journal.filterMap (committedIn id), s.journal.filterMap (rejectedIn id)⟩
  if effect.committed.isEmpty && effect.rejected.isEmpty then none else some effect

/-- the first entry recorded for a command taken out of a list -/
def take {α : Type} (sent : String) (recorded : List (String × α)) : Option (α × List (String × α)) :=
  match recorded.find? fun r => r.1 = sent with
  | some r => some (r.2, recorded.eraseP fun r => r.1 = sent)
  | none => none

/-- each command answered by the first record of it not already taken, a commit before a refusal -/
def matchRecords : List (String × Option NoteTurn) → List (String × String) → List Command → List (Option Answered)
  | _, _, [] => []
  | committed, rejected, command :: rest =>
    match take (rendering.text command) committed with
    | some (turn, committed) => some (.committed turn) :: matchRecords committed rejected rest
    | none =>
      match take (rendering.text command) rejected with
      | some (reason, rejected) => some (.refused reason) :: matchRecords committed rejected rest
      | none => none :: matchRecords committed rejected rest

/-- each command of a refused envelope as it was answered the first time -/
def refusedAgain (id : ℕ) (commands : List Command) (rejected : List (String × String)) : CommandOutcome :=
  let rulings : List (Except String Unit) := (matchRecords rendering [] rejected commands).map fun
    | some (.refused reason) => .error reason
    | _ => .ok ()
  refusedEnvelope (fun _ => .validated) id commands rulings

def unansweredNote (node : String) : String :=
  s!"the driver delivering this live note to node '{node}' exited before that node's conversation answered it, so whether it " ++
    "was read is not known and nothing of it is in the run's record; resend it if it is still wanted"

/-- one command of a recovered envelope: where it stands, what was written down for it, and what the journal answers it with -/
structure Item where
  position : ℕ
  command : Command
  operations : Option (List Operation)
  answer : Option Answered

/-- what becomes of a command no record answers -/
inductive Resolution where
  /-- its withdrawal is its record -/
  | withdrawn
  | unapplied
  | committed (operations : List Operation)
  /-- a note whose receiver had not answered -/
  | unanswered (node : String)
  | unreadable
  /-- answered by its record -/
  | recorded (answer : Answered)

def resolve (course : Course) (withdrawn : List ℕ) (item : Item) : Resolution :=
  match item.answer with
  | some answer => .recorded answer
  | none =>
    if isNote item.command && item.position ∈ withdrawn then .withdrawn
    else
      match item.operations with
      | none =>
        if course = .refusedKeepingWithdrawals then .unapplied
        else
          match item.command with
          | .note node _ _ _ _ _ _ => .unanswered node
          | _ => .unreadable
      | some operations => .committed operations

def Resolution.isReadable : Resolution → Bool
  | unreadable => false
  | _ => true

def Resolution.answer : Resolution → Option Answered
  | withdrawn => some (.refused withdrawnLive)
  | unapplied => some .unapplied
  | committed operations => some (.committed (turnOf operations))
  | unanswered node => some (.refused (unansweredNote node))
  | unreadable => none
  | recorded answer => some answer

/-- the writes one resolved command is finished with -/
def finish (author : Author) (id : ℕ) (s : Durable) (p : Item × Resolution) : List Write :=
  match p.2 with
  | .committed operations => commitCommand serde rendering bound author id s ⟨p.1.position, p.1.command, operations⟩
  | .unanswered node => recordRejection rendering author id p.1.position p.1.command (unansweredNote node)
  | _ => []

/-- a recovered envelope that could not be finished, which is left unanswered -/
def unrecovered (id : ℕ) (envelope : Envelope) (committed : ℕ) (why : String) : List Write :=
  raise
    { kind := "envelope-unrecovered", source := Source.reconciler
      message := s!"reconciler: envelope {id} was journalled through command {committed} of {envelope.commands.length} by a " ++
        s!"driver that died, and what the rest of it commits cannot be read from committing/{id}.json ({why}); it is left " ++
        s!"unanswered rather than reported applied, and its first {committed} command(s) stand" }

/-- a recovered envelope finished from what its writer wrote down -/
def finishFrom (s : Durable) (id : ℕ) (envelope : Envelope) (answers : List (Option Answered)) (written : Committing) : List Write :=
  let items := ((envelope.commands.zip written.operations).zip answers).zipIdx.map fun p => Item.mk p.2 p.1.1.1 p.1.1.2 p.1.2
  let resolved := items.map fun item => (item, resolve written.course (withdrawnNotes rendering s id envelope.commands) item)
  let finished := resolved.takeWhile fun p => p.2.isReadable
  let writes := Owed.each (Durable.apply serde) (finish serde rendering bound envelope.author id) finished s
  if finished.length = resolved.length then
    writes ++ [.outcome (asWithdrawn rendering (Owed.after (Durable.apply serde) s writes)
      (answeredEnvelope id envelope.commands (finished.map fun p => p.2.answer)))]
  else
    writes ++ unrecovered id envelope (answers.filter Option.isSome).length
      "it names no operations for a command that is not a note"

/-- a recovered envelope answered, from its records and from what its writer wrote down -/
def answerRecovered (s : Durable) (id : ℕ) (envelope : Envelope) (effect : Effect) : List Write :=
  let answers := matchRecords rendering effect.committed effect.rejected envelope.commands
  match readCommitting s id envelope with
  | .error why =>
    if effect.committed.isEmpty && !effect.rejected.isEmpty then
      [.outcome (refusedAgain rendering id envelope.commands effect.rejected)]
    else if answers.all Option.isSome then
      [.outcome (asWithdrawn rendering s (answeredEnvelope id envelope.commands answers))]
    else unrecovered id envelope (answers.filter Option.isSome).length why
  | .ok written =>
    if answers.all Option.isSome then [.outcome (asWithdrawn rendering s (answeredEnvelope id envelope.commands answers))]
    else finishFrom serde rendering bound s id envelope answers written

/-- what a writer does with an envelope nothing has answered: it is answered from the journal where that holds any record of
it, and judged otherwise -/
def script (s : Durable) (id : ℕ) (loop : Bool) (rule : ℕ → Except String Staged) : List Write :=
  match s.sent[id]? with
  | none => []
  | some envelope =>
    if (s.outcomeOf id).isSome then []
    else
      match effectOf s id with
      | some effect => answerRecovered serde rendering bound s id envelope effect
      | none => reconcileEnvelope serde rendering bound s id envelope loop rule

/-! ## Runs -/

inductive Event where
  | send (author : Author) (commands : List Command)
  /-- a writer takes an envelope up: what judging its commands would answer, and after how many writes the writer ends -/
  | attempt (id : ℕ) (loop : Bool) (rule : ℕ → Except String Staged) (ended : Option ℕ)
  /-- a driver writes the withdrawals' answers still owed -/
  | answerOwed (ended : Option ℕ)
  /-- a driver removes what was written down for envelopes answered -/
  | prune
  /-- a dispatch is composed, and takes its node's notes out of the carry store -/
  | drain (node : String)
  /-- a fact stated by anything else -/
  | fact (fact : Fact)
  /-- an edit committed by anything else -/
  | edit (operations : List Operation)
  | raise (raised : Raised)
  | conflict (node message source : String)
  | read
  | reply (named : Correlation) (reply : Reply) (commands : List Command)

variable (sp : Spelling)

def conflictRaised (node message source : String) : Raised :=
  { kind := Discharge.Surface.finding, message, source, workstream := some node, blocking := true
    correlation := Discharge.correlationOf sp .sessionConflict node }

def writes (s : Durable) : Event → List Write
  | .attempt id loop rule ended => Owed.upTo ended (script serde rendering bound s id loop rule)
  | .answerOwed ended => Owed.upTo ended (answerOwed rendering serde s)
  | .fact fact => [.record (.fact fact)]
  | .edit operations => [.record (.unqueued operations)]
  | .raise raised => raise raised
  | .conflict node message source => raise (conflictRaised sp node message source)
  | _ => []

/-- what an event changes that no write of the run's own does, before the writes it makes -/
def around (s : Durable) : Event → Durable
  | .send author commands => { s with sent := s.sent ++ [⟨author, commands⟩] }
  | .prune => { s with committing := fun id => if (s.outcomeOf id).isSome then none else s.committing id }
  | .drain node =>
    { s with
      carried := s.carried.filter fun note => note.node ≠ node
      composed := s.composed ++ s.carried.filter fun note => note.node = node }
  | .conflict node _ _ => { s with desk := s.desk.recordRequest sp .sessionConflict node }
  | .read => { s with desk := s.desk.claim }
  | .reply named reply commands => { s with desk := Discharge.deliverVerdictHalf s.desk named reply commands }
  | _ => s

def step (s : Durable) (e : Event) : Durable :=
  Owed.after (Durable.apply serde) (around sp s e) (writes serde rendering bound sp s e)

end Scripts

end OnePipeline.Recovery
