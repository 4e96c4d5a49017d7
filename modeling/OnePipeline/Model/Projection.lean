/-
The fold of a run's journal (`src/projection.rs`): one record at a time onto the state every reader of the run answers
from, and what an edit and the scheduler read off it.

`foldRecord` follows the source arm by arm; an arm longer than a line is a definition of its own. The fold keeps what a
later record or a modelled reader reads back. `statuses` is the uncached derivation: the source's cache remembers its
whole input.
-/
import Mathlib.Tactic
import OnePipeline.Model.Record
import OnePipeline.Model.Replay

namespace OnePipeline

/-! ## State -/

/-- what a node's journal recorded: the status it stated, or a park still waiting on the dispatch it asked to stop -/
inductive Recorded where
  | at (status : NodeStatus)
  | cancelling (since : ℕ)
deriving DecidableEq, Repr

namespace Recorded

def status : Recorded → NodeStatus
  | .at s => s
  | cancelling _ => .parked

@[simp] theorem status_at (s : NodeStatus) : (Recorded.at s).status = s := rfl

@[simp] theorem status_cancelling (since : ℕ) : (cancelling since).status = .parked := rfl

end Recorded

structure RunState where
  graph : Graph := Graph.empty
  runNodeSets : Option (List String) := none
  plan : Option Plan := none
  recorded : StrMap Recorded := ∅
  outcomes : StrMap String := ∅
  parks : StrMap Park := ∅
  branches : StrMap String := ∅
  sessions : StrMap DispatchSession := ∅
  abandoned : StrMap DispatchSession := ∅
  changeUrls : StrMap String := ∅
  heads : StrMap String := ∅
  branchHeads : StrMap String := ∅
  landingCommits : StrMap String := ∅
  bases : StrMap String := ∅
  landings : StrMap Landing := ∅
  statedLandings : StrMap StatedLanding := ∅
  statedChangeUrls : StrMap StatedLanding := ∅
  completedSteps : StrMap (List String) := ∅
  attestations : StrSet := ∅
  strict : Bool := true
  crossDag : StrMap NodeStatus := ∅
  pendingContext : StrMap String := ∅
  superseded : StrMap String := ∅
  restacking : StrSet := ∅
  absorbed : StrMap String := ∅
  noted : StrSet := ∅
  recalled : List Envelope := []
  /-- each node an edit added, as the newest addition wrote it -/
  nodesAdded : StrMap Node := ∅

namespace RunState

/-! ## What is read off it -/

def statusesRecorded (s : RunState) : StrMap NodeStatus := s.recorded.map fun _ r => r.status

/-- the frontier an edit is judged against, as far as the ledger says -/
def frontier (s : RunState) : Frontier where
  recorded := s.statusesRecorded
  attestations := s.attestations
  parks := s.parks
  runNodeSets := s.runNodeSets
  statedLandings := s.statedLandings
  landings := s.landings
  branches := s.branches
  changeUrls := s.changeUrls
  superseded := s.superseded
  restacking := s.restacking
  absorbed := s.absorbed
  exportEdges := (s.plan.map fun plan => edgesNow plan.exportEdges s.superseded).getD []

/-- what each node of the graph settled as, under its identity -/
def settled (s : RunState) : StrMap Settled :=
  s.graph.iter.foldl (fun m node =>
    match s.recorded[node.id]?, NodeRef.of node with
    | some recorded, some ref =>
      m.insert ref.asStr (Settled.of recorded.status s.outcomes[node.id]? s.landings[node.id]?)
    | _, _ => m) ∅

def statusesWith (s : RunState) (upstream : String → Option NodeStatus) : StrMap NodeStatus :=
  derive s.graph s.settled upstream

def statuses (s : RunState) : StrMap NodeStatus := s.statusesWith fun dependency => s.crossDag[dependency]?

/-- the session each node still recorded running is working in -/
def sessionsInFlight (s : RunState) : List (String × DispatchSession) :=
  s.recorded.toList.filterMap fun p =>
    if p.2.status = .running then s.sessions[p.1]?.map fun session => (p.1, session) else none

/-! ## One operation -/

/-- take a settled node out of its park, on the graph and in the record of who parked it -/
def endThePark (s : RunState) (node : String) : RunState :=
  { s with
    graph := s.graph.modify node (fun n => { n with parked := false }) (Graph.id_parked false)
    parks := s.parks.erase node }

/-- the outcome a settlement from evidence records -/
def settledFromEvidence : String := "settled-from-evidence"

/-- what a park of a node leaves recorded: a cancellation in flight where its dispatch is running -/
def parkedAs (was : Option NodeStatus) («at» : Option ℕ) : Recorded :=
  match was, «at» with
  | some .running, some since => .cancelling since
  | _, _ => .at .parked

def owe (s : RunState) (node : String) (context : Option String) : RunState :=
  match context with
  | some context => { s with pendingContext := s.pendingContext.insert node context }
  | none => { s with pendingContext := s.pendingContext.erase node }

@[simp] theorem owe_graph (s : RunState) (node : String) (context : Option String) : (s.owe node context).graph = s.graph := by
  cases context <;> rfl

@[simp] theorem owe_recorded (s : RunState) (node : String) (context : Option String) :
    (s.owe node context).recorded = s.recorded := by
  cases context <;> rfl

@[simp] theorem owe_parks (s : RunState) (node : String) (context : Option String) : (s.owe node context).parks = s.parks := by
  cases context <;> rfl

/-- a stated landing folded: the node landed there, and a change request is kept past a later commit -/
def foldStatedLanding (s : RunState) (node : String) (stated : StatedLanding) : RunState :=
  { s with
    landings := s.landings.insert node .landed
    statedChangeUrls :=
      match stated with
      | .changeRequest _ => s.statedChangeUrls.insert node stated
      | .commit _ => s.statedChangeUrls
    statedLandings := s.statedLandings.insert node stated }

/-- one operation onto the state, its graph already edited -/
def foldOperation (sib : Siblings) («at» : Option ℕ) (s : RunState) : Operation → RunState
  | .runNodeSetsReplaced sets => { s with runNodeSets := some sets }
  | .humanAttested node =>
    { s with attestations := s.attestations.insert node, recorded := s.recorded.insert node (.at .done) }
  | .retryRequested node replacement _ =>
    { s with
      recorded := s.recorded.insert node (.at .cancelled)
      superseded := s.superseded.insert node replacement }
  | .reworkRequested node replacement _ _ _ _ => { s with superseded := s.superseded.insert node replacement }
  | .nodeParked node «by» reason =>
    { s with
      parks := s.parks.insert node (Park.of «by» reason)
      recorded := s.recorded.insert node (parkedAs (s.recorded[node]?.map Recorded.status) «at») }
  | .nodeRequeued node _ => { s with recorded := s.recorded.erase node, parks := s.parks.erase node }
  | .reparent node _ _ =>
    if s.recorded[node]?.map Recorded.status = some .waiting then { s with recorded := s.recorded.erase node } else s
  | .settledFromEvidence node outcome _ =>
    { s with
      recorded := s.recorded.insert node (.at (settledStatus outcome))
      outcomes := s.outcomes.insert node settledFromEvidence }.endThePark node
  | .landingFromEvidence node landing =>
    match StatedLanding.parse sib landing with
    | some stated => s.foldStatedLanding node stated
    | none => s
  | .contextAdded node note .deferred => s.owe node (some note)
  | .noteDelivered node _ text _ (.carried _) _ _ => s.owe node (some (withCarried s.pendingContext[node]? text))
  | .noteWithdrawn node _ _ .carried text alikeAfter =>
    s.owe node (s.pendingContext[node]?.bind fun context => withoutCarried context text alikeAfter)
  | _ => s

/-- one operation onto the graph, and then onto the rest of the state -/
def foldOne (host : Host) («at» : Option ℕ) (s : RunState) (op : Operation) : RunState :=
  ({ s with graph := apply host.serde s.graph op } : RunState).foldOperation host.toSiblings «at» op

/-- a committed command's operations onto the state, in order, stamped at a time -/
def foldOperations (host : Host) (s : RunState) (operations : List Operation) («at» : Option ℕ) : RunState :=
  operations.foldl (foldOne host «at») s

/-! ## One record -/

/-- whether a sibling's record of a landing is kept for the closure watch -/
def keepsClosure (e : Envelope) (closes : Bool) : Bool := e.node.isSome && closes

/-- one relayed record: where a dispatch is working, where a branch stands and where a change landed -/
def foldRelayed (s : RunState) (node : Option String) (record : Relayed) : RunState :=
  match node, record with
  | some node, .sessionOpened (some session) base =>
    { s with
      bases :=
        match base with
        | some base => s.bases.insert node base
        | none => s.bases
      sessions := s.sessions.insert node session }
  | some node, .mergeCompleted (some sha) base =>
    { s with
      landingCommits := s.landingCommits.insert node sha
      bases :=
        match base with
        | some base => s.bases.insert node base
        | none => s.bases }
  | some _, .push true (some branch) (some head) => { s with branchHeads := s.branchHeads.insert branch head }
  | _, _ => s

/-- whether a report is kept whole -/
def Report.recalled : Report → Bool
  | .releaseArrived | .branchesSuperseded | .dispatchStopped | .hostShutdown | .scratchRemoved | .scratchRetained
  | .landingClosures | .driverTakenOver | .homeStatus | .checkFailed | .checksUnfollowed => true
  | _ => false

/-- whether `recalled` keeps one of this crate's records whole, commits apart -/
def recalledWhole (s : RunState) (e : Envelope) : Bool :=
  match e.body with
  | .releaseAdopted .. | .driverAdopted _ => true
  | .report kind => Report.recalled kind
  | .editRejected envelope => envelope
  | .nodeSettled settled => settled.continued
  | .nodeDispatched composed => composed ≠ .unstated || e.node.any fun node => node ∈ s.noted
  | _ => false

/-- the nodes a commit's operations deliver a note to or take one back from -/
def notedBy (operations : List Operation) : List String :=
  operations.filterMap fun op =>
    match op with
    | .noteDelivered node _ _ _ _ _ _ | .noteWithdrawn node _ _ _ _ _ => some node
    | _ => none

/-- the nodes a commit's operations add, where the commit is an edit's -/
def addedBy (e : Envelope) (operations : List Operation) : List Node :=
  match e.body with
  | .editCommitted _ => operations.filterMap fun
    | .nodeAdded node _ => some node
    | _ => none
  | _ => []

/-- what a commit says that only its readers read back: the nodes it adds, and it whole where it carries a note or cannot be
read -/
def foldCommit (s : RunState) (e : Envelope) (operations : Option (List Operation)) : RunState :=
  match operations with
  | none => { s with recalled := s.recalled ++ [e] }
  | some operations =>
    let noted := notedBy operations
    { s with
      noted := noted.foldl (fun m node => m.insert node) s.noted
      recalled := if noted = [] then s.recalled else s.recalled ++ [e]
      nodesAdded := (addedBy e operations).foldl (fun m node => m.insert node.id node) s.nodesAdded }

def foldEdit (host : Host) (s : RunState) (e : Envelope) (operations : Option (List Operation)) : RunState :=
  let s := s.foldCommit e operations
  match operations with
  | none => { s with strict := false }
  | some operations => s.foldOperations host operations (millisOf e.ts)

/-- a dispatch: the node is running, in no session yet, with the note owed to it spent -/
def foldDispatched (s : RunState) (node : String) : RunState :=
  { s with
    recorded := s.recorded.insert node (.at .running)
    sessions := s.sessions.erase node
    pendingContext := s.pendingContext.erase node
    graph := s.graph.modify node fun n => { n with context := none } }

/-- a status whose work is still on the branch the attempt left behind -/
def preservesItsBranch : NodeStatus → Bool
  | .failed | .cancelled | .parked | .completeDraft | .completeHeld => true
  | _ => false

/-- a node pinned to the branch its attempt left, where it named none of its own -/
def pinnedTo (preserved : String) (completed : List String) (n : Node) : Node :=
  let branch := n.branch.getD preserved
  { n with
    resume := some { checkpoint := n.resume.bind Resume.checkpoint, branch, completedSteps := completed }
    branch := some branch }

def pinPreservedBranch (s : RunState) (id : String) (status : NodeStatus) : RunState :=
  if preservesItsBranch status then
    match s.branches[id]? with
    | some preserved => { s with graph := s.graph.modify id (pinnedTo preserved (s.completedSteps[id]?.getD [])) }
    | none => s
  else s

def settlementEndsThePark : NodeStatus → Bool
  | .done | .failed => true
  | _ => false

/-- the status a settlement states, recorded, with the park it ends -/
def foldSettledStatus (s : RunState) (node : String) (status : NodeStatus) : RunState :=
  let s := { s with recorded := s.recorded.insert node (.at status) }
  if settlementEndsThePark status then s.endThePark node else s

/-- a settlement the run recorded itself is newer than a landing stated before it, which stops standing -/
def retractStated (s : RunState) (node : String) (outcome : Option String) : RunState :=
  if outcome ≠ some settledFromEvidence ∧ node ∈ s.statedLandings then
    { s with
      statedLandings := s.statedLandings.erase node
      landings := s.landings.erase node
      statedChangeUrls := s.statedChangeUrls.erase node }
  else s

/-- a field written where its record states it -/
def written {V : Type} (m : StrMap V) (node : String) : Option V → StrMap V
  | some v => m.insert node v
  | none => m

/-- what a settlement says its dispatch left behind -/
def foldLeftBehind (s : RunState) (node : String) (settled : Settlement) : RunState :=
  let branches := written s.branches node settled.branch
  let heads := written s.heads node settled.head
  { s with
    branches, heads
    completedSteps := written s.completedSteps node settled.completedSteps
    changeUrls := written s.changeUrls node settled.changeUrl
    bases := written s.bases node settled.base
    branchHeads :=
      match branches[node]?, heads[node]? with
      | some branch, some head => if settled.statesHead then s.branchHeads.insert branch head else s.branchHeads
      | _, _ => s.branchHeads
    landings := written s.landings node settled.landing }

def foldStatus (s : RunState) (node : String) : Option NodeStatus → RunState
  | some status => s.foldSettledStatus node status
  | none => s

def foldOutcome (s : RunState) (node : String) (outcome : Option String) : RunState :=
  { s with outcomes := written s.outcomes node outcome }

def pinSettled (s : RunState) (node : String) : Option NodeStatus → RunState
  | some status => s.pinPreservedBranch node status
  | none => s

/-- a settlement ends any restack its node was in -/
def endTheRestack (s : RunState) (node : String) : RunState := { s with restacking := s.restacking.erase node }

def foldSettled (s : RunState) (node : String) (settled : Settlement) : RunState :=
  let s := (s.foldStatus node settled.status).foldOutcome node settled.outcome
  let s := (s.retractStated node settled.outcome).foldLeftBehind node settled
  (s.pinSettled node settled.status).endTheRestack node

/-- the outcome of a review draft whose checks were read -/
def reviewDrafted : String := "change-review-draft"

def reviewDraftedUnchecked : String := "change-review-draft-unchecked"

def foldChecksRead (s : RunState) (read : NodeChecksRead) : RunState :=
  match read.verdict with
  | .passed | .passedWithSkipped | .noneRequired =>
    if s.outcomes[read.node]? = some reviewDraftedUnchecked then
      { s with outcomes := s.outcomes.insert read.node reviewDrafted }
    else s
  | .failed => s
  | .pending =>
    if s.outcomes[read.node]? = some reviewDrafted ∧ s.heads[read.node]? ≠ some read.head then
      { s with outcomes := s.outcomes.insert read.node reviewDraftedUnchecked }
    else s

/-- releases told to a node's next dispatch: the note is owed to it, and a node held for them returns to the frontier -/
def foldReleaseAdopted (s : RunState) (node note : String) : RunState :=
  { s with
    pendingContext := s.pendingContext.insert node note
    graph := s.graph.modify node (fun n => { n with context := some note }) (Graph.id_context note)
    recorded :=
      if s.recorded[node]?.any (fun r => r.status.awaitsRelease) then s.recorded.erase node else s.recorded }

/-- one dispatch an adoption cleared: its session is named, and its node pinned to the session's branch -/
def abandonOne (s : RunState) (p : String × DispatchSession) : RunState :=
  { s with
    sessions := s.sessions.erase p.1
    graph := s.graph.modify p.1 fun n => { n with branch := some p.2.branch }
    abandoned := s.abandoned.insert p.1 p.2 }

def abandonTheDispatchInFlight (s : RunState) : RunState := s.sessionsInFlight.foldl abandonOne s

/-- a node whose restack its driver died in is done again -/
def restacksAreDone (s : RunState) : RunState :=
  { s with
    recorded := s.restacking.toList.foldl (fun m node => m.insert node (.at .done)) s.recorded
    restacking := ∅ }

/-- what an adoption leaves recorded: nothing running, and a cancellation no longer waiting on a dispatch -/
def settledByAdoption (recorded : StrMap Recorded) : StrMap Recorded :=
  (recorded.filter fun _ r => r.status ≠ .running).map fun _ r =>
    match r with
    | .cancelling _ => .at .parked
    | .at status => .at status

def foldAdopted (s : RunState) : RunState :=
  let s := s.abandonTheDispatchInFlight.restacksAreDone
  { s with recorded := settledByAdoption s.recorded }

/-- one of this crate's own records, at a version this build reads -/
def foldPipeline (host : Host) (s : RunState) (e : Envelope) : RunState :=
  match e.body with
  | .runStarted (some plan) => { s with graph := Graph.fromPlan plan, plan := some plan }
  | .nodeDispatched _ =>
    match e.node with
    | some node => s.foldDispatched node
    | none => s
  | .nodeRequeued =>
    match e.node with
    | some node => { s with recorded := s.recorded.erase node }
    | none => s
  | .nodeSettled settled =>
    match e.node with
    | some node => s.foldSettled node settled
    | none => s
  | .nodeRestackStarted (some node) =>
    { s with
      recorded := s.recorded.insert node (.at .running)
      sessions := s.sessions.erase node
      restacking := s.restacking.insert node }
  | .nodeRestacked (some node) | .nodeReadjusted (some node) => s.endTheRestack node
  | .changeRetitled (some (node, title)) => { s with graph := s.graph.modify node (fun n => { n with title := some title }) (Graph.id_title title) }
  | .nodeLanded (some node) => { s with landings := s.landings.insert node .landed }
  | .nodeAbsorbed (some (node, into)) => { s with absorbed := s.absorbed.insert node into }
  | .nodeChecksRead (some read) => s.foldChecksRead read
  | .editCommitted operations | .commandAccepted operations => s.foldEdit host e operations
  | .releaseAdopted true (some note) =>
    match e.node with
    | some node => s.foldReleaseAdopted node note
    | none => s
  | .humanAttested (some reference) =>
    { s with attestations := s.attestations.insert reference, recorded := s.recorded.insert reference (.at .done) }
  | .driverAdopted _ => s.foldAdopted
  | _ => s

/-- one of this crate's own records kept whole, where it is one a reader reads back -/
def kept (s : RunState) (e : Envelope) : RunState :=
  if recalledWhole s e then { s with recalled := s.recalled ++ [e] } else s

def foldRecord (host : Host) (s : RunState) (e : Envelope) : RunState :=
  match e.body with
  | .driverExited => { s with recalled := s.recalled ++ [e] }
  | .relayed record closes =>
    let s := s.foldRelayed e.node record
    if keepsClosure e closes then { s with recalled := s.recalled ++ [e] } else s
  | _ =>
    if writtenAtAKnownVersion e then (s.kept e).foldPipeline host e else { s with strict := false }

/-- a record of this crate's own, but for a driver's account of its ending -/
theorem foldRecord_pipeline (host : Host) (s : RunState) {e : Envelope} (hp : e.isPipeline = true)
    (hx : ∀ v ts stream seq node, e ≠ ⟨v, ts, stream, seq, node, .driverExited⟩) :
    foldRecord host s e =
      if writtenAtAKnownVersion e then (s.kept e).foldPipeline host e else { s with strict := false } := by
  obtain ⟨v, ts, stream, seq, node, body⟩ := e
  cases body with
  | driverExited => exact absurd rfl (hx v ts stream seq node)
  | relayed => cases hp
  | _ => rfl

/-- a run's whole journal -/
def fold (host : Host) (events : List Envelope) : RunState := events.foldl (foldRecord host) {}

end RunState

end OnePipeline
