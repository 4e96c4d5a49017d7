/-
The compiler of live edits (`src/edits.rs`): one command, judged against the graph and the frontier, answers the mutated
graph and the operations a journal records for it, or a refusal.

Every refusal is the sentence the source prints. What the run's host answers is a parameter, `Host`: the linked
libraries' checks, the serialization a requeue goes through, the files a graph reference opens, the store's assets, the
publication boundary, and the validator a launch named.

`replay` reads the operations back onto a graph, `Replay`'s.
-/
import Mathlib.Tactic
import OnePipeline.Core.Worklist
import OnePipeline.Model.Command

namespace OnePipeline

open Checks

/-- what a host's own validator answered of a node -/
inductive Verdict where
  | pass
  | refuse (said : String)
  | unjudged (said : String)
deriving DecidableEq, Repr

/-- what the run's host answers when an edit is judged -/
structure Host extends Siblings where
  serde : NodeSerde
  /-- a relative graph reference opened against the launch directory, as the graph's path -/
  openGraph : (base reference : String) → Except String String
  /-- the store's refusal of the assets an id names -/
  taskAssets : (base id : String) → Option String
  /-- the publication boundary's refusal of a plan, asked of `onevcs` -/
  boundary : Plan → Option String
  /-- `oneagentgraph`'s refusal of a graph under an ordered list of overrides -/
  graphSets : (reference : String) → (sets : List String) → (context : String) → Option String
  /-- the validator a launch named, asked about one node -/
  judge : (validator : String) → Node → Verdict

/-- a refusal as the error it becomes prints it -/
def Refusal.invalid (r : Refusal) : String := s!"invalid: {r.message}"

/-! ## What an edit states -/

def refuseStatedTaskRecord (op : String) (node : Node) : Except String Unit :=
  refuseIf (node.taskRecord.isSome)
    (s!"{op}: node '{node.id}' states `task_record`, which is read from the task a node came from and never stated by " ++
      "an edit")

def refuseBreakingC6b (node : Node) : Except String Unit := (checkNodeCriteria node).mapError Refusal.invalid

def validateNode (host : Host) (node : Node) : Except String Unit :=
  (checkNode host.toSiblings node).mapError Refusal.invalid

/-- one edge into a node for each dependency it states, at the target it consumes it at -/
def edgesInto (node : Node) : List Operation := node.deps.map fun dep => .edgeAdded dep node.id node.consumes[dep]?

def compileAdd (host : Host) (graph : Graph) (node : Node) : Except String (Graph × List Operation) := do
  refuseIf (graph.contains node.id = true) s!"add: node '{node.id}' already exists"
  refuseStatedTaskRecord "add" node
  validateNode host node
  refuseBreakingC6b node
  pure (graph.insert node, .nodeAdded node none :: edgesInto node)

/-! ## Edges -/

/-- a recorded approval still waiting for its attestation -/
def awaitsAttestation (node : Node) (frontier : Frontier) : Bool :=
  node.kind = .human && frontier.recorded[node.id]? = some .waiting && node.id ∉ frontier.attestations

def reparented (deps : List String) (n : Node) : Node :=
  { n with deps, consumes := n.consumes.filter fun dep _ => dep ∈ deps }

theorem id_reparented (deps : List String) (n : Node) : (reparented deps n).id = n.id := rfl

def compileReparent (graph : Graph) (frontier : Frontier) (id : String) (deps : List String) :
    Except String (Graph × List Operation) := do
  let node ← need (graph.get id) s!"reparent: no node '{id}'"
  refuseIf (id ∈ frontier.recorded ∧ awaitsAttestation node frontier = false)
    s!"reparent: node '{id}' has already started"
  pure (graph.modify id (reparented deps),
    node.deps.map (fun dep => .edgeRemoved dep id) ++ deps.map (fun dep => .edgeAdded dep id node.consumes[dep]?) ++
      [.reparent id node.deps deps])

/-! ## Drops -/

def detached (id : String) (n : Node) : Node :=
  { n with deps := n.deps.filter fun dep => dep ≠ id, consumes := n.consumes.erase id }

/-- the ids a drop takes with it: the dependents of what it takes, and theirs -/
def droppedWith (graph : Graph) (id : String) : List String :=
  let direct := graph.dependentsOf id
  Worklist.drain graph.dependentsOf (Worklist.fuelOf graph.ids direct graph.ids.length) direct [id]

def anchorRefused (graph : Graph) (frontier : Frontier) (target : Node) (direct : List String) : Bool :=
  match target.repo with
  | none => false
  | some repo =>
    (direct.any fun d => (graph.get d).bind Node.repo = some repo && frontier.recorded[d]? ≠ some .done) &&
      !graph.iter.any fun n => n.id ≠ target.id && n.repo = some repo && frontier.recorded[n.id]? = some .done

/-- a list as the ordered set it makes -/
def asSet (ids : List String) : List String := (Std.ExtTreeSet.ofList ids compare : StrSet).toList

def compileDrop (graph : Graph) (frontier : Frontier) (id : String) (dependents : Dependents) (reason : Option String) :
    Except String (Graph × List Operation) := do
  refuseIf ((reason.any Text.isBlank) = true)
    (s!"drop: node '{id}' would be dropped stating an empty reason; say why it is being retired, or state no reason at " ++
      "all")
  let target ← need (graph.get id) s!"drop: no node '{id}'"
  let direct := graph.dependentsOf id
  refuseIf (anchorRefused graph frontier target direct = true) "drop: would remove the last unresolved publication anchor"
  match dependents with
  | .drop =>
    let removed := asSet (droppedWith graph id)
    pure (removed.foldl Graph.remove graph, removed.map fun d => .nodeDropped d .drop)
  | .detach =>
    let graph := direct.foldl (fun g d => g.modify d (detached id)) graph
    pure (graph.remove id, direct.map (fun d => .edgeRemoved id d) ++ [.nodeDropped id .detach])

/-! ## Supersessions: retry and rework -/

/-- a node's edge from `id` moved onto what replaces it, with the target it consumed it at -/
def rewired (id replacement : String) (n : Node) : Node :=
  { n with
    deps := n.deps.map fun dep => if dep = id then replacement else dep
    consumes :=
      match n.consumes[id]? with
      | some target => (n.consumes.erase id).insert replacement target
      | none => n.consumes.erase id }

def rewireOne (id replacement : String) (p : Graph × List Operation) (dependent : String) : Graph × List Operation :=
  let carried := (p.1.get dependent).bind fun n => n.consumes[id]?
  (p.1.modify dependent (rewired id replacement),
    p.2 ++ [.edgeRemoved id dependent, .edgeAdded replacement dependent carried])

/-- `id` leaves the graph for a replacement its dependents are rewired onto; `request` is what asked for it -/
def supersede (graph : Graph) (id : String) (replacement : Node) (request : Operation) : Graph × List Operation :=
  let direct := graph.dependentsOf id
  let p := direct.foldl (rewireOne id replacement.id)
    (graph.insert replacement, request :: .nodeAdded replacement (some id) :: edgesInto replacement)
  (p.1.remove id, p.2 ++ [.nodeDropped id .detach])

/-- a retry may name only one branch -/
def validateRetryPin (node : Node) : Except String Node :=
  match node.branch, node.resume with
  | some branch, some resume =>
    if resume.branch ≠ branch then
      .error (s!"retry: replacement '{node.id}' pins branch '{branch}' but resumes branch '{resume.branch}'; a retry may " ++
        "name only one branch")
    else .ok node
  | _, _ => .ok node

/-- a replacement that names no branch of its own continues the superseded node's -/
def inheritPreservedBranch (node superseded : Node) : Node :=
  if node.branch.isSome || node.resume.isSome then node
  else { node with branch := superseded.branch, resume := superseded.resume }

/-- a resume with no branch beside it pins its own -/
def pinRetryBranch (node : Node) : Node :=
  match node.branch, node.resume with
  | none, some resume => if resume.branch ≠ "" then { node with branch := some resume.branch } else node
  | _, _ => node

/-- what a replacement takes over from the node it supersedes: its dependencies and their targets together -/
def inherited (target replacement : Node) : Node :=
  { replacement with
    deps := if replacement.deps = [] then target.deps else replacement.deps
    consumes := if replacement.deps = [] then target.consumes else replacement.consumes
    delivers := if replacement.delivers = [] then target.delivers else replacement.delivers
    taskRecord := replacement.taskRecord.or target.taskRecord
    classification := replacement.classification.strictest target.classification }

/-- entries pending, the last one taken first, each adding what it leads to that is new -/
def spread (next : String → List String) : ℕ → List String → List String → List String
  | 0, _, seen => seen
  | fuel + 1, pending, seen =>
    match pending.getLast? with
    | none => seen
    | some v =>
      let fresh := (next v).filter fun w => w ∉ seen
      spread next fuel (pending.dropLast ++ fresh) (seen ++ fresh)

/-- the dependents a retry resets: each one is pending once -/
def resetBy (graph : Graph) (id : String) : List String :=
  asSet (spread graph.dependentsOf (graph.ids.length + 1) (graph.dependentsOf id) (graph.dependentsOf id))

/-- the node a retry puts in the place of `target` -/
def retryReplacement (host : Host) (frontier : Frontier) (target node : Node) : Except String Node := do
  let node ← validateRetryPin node
  let consumesAnExport := frontier.exportEdges.any fun edge => edge.to = target.id
  let replacement := if consumesAnExport then node else pinRetryBranch (inheritPreservedBranch node target)
  validateNode host replacement
  refuseBreakingC6b replacement
  pure (inherited target replacement)

def compileRetry (host : Host) (graph : Graph) (frontier : Frontier) (id : String) (node : Node) :
    Except String (Graph × List Operation) := do
  let target ← need (graph.get id) s!"retry: no node '{id}'"
  refuseIf (frontier.recorded[id]? ∉ [some .running, some .failed, some .cancelled])
    s!"retry: node '{id}' is not running, failed, or cancelled"
  refuseIf (Text.isBlank node.id = true) "retry: the replacement needs a non-empty id"
  refuseIf (graph.contains node.id = true) s!"retry: replacement id '{node.id}' must be new"
  refuseStatedTaskRecord "retry" node
  let replacement ← retryReplacement host frontier target node
  pure (supersede graph id replacement (.retryRequested id replacement.id (resetBy graph id)))

/-! ## Parks -/

/-- why a node of a recorded status cannot be parked: only a pending or a running one can -/
def uncancellable (id : String) : Option NodeStatus → Option String
  | none | some .running => none
  | some .waiting =>
    some (s!"cancel: node '{id}' is waiting, not pending or running: a waiting human action is completed with " ++
      "`attest`, or retired with `drop` (its `dependents` `detach` or `drop`, and an optional `reason`)")
  | some status => some s!"cancel: node '{id}' is {status.asStr}, not pending or running"

def compileCancel (graph : Graph) (frontier : Frontier) (author : Author) (id : String) (reason : Option String) :
    Except String (Graph × List Operation) := do
  refuseIf ((reason.any Text.isBlank) = true)
    (s!"cancel: node '{id}' would be parked stating an empty reason; say why it is being held, or state no reason at " ++
      "all")
  let node ← need (graph.get id) s!"cancel: no node '{id}'"
  refuseIf (node.parked = true) s!"cancel: node '{id}' is already parked"
  refuseAs (uncancellable id frontier.recorded[id]?)
  pure (graph.modify id fun n => { n with parked := true }, [.nodeParked id author reason])

/-! ## Requeues -/

def doneWhenRetired : String :=
  "`done_when` is no longer a plan field. A node's review bar is the `## Acceptance criteria` section of its own task, " ++
    "which the judge is handed verbatim; a bar broader than one node belongs in the onejudge base config the " ++
    "node-scope graph's worker already points at, under `user.done_when`"

def verifyViaCiRetired : String :=
  "`verify_via_ci` is no longer a plan field, and nothing ever read it. The host's own required checks are the " ++
    "merge-path verification of a node whose `merge_policy` is `change-auto`, which watches them to their conclusion; a " ++
    "check that concludes red settles the node `checks-failed`, a bound that elapses with one still pending settles it " ++
    "`checks-unsettled`, and one that elapses with nothing red and the host's merge armed is read again until the host " ++
    "lands the change"

def retiredFields : List (String × String) := [("done_when", doneWhenRetired), ("verify_via_ci", verifyViaCiRetired)]

/-- a retired field an object states, named with the object's own id -/
def retiredHere (lookup : String → Option Value) : Option String :=
  (retiredFields.find? fun p => (lookup p.1).isSome).map fun p =>
    match (lookup "id").bind Value.asStr with
    | some id => s!"'{id}': {p.2}"
    | none => p.2

mutual

/-- the first retired field a document states, at any depth -/
def retiredFieldRefusal : Value → Option String
  | .obj fields => (retiredHere fun k => fields.lookup k).or (retiredInFields fields)
  | .arr items => retiredInItems items
  | _ => none

def retiredInFields : List (String × Value) → Option String
  | [] => none
  | (_, v) :: rest => (retiredFieldRefusal v).or (retiredInFields rest)

def retiredInItems : List Value → Option String
  | [] => none
  | v :: rest => (retiredFieldRefusal v).or (retiredInItems rest)

end

def retiredInObject (o : Fields) : Option String := (retiredHere fun k => o[k]?).or (retiredInFields o.toList)

/-- an amendment written over an object -/
def merge (o : Fields) (amend : Option Fields) : Fields :=
  match amend with
  | some a => a.toList.foldl (fun o p => o.insert p.1 p.2) o
  | none => o

/-- whether an amendment states a field -/
def amends (amend : Option Fields) (key : String) : Bool := amend.any fun a => key ∈ a

/-- C6b over what a requeue states: a node it leaves as it was launched is not held to it -/
def checkAmended (amend : Option Fields) (amended : Node) : Except String Unit :=
  if amends amend "task" || amends amend "steps" || amends amend "kind" then refuseBreakingC6b amended else .ok ()

def compileRequeue (host : Host) (graph : Graph) (frontier : Frontier) (author : Author) (id : String)
    (amend : Option Fields) : Except String (Graph × List Operation) := do
  let node ← need (graph.get id) s!"requeue: no node '{id}'"
  refuseIf (node.parked = false) s!"requeue: node '{id}' is not parked"
  let park := frontier.parks[id]?.getD Park.planners
  refuseIf (author.isPlanner = false ∧ park.by ≠ author)
    (s!"requeue: node '{id}' was parked by {park.named}. Undoing that is the parking author's decision rather than an " ++
      "observation: surface it to the planner instead")
  refuseAs (frontier.inFlight[id]?.map fun live =>
    s!"requeue: node '{id}' still has a dispatch in flight ({live.named}); a cancel asks that dispatch to stop rather " ++
      "than stopping it, so wait for the node to settle and requeue it then")
  let forbidden := ["id", "deps"].filter (amends amend)
  refuseIf (forbidden ≠ []) ("requeue: cannot amend " ++ ", ".intercalate forbidden ++ ": use 'add' or 'reparent' for that")
  refuseIf (amends amend "assets_from" = true)
    s!"requeue: node '{id}' cannot amend `assets_from`, which only add and retry may state"
  refuseIf (amends amend "task_record" = true)
    (s!"requeue: node '{id}' cannot amend `task_record`, which is read from the task a node came from and never stated " ++
      "by an edit")
  -- the amendment is merged first and the park taken off after it, so one the amendment states never holds
  let merged := (merge (host.serde.toObject node) amend).erase "parked"
  refuseAs ((retiredInObject merged).map fun retired => s!"requeue: node {retired}")
  let amended ← (host.serde.ofObject merged).mapError fun e => s!"requeue: amended node '{id}' is invalid: {e}"
  let amended := { amended with classification := amended.classification.strictest node.classification }
  validateNode host amended
  checkAmended amend amended
  pure (graph.insert amended, [.nodeRequeued id (amend.filter fun a => !a.isEmpty)])

/-! ## Settlements -/

/-- what a settle states about where its node's work landed -/
inductive StatedAt where
  | unstated
  | landing (landing : StatedLanding)
  | released (landing : StatedLanding)
deriving DecidableEq, Repr

def StatedAt.landing? : StatedAt → Option StatedLanding
  | unstated => none
  | landing l | released l => some l

def statedLanding (sib : Siblings) (id named : String) : Except String StatedLanding :=
  need (StatedLanding.parse sib named)
    (s!"settle: node '{id}' would be settled at a landing of {Text.debug named}, which is neither the commit the change " ++
      "reached its base at — 7 to 64 hexadecimal characters — nor the change request's URL; state one of those, or omit " ++
      "the field")

def oneWordVersion (sib : Siblings) (id : String) (release : StatedRelease) : Except String Unit :=
  refuseIf (usable sib release.version ≠ some release.version)
    (s!"settle: node '{id}' states a release of {release.target} at version {Text.debug release.version}, which is not " ++
      "one word; state the version the release carries, e.g. 0.2.31")

def statedAt (sib : Siblings) (id : String) (landing : Option String) (release : Option StatedRelease) :
    Except String StatedAt :=
  match landing, release with
  | none, none => .ok .unstated
  | some l, none => (statedLanding sib id l).map .landing
  | some l, some r => do
    let landing ← statedLanding sib id l
    oneWordVersion sib id r
    pure (.released landing)
  | none, some r =>
    .error (s!"settle: node '{id}' states the release {r.target} {r.version} and no landing for it to carry; a release is " ++
      "recorded against the landing it carries, so name that landing — the commit the change reached its base at, or " ++
      "the change request's URL")

/-- the ids of a graph as a refusal lists them -/
def named (graph : Graph) : String := ", ".intercalate graph.ids

def correctsTheLanding (frontier : Frontier) (id : String) : StatedAt → Bool
  | .unstated => false
  | .landing l => frontier.statedLandings[id]? ≠ some l
  | .released _ => true

def compileSettle (graph : Graph) (frontier : Frontier) (id : String) (outcome : SettleOutcome) (evidence : String)
    (stated : StatedAt) : Except String (Graph × List Operation) := do
  refuseIf (Text.isBlank evidence = true)
    (s!"settle: node '{id}' would be settled {outcome.asStr} on no evidence at all; the evidence is journalled as the " ++
      "reason the node is in that state, so state what was seen")
  refuseIf (graph.contains id = false) s!"settle: no node '{id}' in this run; it has: {named graph}"
  refuseIf (frontier.recorded[id]? = some (settledStatus outcome) ∧ correctsTheLanding frontier id stated = false)
    (s!"settle: node '{id}' has already settled {outcome.asStr}, so this settles nothing — the record already says " ++
      s!"{outcome.asStr}. A settle stating a **different** outcome is accepted, and so is one stating a different " ++
      "landing or the release that carries it: correcting a record the world has moved past is what this op is for")
  refuseAs (frontier.inFlight[id]?.map fun live =>
    s!"settle: node '{id}' still has a dispatch in flight ({live.named}); that dispatch will settle the node itself, so " ++
      "wait for it and settle it then if it settled wrongly")
  pure (graph.modify id fun n => { n with parked := false },
    .settledFromEvidence id outcome evidence ::
      (stated.landing?.map fun l => Operation.landingFromEvidence id l.reference).toList)

def compileFinding (graph : Graph) (id : Option String) (message : String) (blocking : Bool) :
    Except String (Graph × List Operation) := do
  refuseIf (Text.isBlank message = true) "a finding carries what was found: this one has an empty message"
  refuseAs ((id.filter fun node => !graph.contains node).map fun node =>
    s!"cannot raise a finding about node '{node}', which this run does not have; it has: {named graph}")
  pure (graph, [.findingRaised id message blocking])

def compileAttest (graph : Graph) (frontier : Frontier) (reference : String) : Except String (Graph × List Operation) := do
  refuseIf (reference ∈ frontier.attestations) s!"attest: '{reference}' was already attested"
  refuseIf (frontier.recorded[reference]? ∉ [some .waiting, some .failed])
    (s!"attest: '{reference}' is not a ready, waiting human action, nor a node that settled failed; attest accepts one " ++
      "of those two references")
  pure (graph, [.humanAttested reference])

def compileNote (graph : Graph) (frontier : Frontier) (id : String) (reach : Except String Reach) :
    Except String (Graph × List Operation) := do
  refuseIf (graph.contains id = false) s!"note: no node '{id}'"
  let reach ← reach
  refuseIf (reach.attemptsALiveTurn = false ∧ frontier.recorded[id]? = some .done)
    (reachesNobody id ("it has settled done, so no dispatch of it will ever take the note and `deliver: next` asks for " ++
      "no live delivery"))
  pure (graph, [])

def compileAmend (graph : Graph) (frontier : Frontier) (id text : String) : Except String (Graph × List Operation) := do
  refuseIf (graph.contains id = false) s!"amend: no node '{id}'"
  refuseIf (Text.isBlank text = true) s!"amend: node '{id}': the amendment cannot be blank"
  refuseIf (frontier.recorded[id]? = some .done)
    s!"amend: node '{id}' has settled done, so nothing will read the amendment"
  pure (graph.modify id fun n => { n with amendment := some text }, [.taskAmended id text])

/-! ## Reworks -/

structure Rework where
  id : String
  reason : String
  instruction : String
  comments : List ReworkComment
  title : Option String
  replacement : Option String

def reworkHeading : String := "## Rework"

def reworkSection (rework : Rework) : String :=
  let opening :=
    s!"{reworkHeading}\n\nThis node's change request is in review, and this dispatch reworks it in place: its branch " ++
      "already carries the work below, so build on those commits rather than redoing them.\n\n" ++
      s!"Reason: {Text.trim rework.reason}\n\nInstruction: {Text.trim rework.instruction}\n"
  if rework.comments = [] then opening
  else
    rework.comments.foldl (fun text comment => text ++ s!"- {comment.url}\n")
      (opening ++ "\nThe review comments it answers:\n")

/-- whether an id names a node the run has used -/
def used (graph : Graph) (frontier : Frontier) (id : String) : Bool :=
  graph.contains id || decide (id ∈ frontier.recorded) || decide (id ∈ frontier.superseded) ||
    frontier.superseded.values.any fun «by» => «by» = id

/-- the ids before one in its lineage, the first an entry supersedes with it, each taken once -/
def lineageRootFrom (frontier : Frontier) : ℕ → List String → String → String
  | 0, _, at_ => at_
  | fuel + 1, seen, at_ =>
    match frontier.superseded.toList.find? fun p => p.2 = at_ with
    | some (before, _) => if before ∈ seen then at_ else lineageRootFrom frontier fuel (before :: seen) before
    | none => at_

def lineageRoot (frontier : Frontier) (id : String) : String :=
  lineageRootFrom frontier (frontier.superseded.size + 1) [] id

/-- the lineage from an id on, each id once -/
def lineageFrom (frontier : Frontier) : ℕ → List String → String → List String
  | 0, lineage, _ => lineage
  | fuel + 1, lineage, at_ =>
    match frontier.superseded[at_]? with
    | some next => if next ∈ lineage then lineage else lineageFrom frontier fuel (lineage ++ [next]) next
    | none => lineage

/-- what is still working on one node, as a refusal names it -/
def busyOn (frontier : Frontier) (node whose : String) : Option String :=
  if node ∈ frontier.restacking then some s!"{whose} '{node}' is being restacked"
  else frontier.inFlight[node]?.map fun dispatch => s!"{whose} '{node}' has a dispatch in flight — {dispatch.named}"

def busyAround (graph : Graph) (frontier : Frontier) (id : String) : Option String :=
  let root := lineageRoot frontier id
  let lineage := lineageFrom frontier (frontier.superseded.size + 1) [root] root
  let direct := graph.dependentsOf id
  let above := Worklist.drain graph.dependentsOf (Worklist.fuelOf graph.ids direct graph.ids.length) direct []
  (lineage.findSome? fun node => busyOn frontier node (if node = id then "node" else "its lineage's node")).or
    (above.findSome? fun node => busyOn frontier node "the draft stacked above it")

/-- the first name from the `n`th on that is free -/
def freeFrom (isUsed : String → Bool) (root : String) : ℕ → ℕ → Option String
  | 0, _ => none
  | fuel + 1, n =>
    let candidate := s!"{root}-rework-{n}"
    if isUsed candidate then freeFrom isUsed root fuel (n + 1) else some candidate

/-- more names than the run has used -/
def freeFuel (graph : Graph) (frontier : Frontier) : ℕ :=
  graph.ids.length + frontier.recorded.size + 2 * frontier.superseded.size + 1

def reworkId (graph : Graph) (frontier : Frontier) (rework : Rework) : Except String String :=
  match rework.replacement with
  | some named => do
    refuseIf (Text.isBlank named = true) "rework: the replacement needs a non-empty id"
    refuseIf (used graph frontier named = true) s!"rework: replacement id '{named}' must be new"
    pure named
  | none =>
    need (freeFrom (used graph frontier) (lineageRoot frontier rework.id) (freeFuel graph frontier) 1)
      "an unbounded range always finds a free id"

/-- the node a rework puts in the place of `target`, on the branch it left -/
def reworked (target : Node) (rework : Rework) (id branch : String) : Node :=
  { target with
    id
    branch := some branch
    resume := none
    parked := false
    title := (rework.title.map Text.trim).or target.title
    task := some (Text.trimEnd target.renderedTask ++ "\n\n" ++ reworkSection rework)
    amendment := none
    context := none }

def checkReworkTitle (host : Host) (rework : Rework) : Except String Unit :=
  match rework.title with
  | some title =>
    (validateSubject host.toSiblings title).mapError fun why =>
      s!"rework: node '{rework.id}': the title {Text.debug title}: {why}"
  | none => .ok ()

def compileRework (host : Host) (graph : Graph) (frontier : Frontier) (rework : Rework) :
    Except String (Graph × List Operation) := do
  let id := rework.id
  let target ← need (graph.get id) s!"rework: no node '{id}'"
  refuseIf (target.repo = none)
    (s!"rework: node '{id}' is not a lifecycle node: it names no repo, so it has no branch or change request to rework")
  refuseAs ((busyAround graph frontier id).map fun busy => s!"rework: {busy}; rework node '{id}' once it settles")
  refuseIf (frontier.recorded[id]? ≠ some .done)
    (s!"rework: node '{id}' is " ++ (frontier.recorded[id]?.map NodeStatus.asStr).getD "not started" ++ ", not done; a rework " ++
      "takes a node settled as a review draft, and `retry` is the op for one that is running, failed or cancelled")
  refuseIf (frontier.landings[id]? = some .landed)
    (s!"rework: node '{id}''s change landed, so there is no open change request to rework; build on the landed work with " ++
      "`add`")
  refuseAs (frontier.absorbed[id]?.map fun into =>
    s!"rework: node '{id}''s change request was merged into the branch of '{into}', so its work is in '{into}''s draft " ++
      s!"now; rework '{into}' instead")
  let branch ← need frontier.branches[id]?
    s!"rework: node '{id}' has no branch on the run's record, so there is nothing to rework it on"
  refuseIf (Text.isBlank rework.reason = true) s!"rework: node '{id}': the reason cannot be blank"
  refuseIf (Text.isBlank rework.instruction = true) s!"rework: node '{id}': the instruction cannot be blank"
  checkReworkTitle host rework
  let replacementId ← reworkId graph frontier rework
  let replacement := reworked target rework replacementId branch
  validateNode host replacement
  pure (supersede graph id replacement
    (.reworkRequested id replacementId (Text.trim rework.reason) (Text.trim rework.instruction) rework.comments
      (rework.title.map Text.trim)))

/-! ## Change requests -/

/-- whether a node's change request is open on the run's record -/
def openChange (frontier : Frontier) (id : String) : Bool :=
  decide (id ∈ frontier.changeUrls) && frontier.landings[id]? ≠ some .landed

def compileRetitle (host : Host) (graph : Graph) (frontier : Frontier) (id title reason : String) :
    Except String (Graph × List Operation) := do
  let node ← need (graph.get id) s!"retitle: no node '{id}'"
  refuseIf (node.repo = none)
    s!"retitle: node '{id}' is not a lifecycle node: it names no repo, so it has no change request to retitle"
  refuseIf (openChange frontier id = false)
    s!"retitle: node '{id}' has no open change request on the run's record to retitle"
  (validateSubject host.toSiblings title).mapError fun why =>
    s!"retitle: node '{id}': the title {Text.debug title}: {why}"
  refuseIf (Text.isBlank reason = true) s!"retitle: node '{id}': the reason cannot be blank"
  pure (graph.modify id fun n => { n with title := some (Text.trim title) },
    [.retitled id none (Text.trim title) (Text.trim reason)])

/-- the comments of a decline, each with the ids of the ones before it -/
def checkComments (sib : Siblings) (id : String) : List String → List ReworkComment → Except String Unit
  | _, [] => .ok ()
  | earlier, c :: rest => do
    refuseIf (Text.isBlank c.id = true ∨ c.id.toList.any Text.isControl = true ∨ sib.isUrl c.url = false)
      s!"decline: node '{id}': {Text.debug c.id} at {Text.debug c.url} is not a comment's id and URL"
    refuseIf (c.id ∈ earlier) s!"decline: node '{id}' names comment {c.id} twice"
    checkComments sib id (c.id :: earlier) rest

def compileDecline (host : Host) (graph : Graph) (frontier : Frontier) (id : String) (comments : List ReworkComment)
    (reason : String) : Except String (Graph × List Operation) := do
  let node ← need (graph.get id) s!"decline: no node '{id}'"
  refuseIf (node.repo = none)
    s!"decline: node '{id}' is not a lifecycle node: it names no repo, so it has no draft to carry review comments"
  refuseIf (openChange frontier id = false) s!"decline: node '{id}' has no open change request on the run's record"
  refuseIf (comments = []) s!"decline: node '{id}': name at least one comment to decline"
  checkComments host.toSiblings id [] comments
  pure (graph, [.declineApplied id comments reason []])

/-! ## One command -/

/-- a recorded status no later dispatch of the node follows -/
def isFinished : Option NodeStatus → Bool
  | some .done | some .failed | some .skipped => true
  | _ => false

def compileSetNodeSets (graph : Graph) (frontier : Frontier) (id : String) (sets : List String) :
    Except String (Graph × List Operation) := do
  refuseIf (graph.contains id = false) s!"set-node-sets: no node '{id}'"
  refuseIf (isFinished frontier.recorded[id]? = true) s!"set-node-sets: node '{id}' is settled"
  pure (graph.modify id fun n => { n with sets }, [.nodeSetsReplaced id sets])

def compileInto (host : Host) (graph : Graph) (frontier : Frontier) (author : Author) :
    Command → Except String (Graph × List Operation)
  | .setNodeSets id sets => compileSetNodeSets graph frontier id sets
  | .setRunNodeSets sets => do
    each (fun entry => refuseAs ((host.parseSet entry).map fun why =>
      s!"set-run-node-sets: invalid entry {Text.debug entry}: {why}")) sets
    pure (graph, [.runNodeSetsReplaced sets])
  | .review => .error "review discovery must be requested alone"
  | .readjust => .error "a readjustment must be requested alone"
  | .add node => compileAdd host graph node
  | .drop id dependents reason => compileDrop graph frontier id dependents reason
  | .reparent id deps => compileReparent graph frontier id deps
  | .retry id node => compileRetry host graph frontier id node
  | .cancel id reason => compileCancel graph frontier author id reason
  | .requeue id amend => compileRequeue host graph frontier author id amend
  | .settle id outcome evidence landing release => do
    let stated ← statedAt host.toSiblings id landing release
    compileSettle graph frontier id outcome evidence stated
  | .attest reference => compileAttest graph frontier reference
  | .complete reason => .ok (graph, [.completionRequested reason])
  | .amend id text => compileAmend graph frontier id text
  | .note id _ _ _ deliver persist seconds => compileNote graph frontier id (Reach.of id deliver persist seconds)
  | .withdrawNote .. => .ok (graph, [])
  | .finding message blocking id => compileFinding graph id message blocking
  | .rework id reason instruction comments title replacement =>
    compileRework host graph frontier { id, reason, instruction, comments, title, replacement }
  | .retitle id title reason => compileRetitle host graph frontier id title reason
  | .decline id comments reason => compileDecline host graph frontier id comments reason

/-! ## Graph overrides -/

def graphSettingRequiresValidation : Command → Bool
  | .setNodeSets .. | .setRunNodeSets .. => true
  | .add node | .retry _ node =>
    !node.sets.isEmpty || node.agentGraph.isSome || (node.steps.getD []).any fun s => s.agentGraph.isSome
  | .requeue _ amend => amends amend "sets" || amends amend "agent_graph" || amends amend "steps"
  | _ => false

/-- a graph reference against the launch directory; a URL and an absolute path are as they stand -/
def resolveGraph (host : Host) (reference base : String) : Except String String :=
  if Text.isBlank reference then
    .error "invalid: graph reference is blank: name a path, an `https://` URL, or no graph at all"
  else if Text.startsWith "https://".toList reference.toList || Text.startsWith ['/'] reference.toList then .ok reference
  else host.openGraph base reference

def resolveOption (host : Host) (base : String) : Option String → Except String (Option String)
  | some reference => (resolveGraph host reference base).map some
  | none => .ok none

def resolveSteps (host : Host) (base : String) : List Step → Except String (List Step)
  | [] => .ok []
  | s :: steps => do
    let agentGraph ← resolveOption host base s.agentGraph
    let rest ← resolveSteps host base steps
    pure ({ s with agentGraph } :: rest)

def resolveNodeGraphs (host : Host) (base : String) (node : Node) : Except String Node := do
  let agentGraph ← resolveOption host base node.agentGraph
  match node.steps with
  | some steps => do
    let steps ← resolveSteps host base steps
    pure { node with agentGraph, steps := some steps }
  | none => pure { node with agentGraph }

/-- a JSON value resolved where it spells a reference -/
def resolveWritten (host : Host) (id base : String) (v : Value) : Except String Value :=
  match v with
  | .str written => ((resolveGraph host written base).map .str).mapError fun why => s!"requeue: node '{id}': {why}"
  | v => .ok v

def resolveStepFields (host : Host) (id base : String) : List (String × Value) → Except String (List (String × Value))
  | [] => .ok []
  | (k, v) :: rest => do
    let v ← if k = "agent_graph" then resolveWritten host id base v else .ok v
    let rest ← resolveStepFields host id base rest
    pure ((k, v) :: rest)

def resolveStepItems (host : Host) (id base : String) : List Value → Except String (List Value)
  | [] => .ok []
  | .obj fields :: rest => do
    let fields ← resolveStepFields host id base fields
    let rest ← resolveStepItems host id base rest
    pure (.obj fields :: rest)
  | v :: rest => do
    let rest ← resolveStepItems host id base rest
    pure (v :: rest)

def resolveAmendedGraph (host : Host) (id base : String) (amend : Fields) : Except String Fields :=
  match amend["agent_graph"]? with
  | some reference => (resolveWritten host id base reference).map fun v => amend.insert "agent_graph" v
  | none => .ok amend

def resolveAmendedGraphs (host : Host) (id base : String) (amend : Fields) : Except String Fields := do
  let amend ← resolveAmendedGraph host id base amend
  match amend["steps"]? with
  | some (.arr steps) => (resolveStepItems host id base steps).map fun items => amend.insert "steps" (.arr items)
  | _ => .ok amend

/-- a command with its graph references resolved against the launch directory, where a caller holds one -/
def resolveCommand (host : Host) (frontier : Frontier) (command : Command) : Except String Command :=
  match frontier.graphValidation with
  | none => .ok command
  | some context =>
    match command with
    | .add node =>
      ((resolveNodeGraphs host context.launchDir node).map .add).mapError fun why => s!"node '{node.id}': {why}"
    | .retry id node =>
      ((resolveNodeGraphs host context.launchDir node).map (.retry id)).mapError fun why => s!"node '{node.id}': {why}"
    | .requeue id (some amend) =>
      (resolveAmendedGraphs host id context.launchDir amend).map fun a => .requeue id (some a)
    | command => .ok command

def checkAssets (host : Host) (frontier : Frontier) : Command → Except String Unit
  | .add node | .retry _ node =>
    match node.assetsFrom with
    | none => .ok ()
    | some id => do
      let context ← need frontier.graphValidation "assets_from requires the run's launch directory"
      refuseAs ((host.taskAssets context.launchDir id).map fun why => s!"assets_from {id}: {why}")
  | _ => .ok ()

/-- the overrides of one dispatch, in precedence order -/
def dispatchSets (runSets : List String) (persona : Option String) (controls nodeSets : List String) : List String :=
  runSets ++ (persona.map fun p => s!"members.{workerMember}.persona={p}").toList ++ controls ++ nodeSets

def checkDispatch (host : Host) (runSets nodeSets : List String) (graph context : String) (persona : Option String)
    (maxTurns : Option UInt32) : Except String Unit := do
  let own ← (controls maxTurns).mapError fun why => s!"invalid: {why}"
  refuseAs ((host.graphSets graph (dispatchSets runSets persona own nodeSets) context).map fun why => s!"invalid: {why}")

def validateDispatchSets (host : Host) (node : Node) (defaultGraph : String) (runSets : List String) :
    Except String Unit :=
  if node.kind = .human ∨ node.expectsNoDiff ∨ (runSets = [] ∧ node.sets = []) then .ok ()
  else
    match node.steps with
    | some steps =>
      let agents := steps.filter fun s => s.kind = .agent && !s.expectsNoDiff
      do
        refuseIf (agents = [] ∧ node.sets ≠ []) s!"invalid: node '{node.id}' has sets but no agent step to dispatch"
        each (fun s => checkDispatch host runSets node.sets ((s.agentGraph.or node.agentGraph).getD defaultGraph)
          s!"node '{node.id}' step '{s.id}'" s.persona s.maxTurns) agents
    | none =>
      checkDispatch host runSets node.sets (node.agentGraph.getD defaultGraph) s!"node '{node.id}'" node.persona
        node.maxTurns

/-- whether a command changes the overrides of a node's future dispatches -/
def affects (command : Command) (id : String) : Bool :=
  match command with
  | .setNodeSets i _ | .requeue i _ => i = id
  | .add node | .retry _ node => node.id = id
  | .setRunNodeSets _ => true
  | _ => false

def checkOverrides (host : Host) (frontier : Frontier) (command : Command) (candidate : Graph) : Except String Unit :=
  match frontier.graphValidation with
  | none => .ok ()
  | some context =>
    let runSets := match command with
      | .setRunNodeSets sets => sets
      | _ => frontier.runNodeSets.getD context.launchNodeSets
    each (fun n =>
      if affects command n.id = false ∨ isFinished frontier.recorded[n.id]? then .ok ()
      else validateDispatchSets host n context.defaultGraph runSets) candidate.iter

/-! ## The host's own validator -/

/-- the node whose task a command puts in front of a dispatch -/
def nodeWhoseTaskIsNew (command : Command) (graph : Graph) : Option Node :=
  match command with
  | .add node | .retry _ node => graph.get node.id
  | .amend id _ => graph.get id
  | .requeue id amend => if amends amend "task" then graph.get id else none
  | _ => none

/-- as much of a text as a number of bytes holds -/
def withinBytes : ℕ → List Char → List Char
  | _, [] => []
  | n, c :: cs => if c.utf8Size ≤ n then c :: withinBytes (n - c.utf8Size) cs else []

/-- what a hook said, as a refusal carries it -/
def hookWords (sib : Siblings) (said otherwise : String) : String :=
  let kept := withinBytes sib.maxPayloadTextBytes said.toList
  let line := Text.trim (String.ofList (kept.map fun c => if Text.isControl c then ' ' else c))
  if line = "" then otherwise else line

def offerToValidator (host : Host) (validator : Option String) (command : Command) (node : Node) : Except String Unit :=
  match validator.filter fun v => !Text.isBlank v with
  | none => .ok ()
  | some v =>
    match host.judge v node with
    | .pass => .ok ()
    | .refuse said =>
      .error (s!"{opOf command}: the node validator refused node '{node.id}': " ++
        hookWords host.toSiblings said "it refused and said nothing on stderr")
    | .unjudged said =>
      .error (s!"{opOf command}: the node validator '{v}' this run was launched with gave no verdict on node " ++
        s!"'{node.id}' — " ++ hookWords host.toSiblings said "it gave no reason" ++ " — so it was checked by nothing and the " ++
        "edit was not applied")

def offerNewTask (host : Host) (frontier : Frontier) (command : Command) (candidate : Graph) : Except String Unit :=
  match nodeWhoseTaskIsNew command candidate with
  | some node => offerToValidator host frontier.nodeValidator command node
  | none => .ok ()

/-! ## The compiler -/

/-- the export edges after a command: a retry re-points every edge naming the node it supersedes -/
def edgesAfter (command : Command) (edges : List ExportEdge) : List ExportEdge :=
  match command with
  | .retry id node => edgesNow edges ((∅ : StrMap String).insert id node.id)
  | _ => edges

/-- a command that leaves no edited graph to check -/
def leavesTheGraph : Command → Bool
  | .complete .. | .attest .. | .finding .. | .settle .. => true
  | _ => false

/-- the plan an edited graph is checked as -/
def editedPlan (candidate : Graph) (edges : List ExportEdge) : Plan :=
  { schemaVersion := planSchemaVersion, concurrency := candidate.concurrency, tasks := candidate.iter, exportEdges := edges }

/-- the publication boundary, where a caller holds the launch record -/
def checkBoundary (host : Host) (frontier : Frontier) (plan : Plan) : Except String Unit :=
  match frontier.graphValidation with
  | none => .ok ()
  | some _ => refuseAs (host.boundary plan)

/-- the edited graph against the plan schema; a boundary refusal is answered before a graph's -/
def checkCandidate (host : Host) (frontier : Frontier) (command : Command) (candidate : Graph) : Except String Unit :=
  if leavesTheGraph command then .ok ()
  else
    let plan := editedPlan candidate (edgesAfter command frontier.exportEdges)
    do
      checkBoundary host frontier plan
      (checkEdited host.toSiblings plan).mapError Refusal.invalid

/-- one command against the frontier: the mutated graph and the operations it records -/
def compile (host : Host) (graph : Graph) (frontier : Frontier) (author : Author) (command : Command) :
    Except String (Graph × List Operation) := do
  refuseIf (graphSettingRequiresValidation command = true ∧ frontier.graphValidation = none)
    "graph overrides require the run's resolved graph validation context"
  let resolved ← resolveCommand host frontier command
  checkAssets host frontier resolved
  let (candidate, operations) ← compileInto host graph frontier author resolved
  checkCandidate host frontier command candidate
  checkOverrides host frontier command candidate
  offerNewTask host frontier command candidate
  pure (candidate, operations)

/-! ## A host to evaluate an edit under -/

/-- a host that refuses nothing -/
def Host.lenient : Host where
  parseSet _ := none
  sourceName _ := none
  identity r := .ok r
  acceptedOpaque _ := none
  subjectLimit := 72
  maxPayloadTextBytes := 4096
  isUrl _ := false
  serde := .derived
  openGraph _ r := .ok r
  taskAssets _ _ := none
  boundary _ := none
  graphSets _ _ _ := none
  judge _ _ := .pass

/-- a direct agent node -/
def Node.direct (id : String) (deps : List String) : Node :=
  { id, deps, persona := some "worker", task := some "## Acceptance criteria\n\n- it is done" }

/-- the graph of a list of nodes -/
def Graph.ofNodes (nodes : List Node) : Graph := nodes.foldl Graph.insert (Graph.withConcurrency 1)

/-- a plan of direct agent nodes -/
def Plan.ofNodes (tasks : List Node) : Plan := { schemaVersion := planSchemaVersion, concurrency := 1, tasks }

/-- the plan of one agent node -/
def Plan.single : Plan := .ofNodes [.direct "a" []]

end OnePipeline
