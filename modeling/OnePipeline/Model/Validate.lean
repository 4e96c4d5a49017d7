/-
What a plan may say (`src/graph.rs`: `check`, `check_edited`, `check_node`; `src/boundary.rs`: `check_edges`), with the
refusal each rule answers.

What the linked libraries answer is a parameter, `Siblings`: whether an override list's entry parses, whether a word
names a store source, which identity a repository resolves to, whether a list of accepted opaque content is usable.
-/
import Mathlib.Tactic
import OnePipeline.Core.Checks
import OnePipeline.Core.Dfs
import OnePipeline.Model.Graph
import OnePipeline.Model.Task

namespace OnePipeline

open Checks

/-- what the linked libraries answer when a plan is checked; each refusal is the library's own words -/
structure Siblings where
  /-- `oneagentgraph::run::parse_set`'s refusal of an override entry -/
  parseSet : String → Option String
  /-- the store's refusal of a source name -/
  sourceName : String → Option String
  /-- `onevcs::release_targets`: the identity a repository's spelling resolves to -/
  identity : String → Except String String
  /-- `onevcs::validate_accepted_opaque`'s refusal -/
  acceptedOpaque : List String → Option String
  /-- `onevcs::provenance::SUBJECT_LIMIT` -/
  subjectLimit : ℕ
  /-- `onemessagebus::MAX_PAYLOAD_TEXT_BYTES` -/
  maxPayloadTextBytes : ℕ
  /-- whether `onevcs::Url::parse` reads a URL served over `http` or `https` -/
  isUrl : String → Bool

section

variable (sib : Siblings)

/-! ## Titles -/

def validateTitle (title : String) : Except String Unit := do
  let title := Text.trim title
  refuseIf (title = "") "the title is blank, and a publication needs a subject"
  refuseIf (title.utf8ByteSize > sib.subjectLimit)
    (s!"the title is {title.utf8ByteSize} characters, over the {sib.subjectLimit}-character limit onevcs " ++
      "holds a publication subject to")

def notConventional (why : String) : String := "it is not a Conventional Commit subject: " ++ why

/-- a lowercase word of a subject's type -/
def isTypeWord (l : List Char) : Bool :=
  !l.isEmpty && l.all fun c => (97 ≤ c.toNat && c.toNat ≤ 122) || isAsciiDigit c || c = '-'

/-- the type and the scope of a subject's head, where its scope is closed -/
def subjectScope (head : List Char) : Option (List Char × Option (List Char)) :=
  match Text.splitOnce ['('] head with
  | none => some (head, none)
  | some (kind, rest) =>
    match rest.reverse with
    | ')' :: scope => some (kind, some scope.reverse)
    | _ => none

def validateSubject (title : String) : Except String Unit := do
  validateTitle sib title
  let title := (Text.trim title).toList
  refuseIf (title.any Text.isControl = true)
    "it is not one subject line: it carries a line break or another control character"
  let (head, _) ← need (Text.splitOnce ": ".toList title) (notConventional "it has no `type: description` separator")
  let head := match head.reverse with
    | '!' :: l => l.reverse
    | _ => head
  let (kind, scope) ← need (subjectScope head) "its scope is not closed by `)`"
  refuseIf (isTypeWord kind = false) (notConventional s!"its type {Text.debug (String.ofList kind)} is not a lowercase word")
  refuseIf ((scope.any fun s => (trimChars s).isEmpty || s.contains '(' || s.contains ')') = true)
    (notConventional "its scope is empty")

/-! ## Controls (`src/controls.rs`) -/

def workerMember : String := "worker"

def zeroTurns : String :=
  "`max_turns: 0` lets the dispatch take no turn at all; omit it to run under the agent graph's own ceiling"

/-- the overrides a node's or a step's turn budget renders to -/
def controls (maxTurns : Option UInt32) : Except String (List String) :=
  match maxTurns with
  | none => .ok []
  | some budget => if budget = 0 then .error zeroTurns else .ok [s!"members.{workerMember}.max_turns={budget}"]

/-! ## One node -/

def prAuthorPersona : String := "pr-author"

def replyPersona : String := "review-reply"

def reservedPersona : String :=
  "`pr-author` is the persona this crate dispatches a      change request's drafting under, so a node's own " ++
    "worker cannot run as it"

def reservedReplyPersona : String :=
  "`review-reply` is the persona this crate dispatches a review comment's reply drafting under, so a node's own " ++
    "worker cannot run as it"

/-- `taskgraph::QualifiedId::try_from`'s refusal -/
def qualifiedId (whole : String) : Option String :=
  let refused (why : String) :=
    s!"'{whole}' is not a qualified onetaskgraph id{why}; write it as <source>:<native>, for example " ++
      "plan-store:ship-the-widget"
  match Text.splitOnce [':'] whole.toList with
  | some (source, native) =>
    if native.isEmpty then some (refused "")
    else (sib.sourceName (String.ofList source)).map fun error => refused s!": {error}"
  | none => some (refused "")

def blankTask (task : Option String) : Bool := (task.map Text.isBlank).getD true

/-- what a step of its kind may state -/
def checkStepKind (node : Node) (step : Step) : Except Refusal Unit :=
  let named (what : String) := (Refusal.ofNode node.id what).withField "steps"
  if step.kind = .human then do
    refuseIf ('/' ∈ step.id.toList) (named s!"human step '{step.id}' cannot contain '/', which addresses it")
    refuseIf (step.persona.isSome ∨ step.maxTurns.isSome ∨ step.expectsNoDiff)
      (named s!"human step '{step.id}' has no dispatch, so no persona, turn budget, or expects_no_diff")
  else if step.expectsNoDiff then
    refuseIf (step.persona.isSome ∨ step.maxTurns.isSome)
      (named s!"step '{step.id}': expects_no_diff settles without a dispatch")
  else do
    refuseIf (step.persona = none) (named s!"agent step '{step.id}' needs a persona")
    refuseIf (step.persona = some prAuthorPersona) (named s!"step '{step.id}': {reservedPersona}")
    refuseIf (step.persona = some replyPersona) (named s!"step '{step.id}': {reservedReplyPersona}")
    let _ ← (controls step.maxTurns).mapError fun why => named s!"step '{step.id}': {why}"

def checkStep (node : Node) (earlier : List String) (step : Step) : Except Refusal Unit :=
  let named (what : String) := (Refusal.ofNode node.id what).withField "steps"
  do
    refuseIf (Text.isBlank step.id = true) (named "every step needs a non-empty id")
    refuseIf (step.id ∈ earlier) (named s!"duplicate step id '{step.id}'")
    checkStepKind node step
    refuseIf (blankTask step.task = true) (named s!"step '{step.id}' needs task prose")

/-- the steps in order, each with the ids of the ones before it -/
def checkStepShapes (node : Node) : List String → List Step → Except Refusal Unit
  | _, [] => .ok ()
  | earlier, step :: steps => checkStep node earlier step >>= fun _ => checkStepShapes node (step.id :: earlier) steps

def checkSteps (node : Node) (steps : List Step) : Except Refusal Unit :=
  let named (what : String) := (Refusal.ofNode node.id what).withField "steps"
  do
    refuseIf (steps = []) (named "a steps list cannot be empty")
    checkStepShapes node [] steps
    each (fun step => each (fun dep => do
      refuseIf (dep = step.id) (named s!"step '{step.id}' depends on itself")
      refuseIf (dep ∉ steps.map Step.id)
        (named s!"step '{step.id}' depends on '{dep}', which is not a step of this node")) step.deps) steps

/-- a node stating `preserve` that leaves no branch to keep, as its refusal names it -/
def keepsNothing (node : Node) : Option String :=
  if node.kind = .human then some "a `kind: human` node"
  else if node.expectsNoDiff then some "an `expects_no_diff` node"
  else if node.repo = none then some "a direct node"
  else none

def checkPreserve (node : Node) : Except Refusal Unit :=
  if node.publish = .preserve then do
    refuseAs ((keepsNothing node).map fun what =>
      (Refusal.ofNode node.id (preserveNeedsABranch what)).withField "publish")
    refuseIf (node.draft = true) ((Refusal.ofNode node.id preserveBesideDraft).withField "publish")
  else .ok ()

def checkHuman (node : Node) : Except Refusal Unit :=
  let named := Refusal.ofNode node.id
  do
    refuseIf ('/' ∈ node.id.toList) ((named "a human id cannot contain '/', which addresses a step").withField "id")
    refuseIf (blankTask node.task = true) ((named "a human node needs task prose").withField "task")
    refuseIf (node.persona.isSome ∨ node.maxTurns.isSome)
      ((named "a human node has no dispatch, so no persona or turn budget").withField
        (if node.persona.isSome then "persona" else "max_turns"))
    refuseIf (node.repo.isSome ∨ node.steps.isSome ∨ node.expectsNoDiff)
      ((named "a human node has no execution fields").withField
        (if node.repo.isSome then "repo" else if node.steps.isSome then "steps" else "expects_no_diff"))
    refuseIf (node.context.isSome)
      ((named "a planner note is addressed to a dispatch, and a human node has none").withField "context")

def checkNoDiff (node : Node) : Except Refusal Unit :=
  let named := Refusal.ofNode node.id
  do
    refuseIf (blankTask node.task = true) ((named "an expects_no_diff node needs task prose").withField "task")
    refuseIf (node.persona.isSome ∨ node.maxTurns.isSome)
      ((named "expects_no_diff settles without a dispatch, so it takes no persona or turn budget").withField
        (if node.persona.isSome then "persona" else "max_turns"))
    refuseIf (node.steps.isSome) ((named "expects_no_diff and steps cannot both be set").withField "steps")

def checkAgent (node : Node) : Except Refusal Unit :=
  let named := Refusal.ofNode node.id
  do
    let _ ← (controls node.maxTurns).mapError fun why => (named why).withField "max_turns"
    match node.repo, node.steps with
    | none, some _ => .error ((named "steps run on one branch, so they need a repo").withField "repo")
    | none, none =>
      refuseIf (node.persona = none) ((named "a direct agent node needs a persona").withField "persona")
      refuseIf (blankTask node.task = true) ((named "a direct agent node needs task prose").withField "task")
    | some _, some steps =>
      refuseIf (node.persona.isSome ∨ node.task.isSome ∨ node.maxTurns.isSome)
        ((named "a node with steps takes its persona, task, and turn budget from them").withField
          (if node.persona.isSome then "persona" else if node.task.isSome then "task" else "max_turns"))
      checkSteps node steps
    | some _, none =>
      refuseIf (node.persona = none) ((named "a lifecycle node needs a persona or steps").withField "persona")
      refuseIf (blankTask node.task = true) ((named "a lifecycle node needs task prose").withField "task")

/-- the title of a node that publishes -/
def checkTitle (node : Node) : Except Refusal Unit :=
  match node.repo, node.title with
  | some _, some title => (validateTitle sib title).mapError fun why => (Refusal.ofNode node.id why).withField "title"
  | _, _ => .ok ()

/-- the rules that read a node's own fields and not its kind -/
def checkFields (node : Node) : Except Refusal Unit :=
  let named := Refusal.ofNode node.id
  do
    each (fun entry => refuseAs ((sib.parseSet entry).map fun why =>
      (named s!"invalid `sets` entry {Text.debug entry}: {why}").withField "sets")) node.sets
    refuseIf (node.sets ≠ [] ∧ (node.kind = .human ∨ node.expectsNoDiff))
      ((named "`sets` needs an agent dispatch; this node has none").withField "sets")
    refuseIf (node.persona = some prAuthorPersona) ((named reservedPersona).withField "persona")
    refuseIf (node.persona = some replyPersona) ((named reservedReplyPersona).withField "persona")
    checkPreserve node
    each (fun entry => refuseAs ((qualifiedId sib entry).map fun why =>
      (named s!"`delivers` names '{entry}', which is not a qualified task id: {why}").withField "delivers")) node.delivers
    checkTitle sib node
    refuseIf ((node.amendment.any Text.isBlank) = true)
      ((named ("`amendment` is present and says nothing — give it the ruling it carries, or leave " ++
        "it out")).withField "amendment")
    each (fun consumed => refuseIf (consumed ∉ node.deps)
      ((named s!"`consumes` names '{consumed}', which is not one of this node's deps").withField "consumes"))
      node.consumes.keys

def checkNode (node : Node) : Except Refusal Unit := do
  checkFields sib node
  if node.kind = .human then checkHuman node
  else if node.expectsNoDiff then checkNoDiff node
  else checkAgent node

/-- C6b over one task, where there is one -/
def checkTaskCriteria (task : Option String) (refused : CriteriaRule → Refusal) : Except Refusal Unit :=
  match task with
  | some task => (checkCriteria task).mapError refused
  | none => .ok ()

/-- C6b over one node and its agent steps -/
def checkNodeCriteria (node : Node) : Except Refusal Unit :=
  if node.kind = .human then .ok ()
  else do
    checkTaskCriteria node.task fun rule => (Refusal.ofNode node.id rule.asStr).withField "task"
    each (fun step =>
      if step.kind = .human then .ok ()
      else checkTaskCriteria step.task fun rule =>
        (Refusal.ofNode node.id s!"step '{step.id}': {rule.asStr}").withField "steps") (node.steps.getD [])

/-! ## Export edges (`src/boundary.rs`) -/

def boundarySummary : String :=
  "Private work reaches a public task only by generalize -> preserve -> export -> consume, inside one private " ++
    "coordinating plan whose tasks each keep their own visibility: " ++
    "generalize: Write the private work as a generic example inside one neutral directory, on a private task that " ++
    "publishes with `publish: \"preserve\"`. " ++
    "preserve: The engine keeps that producer's branch on its own origin rather than landing it. " ++
    "export: The engine exports only that directory, as one neutral commit on the public repository's base, " ++
    "carrying no private history, name, path or author. " ++
    "consume: The public task depends on the producer through an entry of the project's " ++
    "`onepipeline.export_edges` — `\x7bfrom, to, source_directory, target_directory\x7d` — and its session starts " ++
    "from that commit; its id, title and task name nothing private."

def refusedPlan (what : String) : Refusal := Refusal.plain s!"{what} {boundarySummary}"

/-- a relative, normalized directory -/
def normalized (directory : String) : Bool :=
  directory ≠ "" && !Text.startsWith ['/'] directory.toList && '\\' ∉ directory.toList &&
    (Text.split ['/'] directory.toList).all fun s => s ≠ [] && s ≠ ['.'] && s ≠ ['.', '.'] && s ≠ ".git".toList

def isExport (plan : Plan) (dep node : String) : Bool :=
  plan.exportEdges.any fun edge => edge.from = dep && edge.to = node

/-- the replacement an id was last superseded by, each step taken once -/
def latest (superseded : StrMap String) : ℕ → List String → String → String
  | 0, _, id => id
  | fuel + 1, seen, id =>
    match superseded[id]? with
    | some next => if id ∈ seen then id else latest superseded fuel (id :: seen) next
    | none => id

/-- export edges with each end following its retries: a walk sees each superseded id at most twice -/
def edgesNow (edges : List ExportEdge) (superseded : StrMap String) : List ExportEdge :=
  edges.map fun edge =>
    { edge with
      «from» := latest superseded (superseded.size + 1) [] edge.from
      «to» := latest superseded (superseded.size + 1) [] edge.to }

/-- the edges seen so far: the number of each pair of ends, and of each consumer -/
structure EdgesSeen where
  ends : List ((String × String) × ℕ) := []
  consumers : List (String × ℕ) := []

def checkEdge (ids : List String) (seen : EdgesSeen) (number : ℕ) (edge : ExportEdge) : Except Refusal Unit :=
  let refused (what : String) := (refusedPlan what).withField "export_edges"
  do
    refuseAs ((sib.acceptedOpaque edge.acceptedOpaque).map fun error => refused s!"export edge {number}: {error}")
    each (fun e => refuseIf (e ∉ ids)
      (refused (s!"export edge {number} is dangling: its `" ++ (if e = edge.from then "from" else "to") ++
        "` names no node of this plan.")))
      [edge.from, edge.to]
    refuseAs ((seen.ends.lookup (edge.from, edge.to)).map fun first =>
      refused s!"export edge {number} is declared twice: it repeats export edge {first}.")
    refuseAs ((seen.consumers.lookup edge.to).map fun first =>
      refused (s!"export edges {first} and {number} lead into one consumer, which is ambiguous: " ++
        "a session starts from one export."))
    each (fun (p : String × String) => refuseIf (normalized p.2 = false)
      (refused (s!"export edge {number}'s `{p.1}` is not a relative, normalized path (no " ++
        "root, `.`, `..`, empty segment, `.git` or backslash).")))
      [("source_directory", edge.sourceDirectory), ("target_directory", edge.targetDirectory)]

def checkEdgeShapes (ids : List String) : EdgesSeen → ℕ → List ExportEdge → Except Refusal Unit
  | _, _, [] => .ok ()
  | seen, number, edge :: edges => do
    checkEdge sib ids seen number edge
    checkEdgeShapes ids
      { ends := ((edge.from, edge.to), number) :: seen.ends, consumers := (edge.to, number) :: seen.consumers }
      (number + 1) edges

def checkEdges (plan : Plan) : Except Refusal Unit := do
  checkEdgeShapes sib (plan.tasks.map Node.id) {} 1 plan.exportEdges
  each (fun (p : ExportEdge × ℕ) =>
    refuseIf ((plan.tasks.find? fun n => n.id = p.1.to).any (fun n => p.1.from ∉ n.deps) = true)
      ((refusedPlan (s!"export edge {p.2 + 1} is not a dependency its consumer states, so the plan graph and " ++
        "the export edge disagree.")).withField "deps"))
    plan.exportEdges.zipIdx

/-! ## Stacking bases -/

/-- the branch bases resolved so far, and the nodes visited -/
structure Stacking where
  bases : StrMap String := ∅
  visited : StrSet := ∅

/-- whether two preserved nodes' repositories are one -/
def sameRepository (node dep : Node) (mine other : String) : Except Refusal Bool :=
  if mine = other then .ok true
  else
    match sib.identity mine, sib.identity other with
    | .ok a, .ok b => .ok (a = b)
    | _, _ => .error ((Refusal.about node.id
        (s!"node '{node.id}' depends on preserve node '{dep.id}', but repository identities for '{mine}' and " ++
          s!"'{other}' cannot both be read; resolve both repository spellings before selecting a kept base")).withField
            "repo")

/-- the preserved dependencies of a node in its own repository, of the nodes given -/
def stackingCandidates (node : Node) : List Node → Except Refusal (List Node)
  | [] => .ok []
  | dep :: deps =>
    match dep.publish, node.repo, dep.repo with
    | .preserve, some mine, some other => do
      let same ← sameRepository sib node dep mine other
      let rest ← stackingCandidates node deps
      pure (if same then dep :: rest else rest)
    | _, _, _ => stackingCandidates node deps

/-- whether `other` is `id` or below it along the bases -/
def standsOn (bases : StrMap String) (other : String) : ℕ → String → Bool
  | 0, _ => false
  | fuel + 1, id =>
    id = other ||
      match bases[id]? with
      | some base => standsOn bases other fuel base
      | none => false

/-- the candidate every other one is below -/
def topmost (bases : StrMap String) (candidates : List Node) : Option Node :=
  candidates.find? fun c => candidates.all fun other => standsOn bases other.id (bases.size + 1) c.id

def resolveBase (nodes : StrMap Node) : ℕ → Node → Stacking → Except Refusal Stacking
  | 0, _, st => .ok st
  | fuel + 1, node, st =>
    let visited := { st with visited := st.visited.insert node.id }
    if node.id ∈ st.visited ∨ node.publish ≠ .preserve then .ok visited
    else do
      let candidates ← stackingCandidates sib node (node.deps.filterMap fun dep => nodes[dep]?)
      if candidates = [] then pure visited
      else
        refuseIf (node.baseBranch.isSome) ((Refusal.about node.id (preservedBaseConflict node.id)).withField "base_branch")
        let st ← candidates.foldlM (fun st c => resolveBase nodes fuel c st) visited
        let base ← need (topmost st.bases candidates)
          ((Refusal.about node.id (preservedFanIn node.id (candidates.map Node.id))).withField "deps")
        pure { st with bases := st.bases.insert node.id base.id }

/-- the kept branch each preserved node starts from: a resolution goes no deeper than there are nodes -/
def stackingBases (nodes : StrMap Node) : Except Refusal (StrMap String) :=
  (nodes.values.foldlM (fun st node => resolveBase sib nodes (nodes.size + 1) node st) ({} : Stacking)).map Stacking.bases

/-! ## A plan -/

/-- the ids and the tickets delivered by the nodes before one -/
structure PlanSeen where
  ids : List String := []
  delivered : StrMap String := ∅

def checkDelivers (node : Node) : List String → StrMap String → Except Refusal (StrMap String)
  | [], delivered => .ok delivered
  | ticket :: tickets, delivered =>
    match delivered[ticket]? with
    | some first =>
      if first ≠ node.id then
        .error ((Refusal.about node.id
          (s!"nodes '{first}' and '{node.id}' both deliver the ticket '{ticket}'; a ticket is delivered by one node " ++
            "of a plan")).withField "delivers")
      else checkDelivers node tickets (delivered.insert ticket node.id)
    | none => checkDelivers node tickets (delivered.insert ticket node.id)

def checkNodes : PlanSeen → List Node → Except Refusal Unit
  | _, [] => .ok ()
  | seen, node :: nodes => do
    refuseIf (Text.isBlank node.id = true) ((Refusal.plain "every node needs a non-empty id").withField "id")
    refuseIf (node.id ∈ seen.ids) ((Refusal.about node.id s!"duplicate node id '{node.id}'").withField "id")
    checkNode sib node
    let delivered ← checkDelivers node node.delivers seen.delivered
    checkNodes { ids := node.id :: seen.ids, delivered } nodes

/-- whether some preserved node of a plan has an id -/
def isPreserved (plan : Plan) (id : String) : Bool := plan.tasks.any fun n => n.publish = .preserve && n.id = id

/-- a dependency that names a node of the plan -/
def checkLocalDep (plan : Plan) (node : Node) (dep : String) : Except Refusal Unit :=
  let refused (message : String) := (Refusal.about node.id message).withField "deps"
  if isCrossDag dep then .ok ()
  else do
    refuseIf (isMalformed dep = true)
      (refused (s!"node '{node.id}' depends on '{dep}', which is a malformed cross-DAG reference; expected " ++
        s!"'{crossDagSyntax}'"))
    refuseIf (dep ∉ plan.tasks.map Node.id) (refused s!"node '{node.id}' depends on '{dep}', which is not in the plan")
    refuseIf (isPreserved plan dep = true ∧ node.publish ≠ .preserve ∧ isExport plan dep node.id = false)
      (refused (dependsOnPreserved node.id dep))

def checkDep (plan : Plan) (node : Node) (dep : String) : Except Refusal Unit := do
  refuseIf (dep = node.id) ((Refusal.about node.id s!"node '{node.id}' depends on itself").withField "deps")
  checkLocalDep plan node dep

/-- a node's dependencies inside its own graph -/
def localDeps (node : Node) : List String := node.deps.filter fun dep => !isCrossDag dep

/-- the dependencies inside the graph of the last node of an id -/
def childrenOf (nodes : List Node) (id : String) : List String :=
  ((nodes.reverse.find? fun n => n.id = id).map localDeps).getD []

/-- every id a search from a plan's nodes can meet -/
def searchSupport (nodes : List Node) : List String := nodes.map Node.id ++ nodes.flatMap localDeps

/-- the first dependency cycle, as the path around it -/
def findCycle (nodes : List Node) : Option String :=
  (Dfs.findCycle (childrenOf nodes) (searchSupport nodes) (nodes.map Node.id)).map fun cycle => " -> ".intercalate cycle

def nodesById (nodes : List Node) : StrMap Node := nodes.foldl (fun m n => m.insert n.id n) ∅

def checkEdited (plan : Plan) : Except Refusal Unit := do
  refuseIf (plan.schemaVersion ∉ planSchemaVersionsRead)
    ((Refusal.plain (s!"plan schema_version {plan.schemaVersion} is not one this build reads " ++
      "(" ++ ", ".intercalate (planSchemaVersionsRead.map toString) ++ ")")).withField "schema_version")
  refuseIf (plan.concurrency = 0) ((Refusal.plain "concurrency must be at least 1").withField "concurrency")
  refuseIf ((plan.goal.any Text.isBlank) = true) ((Refusal.plain "a goal needs non-empty text").withField "goal")
  checkNodes sib {} plan.tasks
  checkEdges sib plan
  each (fun node => each (checkDep plan node) node.deps) plan.tasks
  refuseAs ((findCycle plan.tasks).map fun cycle => (Refusal.plain s!"dependency cycle: {cycle}").withField "deps")
  let _ ← stackingBases sib (nodesById plan.tasks)

/-! ## A plan as it is launched -/

/-- the fields a plan at an older version may not state, each with whether a node states it -/
def newerFields (node : Node) : List (String × Bool) :=
  [("pool", node.pool.isSome), ("overflow", node.overflow.isSome), ("sets", !node.sets.isEmpty)]

def checkDeclaredVersion (plan : Plan) : Except Refusal Unit :=
  each (fun node =>
    let named := Refusal.ofNode node.id
    do
      refuseIf (node.body.isSome ∧ plan.schemaVersion < planSchemaVersion) ((named (bodyIsNewer plan.schemaVersion)).withField "body")
      refuseIf (node.draft = true ∧ plan.schemaVersion < planSchemaVersion) ((named (draftIsNewer plan.schemaVersion)).withField "draft")
      refuseIf (node.publish ≠ .land ∧ plan.schemaVersion < planSchemaVersion)
        ((named (nodeFieldIsNewer "publish" plan.schemaVersion)).withField "publish")
      each (fun (p : String × Bool) => refuseIf (p.2 = true ∧ plan.schemaVersion < planSchemaVersion)
        ((named (nodeFieldIsNewer p.1 plan.schemaVersion)).withField p.1)) (newerFields node)
      refuseIf (¬plan.schemaVersion < planSchemaVersion ∧ node.repo.isSome ∧ node.title = none) ((named titleIsRequired).withField "title"))
    plan.tasks

def check (plan : Plan) : Except Refusal Unit := do
  refuseIf (plan.tasks = []) ((Refusal.plain "a plan needs at least one node").withField "tasks")
  checkEdited sib plan
  checkDeclaredVersion plan
  each checkNodeCriteria plan.tasks

end

end OnePipeline
