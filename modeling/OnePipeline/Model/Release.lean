/-
The release watch (`src/release.rs`): which releases the nodes of a run wait on, what `onevcs` has answered about each,
which nodes that holds, and which are told their releases are out (`src/engine.rs`: `adopt_releases`).

What a pass reads outside the run is `Reads`. One pass reads one repository once: what could be read is kept, and what
could not is not asked for again within the interval a pass falls in.
-/
import Mathlib.Tactic
import OnePipeline.Model.Lineage
import OnePipeline.Model.Run
import OnePipeline.Model.Schedule

namespace OnePipeline.Release

/-! ## What `onevcs` says of a repository -/

inductive ReleaseStyle where
  | automated
  | humanStep
deriving DecidableEq, Repr, Inhabited

structure Target where
  name : String
  style : ReleaseStyle
deriving DecidableEq, Repr, Inhabited

structure RepositoryReleases where
  identity : String
  targets : List Target
  /-- the target a consumer's choice names, or the repository's own where it names none -/
  select : Option String → Option Target

inductive Adoption where
  | fast
  | published
deriving DecidableEq, Repr, Inhabited

/-- a node's own rung, as the plan spells it -/
def Adoption.declared (stated : Written) : Adoption :=
  if stated.value.asStr = some "published" then .published else .fast

/-- what one pass reads outside the run's own state -/
structure Reads where
  /-- the run these reads are of -/
  run : String
  /-- what a repository releases, or why that could not be read -/
  releases : String → Except String RepositoryReleases
  /-- the state of another run, where it has a ledger under this run root -/
  upstream : String → Option RunState := fun _ => none
  /-- the rung `onevcs` answers for a repository -/
  adoption : String → Option Adoption := fun _ => none
  /-- whether the landings are due to be read again -/
  landingsAreDue : Bool := false

/-- which rung of the adoption chain a node resolves to -/
def adoptionOf (reads : Reads) (node : Node) : Adoption :=
  match node.adoption with
  | some declared => .declared declared
  | none => ((node.repo.bind reads.adoption).getD .fast)

/-! ## Waits -/

/-- the last thing `onevcs` said about one awaited release -/
inductive Answer where
  | released (version : String)
  | notReleased
  | awaitingHumanStep
  | notAnswered
  | notLanded
deriving DecidableEq, Repr

/-- the version an answer carries, where it is the one that releases a hold -/
def Answer.version : Answer → Option String
  | released version => some version
  | _ => none

/-- the node waiting, and the dependency it waits on -/
abbrev Key : Type := String × String

structure Stated where
  landing : String
  fallback : Option String
deriving DecidableEq, Repr

/-- one dependency whose work lands outside its node's repository, in one that releases something -/
structure Dependency where
  dep : String
  identity : String
  branch : Option String
  commit : Option String
  landing : Option String
  fallback : Option String
  target : Option String
  style : Option ReleaseStyle
deriving DecidableEq, Repr

namespace Dependency

/-- what `onevcs` is asked about -/
def reference (d : Dependency) : Option String := d.landing.or (d.branch.or d.commit)

def withLanding (d : Dependency) (stated : Option Stated) : Dependency :=
  { d with landing := stated.map Stated.landing, fallback := stated.bind Stated.fallback }

end Dependency

/-- what one `deps` entry turned out to be -/
inductive Resolution where
  | nothingToAwait
  | outside (dependency : Dependency)
  | unreadable (reason : String)

structure Unresolved where
  dep : String
  reason : String
deriving DecidableEq, Repr

structure Question where
  keys : List Key
  reference : String
  fallback : Option String
  target : Option String
  style : ReleaseStyle
deriving DecidableEq, Repr

/-- one release a node was waiting on, as the note and the record name it -/
structure Released where
  dep : String
  identity : String
  branch : String
  commit : String
  target : String
  version : String
deriving DecidableEq, Repr

structure Watch where
  /-- what each repository read so far releases -/
  known : StrMap RepositoryReleases := ∅
  /-- the dependencies of each node outside its repository, once they could all be described -/
  dependencies : StrMap (List Dependency) := ∅
  /-- the last answer about each awaited release -/
  answers : Key → Option Answer := fun _ => none
  /-- the nodes an arrival note has reached -/
  adopted : StrSet := ∅
  /-- where the nodes of each run read so far were stated to have landed -/
  stated : StrMap (String → Option Stated) := ∅
  /-- the watched nodes whose dependencies could not all be described -/
  unresolved : StrMap (List Unresolved) := ∅

/-! ## Describing a dependency -/

section Describe

variable (host : Host) (reads : Reads) (state : RunState)

/-- `renderable`: a text of one word -/
def renderable (value : String) : Option String := usable host.toSiblings value

/-- where each node of one run was stated to have landed -/
def statedLandings (s : RunState) (node : String) : Option Stated :=
  s.statedLandings[node]?.bind fun stated =>
    (renderable host node).map fun _ =>
      { landing := stated.reference
        fallback :=
          match stated with
          | .commit _ => s.knownChangeUrl host.toSiblings node
          | .changeRequest _ => none }

/-- what a repository releases, as read before or as this pass reads it -/
def Watch.of (w : Watch) (repo : String) : Except String RepositoryReleases :=
  match w.known[repo]? with
  | some known => .ok known
  | none => reads.releases repo

/-- what was read of a repository, kept -/
def Watch.remember (w : Watch) (repo : String) : Watch :=
  match w.of reads repo with
  | .ok releases => { w with known := w.known.insert repo releases }
  | .error _ => w

/-- where a node of a run was stated to have landed, its run read once a tick -/
def Watch.statedLanding (w : Watch) (run : String) (s : RunState) (node : String) : Option Stated :=
  (w.stated[run]?.getD (statedLandings host s)) node

def Watch.rememberStated (w : Watch) (run : String) (s : RunState) : Watch :=
  if run ∈ w.stated then w else { w with stated := w.stated.insert run (statedLandings host s) }

/-- where one dependency's work landed, whichever run's journal states it -/
def Watch.landingOf (w : Watch) (dep : String) : Option Stated :=
  match crossDagParse dep with
  | some (run, node) => (reads.upstream run).bind fun s => w.statedLanding host run s node
  | none => w.statedLanding host reads.run state dep

def Watch.rememberLandingOf (w : Watch) (dep : String) : Watch :=
  match crossDagParse dep with
  | some (run, _) =>
    match reads.upstream run with
    | some s => w.rememberStated host run s
    | none => w
  | none => w.rememberStated host reads.run state

def unread (repo why : String) : String := s!"what the repository {repo} releases could not be read: {why}"

def noLedger (run : String) : String := s!"the run '{run}' it names has no ledger under this run root"

def noSuchNode (dep : String) : String := s!"the graph has no node '{dep}' to say where its work landed"

/-- one dependency outside its node's repository, with what its own repository releases -/
def Watch.outside (w : Watch) (dep repo : String) (branch commit : Option String) (named : Option String) : Resolution :=
  match w.of reads repo with
  | .error why => .unreadable (unread repo why)
  | .ok releases =>
    if releases.targets = [] then .nothingToAwait
    else
      let selected := releases.select named
      .outside (({
        dep, identity := releases.identity, branch, commit, landing := none, fallback := none
        target := match selected with
          | some target => some target.name
          | none => named
        style := selected.map Target.style } : Dependency).withLanding (w.landingOf host reads state dep))

/-- in which repository a dependency of this run lands, where that is not its consumer's -/
def Watch.acrossRepositories (w : Watch) (dep : String) (mine : Option String) : Except Resolution String :=
  match state.graph.get dep with
  | none => .error (.unreadable (noSuchNode dep))
  | some upstream =>
    match upstream.repo with
    | none => .error .nothingToAwait
    | some repo =>
      match w.of reads repo with
      | .error why => .error (.unreadable (unread repo why))
      | .ok releases => if some releases.identity = mine then .error .nothingToAwait else .ok repo

/-- what one `deps` entry is, to the node that names it -/
def Watch.dependency (w : Watch) (node : Node) (dep : String) (mine : Option String) : Resolution :=
  match crossDagParse dep with
  | some (run, upstreamNode) =>
    match reads.upstream run with
    | none => .unreadable (noLedger run)
    | some upstream =>
      match (upstream.graph.get upstreamNode).bind Node.repo with
      | none => .nothingToAwait
      | some repo =>
        w.outside host reads state dep repo upstream.branches[upstreamNode]? upstream.landingCommits[upstreamNode]?
          node.consumes[dep]?
  | none =>
    match w.acrossRepositories reads state dep mine with
    | .error ended => ended
    | .ok repo => w.outside host reads state dep repo state.branches[dep]? state.landingCommits[dep]? node.consumes[dep]?

/-- the repository a dependency lands in, where that is asked about -/
def landsIn (dep : String) : Option String :=
  match crossDagParse dep with
  | some (run, node) => (reads.upstream run).bind fun upstream => (upstream.graph.get node).bind Node.repo
  | none => (state.graph.get dep).bind Node.repo

/-- the identity of a node's own repository -/
def Watch.identityOf (w : Watch) (node : Node) : Option String :=
  match node.repo.map (w.of reads) with
  | some (.ok releases) => some releases.identity
  | _ => none

/-- an export edge carries no reference across it (`boundary::is_export_edge`) -/
def isExportEdge (dep node : String) : Bool :=
  match state.plan with
  | some plan => (edgesNow plan.exportEdges state.superseded).any fun edge => edge.from = dep && edge.to = node
  | none => false

/-- the `deps` entries a node's releases are asked about -/
def asksAbout (node : Node) : List String := node.deps.filter fun dep => !isExportEdge state dep node.id

end Describe

/-! ## One pass -/

section Pass

variable (host : Host) (reads : Reads) (state : RunState)

/-- what describing a node's dependencies reads on the way, kept -/
def Watch.rememberAll (w : Watch) (node : Node) : Watch :=
  let w := (node.repo.toList ++ (asksAbout state node).filterMap (landsIn reads state)).foldl (Watch.remember reads) w
  (asksAbout state node).foldl (Watch.rememberLandingOf host reads state) w

/-- what each dependency of a node turned out to be -/
def Watch.described (w : Watch) (node : Node) : List (String × Resolution) :=
  (asksAbout state node).map fun dep => (dep, w.dependency host reads state node dep (w.identityOf reads node))

def unresolvedAmong (described : List (String × Resolution)) : List Unresolved :=
  described.filterMap fun p =>
    match p.2 with
    | .unreadable reason => some { dep := p.1, reason }
    | _ => none

def resolvedAmong (described : List (String × Resolution)) : List Dependency :=
  described.filterMap fun p =>
    match p.2 with
    | .outside dependency => some dependency
    | _ => none

/-- one node's dependencies outside its repository: described until they all can be, and from then on only where their
work landed read again -/
def Watch.resolve (w : Watch) (node : Node) : Watch × List Dependency :=
  match w.dependencies[node.id]? with
  | some known =>
    if !reads.landingsAreDue then (w, known)
    else
      let again := known.map fun dependency => dependency.withLanding (w.landingOf host reads state dependency.dep)
      let w := known.foldl (fun w dependency => w.rememberLandingOf host reads state dependency.dep) w
      ({ w with dependencies := w.dependencies.insert node.id again }, again)
  | none =>
    let described := w.described host reads state node
    let unresolved := unresolvedAmong described
    let resolved := resolvedAmong described
    let w := w.rememberAll host reads state node
    if unresolved ≠ [] then ({ w with unresolved := w.unresolved.insert node.id unresolved }, [])
    else
      ({ w with unresolved := w.unresolved.erase node.id, dependencies := w.dependencies.insert node.id resolved },
        resolved)

def Watch.version (w : Watch) (key : Key) : Option String := (w.answers key).bind Answer.version

/-- one watched node taken up: its dependencies, and its waits that are still on -/
def Watch.refreshNode (p : Watch × List (Key × Dependency)) (node : Node) : Watch × List (Key × Dependency) :=
  let (w, dependencies) := p.1.resolve host reads state node
  (w, p.2 ++ (dependencies.map fun dependency => ((node.id, dependency.dep), dependency)).filter fun wait =>
    (w.version wait.1).isNone)

/-- a wait joined to the question it asks, or asking one of its own -/
def ask (questions : List Question) (wait : Key × Dependency) : List Question :=
  match wait.2.reference, wait.2.style with
  | some reference, some style =>
    let about (q : Question) : Bool :=
      q.reference = reference && q.fallback = wait.2.fallback && q.target = wait.2.target && q.style = style
    if questions.any about then questions.map fun q => if about q then { q with keys := q.keys ++ [wait.1] } else q
    else questions ++ [{ keys := [wait.1], reference, fallback := wait.2.fallback, target := wait.2.target, style }]
  | _, _ => questions

/-- the distinct questions a pass has to put, each with every wait it answers -/
def questionsOf (waits : List (Key × Dependency)) : List Question := waits.foldl ask []

/-- the nodes whose releases matter on a pass -/
def watching (running : StrSet) : List Node :=
  let statuses := state.statuses
  state.graph.iter.filter fun node =>
    statuses[node.id]?.any (fun status => status = .ready || status.awaitsRelease) || node.id ∈ running

/-- describe what is awaited now, and say what to ask about it -/
def Watch.refresh (w : Watch) (watched : List Node) : Watch × List Question :=
  let w := if reads.landingsAreDue then { w with stated := ∅ } else w
  let (w, waits) := watched.foldl (Watch.refreshNode host reads state) (w, [])
  ({ w with unresolved := w.unresolved.filter fun id _ => watched.any fun node => node.id = id }, questionsOf waits)

end Pass

namespace Watch

local instance lawfulKey : LawfulBEq Key := inferInstance

/-- one answer taken up for every wait it was asked for: a version latches -/
def takeUp (w : Watch) (keys : List Key) (answer : Answer) : Watch :=
  { w with
    answers := fun key =>
      if key ∈ keys ∧ (w.version key).isNone then some answer else w.answers key }

/-- whether every release a node awaits has arrived; `false` where it awaits none -/
def allReleased (w : Watch) (node : String) : Bool :=
  match w.dependencies[node]? with
  | none | some [] => false
  | some dependencies => dependencies.all fun dependency => (w.version (node, dependency.dep)).isSome

def awaitsARelease (w : Watch) (node : String) : Bool :=
  (match w.dependencies[node]? with
    | none | some [] => false
    | some _ => true) && !w.allReleased node

/-- the nodes a release hold will not let start yet -/
def held (reads : Reads) (w : Watch) (watched : List Node) : List String :=
  ((watched.filter fun node => node.id ∈ w.unresolved || w.awaitsARelease node.id).filter fun node =>
    adoptionOf reads node = .published).map Node.id

/-! ## Arrivals -/

/-- the versions one node's releases arrived at -/
def released (w : Watch) (node : String) : List Released :=
  (w.dependencies[node]?.getD []).filterMap fun dependency =>
    (w.version (node, dependency.dep)).map fun version =>
      { dep := dependency.dep
        identity := dependency.identity
        branch := dependency.branch.getD ""
        commit := dependency.commit.getD ""
        target := dependency.target.getD ""
        version }

/-- the nodes to tell, each with its versions -/
def readyToAdopt (reads : Reads) (w : Watch) (told : List Node) : List (String × List Released) :=
  (((told.filter fun node => node.id ∉ w.adopted).filter fun node => w.allReleased node.id).filter fun node =>
    adoptionOf reads node = .fast).map fun node => (node.id, w.released node.id)

end Watch

/-- how arrivals are put into words, and read back from a record -/
structure Wording where
  /-- whether a text spells a release target (`onevcs::TargetName`) -/
  isTarget : String → Bool
  /-- the note that names these releases -/
  note : List Released → String

/-- the releases a record's `versions` names, read back -/
def readBack (host : Host) (wording : Wording) (released : List Released) : List Released :=
  released.filter fun r =>
    (renderable host r.identity).isSome && wording.isTarget r.target && (renderable host r.version).isSome

/-- the note a record of an arrival is folded as: none where no release of it can be read -/
def arrivalNote (host : Host) (wording : Wording) (released : List Released) : Option String :=
  match readBack host wording released with
  | [] => none
  | read => some (wording.note read)

/-- the nodes an earlier driver of this run told (`Watch::of_run`) -/
def toldBefore (host : Host) (s : RunState) : StrSet :=
  s.recalled.foldl (fun told e =>
    match e.body, e.node.bind (renderable host) with
    | .releaseAdopted _ (some _), some node => told.insert node
    | _, _ => told) ∅

/-- start watching one run, taking up what an earlier driver said -/
def Watch.ofRun (host : Host) (s : RunState) : Watch := { adopted := toldBefore host s }

/-! ## The driver -/

/-- a driver's watch over its run's state; the questions it has handed over, and the releases it has been answered, each
at the target it was asked at -/
structure Vigil where
  state : RunState
  watch : Watch := {}
  asked : List Question := []
  heard : List (Key × Option String) := []

inductive Event where
  /-- a record joins the journal -/
  | record (e : Envelope)
  /-- `onevcs` answers a question the watch handed over -/
  | answered (question : Question) (answer : Answer)
  /-- the watch is taken up -/
  | pass (reads : Reads) (running : StrSet)
  /-- the nodes whose releases have arrived are told, those in flight by what their turn makes of it -/
  | adopt (stamp : Stamp) (reads : Reads) (inFlight : List Node) (lever : String → Except String Delivery)
  /-- a new driver takes the run up -/
  | restart

namespace Vigil

variable (host : Host) (wording : Wording)

/-- every node an arrival is owed to -/
def told (v : Vigil) (inFlight : List Node) : List Node :=
  let statuses := v.state.statuses
  inFlight ++ v.state.graph.iter.filter fun node => statuses[node.id]?.any NodeStatus.awaitsRelease

/-- `deliver_note`: the running turn where there is one, and the next dispatch where there is not -/
def deliverNote (inFlight : List Node) (lever : String → Except String Delivery) (node : String) :
    Except String Delivery :=
  if node ∈ inFlight.map Node.id then lever node else .ok .deferred

/-- the record of an arrival delivered -/
def adoptedRecord (stamp : Stamp) (node : String) (delivery : Delivery) (released : List Released) : Envelope :=
  stamp.envelope (some node) (.releaseAdopted (delivery = .deferred) (arrivalNote host wording released))

/-- one ready node told, unless the delivery broke -/
def adoptOne (stamp : Stamp) (inFlight : List Node) (lever : String → Except String Delivery) (v : Vigil)
    (ready : String × List Released) : Vigil :=
  match deliverNote inFlight lever ready.1 with
  | .error _ => v
  | .ok delivery =>
    { v with
      watch := { v.watch with adopted := v.watch.adopted.insert ready.1 }
      state := RunState.foldRecord host v.state (adoptedRecord host wording stamp ready.1 delivery ready.2) }

def adoptReleases (v : Vigil) (stamp : Stamp) (reads : Reads) (inFlight : List Node)
    (lever : String → Except String Delivery) : Vigil :=
  (v.watch.readyToAdopt reads (v.told inFlight)).foldl (adoptOne host wording stamp inFlight lever) v

/-- the answers a question was given that carried a version -/
def hear (question : Question) (answer : Answer) : List (Key × Option String) :=
  if answer.version.isSome then question.keys.map fun key => (key, question.target) else []

def watchReleases (v : Vigil) (reads : Reads) (running : StrSet) : Vigil :=
  let (watch, questions) := v.watch.refresh host reads v.state (watching v.state running)
  { v with watch, asked := v.asked ++ questions }

def step (v : Vigil) : Event → Vigil
  | .record e => { v with state := RunState.foldRecord host v.state e }
  | .answered question answer =>
    { v with watch := v.watch.takeUp question.keys answer, heard := v.heard ++ hear question answer }
  | .pass reads running => v.watchReleases host reads running
  | .adopt stamp reads inFlight lever => v.adoptReleases host wording stamp reads inFlight lever
  | .restart => { state := v.state, watch := .ofRun host v.state }

end Vigil

end OnePipeline.Release
