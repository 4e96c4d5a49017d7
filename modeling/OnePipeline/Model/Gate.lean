/-
A run driver's gate over its human steps (`src/human_items/runtime.rs`): the item each waiting step gets, the release of a
step its item resolved, and the run, its drivers and its people around it.

A run's own view is what its record derives: the graph, each node's status and what each human node's item says, written by
its metadata or derived from a legacy node. The queue is the release commands in the run's command queue.
-/
import Mathlib.Tactic
import OnePipeline.Model.Command
import OnePipeline.Model.Holds
import OnePipeline.Model.ItemWriter

namespace OnePipeline.HumanItems

/-! ## The gate -/

/-- what a human node's item says -/
structure HumanItemMetadata where
  kind : HumanItemKind
  title : String
  body : String
  priority : Priority
deriving DecidableEq, Repr, Inhabited

/-- what a run's record derives -/
structure View where
  graph : Graph := Graph.empty
  statuses : StrMap NodeStatus := ∅
  metadata : String → HumanItemMetadata := fun _ => default

/-- a run, and the session and project its launch names -/
structure Launch where
  run : String
  session : String
  project : String
deriving DecidableEq, Repr

/-- a driver's memory of its steps -/
structure Gate where
  raised : List String := []
  released : List String := []
  held : List String := []
  /-- whether the store has been read at all -/
  read : Bool := false
  /-- when the earliest release left to its resolver falls due -/
  due : Option ℕ := none
deriving DecidableEq, Repr

/-- how long a resolution is left to the process that recorded it, in milliseconds -/
def grace : ℕ := 10000

def settledElsewhere : String := "the step was settled outside its human item"

/-- the human nodes of a view -/
def View.steps (view : View) : List String := (view.graph.iter.filter fun n => n.kind = .human).map Node.id

def View.waiting (view : View) (node : String) : Bool := view.statuses[node]? = some .waiting

def View.done (view : View) (node : String) : Bool := view.statuses[node]? = some .done

/-- what one look of a gate meets: its clock, the writers it opens, what other writers did meanwhile, and whether its read and
each append to the command queue are made -/
structure Look where
  /-- a look too soon after the last, with nothing moved -/
  recent : Bool := false
  now : ℕ
  raising : String → Opening := fun _ => { room := true }
  meanwhile : List (Opening × Entry) := []
  unread : Bool := false
  probing : Opening := { room := true }
  resolving : String → Opening := fun _ => { room := true }
  submits : String → Bool := fun _ => true
  /-- a time's milliseconds, where it can be read -/
  millisOf : String → Option ℕ := fun _ => none

section

variable (store : Store) (launch : Launch) (view : View) (look : Look)

/-- what a step is raised as -/
def stepInput (node : String) : HumanItemInput :=
  let metadata := view.metadata node
  { dedupKey := nodeKey launch.run node, kind := metadata.kind, title := metadata.title, body := metadata.body
    priority := metadata.priority
    owner := { session := launch.session, run := some launch.run, plan := some launch.project }
    block := .work launch.run node }

/-- the id of the item a step gets -/
def stepItem (node : String) : String := store.itemIdFor (nodeKey launch.run node)

/-- one step's item raised, where the step waits and this driver has raised none for it -/
def raiseStep (s : Gate × HostFiles) (node : String) : Gate × HostFiles :=
  if view.waiting node = false ∨ node ∈ s.1.raised then s
  else
    match writing store (look.raising node) (raise store (stepInput launch view node)) s.2 with
    | (.ok _, files) => ({ s.1 with raised := s.1.raised ++ [node] }, files)
    | (.error _, files) => (s.1, files)

/-- the command that releases a resolved item's step, if it releases one; a dismissal the engine made releases nothing -/
def releaseCommand (item : HumanItem) : Option Command := do
  let (_, node) ← nodeOf item
  match item.state with
  | .answered | .completed => some (.attest node)
  | .dismissed =>
    if item.resolution.any fun r => r.actor ≠ engineActor then
      some (.drop node .detach (item.resolution.bind HumanItemResolution.reason))
    else none
  | .open => none

/-- a release queued once by this driver, unless the queue refuses it -/
def queueRelease (submits : String → Bool) (s : Gate × List Command) (item : HumanItem) : Gate × List Command :=
  match releaseCommand item, nodeOf item with
  | some command, some (_, node) =>
    if node ∈ s.1.released then s
    else if submits node then ({ s.1 with released := s.1.released ++ [node] }, s.2 ++ [command])
    else s
  | _, _ => s

/-- where a gate stands: its memory, the journal and the run's queue -/
structure Standing where
  gate : Gate
  files : HostFiles
  queue : List Command

/-- a resolved item's step released once its recorder has had its chance, and an open item whose step is done resolved -/
def reconcileStep (items : StrMap HumanItem) (s : Standing) (node : String) : Standing :=
  match items[stepItem store launch node]? with
  | none => s
  | some item =>
    if item.state = .open then
      if view.done node then
        { s with files := take store s.files (look.resolving node, .autoResolveItem item.id settledElsewhere) }
      else s
    else if view.waiting node ∧ node ∉ s.gate.released then
      let due := (look.millisOf item.updatedAt).getD look.now + grace
      if due ≤ look.now then
        let (gate, queue) := queueRelease look.submits (s.gate, s.queue) item
        { s with gate, queue }
      else { s with gate := { s.gate with due := some (s.gate.due.elim due fun earlier => min earlier due) } }
    else s

/-- whether a host outage's item stands open -/
def hostOutage (items : StrMap HumanItem) : Bool :=
  items.values.any fun item => item.state = .open && Text.startsWith hostConditionPrefix.toList item.dedupKey.toList

/-- one look at a run's human steps -/
def Gate.pass (s : Standing) : Standing :=
  if look.recent then s
  else
    let (gate, files) := view.steps.foldl (raiseStep store launch view look) (s.gate, s.files)
    let files := look.meanwhile.foldl (take store) files
    match foldRecords files.journal with
    | .ok fold =>
      if look.unread then
        { s with gate := if gate.read then gate else { gate with held := view.graph.ids }, files }
      else
        let files := if hostOutage fold.items then take store files (look.probing, .probe) else files
        let s := view.steps.foldl (reconcileStep store launch view look fold.items)
          { gate := { gate with read := true, due := none }, files, queue := s.queue }
        { s with gate :=
            { s.gate with held := HumanItems.held launch.run launch.project view.graph view.statuses fold.items.values } }
    | .error _ => { s with gate := if gate.read then gate else { gate with held := view.graph.ids }, files }

/-- a waiting step's release, where its item owes one -/
def oweStep (submits : String → Bool) (items : StrMap HumanItem) (s : Standing) (node : String) : Standing :=
  match view.waiting node, items[stepItem store launch node]? with
  | true, some item =>
    let (gate, queue) := queueRelease submits (s.gate, s.queue) item
    { s with gate, queue }
  | _, _ => s

/-- the releases a driver finds owed before its loop starts -/
def Gate.queueOwed (submits : String → Bool) (s : Standing) : Standing :=
  match foldRecords s.files.journal with
  | .error _ => s
  | .ok fold => view.steps.foldl (oweStep store launch view submits fold.items) s

end

/-! ## A run, its drivers and its people -/

/-- a run's human steps, the journal, the driver's memory and the run's command queue -/
structure RunWorld where
  view : View := {}
  /-- the journal's length when each step's occurrence entered the graph -/
  entered : String → ℕ := fun _ => 0
  at_ : Standing := ⟨{}, {}, []⟩

/-- what happens to a run -/
inductive Move where
  /-- the run's record moves: an edit, a dispatch, a settlement; the steps that enter the graph with it, a dropped one again -/
  | plan (view : View) (entering : List String)
  /-- the driver takes the queue's first command, and the record moves by it -/
  | applied (view : View) (entering : List String)
  /-- a writer of the rest of the host -/
  | store (opening : Opening) (entry : Entry)
  /-- a resolver hands its item's release to the run's queue -/
  | handed (node : String)
  /-- a driver takes the run up, its gate new, queueing what it finds owed where it starts -/
  | drive (starting : Bool) (submits : String → Bool)
  | look (look : Look)
  /-- the run's end dismisses the items that hold it -/
  | ended (opening : Opening)

section

variable (store : Store) (launch : Launch)

/-- the record moved on to a view -/
def RunWorld.moved (w : RunWorld) (view : View) (entering : List String) : RunWorld :=
  { w with
    view
    entered := fun n => if n ∈ w.view.steps ∧ n ∉ entering then w.entered n else w.at_.files.journal.length }

/-- a resolver's own release of a step -/
def handOver (s : Standing) (node : String) : Standing :=
  match foldRecords s.files.journal with
  | .error _ => s
  | .ok fold =>
    match (fold.items[stepItem store launch node]?).bind releaseCommand with
    | some command => { s with queue := s.queue ++ [command] }
    | none => s

def RunWorld.step (w : RunWorld) : Move → RunWorld
  | .plan view entering => w.moved view entering
  | .applied view entering => { w.moved view entering with at_ := { w.at_ with queue := w.at_.queue.tail } }
  | .store opening entry => { w with at_ := { w.at_ with files := take store w.at_.files (opening, entry) } }
  | .handed node => { w with at_ := handOver store launch w.at_ node }
  | .drive starting submits =>
    let fresh := { w.at_ with gate := {} }
    { w with at_ := if starting then Gate.queueOwed store launch w.view submits fresh else fresh }
  | .look look => { w with at_ := Gate.pass store launch w.view look w.at_ }
  | .ended opening => { w with at_ := { w.at_ with files := take store w.at_.files (opening, .runEnded launch.run) } }

end

end OnePipeline.HumanItems
