/-
The nodes a run holds for a source that could not answer (`src/unanswered.rs`), and the re-read that may clear them
(`src/taskgraph.rs`).

A source's own schedule says when it is next read, a pass reads the nodes held on what is then due, and what the pass learned of
each source moves its schedule. Times are milliseconds, and saturate nowhere.
-/
import Mathlib.Tactic
import OnePipeline.Core.Maps
import OnePipeline.Model.Plan

namespace OnePipeline.Sources

/-! ## What could not be asked -/

/-- why a configured source could not be asked -/
inductive SourceCause where
  /-- with the time it may be asked again at, where it named one -/
  | rateLimited (retryAt : Option ℕ)
  | auth
  | unavailable
deriving DecidableEq, Repr

inductive Unasked where
  | source (source : String) (cause : SourceCause)
  /-- the tracker an opaque edge names -/
  | tracker (designator : String)
  /-- a source a hold recorded before causes were -/
  | recorded (source : String)
deriving DecidableEq, Repr

structure Unanswered where
  who : Unasked
  reason : String
deriving DecidableEq, Repr

def Unanswered.name (u : Unanswered) : String :=
  match u.who with
  | .source source _ | .recorded source => source
  | .tracker designator => designator

def Unanswered.retryAt (u : Unanswered) : Option ℕ :=
  match u.who with
  | .source _ (.rateLimited retryAt) => retryAt
  | _ => none

/-- what holds a node, never nothing -/
structure SourceHold where
  unanswered : List Unanswered
  /-- prerequisites a read found which the graph does not give the node -/
  missing : List String
  holds : unanswered ≠ [] ∨ missing ≠ []
deriving DecidableEq

def SourceHold.new (unanswered : List Unanswered) (missing : List String) : Option SourceHold :=
  if h : unanswered ≠ [] ∨ missing ≠ [] then some ⟨unanswered, missing, h⟩ else none

def SourceHold.heldOn (hold : SourceHold) : List String := hold.unanswered.map Unanswered.name

/-- a node's edges read again -/
structure Reread where
  deps : List String
  unanswered : List Unanswered
deriving DecidableEq, Repr

def Reread.refusedBy (read : Reread) (source : String) : Bool := read.unanswered.any fun u => u.name = source

/-- what holds a node whose edges were read again -/
def holdAfter (deps : List String) (reread : Reread) : Option SourceHold :=
  SourceHold.new reread.unanswered ((reread.deps.filter fun dep => dep ∉ deps).mergeSort).dedup

/-! ## When a source is next read -/

def backoffCapIntervals : ℕ := 30

def afterResetMs : ℕ := 1000

/-- the wait, in seconds, after so many reads in a row a source did not answer -/
def backoff (backoffs poll : ℕ) : ℕ :=
  let cap := poll * backoffCapIntervals
  min (if backoffs < 64 then poll * 2 ^ backoffs else cap) cap

structure Due where
  atMs : ℕ
  backoffs : ℕ
  /-- the wait last chosen, and none where a reset decided it -/
  wait : Option ℕ
deriving DecidableEq, Repr

def Due.fresh (now : ℕ) : Due := { atMs := now, backoffs := 0, wait := none }

def Due.after (due : Due) (retryAt : Option ℕ) (now poll : ℕ) : Due :=
  match retryAt with
  | some at_ => { due with atMs := at_ + afterResetMs, wait := none }
  | none =>
    let wait := backoff due.backoffs poll
    { atMs := now + wait * 1000, backoffs := due.backoffs + 1, wait := some wait }

/-! ## The holds of a run -/

/-- a re-read under way: the sources due when it started, and each node it asks about with the sources it was held on -/
structure Reading where
  due : List String
  asked : StrMap (List String)
  nodes : List Node

structure SourceHolds where
  held : StrMap SourceHold
  /-- whether there is a store to read -/
  store : Bool
  reading : Option Reading := none
  schedule : StrMap Due
  /-- when a node held only for a prerequisite is next read -/
  missingAt : ℕ
  /-- the interval a backoff starts at, in seconds -/
  poll : ℕ+

def orInsert (m : StrMap Due) (source : String) (due : Due) : StrMap Due := if source ∈ m then m else m.insert source due

/-- a source's schedule as a driver takes the run up -/
def launchDue (now poll : ℕ) (u : Unanswered) : Due :=
  match u.retryAt with
  | some at_ => (Due.fresh now).after (some at_) now poll
  | none => { atMs := now + poll * 1000, backoffs := 0, wait := some poll }

/-- the sources held nodes could not be read from, in node order -/
def unansweredOf (held : StrMap SourceHold) : List Unanswered := held.values.flatMap SourceHold.unanswered

/-- the holds a driver takes a run up with -/
def SourceHolds.ofRun (held : StrMap SourceHold) (store : Bool) (poll : ℕ+) (now : ℕ) : SourceHolds :=
  { held, store, poll
    schedule := (unansweredOf held).foldl (fun m u => orInsert m u.name (launchDue now poll u)) ∅
    missingAt := now + poll * 1000 }

/-- the nodes still waiting to start, and the schedules a held node names -/
def SourceHolds.retain (s : SourceHolds) (waiting : String → Bool) : SourceHolds :=
  let held := s.held.filter fun node _ => waiting node
  { s with held, schedule := s.schedule.filter fun source _ => source ∈ (unansweredOf held).map Unanswered.name }

/-! ## A pass -/

/-- the sources a pass asks, the nodes it asks about, and when each source put off is next read -/
structure Pass where
  sources : List String
  asked : StrMap (List String)
  later : StrMap ℕ

/-- when a source waiting out a reset is next read -/
def SourceHolds.reset (s : SourceHolds) (now : ℕ) (source : String) : Option ℕ :=
  (s.schedule[source]?.filter fun due => due.wait = none ∧ now < due.atMs).map Due.atMs

def SourceHolds.isDue (s : SourceHolds) (now : ℕ) (source : String) : Bool := s.schedule[source]?.any fun due => due.atMs ≤ now

/-- the latest reset a node is held on -/
def SourceHolds.resetOf (s : SourceHolds) (now : ℕ) (hold : SourceHold) : Option ℕ := (hold.heldOn.filterMap (s.reset now)).max?

/-- the sources a held node is asked about for, where it is asked -/
def SourceHolds.asks (s : SourceHolds) (now : ℕ) (hold : SourceHold) : Option (List String) :=
  if hold.heldOn = [] then
    if s.missingAt ≤ now then some [] else none
  else if hold.heldOn.any (s.isDue now) ∧ s.resetOf now hold = none then some hold.heldOn
  else none

/-- a due source of a node waiting out another's reset, put off to it, or to an earlier one -/
def putOff (at_ : ℕ) (later : StrMap ℕ) (source : String) : StrMap ℕ :=
  later.insert source ((later[source]?).elim at_ fun earliest => min earliest at_)

/-- the due sources of a node waiting out another's reset, put off -/
def SourceHolds.putLater (s : SourceHolds) (now : ℕ) (later : StrMap ℕ) (hold : SourceHold) : StrMap ℕ :=
  match s.resetOf now hold with
  | some at_ => (hold.heldOn.filter (s.isDue now)).foldl (putOff at_) later
  | none => later

def SourceHolds.due (s : SourceHolds) (now : ℕ) : Pass :=
  let asked := s.held.filterMap fun _ hold => s.asks now hold
  let asking := asked.values.flatten
  let later := s.held.values.foldl (s.putLater now) ∅
  { sources := (s.schedule.keys.filter (s.isDue now)).filter fun source => source ∈ asking
    asked
    later := later.filter fun source _ => source ∉ asking }

/-- a re-read begun, where one is due and none is under way -/
def SourceHolds.readAgain (s : SourceHolds) (now : ℕ) (nodes : List Node) : SourceHolds :=
  if s.held.isEmpty ∨ s.reading.isSome ∨ s.store = false then s
  else
    let pass := s.due now
    let schedule := s.schedule.map fun source due => (pass.later[source]?).elim due fun at_ => { due with atMs := at_ }
    if pass.asked.isEmpty then { s with schedule }
    else { s with schedule, reading := some { due := pass.sources, asked := pass.asked, nodes } }

/-! ## What a pass learned -/

/-- how a re-read ends: not yet, with its thread gone, with the store not to be opened, or with what each task's read says, where
a node carries a task of the store -/
inductive Arrival where
  | empty
  | disconnected
  | unopened (error : String)
  | answered (read : Node → Option (Except String Reread))

/-- one node's edges read again, unless it is held on a source that refused -/
def rereadNode (nodes : List Node) (read : Node → Option (Except String Reread)) (s : StrMap Reread × List String)
    (asked : String × List String) : Except String (StrMap Reread × List String) :=
  match nodes.find? fun n => n.id = asked.1 with
  | none => .ok s
  | some node =>
    if asked.2.any fun source => source ∈ s.2 then .ok s
    else
      match read node with
      | none => .ok s
      | some (.error why) => .error why
      | some (.ok reread) => .ok (s.1.insert asked.1 reread, s.2 ++ reread.unanswered.map Unanswered.name)

/-- the edges of each node asked about, in id order -/
def reread (nodes : List Node) (asked : StrMap (List String)) (read : Node → Option (Except String Reread)) :
    Except String (StrMap Reread) :=
  (asked.toList.foldlM (rereadNode nodes read) (∅, [])).map Prod.fst

/-- each refusal of a pass, in the order its nodes were read -/
def refusals (answer : StrMap Reread) : List Unanswered := answer.values.flatMap Reread.unanswered

/-- the first refusal a source gave -/
def firstRefusal (l : List Unanswered) (source : String) : Option Unanswered := l.find? fun u => u.name = source

/-- whether a read that asked a source was answered by it -/
def answeredBy (asked : StrMap (List String)) (answer : StrMap Reread) (source : String) : Bool :=
  answer.toList.any fun p => (asked[p.1]?.any fun names => source ∈ names) && !p.2.refusedBy source

/-- a source's schedule after a pass -/
def rescheduled (reading : Reading) (answer : StrMap Reread) (now poll : ℕ) (source : String) (before : Due) : Due :=
  let answered := answeredBy reading.asked answer source
  let scheduled := if answered then { before with backoffs := 0 } else before
  match firstRefusal (refusals answer) source with
  | some refusal => scheduled.after refusal.retryAt now poll
  -- due and not asked: read with the ones that refused first
  | none => if answered then scheduled else { scheduled with atMs := now + poll * 1000 }

/-- a hold of a node a pass passed over, in the words of what refused it -/
def SourceHold.refreshed (hold : SourceHold) (answer : StrMap Reread) : SourceHold :=
  { unanswered := hold.unanswered.map fun u => (firstRefusal (refusals answer) u.name).getD u
    missing := hold.missing
    holds := hold.holds.imp (fun h => by simpa using h) id }

/-- a held node's hold after a pass -/
def holdTaken (reading : Reading) (answer : StrMap Reread) (deps : String → Option (List String)) (node : String)
    (hold : SourceHold) : Option SourceHold :=
  match answer[node]? with
  | some read =>
    match deps node with
    | some deps => holdAfter deps read
    | none => some hold
  | none => if node ∈ reading.asked then some (hold.refreshed answer) else some hold

/-- what a finished re-read answered taken up, and whether it changed a hold -/
def SourceHolds.takeUp (s : SourceHolds) (now : ℕ) (arrival : Arrival) (deps : String → Option (List String)) :
    Bool × SourceHolds :=
  match s.reading with
  | none => (false, s)
  | some reading =>
    -- the store refused the read outright: the holds stand, and what was due backs off
    let failed : Bool × SourceHolds :=
      (false, { s with
        reading := none
        schedule := s.schedule.map fun source due => if source ∈ reading.due then due.after none now s.poll else due
        missingAt := now + s.poll * 1000 })
    match arrival with
    | .empty => (false, s)
    | .disconnected | .unopened _ => failed
    | .answered read =>
      match reread reading.nodes reading.asked read with
      | .error _ => failed
      | .ok answer =>
        let learned := (reading.due ++ (refusals answer).map Unanswered.name).dedup
        let held := s.held.filterMap (holdTaken reading answer deps)
        ((s.held.toList.any fun p => holdTaken reading answer deps p.1 p.2 ≠ some p.2),
          { s with
            held
            reading := none
            schedule := learned.foldl
              (fun schedule source => schedule.insert source
                (rescheduled reading answer now s.poll source (schedule[source]?.getD (.fresh now)))) s.schedule
            missingAt := if reading.asked.values.any List.isEmpty then now + s.poll * 1000 else s.missingAt }.retain fun _ => true)

/-! ## A run -/

/-- a run's holds, and the clock -/
structure World where
  holds : SourceHolds
  now : ℕ

inductive Move where
  | wait (ms : ℕ)
  | retain (waiting : String → Bool)
  | takeUp (arrival : Arrival) (deps : String → Option (List String))
  | readAgain (nodes : List Node)

def World.step (w : World) : Move → World
  | .wait ms => { w with now := w.now + ms }
  | .retain waiting => { w with holds := w.holds.retain waiting }
  | .takeUp arrival deps => { w with holds := (w.holds.takeUp w.now arrival deps).2 }
  | .readAgain nodes => { w with holds := w.holds.readAgain w.now nodes }

end OnePipeline.Sources
