/-
Live notes on their way to their conversations (`src/engine.rs`: `NoteDeliveries`, `lane_delivered`, `deliver_seated`,
`settle_lane`, `TakeBack::apply`, `DeliveriesInFlight`).

An envelope's notes are handed out by receiver, each receiver's with one delivery thread, and a receiver an earlier
envelope's notes are outstanding to keeps its own waiting. A step is what the run's writer or one thread does under one lock,
so threads run between any two steps of a preemption. What a conversation does of a note offered to it is the step's own, and
so is whether a note nothing took is carried. Every record the writer makes is taken by the journal, and every thread the
writer starts is given it by the host.
-/
import Mathlib.Tactic
import OnePipeline.Core.Maps
import OnePipeline.Model.Plan

namespace OnePipeline.Deliveries

/-! ## One receiver's notes -/

/-- what has become of a note offered to its conversation -/
inductive Offer where
  | waiting
  | taken
  /-- its deadline passed, or its conversation ended without it -/
  | lapsed
  | withdrawn
  /-- its conversation never took it in -/
  | unadmitted
deriving DecidableEq, Repr

/-- what a delivery thread answers of one note -/
inductive Ruling where
  | committed
  | notAttempted
  | withdrawn
  | refused
deriving DecidableEq, Repr

/-- how far a delivery thread has got, as the writer reads it -/
structure Progress where
  /-- the positions of the notes the thread committed -/
  finished : List ℕ := []
  /-- the position of the note the thread waits on its conversation for -/
  offering : Option ℕ := none
  /-- the envelope whose `cancel` marked the receiver -/
  cancelled : Option ℕ := none
  answered : ℕ := 0
  /-- the position of the note the published withdrawer takes back -/
  withdrawer : Option ℕ := none
  /-- the positions a `withdraw-note` took back -/
  withdrawn : List ℕ := []
deriving DecidableEq, Repr

/-- one receiver's notes of an envelope, with the thread that offers them -/
structure Lane where
  /-- the notes' indices among the envelope's commands -/
  notes : List ℕ
  /-- whether no thread offers them yet -/
  waiting : Bool
  progress : Progress := {}
  /-- the thread's own: what has become of the note it offers, and what it answered of the notes before -/
  offer : Option Offer := none
  rulings : List Ruling := []
deriving DecidableEq, Repr

namespace Lane

variable (lane : Lane)

/-- the position the thread is at -/
def next : ℕ := lane.rulings.length

/-- whether the thread comes to a note, and has none on offer -/
def isFree : Bool := !lane.waiting && lane.offer.isNone && decide (lane.next < lane.notes.length)

/-- whether the thread has answered every note -/
def isDone : Bool := !lane.waiting && lane.offer.isNone && decide (lane.notes.length ≤ lane.next)

/-- whether the thread, come to its next note, offers it -/
def offers : Bool :=
  lane.isFree && decide (lane.next ∉ lane.progress.withdrawn) && decide (Ruling.refused ∉ lane.rulings) &&
    lane.progress.cancelled.isNone

/-- a note answered without being offered -/
def ruled (ruling : Ruling) : Lane :=
  { lane with
    rulings := lane.rulings ++ [ruling]
    progress := { lane.progress with answered := lane.progress.answered + 1 } }

/-- a note offered, which its conversation takes in or does not -/
def offered (admitted : Bool) : Lane :=
  { lane with
    offer := some (if admitted then .waiting else .unadmitted)
    progress :=
      { lane.progress with
        offering := some lane.next
        withdrawer := if admitted then some lane.next else lane.progress.withdrawer } }

/-- `deliver_seated`, as far as the offer -/
def admission (admitted : Bool) : Lane :=
  if lane.isFree then
    if lane.next ∈ lane.progress.withdrawn then lane.ruled .withdrawn
    else if Ruling.refused ∈ lane.rulings then lane.ruled .notAttempted
    else if lane.progress.cancelled.isSome then lane.ruled .refused
    else lane.offered admitted
  else lane

/-- the conversation's own doing: a turn takes the note, or none does in time -/
def fated (taken : Bool) : Lane :=
  if lane.offer = some .waiting then { lane with offer := some (if taken then .taken else .lapsed) } else lane

/-- a note offered, answered -/
def settled (ruling : Ruling) : Lane :=
  { lane with
    offer := none
    rulings := lane.rulings ++ [ruling]
    progress :=
      { lane.progress with
        offering := none
        withdrawer := none
        answered := lane.progress.answered + 1
        finished := if ruling = .committed then lane.progress.finished ++ [lane.next] else lane.progress.finished } }

/-- `deliver_seated`, from the conversation's answer on -/
def answer (carried : Bool) : Lane :=
  match lane.offer with
  | none | some .waiting => lane
  | some .taken => lane.settled .committed
  | some .lapsed | some .unadmitted => lane.settled (if carried then .committed else .refused)
  -- taken back by a `cancel`, it is recorded by nothing here, and refuses
  | some .withdrawn => lane.settled (if lane.next ∈ lane.progress.withdrawn then .withdrawn else .refused)

/-- whether the withdrawer of the note at a position would take it back -/
def withdraws (position : ℕ) : Bool := decide (lane.next = position ∧ lane.offer = some .waiting)

def withdraw (position : ℕ) : Lane := if lane.withdraws position then { lane with offer := some .withdrawn } else lane

def markWithdrawn (position : ℕ) : Lane :=
  { lane with progress := { lane.progress with withdrawn := lane.progress.withdrawn ++ [position] } }

/-- `TakeBack::apply`: the note taken back, or nothing where it is answered, taken, or not to be taken back -/
def takeBack (position : ℕ) : Option Lane :=
  if position < lane.progress.answered then none
  else if lane.progress.offering = some position then
    match lane.progress.withdrawer with
    | none => none
    | some held => if lane.withdraws held then some ((lane.withdraw held).markWithdrawn position) else none
  else some (lane.markWithdrawn position)

/-- marked by a cancelling envelope, where none marked it before -/
def markCancelled («by» : ℕ) : Lane :=
  { lane with progress := { lane.progress with cancelled := lane.progress.cancelled.or (some «by») } }

/-- its finished notes taken out, to be committed -/
def committed : Lane := { lane with progress := { lane.progress with finished := [] } }

end Lane

/-! ## The deliveries -/

/-- a note: its envelope, its receiver, and its position among that receiver's notes -/
abbrev Note : Type := ℕ × String × ℕ

/-- what the journal is given of a note -/
inductive Fate where
  | committed
  | refused
  /-- a `withdraw-note` took it back -/
  | withdrawn
deriving DecidableEq, Repr

/-- what a ruling records of its note: one taken back has its record already -/
def Ruling.fate? : Ruling → Option Fate
  | .committed => some .committed
  | .notAttempted | .refused => some .refused
  | .withdrawn => none

/-- where the writer is in a preemption -/
inductive Writer where
  | idle
  /-- visiting the cancelled receivers -/
  | visiting («by» : ℕ) (rest : List (ℕ × String)) (preempted : List (ℕ × String)) (takenBack : List Note)
  /-- taking back the notes on offer -/
  | takingBack (preempted : List (ℕ × String)) (takenBack : List Note)
  /-- answering each preempted receiver's notes in its conversation's place, and letting it go -/
  | lettingGo (preempted : List (ℕ × String))
deriving DecidableEq, Repr

structure NoteDeliveries where
  /-- each envelope with a receiver still to answer, and each such receiver's notes -/
  outstanding : Std.ExtTreeMap ℕ (StrMap (List ℕ)) compare := ∅
  /-- every lane handed, while its thread holds it too -/
  lanes : ℕ → String → Option Lane := fun _ _ => none
  /-- how many deliveries to a node the dispatch threads see outstanding -/
  held : String → ℕ := fun _ => 0
  handed : List ℕ := []
  writer : Writer := .idle
  /-- the notes offered to a conversation, and those a turn took, as they were -/
  offered : List Note := []
  taken : List Note := []
  /-- the records of the notes, as the journal took them -/
  records : List (Note × Fate) := []

inductive Event where
  /-- an envelope's notes handed to their receivers -/
  | hand (id : ℕ) (notes : StrMap (List ℕ))
  /-- a thread comes to its next note -/
  | admission (id : ℕ) (node : String) (admitted : Bool)
  /-- a turn takes the note a thread waits on, or none does in time -/
  | fate (id : ℕ) (node : String) (taken : Bool)
  /-- a thread reads its conversation's answer -/
  | answer (id : ℕ) (node : String) (carried : Bool)
  /-- the writer records a receiver's answer -/
  | record (id : ℕ) (node : String)
  /-- a `withdraw-note` seated on a lane is applied -/
  | withdrawNote (id : ℕ) (node : String) (position : ℕ)
  /-- a valid `cancel` begins to preempt -/
  | cancel («by» : ℕ) (cancelled : StrSet)
  /-- the preemption under way goes one step on -/
  | preempt

namespace NoteDeliveries

variable (s : NoteDeliveries)

/-- whether a receiver of an envelope is outstanding -/
def Outstanding (id : ℕ) (node : String) : Prop := node ∈ s.outstanding[id]?.getD ∅

instance (id : ℕ) (node : String) : Decidable (s.Outstanding id node) := inferInstanceAs (Decidable (_ ∈ _))

def modifyLane (id : ℕ) (node : String) (f : Lane → Lane) : NoteDeliveries :=
  { s with lanes := fun i n => if i = id ∧ n = node then (s.lanes i n).map f else s.lanes i n }

/-- whether a note to a node is outstanding, offered or waiting -/
def receiving (node : String) : Bool := s.outstanding.toList.any fun p => decide (node ∈ p.2)

def hand (id : ℕ) (notes : StrMap (List ℕ)) : NoteDeliveries :=
  { s with
    outstanding := s.outstanding.insert id notes
    lanes := fun i n => if i = id then notes[n]?.map fun notes => { notes, waiting := s.receiving n } else s.lanes i n
    held := fun n => if n ∈ notes then s.held n + 1 else s.held n
    handed := s.handed ++ [id] }

/-- whether a receiver of an envelope has a lane that waits, and one that does not -/
def waits (id : ℕ) (node : String) : Bool := (s.lanes id node).any fun lane => lane.waiting

def hasThread (id : ℕ) (node : String) : Bool := (s.lanes id node).any fun lane => !lane.waiting

/-- whether a node's notes are with a thread -/
def offering (node : String) : Bool := s.outstanding.toList.any fun p => decide (node ∈ p.2) && s.hasThread p.1 node

/-- the earliest envelope whose notes to a node wait -/
def nextWaiting (node : String) : Option ℕ :=
  (s.outstanding.toList.find? fun p => decide (node ∈ p.2) && s.waits p.1 node).map Prod.fst

/-- the earliest notes to a node still waiting given to a thread, where no note to it is with one -/
def startNext (node : String) : NoteDeliveries :=
  if s.offering node then s
  else
    match s.nextWaiting node with
    | none => s
    | some id => s.modifyLane id node fun lane => { lane with waiting := false }

def takeLane (id : ℕ) (node : String) : NoteDeliveries :=
  { s with outstanding := s.outstanding.modify id fun lanes => lanes.erase node }

/-- a receiver's delivery no longer outstanding to the dispatch threads -/
def release (node : String) : NoteDeliveries := { s with held := fun n => if n = node then s.held n - 1 else s.held n }

/-- an envelope let go of once its last receiver is -/
def finish (id : ℕ) : NoteDeliveries :=
  match s.outstanding[id]? with
  | some lanes => if lanes.isEmpty then { s with outstanding := s.outstanding.erase id } else s
  | none => s

/-- a receiver let go, and the next notes to it offered -/
def letGo (id : ℕ) (node : String) : NoteDeliveries := (((s.takeLane id node).release node).finish id).startNext node

/-- what each note of a receiver came to, recorded: `settle_lane` -/
def settleLane (id : ℕ) (node : String) (rulings : List Ruling) : NoteDeliveries :=
  { s with
    records := s.records ++ rulings.zipIdx.filterMap fun p => p.1.fate?.map fun fate => ((id, node, p.2), fate) }

/-- `record_lane`: a thread's answer, where its receiver is still outstanding -/
def recordLane (id : ℕ) (node : String) : NoteDeliveries :=
  match s.lanes id node with
  | some lane => if s.Outstanding id node ∧ lane.isDone then (s.settleLane id node lane.rulings).letGo id node else s
  | none => s

/-! ## A preemption, step by step -/

/-- the receivers of a set outstanding, envelope by envelope -/
def cancelledLanes (cancelled : StrSet) : List (ℕ × String) :=
  s.outstanding.toList.flatMap fun p => (p.2.keys.filter fun node => node ∈ cancelled).map fun node => (p.1, node)

/-- one cancelled receiver visited: preempted where its notes wait or one is on offer, and marked elsewhere -/
def visit («by» id : ℕ) (node : String) (rest preempted : List (ℕ × String)) (takenBack : List Note) : NoteDeliveries :=
  match s.lanes id node with
  | some lane =>
    if lane.waiting then { s with writer := .visiting «by» rest (preempted ++ [(id, node)]) takenBack }
    else if lane.progress.offering.isSome then
      { s with
        writer := .visiting «by» rest (preempted ++ [(id, node)])
          (takenBack ++ lane.progress.withdrawer.toList.map fun position => (id, node, position)) }
    else { s.modifyLane id node (Lane.markCancelled · «by») with writer := .visiting «by» rest preempted takenBack }
  | none => { s with writer := .visiting «by» rest preempted takenBack }

/-- what a preempted receiver's notes are answered: one finished was taken, and one taken back has its record -/
def preemptedRulings (lane : Lane) : List Ruling :=
  (List.range lane.notes.length).map fun position =>
    if position ∈ lane.progress.finished then .committed
    else if position ∈ lane.progress.withdrawn then .withdrawn
    else .refused

/-- one preempted receiver answered, and let go -/
def answerFor (id : ℕ) (node : String) (rest : List (ℕ × String)) : NoteDeliveries :=
  match s.lanes id node with
  | some lane =>
    if s.Outstanding id node then
      { ((s.modifyLane id node Lane.committed).settleLane id node (preemptedRulings lane)).letGo id node with
        writer := .lettingGo rest }
    else { s with writer := .lettingGo rest }
  | none => { s with writer := .lettingGo rest }

def preempt : NoteDeliveries :=
  match s.writer with
  | .idle => s
  | .visiting «by» ((id, node) :: rest) preempted takenBack => s.visit «by» id node rest preempted takenBack
  | .visiting _ [] preempted takenBack => { s with writer := .takingBack preempted takenBack }
  | .takingBack preempted ((id, node, position) :: rest) =>
    { s.modifyLane id node (Lane.withdraw · position) with writer := .takingBack preempted rest }
  | .takingBack preempted [] => { s with writer := .lettingGo preempted }
  | .lettingGo ((id, node) :: rest) => s.answerFor id node rest
  | .lettingGo [] => { s with writer := .idle }

/-! ## The system -/

/-- a thread at its next note -/
def admission (id : ℕ) (node : String) (admitted : Bool) : NoteDeliveries :=
  match s.lanes id node with
  | none => s
  | some lane =>
    { s.modifyLane id node (Lane.admission · admitted) with
      offered := if lane.offers then s.offered ++ [(id, node, lane.next)] else s.offered }

/-- a conversation's turn, at a note on offer -/
def fate (id : ℕ) (node : String) (taken : Bool) : NoteDeliveries :=
  match s.lanes id node with
  | none => s
  | some lane =>
    { s.modifyLane id node (Lane.fated · taken) with
      taken := if taken = true ∧ lane.offer = some .waiting then s.taken ++ [(id, node, lane.next)] else s.taken }

/-- a `withdraw-note` of a note a lane holds, whose commit is the note's record -/
def withdrawNote (id : ℕ) (node : String) (position : ℕ) : NoteDeliveries :=
  match (s.lanes id node).bind fun lane => lane.takeBack position with
  | none => s
  | some lane =>
    { s.modifyLane id node fun _ => lane with records := s.records ++ [((id, node, position), .withdrawn)] }

def step : Event → NoteDeliveries
  | .hand id notes => s.hand id notes
  | .admission id node admitted => s.admission id node admitted
  | .fate id node taken => s.fate id node taken
  | .answer id node carried => s.modifyLane id node (Lane.answer · carried)
  | .record id node => s.recordLane id node
  | .withdrawNote id node position => s.withdrawNote id node position
  | .cancel «by» cancelled => { s with writer := .visiting «by» (s.cancelledLanes cancelled) [] [] }
  | .preempt => s.preempt

/-- what the writer does it does between preemptions; envelopes come in the order they are numbered; a receiver's answer
is one its thread sent; and a `withdraw-note` is seated on a lane, of a note the record holds no withdrawal of -/
def Allowed : Event → Prop
  | .hand id _ => s.writer = .idle ∧ ∀ earlier ∈ s.handed, earlier < id
  | .record id node => s.writer = .idle ∧ (s.lanes id node).any Lane.isDone
  | .withdrawNote id node position => s.writer = .idle ∧ s.Outstanding id node ∧ ((id, node, position), Fate.withdrawn) ∉ s.records ∧
      ∀ lane ∈ s.lanes id node, position < lane.notes.length
  | .cancel _ _ => s.writer = .idle
  | .admission _ _ _ | .fate _ _ _ | .answer _ _ _ | .preempt => True

instance : (event : Event) → Decidable (s.Allowed event)
  | .hand _ _ => inferInstanceAs (Decidable (_ ∧ _))
  | .record _ _ => inferInstanceAs (Decidable (_ ∧ _))
  | .withdrawNote _ _ _ => inferInstanceAs (Decidable (_ ∧ _))
  | .cancel _ _ => inferInstanceAs (Decidable (_ = _))
  | .admission _ _ _ | .fate _ _ _ | .answer _ _ _ | .preempt => .isTrue trivial

end NoteDeliveries

end OnePipeline.Deliveries
