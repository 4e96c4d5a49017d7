/-
The handover of a run (`src/ledger.rs`, `src/engine.rs`, `src/channel.rs`): the gate of numbered entries, what a departing
owner does inside it and what a submitter does there, one file operation at a time.

A party is one that asks for the gate, with the identity its entry gives; two parties of one process have one identity.
Trying the ownership lock is one operation here. A listing sees the directory as it stands at once; a read that finds an
entry's body and the host's answer about who it names are two.
-/
import Mathlib.Tactic
import OnePipeline.Model.Ownership

namespace OnePipeline.Handover

open Ownership (Life)

/-! ## The gate's entries -/

/-- who an entry's body names -/
structure Identity where
  pid : ℕ
  host : String
deriving DecidableEq, Repr

/-- one numbered entry: its body is none until its maker fills it -/
structure Entry where
  number : ℕ
  body : Option Identity := none
deriving DecidableEq, Repr

/-- the highest number an entry's name can hold -/
def highestNumber : ℕ := 2 ^ 64 - 1

/-- the highest-numbered entry; a name of another shape counts as one at the highest number -/
def highestEntryIn (entries : List Entry) (stranger : Bool) : Option ℕ :=
  if stranger then some highestNumber else (entries.map Entry.number).max?

/-- the identity an entry's body carries -/
def identityAt (entries : List Entry) (number : ℕ) : Option Identity :=
  (entries.find? fun e => e.number = number).bind Entry.body

/-! ## The command queue -/

/-- a record of the command queue: whether it decodes as this build's envelope -/
structure Queued where
  id : ℕ
  decodes : Bool
deriving DecidableEq, Repr

/-- the durable queue: every record appended, how many a claim has taken off it, and the ids its outcome lines answer -/
structure Queue where
  log : List Queued := []
  cursor : ℕ := 0
  outcomes : List ℕ := []
deriving DecidableEq, Repr

namespace Queue

/-- the records no claim has taken off the queue -/
def waiting (q : Queue) : List Queued := q.log.drop q.cursor

def append (q : Queue) (record : Queued) : Queue := { q with log := q.log ++ [record] }

/-- one record claimed, where one waits -/
def claim (q : Queue) : Queue := if q.cursor < q.log.length then { q with cursor := q.cursor + 1 } else q

def answer (q : Queue) (id : ℕ) : Queue := { q with outcomes := q.outcomes ++ [id] }

end Queue

/-- what a claim would take and answer -/
structure Claimable where
  envelopes : List Queued
  undecodable : ℕ
deriving DecidableEq, Repr

def Claimable.isEmpty (c : Claimable) : Bool := c.envelopes.isEmpty && c.undecodable == 0

/-- the ids among the records an outcome line answers -/
def answeredAmong (records : List Queued) (outcomes : List ℕ) : List ℕ :=
  outcomes.filter fun id => id ∈ records.map Queued.id

def claimableCommands (waiting : List Queued) (outcomes : List ℕ) : Claimable where
  envelopes := waiting.filter fun r => r.decodes && !decide (r.id ∈ answeredAmong waiting outcomes)
  undecodable := waiting.countP fun r => !r.decodes

/-! ## One party -/

/-- what a party takes the gate for -/
inductive Work where
  /-- a submission, of an envelope the run's owner can decode or not -/
  | accept (decodes : Bool)
  | letGo
  /-- a section that neither queues behind an owner nor lets the run go -/
  | other
deriving DecidableEq, Repr

/-- where a party stands between two of its file operations; `number` is the entry it made -/
inductive Phase where
  | idle
  /-- about to list the gate's entries -/
  | listing (work : Work)
  /-- about to read the body of the highest entry -/
  | looking (work : Work) (top : ℕ)
  /-- about to ask whether the one that body names is gone -/
  | doubting (work : Work) (top : ℕ) (holder : Identity)
  /-- about to make the entry above the highest it saw -/
  | creating (work : Work) (below : ℕ)
  /-- its entry made, and about to fill it -/
  | filling (work : Work) (number : ℕ)
  /-- a submitter about to try the ownership lock -/
  | trying (decodes : Bool) (number : ℕ)
  /-- a submitter that found the run held, about to append its envelope -/
  | appending (decodes : Bool) (number : ℕ)
  /-- an owner about to read what waits on the queue -/
  | reading (number : ℕ)
  /-- an owner about to read the outcome lines -/
  | answering (number : ℕ) (waiting : List Queued)
  /-- an owner that found the queue empty, about to release the lock -/
  | releasing (number : ℕ)
  | inside (number : ℕ)
  /-- about to take its entry away -/
  | leaving (number : ℕ)
deriving DecidableEq, Repr

namespace Phase

/-- the entry a party made and has not taken away: it is inside the section -/
def number : Phase → Option ℕ
  | filling _ n | trying _ n | appending _ n | reading n | answering n _ | releasing n | inside n | leaving n => some n
  | _ => none

/-- an owner between its reads of the queue and its release -/
def lettingGo : Phase → Bool
  | reading _ | answering _ _ | releasing _ => true
  | _ => false

/-- a party free to do what an owner does outside the two sections -/
def free : Phase → Bool
  | idle | inside _ => true
  | _ => false

/-- where a party waiting for the gate gives it up, or one inside fails -/
def givenUp : Phase → Phase
  | listing _ | looking _ _ | doubting _ _ _ | creating _ _ => idle
  | trying _ n | appending _ n => leaving n
  | phase => phase

end Phase

/-- the first operation of a section -/
def Work.enters (number : ℕ) : Work → Phase
  | accept decodes => .trying decodes number
  | letGo => .reading number
  | other => .inside number

/-! ## The run's parties -/

/-- the identity of each party, and how the queue numbers a record -/
structure Machine (P : Type) where
  who : P → Identity
  nextId : List Queued → ℕ

/-- the gate, the ownership lock, the queue, and where every party stands. `released` says the run was let go of with
Released and not taken since; `held` is the parties that hold the lock's value. -/
structure State (P : Type) where
  entries : List Entry := []
  stranger : Bool := false
  lock : Option P := none
  held : P → Bool := fun _ => false
  released : Bool := false
  queue : Queue := {}
  phase : P → Phase := fun _ => .idle
  life : P → Life := fun _ => .unborn

inductive Event (P : Type) where
  | born (p : P)
  | begins (p : P) (work : Work)
  /-- a party's next operation: `yes` is the host's word that the one asked about is gone, or that a write or a removal
  landed -/
  | act (p : P) (yes : Bool)
  | givesUp (p : P)
  /-- the lock taken outside a submission -/
  | takes (p : P) (gone : Bool)
  /-- the lock released by no last look at the queue -/
  | drops (p : P)
  | abandons (p : P)
  /-- an owner's own record, appended -/
  | submits (p : P) (decodes : Bool)
  | claims (p : P)
  | answers (id : ℕ)
  /-- a name of another shape left among the entries -/
  | litters
  | dies (p : P)

namespace State

variable {P : Type} [DecidableEq P] (m : Machine P) (s : State P)

def enter (p : P) (phase : Phase) : State P := { s with phase := Function.update s.phase p phase }

def setLife (p : P) (life : Life) : State P := { s with life := Function.update s.life p life }

/-- who a party is about to ask the host about -/
def subject (p : P) : Option Identity :=
  match s.phase p with
  | .doubting _ _ holder => some holder
  | .trying _ _ => s.lock.map m.who
  | _ => none

def makeEntry (number : ℕ) : State P := { s with entries := ⟨number, none⟩ :: s.entries }

def fillEntry (number : ℕ) (who : Identity) : State P :=
  { s with entries := s.entries.map fun e => if e.number = number then { e with body := some who } else e }

def removeEntry (number : ℕ) : State P := { s with entries := s.entries.filter fun e => e.number ≠ number }

/-- the lock where a try of it takes it: free, or of one of this host that is gone -/
def takeable (p : P) (gone : Bool) : Bool :=
  match s.lock with
  | none => true
  | some q => (m.who q).host = (m.who p).host ∧ gone

def take (p : P) : State P := { s with lock := some p, held := Function.update s.held p true, released := false }

/-- the lock released once the queue was found empty -/
def release (p : P) : State P := { s with lock := none, held := Function.update s.held p false, released := true }

/-- the lock released without that look -/
def drop (p : P) : State P := { s with lock := none, held := Function.update s.held p false }

def append (decodes : Bool) : State P := { s with queue := s.queue.append ⟨m.nextId s.queue.log, decodes⟩ }

/-- a party's next operation -/
def act (p : P) (yes : Bool) : State P :=
  match s.phase p with
  | .idle => s
  | .listing work =>
    match highestEntryIn s.entries s.stranger with
    | none => s.enter p (.creating work 0)
    | some top => s.enter p (.looking work top)
  | .looking work top =>
    match identityAt s.entries top with
    | none => s.enter p (.listing work)
    | some holder => s.enter p (.doubting work top holder)
  | .doubting work top holder =>
    if holder.host = (m.who p).host ∧ yes then
      -- a number above the highest there can be is refused
      s.enter p (if top < highestNumber then .creating work top else .idle)
    else s.enter p (.listing work)
  | .creating work below =>
    -- made exclusively: two that saw one highest number meet on one path
    if s.entries.any (·.number = below + 1) then s.enter p (.listing work)
    else (s.makeEntry (below + 1)).enter p (.filling work (below + 1))
  | .filling work n => if yes then (s.fillEntry n (m.who p)).enter p (work.enters n) else s.enter p (.leaving n)
  | .trying decodes n =>
    if s.takeable m p yes then (s.take p).enter p (.leaving n) else s.enter p (.appending decodes n)
  | .appending decodes n => (s.append m decodes).enter p (.leaving n)
  | .reading n => s.enter p (.answering n s.queue.waiting)
  | .answering n waiting =>
    s.enter p (if (claimableCommands waiting s.queue.outcomes).isEmpty then .releasing n else .leaving n)
  | .releasing n => (s.release p).enter p (.leaving n)
  | .inside n => s.enter p (.leaving n)
  | .leaving n => (if yes then s.removeEntry n else s).enter p .idle

def step : Event P → State P
  | .born p => s.setLife p .live
  | .begins p work => s.enter p (.listing work)
  | .act p yes => s.act m p yes
  | .givesUp p => s.enter p (s.phase p).givenUp
  | .takes p gone => if s.takeable m p gone then s.take p else s
  | .drops p => s.drop p
  | .abandons p => { s with held := Function.update s.held p false }
  | .submits _ decodes => s.append m decodes
  | .claims _ => { s with queue := s.queue.claim }
  | .answers id => { s with queue := s.queue.answer id }
  | .litters => { s with stranger := true }
  | .dies p => s.setLife p .dead

/-- no live party has an identity the host proves gone -/
def Proves (who : Identity) : Prop := ∀ q, m.who q = who → s.life q ≠ .live

/-- what may come: a party acts while it lives, lets go of, drops and claims what it holds, and is told one is gone only
where no live party has that identity -/
def Allowed : Event P → Prop
  | .born p => s.life p = .unborn
  | .begins p work => s.life p = .live ∧ s.phase p = .idle ∧ (work = .letGo → s.held p = true)
  | .act p yes => s.life p = .live ∧ (yes = true → ∀ who ∈ s.subject m p, s.Proves m who)
  | .givesUp p => s.life p = .live
  | .takes p gone =>
    s.life p = .live ∧ (s.phase p).free = true ∧ (gone = true → ∀ q ∈ s.lock, s.Proves m (m.who q))
  | .drops p | .abandons p | .submits p _ => s.life p = .live ∧ (s.phase p).free = true ∧ s.held p = true
  | .claims p => s.life p = .live ∧ s.held p = true
  | .dies p => s.life p = .live
  | .answers _ | .litters => True

/-- a party is answered that one is gone while the entry it read stands as it read it -/
def Steady : Event P → Prop
  | .act p true =>
    match s.phase p with
    | .doubting _ top holder => holder.host = (m.who p).host → ⟨top, some holder⟩ ∈ s.entries
    | _ => True
  | _ => True

/-- one live party at most is inside the section, and a run let go of with Released leaves nothing unanswered waiting -/
structure NothingStranded : Prop where
  one : ∀ p q, s.life p = .live → s.life q = .live → (s.phase p).number.isSome → (s.phase q).number.isSome → p = q
  answered : s.released = true → ∀ r ∈ s.queue.waiting, r.decodes = true ∧ r.id ∈ s.queue.outcomes

end State

end OnePipeline.Handover
