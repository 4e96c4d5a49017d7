/-
The command queue as a driver takes from it (`src/engine.rs`: `InPass`, `reconcile_edits`, `pay_owed`): its reconcile loop,
and the claimer that answers beside the loop's passes.

A record is named by its place on the queue's log, so by when it was claimed. The claimer's claim and the loop's hold one
lock in turn; a step is what one of them does between two writes, or a change of what they share under its own lock. A
claim of the queue succeeds, and what a record's processing comes to is the step's own flag. The driver starts having taken
nothing back from one before it. A pass whose answer cannot be written ends the driver.
-/
import Mathlib.Tactic
import OnePipeline.Model.Command

namespace OnePipeline.InPass

/-! ## The queue -/

/-- one record claimed from the command queue -/
inductive Claimed where
  | envelope (id : ℕ) (commands : List Command)
  /-- one that does not decode, and whether the id it is answered under is its own -/
  | undecodable (id : ℕ) (carriesId : Bool)

def Claimed.id : Claimed → ℕ
  | envelope id _ | undecodable id _ => id

def Claimed.isEnvelope : Claimed → Bool
  | envelope .. => true
  | undecodable .. => false

/-- the nodes an envelope's commands name, where every one of them may be answered beside a pass -/
def answerableBesideAPass (commands : List Command) : Option StrSet :=
  let named := commands.foldr (fun command named =>
    match command, named with
    | .settle id .., some named => some (named.insert id)
    | _, _ => none) (some ∅)
  named.filter fun named => !named.isEmpty

/-! ## The loop and its claimer -/

/-- what the loop a claimer serves is doing -/
inductive Mode where
  | inPass
  | waiting
  | stopped
deriving DecidableEq, Repr

/-- what the two share -/
structure Shared where
  inFlight : StrSet := ∅
  /-- nodes an envelope the claimer applied named, until the loop folds it -/
  touched : StrSet := ∅
  applied : Bool := false
  holding : Bool := false
  mode : Mode := .inPass
  /-- what the claimer claimed and the loop is to judge -/
  handed : List ℕ := []

/-- a claim of the claimer's under way -/
structure Claim where
  rest : List ℕ
  handing : Bool := false
  owed : List ℕ := []

/-- a claim ends once it holds nothing more -/
def Claim.underWay (c : Claim) : Option Claim := if c.rest = [] ∧ c.owed = [] then none else some c

/-- a pass of the loop over what it claimed -/
structure Reconciling where
  undecodable : List ℕ
  claimed : List ℕ
  owed : List ℕ
  /-- whether it holds the deliveries it keeps what it did not reach in -/
  keeps : Bool

/-- a pass ends once it has nothing more to judge or answer -/
def Reconciling.underWay (r : Reconciling) : Option Reconciling :=
  if r.undecodable = [] ∧ r.claimed = [] ∧ r.owed = [] then none else some r

structure State where
  log : List Claimed
  /-- how much of the log is claimed -/
  cursor : ℕ
  /-- the ids answered -/
  outcomes : List ℕ
  shared : Shared := {}
  behind : List ℕ := []
  owed : List ℕ := []
  claim : Option Claim := none
  reconciling : Option Reconciling := none
  /-- whether the claimer stood down for the run's last claim -/
  closing : Bool := false
  /-- whether the driver's loop has ended -/
  ended : Bool := false
  /-- the records claimed whose answer is written -/
  answered : List ℕ := []
  /-- the envelopes judged, in order -/
  judged : List ℕ := []

namespace State

variable (s : State)

def isEnvelope (i : ℕ) : Bool := s.log[i]?.any Claimed.isEnvelope

/-- whether an outcome line answers a record's id -/
def hasOutcome (i : ℕ) : Bool := s.log[i]?.any fun record => record.id ∈ s.outcomes

/-- an outcome line written under a record's id -/
def writeOutcome (i : ℕ) : State := { s with outcomes := s.outcomes ++ (s.log[i]?.map Claimed.id).toList }

/-- everything not claimed yet -/
def unclaimed : List ℕ := List.range' s.cursor (s.log.length - s.cursor)

/-- an envelope already answered is claimed and passed over -/
def passedOver (i : ℕ) : Bool := s.isEnvelope i && s.hasOutcome i

/-- the queue claimed: each record of it, but for those passed over -/
def claimCommands : State × List ℕ :=
  ({ s with
      cursor := s.cursor + (s.log.length - s.cursor)
      answered := s.answered ++ s.unclaimed.filter s.passedOver },
    s.unclaimed.filter fun i => !s.passedOver i)

end State

/-! ## The steps -/

/-- what the processing of one envelope comes to -/
inductive Processed where
  | answered
  /-- it failed, having written its answer or not -/
  | failed (answeredFirst : Bool)
deriving DecidableEq, Repr

inductive Event where
  | submitted (record : Claimed)
  | passBegins (inFlight : StrSet)
  | admits (node : String)
  | waits (waiting : Bool)
  | standsDown
  | claimerClaims
  | claimerTakes (processed : Processed)
  | claimerPays (written : Bool)
  /-- the loop's claim, where the queue's token moved or did not -/
  | loopClaims (moved : Bool)
  | loopRefuses (refused : Bool)
  | loopPays (written : Bool)
  | loopJudges (processed : Processed)

namespace State

/-- an envelope judged, and answered where its processing got so far -/
def judges (s : State) (i : ℕ) (processed : Processed) : State :=
  let s := { s with judged := s.judged ++ [i] }
  match processed with
  | .answered => { s.writeOutcome i with answered := s.answered ++ [i] }
  | .failed true => s.writeOutcome i
  | .failed false => s

/-- what an envelope's failed processing leaves owed -/
def owes (i : ℕ) : Processed → List ℕ
  | .answered => []
  | .failed _ => [i]

/-- an owed answer written; one answered before it failed keeps that answer -/
def pay (s : State) (i : ℕ) (written : Bool) : Option State :=
  if s.hasOutcome i then some { s with answered := s.answered ++ [i] }
  else if written then some { s.writeOutcome i with answered := s.answered ++ [i] }
  else none

/-- a record appended to the queue -/
def submitted (s : State) (record : Claimed) : State := { s with log := s.log ++ [record] }

/-! ### The claimer -/

def claimerClaims (s : State) : State :=
  if s.shared.mode = .inPass ∧ s.shared.holding = false ∧ s.shared.handed = [] then
    let (s, claimed) := s.claimCommands
    { s with claim := Claim.underWay { rest := claimed } }
  else s

def hand (s : State) (c : Claim) (i : ℕ) (rest : List ℕ) : State :=
  { s with
    shared := { s.shared with handed := s.shared.handed ++ [i] }
    claim := Claim.underWay { c with rest, handing := true } }

/-- the nodes of a record the claimer answers itself -/
def answerable (s : State) (c : Claim) (i : ℕ) : Option StrSet :=
  match s.log[i]? with
  | some (.envelope _ commands) =>
    if c.handing then none
    else (answerableBesideAPass commands).filter fun named => !named.toList.any fun node => node ∈ s.shared.inFlight
  | _ => none

def claimerTakes (s : State) (c : Claim) (processed : Processed) : State :=
  match c.rest, c.owed with
  | i :: rest, [] =>
    match s.answerable c i with
    | none => s.hand c i rest
    | some named =>
      { s.judges i processed with
        shared := { s.shared with touched := named.toList.foldl (fun t node => t.insert node) s.shared.touched, applied := true }
        claim := Claim.underWay { c with rest, owed := owes i processed } }
  | _, _ => s

/-- an answer the claimer cannot write ends its claim -/
def claimerPays (s : State) (c : Claim) (written : Bool) : State :=
  match c.owed with
  | i :: owed =>
    match s.pay i written with
    | some s => { s with claim := Claim.underWay { c with owed } }
    | none => { s with claim := none }
  | [] => s

/-! ### The loop -/

def loopClaims (s : State) (moved : Bool) : State :=
  if s.closing then
    let (s, fresh) := s.claimCommands
    { s with
      reconciling := Reconciling.underWay {
        undecodable := fresh.filter fun i => !s.isEnvelope i
        claimed := fresh.filter s.isEnvelope
        owed := []
        keeps := false } }
  else if s.claim.isSome then s
  else
    let handed := s.shared.handed
    let (s, claimed) := if moved then s.claimCommands else (s, [])
    let fresh := handed ++ claimed
    { s with
      shared := { s.shared with applied := false, handed := [] }
      behind := []
      owed := []
      reconciling := Reconciling.underWay {
        undecodable := fresh.filter fun i => !s.isEnvelope i
        claimed := s.behind ++ fresh.filter s.isEnvelope
        owed := s.owed
        keeps := true } }

def carriesId (s : State) (i : ℕ) : Bool :=
  match s.log[i]? with
  | some (.undecodable _ carriesId) => carriesId
  | _ => true

/-- a record that does not decode is refused as it is claimed; one that names no id has no outcome line to be answered on -/
def loopRefuses (s : State) (r : Reconciling) (refused : Bool) : State :=
  match r.undecodable with
  | i :: undecodable =>
    if refused then
      { s.writeOutcome i with
        answered := s.answered ++ [i]
        reconciling := Reconciling.underWay { r with undecodable } }
    else if s.carriesId i then { s with reconciling := Reconciling.underWay { r with undecodable, owed := r.owed ++ [i] } }
    else { s with reconciling := Reconciling.underWay { r with undecodable } }
  | [] => s

/-- what a pass claimed and had not reached, and the answers it could not write, kept for the same driver's next pass -/
def keepForNextPass (s : State) (r : Reconciling) : State :=
  if r.keeps then { s with behind := r.claimed, owed := r.owed } else s

/-- an answer the loop cannot write ends the driver -/
def loopPays (s : State) (r : Reconciling) (written : Bool) : State :=
  match r.undecodable, r.owed with
  | [], i :: owed =>
    match s.pay i written with
    | some s => { s with reconciling := Reconciling.underWay { r with owed } }
    | none => { s.keepForNextPass r with reconciling := none, ended := true }
  | _, _ => s

def loopJudges (s : State) (r : Reconciling) (processed : Processed) : State :=
  match r.undecodable, r.owed, r.claimed with
  | [], [], i :: claimed =>
    { s.judges i processed with reconciling := Reconciling.underWay { r with claimed, owed := owes i processed } }
  | _, _, _ => s

/-- whether the loop may start a node: no envelope the claimer applied named it since the loop last folded -/
def admits (s : State) (node : String) : State :=
  if node ∈ s.shared.touched then s
  else { s with shared := { s.shared with inFlight := s.shared.inFlight.insert node } }

/-- the loop starts a pass -/
def passBegins (s : State) (inFlight : StrSet) : State :=
  { s with
    shared := { s.shared with
      inFlight
      holding := !s.behind.isEmpty
      mode := if s.shared.mode = .stopped then .stopped else .inPass
      touched := ∅
      applied := false }
    closing := false }

def standsDown (s : State) : State :=
  { s with
    shared := { s.shared with mode := .stopped }
    closing := s.claim.isNone && !s.shared.applied && s.shared.handed.isEmpty }

def «waits» (s : State) (waiting : Bool) : State :=
  if s.shared.mode = .stopped then s
  else { s with shared := { s.shared with mode := if waiting then .waiting else .inPass } }

end State

/-- one step; the loop does nothing else while it reconciles, and neither does anything once it has ended -/
def step (s : State) (event : Event) : State :=
  if s.ended then s
  else
    match event, s.claim, s.reconciling with
    | .submitted record, _, _ => s.submitted record
    | .passBegins inFlight, _, none => s.passBegins inFlight
    | .admits node, _, none => s.admits node
    | .waits waiting, _, none => s.waits waiting
    | .standsDown, _, none => s.standsDown
    | .claimerClaims, none, none => s.claimerClaims
    | .claimerTakes processed, some c, _ => s.claimerTakes c processed
    | .claimerPays written, some c, _ => s.claimerPays c written
    | .loopClaims moved, _, none => s.loopClaims moved
    | .loopRefuses refused, _, some r => s.loopRefuses r refused
    | .loopPays written, _, some r => s.loopPays r written
    | .loopJudges processed, _, some r => s.loopJudges r processed
    | _, _, _ => s

/-- a driver's start over a queue -/
def started (log : List Claimed) (cursor : ℕ) (outcomes : List ℕ) : State := { log, cursor, outcomes }

end OnePipeline.InPass
