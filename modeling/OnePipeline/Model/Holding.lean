/-
What the loop is holding back and what it waits on a person for, said on the journal as it changes and read back by the next
driver (`src/engine.rs`, `src/pool.rs`, `src/unanswered.rs`, `src/projection.rs`).

A pass finds the decisions outstanding and the holds standing, and writes what differs from what it said last. Counts of
milliseconds are naturals. A pending decision is kept under the reference it names, so nothing of it repeats the reference.
-/
import Mathlib.Tactic
import OnePipeline.Core.Flood
import OnePipeline.Core.Reported
import OnePipeline.Core.Runs
import OnePipeline.Model.Sources
import OnePipeline.Model.Projection

namespace OnePipeline.Holding

open Std
open Sources (SourceCause Unasked Unanswered SourceHold)

/-! ## Reading JSON -/

def get (key : String) : Value → Option Value
  | .obj fields => fields.lookup key
  | _ => none

def asArray : Value → Option (List Value)
  | .arr items => some items
  | _ => none

def asU64 : Value → Option ℕ
  | .num n => if 0 ≤ n then some n.toNat else none
  | _ => none

def asU32 (v : Value) : Option UInt32 := (asU64 v).bind fun n => if n < 2 ^ 32 then some (UInt32.ofNat n) else none

/-- an array of texts, whole or not at all -/
def asTexts (v : Value) : Option (List String) := do (← asArray v).mapM Value.asStr

def texts (l : List String) : Value := .arr (l.map .str)

/-- `u64::from_str` -/
def parseU64 (word : List Char) : Option UInt64 :=
  let digits := (Text.stripPrefix ['+'] word).getD word
  if digits ≠ [] ∧ digits.all Char.isDigit ∧ Nat.ofDigitChars 10 digits 0 < 2 ^ 64 then
    some (UInt64.ofNat (Nat.ofDigitChars 10 digits 0))
  else none

/-! ## What clears a decision -/

inductive DecisionRef where
  /-- a node waiting on a person -/
  | attestation (node : String)
  /-- a blocking surface, by its id -/
  | surface (id : UInt64)
deriving DecidableEq, Repr

namespace DecisionRef

def surfaceWord : List Char := "surface:".toList

/-- as the journal and the node label spell it -/
def asWire : DecisionRef → String
  | attestation node => node
  | surface id => String.ofList (surfaceWord ++ (Nat.toDigits 10 id.toNat))

/-- read back -/
def ofWire (reference : String) : DecisionRef :=
  match (Text.stripPrefix surfaceWord reference.toList).bind parseU64 with
  | some id => surface id
  | none => attestation reference

/-- attestations come first -/
def cmp : DecisionRef → DecisionRef → Ordering
  | attestation a, attestation b => compare a b
  | attestation _, surface _ => .lt
  | surface _, attestation _ => .gt
  | surface a, surface b => compare a b

instance : TransCmp cmp where
  eq_swap {a b} := by
    cases a with
    | attestation a =>
      cases b with
      | attestation b => exact (OrientedCmp.eq_swap : compare a b = (compare b a).swap)
      | surface b => rfl
    | surface a =>
      cases b with
      | attestation b => rfl
      | surface b => exact (OrientedCmp.eq_swap : compare a b = (compare b a).swap)
  isLE_trans {a b c} hab hbc := by
    cases a with
    | attestation a =>
      cases b with
      | attestation b =>
        cases c with
        | attestation c => exact (TransCmp.isLE_trans hab hbc : (compare a c).isLE)
        | surface c => rfl
      | surface b =>
        cases c with
        | attestation c => cases hbc
        | surface c => rfl
    | surface a =>
      cases b with
      | attestation b => cases hab
      | surface b =>
        cases c with
        | attestation c => cases hbc
        | surface c => exact (TransCmp.isLE_trans hab hbc : (compare a c).isLE)

instance : LawfulEqCmp cmp where
  compare_self {a} := by
    cases a with
    | attestation a => exact (ReflCmp.compare_self : compare a a = .eq)
    | surface a => exact (ReflCmp.compare_self : compare a a = .eq)
  eq_of_compare {a b} h := by
    cases a with
    | attestation a =>
      cases b with
      | attestation b =>
        have heq : compare a b = .eq := h
        exact congrArg attestation (LawfulEqCmp.eq_of_compare heq)
      | surface b => cases h
    | surface a =>
      cases b with
      | attestation b => cases h
      | surface b =>
        have heq : compare a b = .eq := h
        exact congrArg surface (LawfulEqCmp.eq_of_compare heq)

end DecisionRef

/-- what a decision is and which nodes it holds back, in graph order -/
structure PendingDecision where
  kind : String
  unblocks : List String
deriving DecidableEq, Repr

abbrev Decisions : Type := ExtTreeMap DecisionRef PendingDecision DecisionRef.cmp

/-! ## What holds a node -/

/-- how many sessions of an identity may be open past its pool -/
inductive Bound where
  | unlimited
  | bounded (n : UInt32)
deriving DecidableEq, Repr

def Bound.write : Bound → Value
  | unlimited => .str "unlimited"
  | bounded n => .num n.toNat

def Bound.read : Value → Option Bound
  | .str word => if word = "unlimited" then some unlimited else none
  | v => (asU32 v).map bounded

/-- an identity's capacity as it was read -/
structure WorkspaceHold where
  identity : String
  pool : UInt32
  slots : UInt32
  idle : UInt32
  maintaining : UInt32
  overflow : Bound
  overflowInUse : UInt32
deriving DecidableEq, Repr

namespace WorkspaceHold

def holdKind : String := "workspace"

def payload (hold : WorkspaceHold) : Value :=
  .obj [("kind", .str holdKind), ("identity", .str hold.identity), ("pool", .num hold.pool.toNat),
    ("slots", .num hold.slots.toNat), ("idle", .num hold.idle.toNat), ("maintaining", .num hold.maintaining.toNat),
    ("overflow", hold.overflow.write), ("overflow_in_use", .num hold.overflowInUse.toNat)]

def ofPayload (entry : Value) : Option WorkspaceHold := do
  if (← (← get "kind" entry).asStr) ≠ holdKind then none
  else
    some { identity := ← (← get "identity" entry).asStr
           pool := ← asU32 (← get "pool" entry)
           slots := ← asU32 (← get "slots" entry)
           idle := ← asU32 (← get "idle" entry)
           maintaining := ← asU32 (← get "maintaining" entry)
           overflow := ← Bound.read (← get "overflow" entry)
           overflowInUse := ← asU32 (← get "overflow_in_use" entry) }

end WorkspaceHold

/-- the names a plan store's plugin takes: a source's, and a tracker's an opaque edge names -/
structure Names where
  isSourceName : String → Bool
  isDesignator : String → Bool

/-- whether what was not asked is named as the plugin takes names -/
def Names.takes (names : Names) : Unasked → Bool
  | .source source _ => names.isSourceName source
  | .recorded source => names.isSourceName source
  | .tracker designator => names.isDesignator designator

/-- why a source was not asked, as a record spells it -/
inductive Cause where
  | rateLimited
  | auth
  | unavailable
  | unconfigured
deriving DecidableEq, Repr

namespace Cause

def all : List Cause := [rateLimited, auth, unavailable, unconfigured]

def asStr : Cause → String
  | rateLimited => "rate-limited"
  | auth => "auth"
  | unavailable => "unavailable"
  | unconfigured => "unconfigured"

def ofWord (word : String) : Option Cause := all.find? fun cause => cause.asStr = word

theorem ofWord_asStr (cause : Cause) : ofWord cause.asStr = some cause := by
  cases cause <;> rfl

end Cause

def causeOf (u : Unanswered) : Option Cause :=
  match u.who with
  | .source _ (.rateLimited _) => some .rateLimited
  | .source _ .auth => some .auth
  | .source _ .unavailable => some .unavailable
  | .tracker _ => some .unconfigured
  | .recorded _ => none

namespace SourceReason

def holdKind : String := "source"

def unaskedPayload (u : Unanswered) : Value :=
  .obj ([("source", .str u.name), ("reason", .str u.reason)]
    ++ ((causeOf u).map fun cause => ("cause", Value.str cause.asStr)).toList
    ++ (u.retryAt.map fun ms => ("retry_at_ms", Value.num ms)).toList)

def payload (hold : SourceHold) : Value :=
  .obj ([("kind", .str holdKind), ("unanswered", .arr (hold.unanswered.map unaskedPayload))]
    ++ if hold.missing = [] then [] else [("missing", texts hold.missing)])

variable (names : Names)

/-- who was not asked, under the cause a record names -/
def whoOf (named : String) (retryAt : Option ℕ) : Option Cause → Option Unasked
  | none => if names.isSourceName named then some (.recorded named) else none
  | some .rateLimited => if names.isSourceName named then some (.source named (.rateLimited retryAt)) else none
  | some .auth => if names.isSourceName named then some (.source named .auth) else none
  | some .unavailable => if names.isSourceName named then some (.source named .unavailable) else none
  | some .unconfigured => if names.isDesignator named then some (.tracker named) else none

/-- a field an entry may leave out, and what it states where it does not -/
def optional {α : Type} (key : String) (read : Value → Option α) (entry : Value) : Option (Option α) :=
  match get key entry with
  | none => some none
  | some v => (read v).map some

def ofUnasked (unasked : Value) : Option Unanswered := do
  let named ← (← get "source" unasked).asStr
  let retryAt ← optional "retry_at_ms" asU64 unasked
  let cause ← optional "cause" (fun word => word.asStr.bind Cause.ofWord) unasked
  if retryAt.isSome ∧ cause ≠ some .rateLimited then none
  else
    let who ← whoOf names named retryAt cause
    some { who, reason := ← (← get "reason" unasked).asStr }

def ofPayload (entry : Value) : Option SourceHold := do
  if (← (← get "kind" entry).asStr) ≠ holdKind then none
  else
    let unanswered ← (← asArray (← get "unanswered" entry)).mapM (ofUnasked names)
    let missing ← optional "missing" asTexts entry
    SourceHold.new unanswered (missing.getD [])

end SourceReason

inductive HoldReason where
  /-- dependencies that have not settled `done` -/
  | dependencies (blocking : List String)
  /-- what is in flight, at the graph's concurrency -/
  | concurrency (ahead : List String) (limit : ℕ)
  | decision (reference : DecisionRef)
  /-- dependencies whose releases have not all happened -/
  | release (awaiting : List String)
  | workspace (hold : WorkspaceHold)
  | source (hold : SourceHold)
deriving DecidableEq

namespace HoldReason

def payload : HoldReason → Value
  | dependencies blocking => .obj [("kind", .str "dependencies"), ("blocking", texts blocking)]
  | concurrency ahead limit => .obj [("kind", .str "concurrency"), ("ahead", texts ahead), ("limit", .num limit)]
  | decision reference => .obj [("kind", .str "decision"), ("reference", .str reference.asWire)]
  | release awaiting => .obj [("kind", .str "release"), ("awaiting", texts awaiting)]
  | workspace hold => hold.payload
  | source hold => SourceReason.payload hold

def ids (key : String) (entry : Value) : Option (List String) := (get key entry).bind asTexts

/-- one entry read back, none where this build cannot read it whole -/
def ofPayload (names : Names) (entry : Value) : Option HoldReason := do
  match ← (← get "kind" entry).asStr with
  | "dependencies" => some (dependencies (← ids "blocking" entry))
  | "concurrency" => some (concurrency (← ids "ahead" entry) (← asU64 (← get "limit" entry)))
  | "decision" => some (decision (.ofWire (← (← get "reference" entry).asStr)))
  | "release" => some (release (← ids "awaiting" entry))
  | "workspace" => (WorkspaceHold.ofPayload entry).map workspace
  | "source" => (SourceReason.ofPayload names entry).map source
  | _ => none

end HoldReason

abbrev Reasons : Type := StrMap (List HoldReason)

/-! ## What a pass finds -/

/-- every node downstream of another -/
def descendants (graph : Graph) (root : String) : List String :=
  let seen := Flood.flood graph.dependentsOf (graph.iter.length + 2) [root] []
  graph.ids.filter fun id => id ∈ seen

/-- a surface on the planner's queue, as far as a decision reads it -/
structure Surface where
  id : UInt64
  kind : String
  workstream : Option String
  blocking : Bool
  abandoned : Bool
deriving DecidableEq, Repr

/-- what decisions are found over: the graph, its statuses, and the queue's surfaces: those nobody has read, and the one read -/
structure Questions where
  graph : Graph
  statuses : StrMap NodeStatus
  waiting : List Surface
  pending : Option Surface

def attest (graph : Graph) (decisions : Decisions) (p : String × NodeStatus) : Decisions :=
  if p.2 = .waiting then
    decisions.insert (.attestation p.1) { kind := "attestation", unblocks := descendants graph p.1 }
  else decisions

/-- a surface nobody waits on holds nothing back -/
def ask (graph : Graph) (decisions : Decisions) (surface : Surface) : Decisions :=
  if !surface.blocking || surface.abandoned then decisions
  else
    decisions.insert (.surface surface.id)
      { kind := surface.kind, unblocks := (surface.workstream.map (descendants graph)).getD [] }

def decisionsNow (q : Questions) : Decisions :=
  (q.waiting ++ q.pending.toList).foldl (ask q.graph) (q.statuses.toList.foldl (attest q.graph) ∅)

/-- what holds are found over: the graph as the pass leaves it, what is in flight, and the waits it has read -/
structure Standing (names : Names) where
  graph : Graph
  crossDag : StrMap NodeStatus
  statuses : StrMap NodeStatus
  inFlight : StrSet
  awaitingRelease : StrMap (List String)
  awaitingWorkspace : StrMap WorkspaceHold
  awaitingSource : StrMap SourceHold
  named : ∀ (node : String) (hold : SourceHold), awaitingSource[node]? = some hold → ∀ u ∈ hold.unanswered, names.takes u.who

variable {names : Names}

/-- the dependencies that have not settled `done`; one the graph does not have holds nothing -/
def unsettledDeps (s : Standing names) (node : Node) : List String :=
  node.deps.filter fun dep =>
    if isCrossDag dep then s.crossDag[dep]? ≠ some .done
    else if s.graph.contains dep then s.statuses[dep]? ≠ some .done
    else false

/-- whether a status is one the loop may be holding a node at -/
def mayHold : NodeStatus → Bool
  | .pending | .ready | .blocked | .completeDraft | .completeHeld => true
  | _ => false

def reasonsOf (s : Standing names) (decisions : Decisions) (node : Node) : List HoldReason :=
  let status := (s.statuses[node.id]?).getD .pending
  let blocking := unsettledDeps s node
  (if blocking = [] then [] else [.dependencies blocking])
    ++ (if status = .ready ∧ node.kind ≠ .human ∧ s.graph.concurrency ≤ s.inFlight.size then
          [.concurrency s.inFlight.toList s.graph.concurrency] else [])
    ++ (decisions.toList.filter fun p => node.id ∈ p.2.unblocks).map (fun p => .decision p.1)
    ++ (s.awaitingRelease[node.id]?.map HoldReason.release).toList
    ++ (s.awaitingWorkspace[node.id]?.map HoldReason.workspace).toList
    ++ (s.awaitingSource[node.id]?.map HoldReason.source).toList

def hold (s : Standing names) (decisions : Decisions) (holds : Reasons) (node : Node) : Reasons :=
  if node.id ∈ s.inFlight then holds
  else if !mayHold ((s.statuses[node.id]?).getD .pending) then holds
  else
    let reasons := reasonsOf s decisions node
    if reasons = [] then holds else holds.insert node.id reasons

def holdsNow (s : Standing names) (decisions : Decisions) : Reasons := s.graph.iter.foldl (hold s decisions) ∅

/-! ## What is said -/

/-- a record of what is held, as the fold reads it -/
inductive Spoken where
  | decisionPending (reference : String) (pending : PendingDecision)
  | decisionCleared (reference : String) (kind : String) (released : List String)
  | nodeHeld (node : String) (reasons : List Value)
  | nodeUnheld (node : String) (released : List Value)

/-- what the fold of the journal holds of them -/
structure Account where
  decisionsPending : StrMap PendingDecision := ∅
  holds : StrMap (List Value) := ∅

def foldSpoken (a : Account) : Spoken → Account
  | .decisionPending reference pending => { a with decisionsPending := a.decisionsPending.insert reference pending }
  | .decisionCleared reference _ _ => { a with decisionsPending := a.decisionsPending.erase reference }
  | .nodeHeld node reasons => { a with holds := a.holds.insert node reasons }
  | .nodeUnheld node _ => { a with holds := a.holds.erase node }

def reportDecisions (decisions held : Decisions) : List Spoken :=
  (Reported.begun held decisions).toList.map (fun p => .decisionPending p.1.asWire p.2)
    ++ (Reported.ended held decisions).toList.map fun p => .decisionCleared p.1.asWire p.2.kind p.2.unblocks

def reportHolds (holds reported : Reasons) : List Spoken :=
  (Reported.begun reported holds).toList.map (fun p => .nodeHeld p.1 (p.2.map HoldReason.payload))
    ++ (Reported.ended reported holds).toList.map fun p => .nodeUnheld p.1 (p.2.map HoldReason.payload)

/-! ## Drivers and their passes -/

variable (names) in
/-- a node's recorded reasons as a driver seeds itself with them -/
def readHold (node : String) (reasons : List Value) : Option (String × List HoldReason) :=
  (reasons.mapM (HoldReason.ofPayload names)).map fun read => (node, read)

def readDecision (reference : String) (pending : PendingDecision) : Option (DecisionRef × PendingDecision) :=
  some (.ofWire reference, pending)

/-- the journal's account, and what the driver over it said last -/
structure Loop where
  account : Account := {}
  held : Decisions := ∅
  holding : Reasons := ∅

structure Pass (names : Names) where
  questions : Questions
  standing : Standing names

def Pass.decisions (p : Pass names) : Decisions := decisionsNow p.questions

def Pass.holds (p : Pass names) : Reasons := holdsNow p.standing p.decisions

/-- what a pass writes: its decisions, then its holds -/
def Pass.speaks (p : Pass names) (l : Loop) : List Spoken := reportDecisions p.decisions l.held ++ reportHolds p.holds l.holding

inductive Event (names : Names) where
  /-- a driver takes the run up, over what other builds' drivers wrote since the last one -/
  | adopt (wrote : List Spoken)
  | pass (p : Pass names)

def step (l : Loop) : Event names → Loop
  | .adopt wrote =>
    let account := wrote.foldl foldSpoken l.account
    { account
      held := Reported.seed readDecision account.decisionsPending
      holding := Reported.seed (readHold names) account.holds }
  | .pass p => { account := (p.speaks l).foldl foldSpoken l.account, held := p.decisions, holding := p.holds }

end OnePipeline.Holding
