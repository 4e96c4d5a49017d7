/-
The notes a fresh dispatch is composed with and without (`src/engine.rs`: `notes_at_dispatch`, `may_hold_a_note`), and the
records this crate's writers leave of notes, dispatches and releases.

The map of when each node was last dispatched is folded beside the rest of the run's state. The carry store a dispatch
drains is the bus's; what the dispatch is composed with is the fold's.
-/
import Mathlib.Tactic
import OnePipeline.Core.Runs
import OnePipeline.Model.Schedule
import OnePipeline.Model.Withdrawal

namespace OnePipeline

/-! ## What a dispatch is composed with -/

/-- `dispatched_at`, one record further -/
def foldDispatchedAt (m : StrMap ℕ) (e : Envelope) : StrMap ℕ :=
  if writtenAtAKnownVersion e then
    match e.body, e.node with
    | .nodeDispatched _, some node => RunState.written m node (millisOf e.ts)
    | .nodeRestackStarted (some node), _ => RunState.written m node (millisOf e.ts)
    | _, _ => m
  else m

/-- when each node was last dispatched -/
def dispatchedAt (journal : List Envelope) : StrMap ℕ := journal.foldl foldDispatchedAt ∅

namespace RunState

/-- whether the run's record can hold a manager's note for a node at all -/
def mayHoldANote (s : RunState) (dispatched : StrMap ℕ) (node : String) : Bool :=
  decide (node ∈ dispatched) || decide (node ∈ s.pendingContext)

/-- the nodes a node directly supersedes -/
def supersedes (s : RunState) (node : String) : List String :=
  (s.superseded.toList.filter fun p => p.2 = node).map Prod.fst

end RunState

/-- the notes a conversation of the node's current dispatch has read -/
def readNotes (held : List Held) : List RecordedNote := (held.filter Held.read).map Held.note

/-- the notes no turn took, which are owed to the node's next dispatch -/
def carriedNotes (held : List Held) : List RecordedNote := (held.filter fun h => !h.read).map Held.note

/-- what the run's record says about a fresh dispatch of a node and the manager's notes -/
structure AtDispatch where
  /-- the notes an earlier conversation read that this dispatch is composed without -/
  spent : List RecordedNote := []
  /-- the notes carried to this dispatch -/
  carriedIn : List RecordedNote := []
deriving DecidableEq, Repr

/-- every note standing for the nodes a dispatch's node supersedes -/
def supersededNotes (journal : List Envelope) : List String → Except UnreadableRecord (List RecordedNote)
  | [] => .ok []
  | id :: rest => do
    let held ← standing journal id
    return held.map Held.note ++ (← supersededNotes journal rest)

/-- what a dispatch is composed with and without, by a journal's records -/
def composedFrom (journal : List Envelope) (supersedes : List String) (node : String) : Except UnreadableRecord AtDispatch := do
  let held ← standing journal node
  let superseded ← supersededNotes journal supersedes
  return { spent := readNotes held ++ superseded, carriedIn := carriedNotes held }

/-- the same over the records the projection keeps whole, and only where the projected state says a note can stand -/
def notesAtDispatch (s : RunState) (dispatched : StrMap ℕ) (node : String) : Except UnreadableRecord AtDispatch :=
  if !s.mayHoldANote dispatched node && !(s.supersedes node).any (s.mayHoldANote dispatched) then .ok {}
  else composedFrom s.recalled (s.supersedes node) node

/-! ## The run's writers -/

namespace Writers

open Withdrawal (Validated validate)

/-- one command of an envelope: a `withdraw-note`, or any other with the operations it commits -/
inductive Asked where
  | withdraw (envelope : String) (index : UInt32) (reason : String)
  | commits (operations : List Operation)

/-- one thing a writer appends to the run's journal -/
inductive Write where
  /-- a dispatch announced, with the notes it is composed with -/
  | dispatch (stamp : Stamp) (node : String) (composed : Composed)
  /-- an envelope applied: each command's record, under the stamp it is written at. What the queue answered and which notes
  were refused are as they stood when it was judged -/
  | envelope (outcomes : UInt64 → Option Recovery.CommandOutcome) (refused : UInt64 → UInt32 → Option String)
      (asked : List (Stamp × Asked))
  /-- a node's releases told: to its next dispatch, or to its running turn -/
  | arrival (stamp : Stamp) (node : String) (next : Bool) (note : Option String)
  /-- a record of any other kind -/
  | other (e : Envelope)

variable (channel : UInt64 → Option (List Command))

/-- what one command commits, judged against a journal -/
def ruling (journal : List Envelope) (outcomes : UInt64 → Option Recovery.CommandOutcome)
    (refused : UInt64 → UInt32 → Option String) : Asked → Except Withdrawal.Refusal (List Operation)
  | .withdraw envelope index reason =>
    (validate { commandsOf := channel, outcomeOf := outcomes } journal refused envelope index reason).map fun
      | .carried operations => operations
      | .live operation => [operation]
  | .commits operations => .ok operations

/-- the record a command's operations are journalled in -/
def commitRecord (stamp : Stamp) (operations : List Operation) : Envelope :=
  stamp.envelope none <|
    match Recovery.journalledAs operations with
    | .editCommitted => .editCommitted (some operations)
    | .commandAccepted => .commandAccepted (some operations)

/-- the records an envelope is journalled in, every command of it judged against the journal before any is committed -/
def journalled (journal : List Envelope) (outcomes : UInt64 → Option Recovery.CommandOutcome)
    (refused : UInt64 → UInt32 → Option String) : List (Stamp × Asked) → Except Withdrawal.Refusal (List Envelope)
  | [] => .ok []
  | (stamp, asked) :: rest => do
    let operations ← ruling channel journal outcomes refused asked
    return commitRecord stamp operations :: (← journalled journal outcomes refused rest)

/-- the records one write appends; an envelope a command of which is refused appends none of its commands' -/
def records (journal : List Envelope) : Write → List Envelope
  | .dispatch stamp node composed => [stamp.envelope (some node) (.nodeDispatched composed)]
  | .envelope outcomes refused asked =>
    match journalled channel journal outcomes refused asked with
    | .ok records => records
    | .error _ => []
  | .arrival stamp node next note => [stamp.envelope (some node) (.releaseAdopted next note)]
  | .other e => [e]

def step (journal : List Envelope) (w : Write) : List Envelope := journal ++ records channel journal w

/-! ### What a writer may append -/

/-- a record neither of a dispatch, a commit nor a node's releases -/
def isOther (e : Envelope) : Bool :=
  match e.body with
  | .nodeDispatched _ | .editCommitted _ | .commandAccepted _ | .releaseAdopted .. => false
  | _ => true

/-- an operation any command but a `withdraw-note` commits: a note it delivers is the one its command sent, and one a
conversation read went to a node whose dispatch was announced. No command of this build adds context -/
def Commits (journal : List Envelope) : Operation → Prop
  | .noteWithdrawn .. | .contextAdded .. => False
  | .noteDelivered node _ text _ reached envelope index =>
    Text.isBlank text = false ∧ (reached.aConversationReadIt = true → node ∈ dispatchedAt journal) ∧
      ∀ id at_, envelope = some id → index = some at_ → Withdrawal.noteAt { commandsOf := channel } id at_ = .ok (node, text)
  | _ => True

/-- the notes a dispatch is composed with: none, or those that stood for its node at some moment of the run -/
def Composes (host : Host) (journal : List Envelope) (node : String) (composed : Composed) : Prop :=
  composed = .unstated ∨
    ∃ part, part <+: journal ∧ ∃ held, standing (RunState.fold host part).recalled node = .ok held ∧ held ≠ [] ∧
      composed = .notes (held.map Held.note)

def dated (stamp : Stamp) : Prop := (millisOf stamp.ts).isSome

/-- what this crate's writers append: a dispatch is dated, and a node's releases are told to a node dispatched before -/
def Writes (host : Host) (journal : List Envelope) : Write → Prop
  | .dispatch stamp node composed => dated stamp ∧ Composes host journal node composed
  | .envelope _ _ asked => ∀ p ∈ asked, ∀ operations, p.2 = .commits operations → ∀ op ∈ operations, Commits channel journal op
  | .arrival _ node _ _ => node ∈ dispatchedAt journal
  | .other e => isOther e = true ∧ (e.isPipeline = true → writtenAtAKnownVersion e = true)

end Writers

end OnePipeline
