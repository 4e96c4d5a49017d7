/-
Taking back a manager's note before any turn reads it (`src/withdrawal.rs`: `validate`).

A note is named by where it was sent, an envelope's id and the note's position among its commands, and what a
`withdraw-note` commits is read off the run's own record: the notes delivered, the notes taken back, and the dispatches
composed since. What the command queue holds and answered is `Channel`; the record of the refusals is a map of its own.
-/
import Mathlib.Tactic
import OnePipeline.Model.Note
import OnePipeline.Model.Recovery

namespace OnePipeline

/-- whether a conversation of the node took the note -/
def Reached.aConversationReadIt : Reached → Bool
  | .carried _ => false
  | _ => true

/-- whether a conversation of the node's current dispatch has read the note -/
def Held.read (held : Held) : Bool :=
  match held.placement with
  | .composedIntoIt => true
  | .deliveredSince => held.note.reached.aConversationReadIt

/-- whether two carried notes are written as the same entry of a planner context -/
def readsAlike (one other : String) : Bool := entryOf one = entryOf other

namespace Withdrawal

open Recovery (CommandOutcome CommandVerdict)

/-- why a note cannot be taken back -/
inductive Refusal where
  | blankReason
  | notAnEnvelope (envelope : String)
  | noEnvelope (id : UInt64)
  | notANote (id : UInt64) (index : UInt32) (op : String)
  | noCommand (id : UInt64) (index : UInt32) (commands : ℕ)
  /-- a record of the run's notes this build cannot read -/
  | unreadable (record : UnreadableRecord)
  | alreadyWithdrawn (node : String)
  | alreadyComposed (node : String)
  | alreadyTaken (node : String) (reached : Reached)
  | alreadyRefused (node reason : String)
  | alreadyAnswered (node : String) (verdict : CommandVerdict)
deriving DecidableEq, Repr

/-- what the run's command queue holds, and what it was answered -/
structure Channel where
  commandsOf : UInt64 → Option (List Command)
  outcomeOf : UInt64 → Option CommandOutcome := fun _ => none

/-- what one valid `withdraw-note` commits, as far as the run's record decides it -/
inductive Validated where
  /-- a carried note not yet composed into a dispatch, taken back by the record alone -/
  | carried (operations : List Operation)
  /-- a note the record holds no answer for, committed once the run's driver has taken it back -/
  | live (operation : Operation)

/-- every operation the run's edits committed, or the edit whose operations cannot be read -/
def committed : List Envelope → Except UnreadableRecord (List Operation)
  | [] => .ok []
  | e :: rest =>
    match e.body with
    | .editCommitted operations => do
      let operations ← operationsOf e "edit-committed" operations
      return operations ++ (← committed rest)
    | _ => committed rest

/-- whether an operation takes back the note sent at a place -/
def takesBack (envelope : UInt64) (index : UInt32) : Operation → Bool
  | .noteWithdrawn _ «from» at_ _ _ _ => «from» = envelope && at_ = index
  | _ => false

/-- what an operation says became of the note sent at a place -/
def reachedAt (envelope : UInt64) (index : UInt32) : Operation → Option Reached
  | .noteDelivered _ _ _ _ reached (some «from») (some at_) => if «from» = envelope ∧ at_ = index then some reached else none
  | _ => none

/-- what the delivery of a note recorded, if it recorded anything -/
def delivered (records : List Operation) (envelope : UInt64) (index : UInt32) : Option Reached :=
  records.findSome? (reachedAt envelope index)

/-- the note at a place among an envelope's commands: its node, and its text -/
def noteAt (channel : Channel) (envelope : UInt64) (index : UInt32) : Except Refusal (String × String) :=
  match channel.commandsOf envelope with
  | none => .error (.noEnvelope envelope)
  | some commands =>
    match commands[index.toNat]? with
    | some (.note node _ text _ _ _ _) => .ok (node, text)
    | some other => .error (.notANote envelope index (opOf other))
    | none => .error (.noCommand envelope index commands.length)

/-- how many of the notes after a withdrawn one are carried entries that read as it does -/
def alikeAfter (text : String) (after : List Held) : ℕ :=
  after.countP fun held => !held.note.reached.aConversationReadIt && readsAlike held.note.text text

/-- a carried note taken back, where no dispatch was composed with it since -/
def carriedBack (journal : List Envelope) (envelope : UInt64) (index : UInt32) (node text : String) :
    Except Refusal Validated := do
  let held ← (standing journal node).mapError .unreadable
  let owed := held.filter fun h => h.placement = .deliveredSince
  match owed.findIdx? fun h => h.sent = some (envelope, index) with
  | none => .error (.alreadyComposed node)
  | some i => .ok (.carried [.noteWithdrawn node envelope index .carried text (alikeAfter text (owed.drop (i + 1)))])

/-- a note the record holds no answer for: live, unless its envelope's answer or a refusal of its own says otherwise -/
def liveBack (channel : Channel) (refused : UInt64 → UInt32 → Option String) (envelope : UInt64) (index : UInt32)
    (node text : String) : Except Refusal Validated :=
  match refused envelope index with
  | some reason => .error (.alreadyRefused node reason)
  | none =>
    match (channel.outcomeOf envelope).bind fun outcome => outcome.results[index.toNat]? with
    | none => .ok (.live (.noteWithdrawn node envelope index .live text 0))
    | some result =>
      match result.outcome with
      | .queued => .ok (.live (.noteWithdrawn node envelope index .live text 0))
      | .refused => .error (.alreadyRefused node (result.reason.getD "no reason was recorded"))
      | verdict => .error (.alreadyAnswered node verdict)

/-- a note ruled on, told every operation the run's edits committed -/
def ruled (channel : Channel) (journal : List Envelope) (refused : UInt64 → UInt32 → Option String) (envelope : UInt64)
    (index : UInt32) (node text : String) (records : List Operation) : Except Refusal Validated :=
  if records.any (takesBack envelope index) then .error (.alreadyWithdrawn node)
  else
    match delivered records envelope index with
    | some (.carried _) => carriedBack journal envelope index node text
    | some reached => .error (.alreadyTaken node reached)
    | none => liveBack channel refused envelope index node text

/-- one `withdraw-note` validated against the run's record -/
def validate (channel : Channel) (journal : List Envelope) (refused : UInt64 → UInt32 → Option String) (envelope : String)
    (index : UInt32) (reason : String) : Except Refusal Validated := do
  Checks.refuseIf (Text.isBlank reason) .blankReason
  let id ← Checks.need (Holding.parseU64 (Text.trim envelope).toList) (.notAnEnvelope envelope)
  let (node, text) ← noteAt channel id index
  let records ← (committed journal).mapError .unreadable
  ruled channel journal refused id index node text records

end Withdrawal

end OnePipeline
