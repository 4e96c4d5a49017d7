/-
The human-item journal's writer (`src/human_items/live.rs`, `src/human_items/durable.rs`): what a writer's open reads and
probes, the durable append, and every action that makes a record.

The journal is its records: a write that fails is taken back off the file, so a line is in it whole or not at all. Whether
each write lands, the clock, what each probe finds and what an approval's adapter answers are the host's.
-/
import Mathlib.Tactic
import OnePipeline.Core.Acting
import OnePipeline.Model.HumanItem

namespace OnePipeline.HumanItems

/-! ## The host -/

/-- who an action is taken by -/
structure Actor where
  actor : String
  onBehalfOf : Option String
deriving DecidableEq, Repr

/-- the engine, on its own behalf -/
def engine : Actor := { actor := engineActor, onBehalfOf := none }

/-- where the store is, the id a dedup key mints, and what an approval's adapter says of an undo -/
structure Store where
  path : String
  itemIdFor : String → String
  undoable : HumanItem → Bool
  undo : HumanItem → Actor → Except String Unit

/-- how one write of a record and its sync ended -/
inductive WriteOutcome where
  | written
  | noSpace (error : String)
  | failed (error : String)
deriving DecidableEq, Repr

/-- how an append reached the disk -/
inductive Appended where
  | normally
  | fromReserve
deriving DecidableEq, Repr

/-- one serialized writer: what it read, and the host's journal, reserve and clock -/
structure Writer where
  items : StrMap HumanItem := ∅
  /-- each item's last event, by its sequence -/
  events : StrMap ℕ := ∅
  nextSeq : ℕ := 0
  last : Option ℕ := none
  reserveUsed : Bool := false
  journal : List Envelope := []
  reserve : Bool := false
  /-- how the writes to come end; past them every write lands -/
  outcomes : List WriteOutcome := []
  /-- the time a record of a sequence is made at -/
  clock : ℕ → String := fun _ => ""

abbrev Writing (α : Type) : Type := Act Writer String α

structure HumanItemReceipt where
  item : HumanItem
  event : ℕ
deriving DecidableEq, Repr

/-! ## The durable append -/

/-- the record written at the journal's end and synced, or the journal left as it was -/
def writeSynced (line : Envelope) : Writing WriteOutcome := fun w =>
  match w.outcomes with
  | [] => (.ok .written, { w with journal := w.journal ++ [line] })
  | .written :: rest => (.ok .written, { w with journal := w.journal ++ [line], outcomes := rest })
  | .noSpace error :: rest => (.ok (.noSpace error), { w with outcomes := rest })
  | .failed error :: rest => (.ok (.failed error), { w with outcomes := rest })

def notDurable (path error : String) (released : Bool) : String :=
  s!"the human-item journal {path} could not record this durably ({error})" ++
    (if released then ", even into its emergency reserve" else ", and it held no emergency reserve to release") ++
    "; nothing was acknowledged — free space on that filesystem and act again"

/-- one record appended, releasing the reserve for it where the filesystem has no room -/
def durableAppend (path : String) (line : Envelope) : Writing Appended := do
  match ← writeSynced line with
  | .written => pure .normally
  | .noSpace _ =>
    let released ← Act.read Writer.reserve
    Act.update fun w => { w with reserve := false }
    match ← writeSynced line with
    | .written => pure (if released then .fromReserve else .normally)
    | .noSpace again | .failed again => Act.fail (notDurable path again released)
  | .failed error => Act.fail (notDurable path error false)

/-! ## Records -/

/-- the line an event of an item is written as -/
def lineOf (seq : ℕ) (item : HumanItem) (action : HumanItemEventAction) (by_ : Option HumanItemEventBy) : Envelope :=
  { v := envelopeVersion
    stream := eventStream
    seq
    kind := action.asStr
    runId := item.owner.run
    payload := { itemId := item.id, owner := item.owner, action, item, resolution := item.resolution, «by» := by_ } }

/-- one event of an item recorded, and the writer's own view brought up to it -/
def record (store : Store) (item : HumanItem) (action : HumanItemEventAction) (by_ : Option HumanItemEventBy) :
    Writing (ℕ × Appended) := do
  let seq ← Act.read Writer.nextSeq
  let appended ← durableAppend store.path (lineOf seq item action by_)
  Act.update fun w =>
    { w with
      reserveUsed := w.reserveUsed || appended = .fromReserve
      nextSeq := seq + 1
      items := w.items.insert item.id item
      events := w.events.insert item.id seq
      last := some seq }
  pure (seq, appended)

/-- the record of an event, its append answered as its sequence alone -/
def recorded (store : Store) (item : HumanItem) (action : HumanItemEventAction) : Writing ℕ := do
  let (seq, _) ← record store item action none
  pure seq

def validateInput (input : HumanItemInput) : Except String Unit := do
  input.validate
  if Text.isBlank input.dedupKey then throw "dedup_key must not be blank"
  if Text.isBlank input.owner.session then throw "owner.session must not be blank"
  match input.block with
  | .work run node => if Text.isBlank run ∨ Text.isBlank node then throw "a work block names its run and node"
  | .plan plan => if Text.isBlank plan then throw "a plan block names its plan"
  | .host | .nothing => pure ()

/-- the item a raise makes where its key names none -/
def raisedItem (id now : String) (input : HumanItemInput) : HumanItem :=
  { id, dedupKey := input.dedupKey, kind := input.kind, title := input.title, body := input.body, priority := input.priority
    owner := input.owner, block := input.block, approval := input.approval, createdAt := now, updatedAt := now }

/-- a raise, over the append it records with -/
def raiseBy (store : Store) (append : HumanItem → HumanItemEventAction → Writing ℕ) (input : HumanItemInput) :
    Writing HumanItemReceipt := do
  Act.lift (validateInput input)
  let id := store.itemIdFor input.dedupKey
  let now ← Act.read fun w => w.clock w.nextSeq
  match ← Act.read fun w => w.items[id]? with
  | some existing =>
    if existing.kind ≠ input.kind ∨ existing.owner ≠ input.owner ∨ existing.block ≠ input.block then
      Act.fail s!"dedup_key {input.dedupKey} already names item {existing.id} with another kind, owner or block"
    else if (existing.title = input.title ∧ existing.body = input.body ∧ existing.priority = input.priority ∧
        existing.approval = input.approval) ∨ existing.state ≠ .open then
      pure { item := existing, event := (← Act.read fun w => w.events[id]?).getD 0 }
    else
      let updated := { existing with
        title := input.title, body := input.body, priority := input.priority, approval := input.approval, updatedAt := now }
      pure { item := updated, event := ← append updated .raised }
  | none =>
    let item := raisedItem id now input
    pure { item, event := ← append item .raised }

/-! ## Host conditions -/

/-- the definitive host outages the engine raises an item for -/
inductive HostCondition where
  | journalNoSpace
  | dispatchNoSpace
  | identitiesRefused
deriving DecidableEq, Repr

def HostCondition.asStr : HostCondition → String
  | journalNoSpace => "journal-no-space"
  | dispatchNoSpace => "dispatch-no-space"
  | identitiesRefused => "identities-refused"

def hostConditionPrefix : String := "host:"

/-- the open item a host condition raised, if one is open -/
def openCondition (condition : HostCondition) (w : Writer) : Option HumanItem :=
  w.items.values.find? fun item =>
    item.state = .open && Text.startsWith s!"{hostConditionPrefix}{condition.asStr}:".toList item.dedupKey.toList

/-- what a condition is raised as -/
def conditionInput (condition : HostCondition) (seq : ℕ) (session title body : String) : HumanItemInput :=
  { dedupKey := s!"{hostConditionPrefix}{condition.asStr}:{seq}", kind := .task, title, body, priority := .urgent
    owner := { session, run := none, plan := none }, block := .host }

/-- one urgent host item raised for a condition, unless one is open for it -/
def conditionBy (store : Store) (append : HumanItem → HumanItemEventAction → Writing ℕ) (condition : HostCondition)
    (session title body : String) : Writing HumanItemReceipt := do
  match ← Act.read (openCondition condition) with
  | some found => pure { item := found, event := (← Act.read fun w => w.events[found.id]?).getD 0 }
  | none => raiseBy store append (conditionInput condition (← Act.read Writer.nextSeq) session title body)

def noSpaceBody (path : String) : String :=
  s!"The filesystem holding {path} has no space left. Human items are being recorded into its emergency reserve, which runs " ++
    "out; free space on it. This resolves itself once the journal can allocate its reserve again."

/-- one event recorded, and where it took the reserve, the record that tells the host its journal is full: that one finds no
reserve to take -/
def appendBy (store : Store) (item : HumanItem) (action : HumanItemEventAction) (by_ : Option HumanItemEventBy) : Writing ℕ := do
  let (seq, appended) ← record store item action by_
  if appended = .fromReserve then
    let _ ← conditionBy store (recorded store) .journalNoSpace item.owner.session "Free space for the human-item journal"
      (noSpaceBody store.path)
  pure seq

def append (store : Store) (item : HumanItem) (action : HumanItemEventAction) : Writing ℕ := appendBy store item action none

def raise (store : Store) (input : HumanItemInput) : Writing HumanItemReceipt := raiseBy store (append store) input

def condition (store : Store) (condition : HostCondition) (session title body : String) : Writing HumanItemReceipt :=
  conditionBy store (append store) condition session title body

/-! ## Resolutions -/

/-- the item as a resolution leaves it -/
def resolvedItem (item : HumanItem) (state : HumanItemState) (actor : Actor) (text reason : Option String) (now : String) :
    HumanItem :=
  { item with
    state
    resolution := some { actor := actor.actor, onBehalfOf := actor.onBehalfOf, text, reason }
    updatedAt := now }

def resolve (store : Store) (item : HumanItem) (state : HumanItemState) (action : HumanItemEventAction) (actor : Actor)
    (text reason : Option String) : Writing HumanItemReceipt := do
  let now ← Act.read fun w => w.clock w.nextSeq
  let resolved := resolvedItem item state actor text reason now
  pure { item := resolved, event := ← append store resolved action }

/-- an open item dismissed by the engine -/
def autoResolve (store : Store) (item : HumanItem) (reason : String) : Writing HumanItemReceipt :=
  resolve store item .dismissed .autoResolved engine none (some reason)

/-- the open item a condition raised, if any, resolved as cleared -/
def clear (store : Store) (condition : HostCondition) (reason : String) : Writing Unit := do
  match ← Act.read (openCondition condition) with
  | none => pure ()
  | some found => let _ ← autoResolve store found reason

/-! ## After the fact -/

/-- the item an after-the-fact action names -/
def actedOn (id : String) (actor : Actor) : Writing HumanItem := do
  if Text.isBlank actor.actor then Act.fail "an action names its actor"
  else
    match ← Act.read fun w => w.items[id]? with
    | some item => pure item
    | none => Act.fail s!"no such human item {id}"

def afterTheFact (store : Store) (item : HumanItem) (action : HumanItemEventAction) (actor : Actor) : Writing HumanItemReceipt := do
  let item := { item with updatedAt := ← Act.read fun w => w.clock w.nextSeq }
  pure { item, event := ← appendBy store item action (some { actor := actor.actor, onBehalfOf := actor.onBehalfOf }) }

/-- a resolution taken back -/
def reopen (store : Store) (id : String) (actor : Actor) : Writing HumanItemReceipt := do
  let item ← actedOn id actor
  match reopenRefusal item (store.undoable item) with
  | some reason => Act.fail reason
  | none =>
    if item.state = .completed ∧ item.approval.isSome then Act.lift (store.undo item actor)
    afterTheFact store { item with state := .open, resolution := none } .reopened actor

def noteRefused : String := "only a completed or dismissed item takes a note"

/-- the resolution of a completed or dismissed item with a note set on it -/
def notedResolution (state : HumanItemState) (text : String) (resolution : HumanItemResolution) : Option HumanItemResolution :=
  match state with
  | .completed => some { resolution with text := some text }
  | .dismissed => some { resolution with reason := some text }
  | .open | .answered => none

/-- a completed item's comment or a dismissed item's reason set -/
def note (store : Store) (id text : String) (actor : Actor) : Writing HumanItemReceipt := do
  if Text.isBlank text then Act.fail "a note's text must not be blank"
  else
    let item ← actedOn id actor
    match item.resolution.bind (notedResolution item.state text) with
    | none => Act.fail noteRefused
    | some resolution => afterTheFact store { item with resolution := some resolution } .noted actor

/-! ## Actions -/

inductive HumanItemAction where
  | raise (input : HumanItemInput)
  | answer (id text : String) (actor : Actor)
  | complete (id : String) (actor : Actor)
  | dismiss (id : String) (reason : Option String) (actor : Actor)
  | reopen (id : String) (actor : Actor)
  | note (id text : String) (actor : Actor)
deriving Repr

def stateWord : HumanItemState → String
  | .open => "open"
  | .answered => "answered"
  | .completed => "completed"
  | .dismissed => "dismissed"

def kindWord : HumanItemKind → String
  | .task => "task"
  | .question => "question"

/-- what a completion refuses with when the document changed since its task was raised -/
def reread : String := "Re-read the current document"

/-- a completion, answer or dismissal of one item; `complete` is what an approval's adapter answers -/
def settle (store : Store) (complete : HumanItem → Actor → Except String (Option HumanItemInput)) (id : String) (actor : Actor)
    (state : HumanItemState) (action : HumanItemEventAction) (text reason : Option String) : Writing HumanItemReceipt := do
  if Text.isBlank actor.actor then Act.fail "an action names its actor"
  else
    match ← Act.read fun w => w.items[id]? with
    | none => Act.fail s!"no such human item {id}"
    | some item =>
      if (state = .answered ∧ item.kind ≠ .question) ∨ (state = .completed ∧ item.kind ≠ .task) then
        let verb := if state = .answered then "answered; complete or dismiss it" else "completed; answer or dismiss it"
        Act.fail s!"{item.id} is a {kindWord item.kind}, which cannot be {verb}"
      else if item.state ≠ .open then
        if item.state = state ∧ item.resolution.any fun r => r.text = text ∧ r.reason = reason then
          pure { item, event := (← Act.read fun w => w.events[id]?).getD 0 }
        else Act.fail s!"{item.id} is already {stateWord item.state}; a different resolution is refused"
      else if state = .completed ∧ item.approval.isSome then
        match ← Act.lift (complete item actor) with
        | none => resolve store item state action actor text reason
        | some replacement =>
          -- the replacement first, so a writer stopped here leaves the obsolete task open beside it
          let _ ← raise store replacement
          let _ ← resolve store item .dismissed .dismissed actor none (some reread)
          Act.fail reread
      else resolve store item state action actor text reason

def applyAction (store : Store) (complete : HumanItem → Actor → Except String (Option HumanItemInput)) :
    HumanItemAction → Writing HumanItemReceipt
  | .raise input => raise store input
  | .reopen id actor => reopen store id actor
  | .note id text actor => note store id text actor
  | .answer id text actor =>
    if Text.isBlank text then Act.fail "answer text must not be blank"
    else settle store complete id actor .answered .answered (some text) none
  | .complete id actor => settle store complete id actor .completed .completed none none
  | .dismiss id reason actor =>
    settle store complete id actor .dismissed .dismissed none ((reason.map Text.trim).filter (· ≠ ""))

/-! ## Opening a writer -/

/-- what a read of the journal comes to: each item's last record, its last event, and the next sequence a record may have -/
structure Fold where
  items : StrMap HumanItem := ∅
  events : StrMap ℕ := ∅
  records : ℕ := 0
  nextSeq : ℕ := 0

/-- why a record is never folded -/
inductive Unreadable where
  | refused (why : String)
  | outOfOrder (seq : ℕ)
deriving DecidableEq, Repr

/-- one record folded, its sequence above the last -/
def foldOne (fold : Fold) (line : Envelope) : Except Unreadable Fold :=
  match parseRecord line with
  | .error why => .error (.refused why)
  | .ok (seq, payload) =>
    if 0 < fold.records ∧ seq < fold.nextSeq then .error (.outOfOrder seq)
    else .ok
      { items := fold.items.insert payload.itemId payload.item
        events := fold.events.insert payload.itemId seq
        records := fold.records + 1
        nextSeq := max fold.nextSeq (seq + 1) }

/-- every record folded from the first -/
def foldRecords (journal : List Envelope) : Except Unreadable Fold := journal.foldlM foldOne {}

/-- what the host is while a writer opens and acts -/
structure Opening where
  /-- whether a reserve not held can be allocated -/
  room : Bool
  /-- what an open dispatch outage, or an identity outage, is cleared by, where its probe finds it over -/
  dispatchClears : Option String := none
  identitiesClear : Option String := none
  outcomes : List WriteOutcome := []
  clock : ℕ → String := fun _ => ""

/-- the writer over what was read, its reserve allocated where there is room -/
def writerOf (journal : List Envelope) (reserve : Bool) (opening : Opening) (fold : Fold) : Writer :=
  { items := fold.items
    events := fold.events
    nextSeq := (fold.events.values.max?).elim 0 (· + 1)
    journal
    reserve := reserve || opening.room
    outcomes := opening.outcomes
    clock := opening.clock }

/-- the outages an open finds over, cleared -/
def probe (store : Store) (opening : Opening) : Writing Unit := do
  if ← Act.read Writer.reserve then clear store .journalNoSpace "the human-item journal's filesystem has space again"
  match opening.dispatchClears with
  | some reason => clear store .dispatchNoSpace reason
  | none => pure ()
  match opening.identitiesClear with
  | some reason => clear store .identitiesRefused reason
  | none => pure ()

/-- the journal and its reserve between writers -/
structure HostFiles where
  journal : List Envelope := []
  reserve : Bool := false
deriving DecidableEq, Repr

/-- one writer opened, its outages probed and its action taken -/
def writing {α : Type} (store : Store) (opening : Opening) (action : Writing α) (files : HostFiles) :
    Except String α × HostFiles :=
  match foldRecords files.journal with
  | .error _ => (.error "the human-item journal holds a record that cannot be read", files)
  | .ok fold =>
    let opened : Writing α := do
      probe store opening
      action
    let (answer, w) := opened (writerOf files.journal files.reserve opening fold)
    (answer, { journal := w.journal, reserve := w.reserve })

/-! ## The entry points -/

/-- the dedup-key prefixes only the engine raises under -/
def engineKeys : List String := ["run:", "phase:", hostConditionPrefix]

/-- an item that holds the work of a run: its work, and a plan hold it raised -/
def holdsRun (run : String) (item : HumanItem) : Bool :=
  item.state = .open &&
    match item.block with
    | .work held _ => held = run
    | .plan _ => item.owner.run = some run
    | .host | .nothing => false

def runEndedReason : String := "the run ended"

/-- what the store is asked to do, each by a writer of its own -/
inductive Entry where
  /-- an action a caller takes, and what an approval's adapter answers of a completion -/
  | apply (action : HumanItemAction) (complete : HumanItem → Actor → Except String (Option HumanItemInput))
  /-- what a configured phase expands to: the items it raises, and the keys it retires with their reasons -/
  | raisePhase (raised : List HumanItemInput) (retired : List (String × String))
  | runEnded (run : String)
  | raiseCondition (condition : HostCondition) (session title body : String)
  | raiseEngine (input : HumanItemInput)
  | autoResolveItem (id reason : String)
  | tracked (id : String) (tracker : HumanItemTracker)
  | probe

/-- why a caller's action is refused before it is tried -/
def refusedCaller : HumanItemAction → Option String
  | .raise input =>
    match engineKeys.find? fun key => Text.startsWith key.toList input.dedupKey.toList with
    | some reserved =>
      some s!"dedup keys beginning {Text.debug reserved} are the engine's own; raise under another key"
    | none =>
      if input.approval.isSome then
        some ("an approval reference is accepted only from a configured phase: raise it with --phase, whose hook names the " ++
          "approval adapter")
      else none
  | _ => none

/-- an item of an id resolved by the engine, where it is open -/
def autoResolveOpen (store : Store) (id reason : String) : Writing Unit := do
  match ← Act.read fun w => w.items[id]? with
  | some item => if item.state = .open then let _ ← autoResolve store item reason
  | none => pure ()

/-- an open item's tracker recorded -/
def bindTracker (store : Store) (id : String) (tracker : HumanItemTracker) : Writing Unit := do
  match ← Act.read fun w => w.items[id]? with
  | some item =>
    if item.state = .open then
      let now ← Act.read fun w => w.clock w.nextSeq
      let _ ← append store { item with tracker := some tracker, updatedAt := now } .raised
  | none => pure ()

/-- what an entry point does once its writer is open -/
def Entry.action (store : Store) : Entry → Writing Unit
  | .apply action complete => do let _ ← applyAction store complete action
  | .raisePhase raised retired => do
    Act.each (fun input => do let _ ← raise store input) raised
    Act.each (fun r => autoResolveOpen store (store.itemIdFor r.1) r.2) retired
  | .runEnded run => do
    let targets ← Act.read fun w => w.items.values.filter (holdsRun run)
    Act.each (fun item => do let _ ← autoResolve store item runEndedReason) targets
  | .raiseCondition outage session title body => do let _ ← condition store outage session title body
  | .raiseEngine input => do let _ ← raise store input
  | .autoResolveItem id reason => autoResolveOpen store id reason
  | .tracked id tracker => bindTracker store id tracker
  | .probe => pure ()

/-- whether an entry point opens a writer at all -/
def Entry.opens : Entry → Bool
  | .apply action _ => (refusedCaller action).isNone
  | _ => true

/-- an entry point taken, answered or refused -/
def take (store : Store) (files : HostFiles) (taken : Opening × Entry) : HostFiles :=
  if taken.2.opens then (writing store taken.1 (taken.2.action store) files).2 else files

end OnePipeline.HumanItems
