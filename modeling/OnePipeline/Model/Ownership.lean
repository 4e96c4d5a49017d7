/-
A run's ownership lock (`src/ledger.rs`): `OwnershipLock` and the claim it is taken by, one file operation at a time.

Each process of the host is where it stands between two file operations, `Phase`; `State.act` is its next one. A link is
refused where its name exists, and a rename replaces what its name holds; both put a whole record there at once. What a
process learns of another's life is an event's word, since the host says it.
-/
import Mathlib.Tactic
import OnePipeline.Core.Text
import OnePipeline.Model.Task

namespace OnePipeline.Ownership

/-! ## Records -/

/-- what a lock says of its holder -/
structure LockRecord where
  pid : ℕ
  host : String
  acquiredAt : String
  verb : String
  started : String
deriving DecidableEq, Repr, Inhabited

/-- what a lock's path holds -/
inductive LockFile where
  | record (held : LockRecord)
  | absent
  | unreadable
deriving DecidableEq, Repr, Inhabited

/-- the verb a driver writes into the lock while it drives -/
def driveVerb : String := "drive"

/-- the verb a reply writes into the lock -/
def replyVerb : String := "reply"

/-- the letters and digits of a text -/
def plain (text : String) : String :=
  String.ofList (text.toList.filter fun c => isAsciiDigit c || ('a' ≤ c && c ≤ 'z') || ('A' ≤ c && c ≤ 'Z'))

/-- the name every reclaim of one dead record contends under -/
def reclaimKey (dead : LockRecord) : String := s!"{dead.pid}-{plain dead.acquiredAt}-{plain dead.started}"

/-! ## One process -/

/-- how a reclaim of a dead holder's lock ended -/
inductive Reclaimed where
  | won
  | heldBy (holder : LockRecord)
  | unreadable
  | released
deriving DecidableEq, Repr

/-- where a process stands between two of its file operations: `body` is the record it would leave, `dead` the one it
reclaims, `number` the reclaim entry it has come to -/
inductive Phase where
  | idle
  /-- about to link its record to the lock's path -/
  | linking (body : LockRecord)
  /-- refused by the link, and about to read the lock -/
  | reading (body : LockRecord)
  /-- about to ask whether the holder it read is gone -/
  | judging (body held : LockRecord)
  /-- about to link its record to a reclaim entry -/
  | entering (body dead : LockRecord) (number : ℕ)
  /-- its entry made, and about to read the lock again -/
  | rereading (body dead : LockRecord) (number : ℕ)
  /-- the lock still the dead record, and about to rename its own over it -/
  | replacing (body dead : LockRecord) (number : ℕ)
  /-- taking the entries away, from the first up to its own -/
  | sweeping (body dead : LockRecord) (number done : ℕ) (outcome : Reclaimed)
  /-- refused by the entry, and about to read the lock -/
  | looking (body dead : LockRecord) (number : ℕ)
  /-- about to read the entry that refused it -/
  | weighing (body dead : LockRecord) (number : ℕ)
  /-- about to ask whether the entry's maker is gone -/
  | doubting (body dead : LockRecord) (number : ℕ) (reclaimer : LockRecord)
  /-- answered that it holds the lock -/
  | holding (body : LockRecord)
deriving DecidableEq, Repr

namespace Phase

/-- the record whose process a phase is about to ask the host about -/
def subject : Phase → Option LockRecord
  | judging _ held => some held
  | doubting _ _ _ reclaimer => some reclaimer
  | _ => none

/-- where a claim goes on once its reclaim has ended -/
def after (body : LockRecord) : Reclaimed → Phase
  | .won => holding body
  | .released => linking body
  | .heldBy _ | .unreadable => idle

end Phase

inductive Life where
  | unborn
  | live
  | dead
deriving DecidableEq, Repr

/-! ## The host -/

/-- the host's name, and the pid and start token of each of its processes -/
structure Machine (P : Type) where
  hostname : String
  pid : P → ℕ
  token : P → String

/-- the lock, the reclaim entries beside it, and where every process stands -/
structure State (P : Type) where
  lock : LockFile := .absent
  entries : String → ℕ → LockFile := fun _ _ => .absent
  phase : P → Phase := fun _ => .idle
  life : P → Life := fun _ => .unborn

inductive Event (P : Type) where
  | born (p : P)
  | acquire (p : P) (acquiredAt verb : String)
  /-- a process's next file operation; where it asks about a process, whether the host proves that one gone, and whether
  its own patience lasts -/
  | act (p : P) (gone patient : Bool)
  | release (p : P)
  /-- the lock let stand by a holder that stops holding it -/
  | abandon (p : P)
  | dies (p : P)

namespace State

variable {P : Type} [DecidableEq P] (m : Machine P) (s : State P)

def enter (p : P) (phase : Phase) : State P := { s with phase := Function.update s.phase p phase }

def setEntry (key : String) (number : ℕ) (file : LockFile) : State P :=
  { s with entries := fun k n => if k = key ∧ n = number then file else s.entries k n }

/-- the record a process leaves in the lock it takes -/
def recordOf (p : P) (acquiredAt verb : String) : LockRecord :=
  { pid := m.pid p, host := m.hostname, acquiredAt, verb, started := m.token p }

/-- where a process that read the lock again with its entry made goes on -/
def reread (body dead : LockRecord) (number : ℕ) : Phase :=
  match s.lock with
  | .record now => if now = dead then .replacing body dead number else .sweeping body dead number 1 (.heldBy now)
  | .absent => .sweeping body dead number 1 .released
  | .unreadable => .sweeping body dead number 1 .unreadable

/-- a process's next file operation -/
def act (p : P) (gone patient : Bool) : State P :=
  match s.phase p with
  | .idle | .holding _ => s
  | .linking body =>
    match s.lock with
    | .absent => { s with lock := .record body }.enter p (.holding body)
    | _ => s.enter p (.reading body)
  | .reading body =>
    match s.lock with
    | .record held => s.enter p (.judging body held)
    | .absent => s.enter p (.linking body)
    | .unreadable => s.enter p .idle
  | .judging body held =>
    if held.host = m.hostname ∧ gone = true then s.enter p (.entering body held 1) else s.enter p .idle
  | .entering body dead number =>
    match s.entries (reclaimKey dead) number with
    | .absent => (s.setEntry (reclaimKey dead) number (.record body)).enter p (.rereading body dead number)
    | _ => s.enter p (.looking body dead number)
  | .rereading body dead number => s.enter p (s.reread body dead number)
  | .replacing body dead number =>
    { s with lock := .record body }.enter p (.sweeping body dead number 1 .won)
  | .sweeping body dead number done outcome =>
    (s.setEntry (reclaimKey dead) done .absent).enter p
      (if done < number then .sweeping body dead number (done + 1) outcome else .after body outcome)
  | .looking body dead number =>
    match s.lock with
    | .record now => if now = dead then s.enter p (.weighing body dead number) else s.enter p .idle
    | .absent => s.enter p (.linking body)
    | .unreadable => s.enter p .idle
  | .weighing body dead number =>
    match s.entries (reclaimKey dead) number with
    | .record reclaimer => s.enter p (.doubting body dead number reclaimer)
    | .absent => s.enter p (.entering body dead number)
    | .unreadable => s.enter p .idle
  | .doubting body dead number reclaimer =>
    if reclaimer.host = m.hostname ∧ gone = true then s.enter p (.entering body dead (number + 1))
    -- a takeover that would drive the run waits for as long as the reclaimer lives
    else if patient ∨ body.verb = driveVerb then s.enter p (.entering body dead number)
    else s.enter p .idle

def release (p : P) : State P :=
  match s.phase p with
  | .holding _ => { s with lock := .absent }.enter p .idle
  | _ => s

def abandon (p : P) : State P :=
  match s.phase p with
  | .holding _ => s.enter p .idle
  | _ => s

def setLife (p : P) (life : Life) : State P := { s with life := Function.update s.life p life }

def step : Event P → State P
  | .born p => s.setLife p .live
  | .acquire p acquiredAt verb => s.enter p (.linking (recordOf m p acquiredAt verb))
  | .act p gone patient => s.act m p gone patient
  | .release p => s.release p
  | .abandon p => s.abandon p
  | .dies p => s.setLife p .dead

/-- what may come: a process is born once, acts while it lives, begins a claim holding none, and is told another is gone
only where no live process has its pid -/
def Allowed : Event P → Prop
  | .born p => s.life p = .unborn
  | .acquire p _ _ => s.life p = .live ∧ s.phase p = .idle
  | .act p gone _ => s.life p = .live ∧
    (gone = true → ∀ held, (s.phase p).subject = some held → ∀ q, m.pid q = held.pid → s.life q ≠ .live)
  | .release p | .abandon p => s.life p = .live
  | .dies p => s.life p = .live

/-- a live process that was answered it holds the lock and has not let it go -/
def Holds (p : P) (body : LockRecord) : Prop := s.life p = .live ∧ s.phase p = .holding body

end State

end OnePipeline.Ownership
