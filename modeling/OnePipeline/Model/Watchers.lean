/-
The leases of a run's watches (`src/watchers.rs`): what a watch writes of itself as it arms, what it sweeps of the watches
before it and takes away as it returns, and what a reader makes of each lease and of the terms beside it, one file operation
at a time.

Every write of a watch's own files succeeds. A lease is published from a temporary beside it, which a listing of the
directory sees; its terms are published from one in their own directory, which nothing lists, so writing them is one step.
A record is written by this build, and reads back as written.
-/
import Mathlib.Tactic
import OnePipeline.Core.Maps
import OnePipeline.Model.Plan

namespace OnePipeline.Watchers

/-! ## The records -/

/-- the lease one live watch keeps -/
structure WatcherRecord where
  runId : String
  pid : ℕ
  host : String
  started : String
  beganAt : String
deriving DecidableEq, Repr

/-- the terms a watch is armed under, written beside its lease -/
structure WatchTerms where
  runId : String
  pid : ℕ
  started : String
  deadline : Option String
  «until» : List String
  session : Option String
deriving DecidableEq, Repr

inductive WatchStanding where
  | live
  | anotherRun
  | anotherHost
  | processGone
  | awaitingItsParent
  | notThatProcess
  | unproven
deriving DecidableEq, Repr

def WatchStanding.isLive : WatchStanding → Bool
  | live => true
  | _ => false

/-- the standings a sweep removes a record on -/
def WatchStanding.provedGone : WatchStanding → Bool
  | processGone | awaitingItsParent | notThatProcess => true
  | _ => false

/-- what this host answers of itself and of a process: the start token it reads now, as the recorded tokens it matches -/
structure HostSays where
  hostname : String
  mayBeLive : ℕ → Bool
  awaitingParent : ℕ → Bool
  startToken : ℕ → Option (String → Bool)

/-- what a start token read now says about one recorded earlier -/
def tokenStanding (read : Option (String → Bool)) (recorded : String) : WatchStanding :=
  match read with
  | some same => if same recorded then .live else if recorded ≠ "" then .notThatProcess else .unproven
  | none => .unproven

def holderStanding (host : HostSays) (named : String) (pid : ℕ) (started : String) : WatchStanding :=
  if named ≠ host.hostname then .anotherHost
  else if !host.mayBeLive pid then .processGone
  else if host.awaitingParent pid then .awaitingItsParent
  else tokenStanding (host.startToken pid) started

/-- what this host makes of one record in a run's directory -/
def standingOf (host : HostSays) (run : String) (record : WatcherRecord) : WatchStanding :=
  if record.runId ≠ run then .anotherRun else holderStanding host record.host record.pid record.started

/-! ## The directories -/

/-- what a file of the lease directory holds -/
inductive Content where
  /-- a temporary created and not written yet -/
  | staged
  | written (record : WatcherRecord)
deriving DecidableEq, Repr

/-- what sits beside one lease -/
inductive TermsRead where
  | absent
  | read (terms : WatchTerms)
deriving DecidableEq, Repr

/-- the watches of one run: what each writes, and the names of its lease and of the temporary its lease is published from -/
structure Desk (W : Type) where
  run : String
  record : W → WatcherRecord
  terms : W → WatchTerms
  name : W → String
  temp : W → String
  /-- no name is used twice -/
  names : ∀ v w, name v = name w → v = w
  temps : ∀ v w, temp v = temp w → v = w
  apart : ∀ v w, name v ≠ temp w

/-! ## A walk of the lease directory -/

/-- one entry a walk read: a record, or nothing it can read as one -/
abbrev Read : Type := String × Option WatcherRecord

/-- the entries listed are read one by one, and then judged in the order of their names -/
inductive Walk where
  | reading (todo : List String) (read : List Read)
  | judging (todo : List Read)
deriving DecidableEq, Repr

def recordAt (watchers : StrMap Content) (name : String) : Option WatcherRecord :=
  match watchers[name]? with
  | some (.written record) => some record
  | _ => none

/-- the next entry read, and the entries sorted once every one is -/
def Walk.read (watchers : StrMap Content) : Walk → Walk
  | .reading (name :: todo) read => .reading todo (read ++ [(name, recordAt watchers name)])
  | .reading [] read => .judging (read.insertionSort fun a b => a.1 ≤ b.1)
  | walk => walk

/-! ## A watch and a reader -/

/-- where a watch is -/
inductive Phase where
  | unborn
  | sweeping (walk : Walk)
  /-- a record proved gone, its terms going first -/
  | removingTerms (name : String) (rest : List Read)
  | removingLease (name : String) (rest : List Read)
  | writingTerms
  | staging
  | filling
  | publishing
  | armed
  /-- its guard is dropped, and its lease is gone -/
  | dropping
  | returned
deriving DecidableEq, Repr

/-- what a reader answers of one lease -/
structure Answer where
  name : String
  record : WatcherRecord
  standing : WatchStanding
  terms : TermsRead
deriving DecidableEq, Repr

/-- where a reader is -/
inductive Reader where
  | idle
  | walking (walk : Walk) (answers : List Answer)
  /-- a lease is judged, and its terms are to be opened -/
  | opening (name : String) (record : WatcherRecord) (standing : WatchStanding) (rest : List Read) (answers : List Answer)
  | done (answers : List Answer)
deriving DecidableEq, Repr

structure State (W R : Type) where
  watchers : StrMap Content := ∅
  watchTerms : StrMap WatchTerms := ∅
  alive : W → Bool := fun _ => false
  phase : W → Phase := fun _ => .unborn
  reader : R → Reader := fun _ => .idle

inductive Event (W R : Type) where
  /-- a watch begins to arm, and lists the directory -/
  | arms (w : W) (listing : List String)
  /-- a watch's next operation, with what this host answers as it judges a record -/
  | acts (w : W) (host : HostSays)
  /-- a watch returns, and takes its lease away -/
  | drops (w : W)
  | dies (w : W)
  /-- a reader lists the directory -/
  | lists (r : R) (listing : List String)
  /-- a reader's next operation -/
  | reads (r : R) (host : HostSays)

variable {W R : Type} [DecidableEq W] [DecidableEq R]

namespace State

def setPhase (s : State W R) (w : W) (phase : Phase) : State W R := { s with phase := Function.update s.phase w phase }

def setReader (s : State W R) (r : R) (reader : Reader) : State W R := { s with reader := Function.update s.reader r reader }

def termsBeside (s : State W R) (name : String) : TermsRead :=
  match s.watchTerms[name]? with
  | some terms => .read terms
  | none => .absent

/-- a watch's next operation: `sweep`, then `arm`, then what its guard leaves -/
def act (desk : Desk W) (s : State W R) (w : W) (host : HostSays) : State W R :=
  match s.phase w with
  | .unborn | .armed | .returned => s
  | .sweeping (.reading todo read) => s.setPhase w (.sweeping (Walk.read s.watchers (.reading todo read)))
  | .sweeping (.judging []) => s.setPhase w .writingTerms
  | .sweeping (.judging ((name, some record) :: rest)) =>
    s.setPhase w (if (standingOf host desk.run record).provedGone then .removingTerms name rest else .sweeping (.judging rest))
  | .sweeping (.judging ((_, none) :: rest)) => s.setPhase w (.sweeping (.judging rest))
  | .removingTerms name rest => { s with watchTerms := s.watchTerms.erase name }.setPhase w (.removingLease name rest)
  | .removingLease name rest => { s with watchers := s.watchers.erase name }.setPhase w (.sweeping (.judging rest))
  | .writingTerms => { s with watchTerms := s.watchTerms.insert (desk.name w) (desk.terms w) }.setPhase w .staging
  | .staging => { s with watchers := s.watchers.insert (desk.temp w) .staged }.setPhase w .filling
  | .filling => { s with watchers := s.watchers.insert (desk.temp w) (.written (desk.record w)) }.setPhase w .publishing
  | .publishing =>
    { s with watchers := (s.watchers.erase (desk.temp w)).insert (desk.name w) (.written (desk.record w)) }.setPhase w .armed
  | .dropping => { s with watchTerms := s.watchTerms.erase (desk.name w) }.setPhase w .returned

/-- a reader's next operation: `Leases::of` -/
def read (desk : Desk W) (s : State W R) (r : R) (host : HostSays) : State W R :=
  match s.reader r with
  | .idle | .done _ => s
  | .walking (.reading todo read) answers => s.setReader r (.walking (Walk.read s.watchers (.reading todo read)) answers)
  | .walking (.judging []) answers => s.setReader r (.done answers)
  | .walking (.judging ((name, some record) :: rest)) answers =>
    s.setReader r (.opening name record (standingOf host desk.run record) rest answers)
  | .walking (.judging ((_, none) :: rest)) answers => s.setReader r (.walking (.judging rest) answers)
  | .opening name record standing rest answers =>
    s.setReader r (.walking (.judging rest) (answers ++ [⟨name, record, standing, s.termsBeside name⟩]))

def step (desk : Desk W) (s : State W R) : Event W R → State W R
  | .arms w listing => { s with alive := Function.update s.alive w true }.setPhase w (.sweeping (.reading listing []))
  | .acts w host => s.act desk w host
  | .drops w => { s with watchers := s.watchers.erase (desk.name w) }.setPhase w .dropping
  | .dies w => { s with alive := Function.update s.alive w false }
  | .lists r listing => s.setReader r (.walking (.reading listing []) [])
  | .reads r host => s.read desk r host

end State

end OnePipeline.Watchers
