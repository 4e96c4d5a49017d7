/-
The drivers of one project and what they share (`src/continuation.rs`: `hand_over`, `ClaimWatch`; the publication fence of
`src/engine.rs`'s pass): the project's driver claim and its publication fence, two keys of one store document that any
driver writes unconditionally.

One operation is one read or one write of the document, or a change inside one driver; operations of different drivers
come in any order. A write the store refused has not happened. A run on a host is one driver. The first is launched over
no claim; each later one reads the claim it takes over from, writes its own, and waits. What a clock decides (a retry that
is due, a fence left to linger, a wait the store asked for) is only whether a driver makes its next call yet, so it is
left to the order of operations; that the wait of a takeover is over is an operation's own flag.
-/
import Mathlib.Tactic

namespace OnePipeline.Takeover

/-! ## The store's keys -/

/-- a driver: a run on a host -/
structure DriverName where
  run : String
  host : String
deriving DecidableEq, Repr

structure ClaimLease where
  intervalSeconds : ℕ
  cancelGraceSeconds : ℕ
deriving DecidableEq, Repr

structure DriverClaim where
  run : String
  host : String
  session : Option String := none
  pid : ℕ
  claimedAt : String
  lease : Option ClaimLease
deriving DecidableEq, Repr, Inhabited

/-- whom a claim names -/
def DriverClaim.name (claim : DriverClaim) : DriverName := ⟨claim.run, claim.host⟩

/-- a displaced driver's acknowledgement of the claim that displaced it -/
structure Acknowledgement where
  run : String
  host : String
deriving DecidableEq, Repr

/-- a driver's publications under way, as the store names them -/
structure Publishing where
  run : String
  host : String
  nodes : Finset String
deriving DecidableEq

def Publishing.name (publishing : Publishing) : DriverName := ⟨publishing.run, publishing.host⟩

structure Store where
  claim : Option (DriverClaim × Option Acknowledgement)
  publishing : Option Publishing := none
deriving DecidableEq

/-! ## The drivers -/

inductive Standing where
  | absent
  /-- launched, its own claim not written yet -/
  | launching
  /-- waiting in its own hand-over -/
  | waiting
  | driving
  /-- having read the claim that superseded it, and whether it owes that claim its acknowledgement -/
  | superseded («by» : DriverClaim) (owed : Bool)
  | gone
deriving DecidableEq

/-- where a driver's pass is between two calls of the store -/
inductive Pass where
  | idle
  /-- its fence names what it is about to publish, and the claim is read next -/
  | fenced
  /-- it read a fence of its own that names nothing under way, and clears it next -/
  | clearing
deriving DecidableEq

structure Driver where
  standing : Standing := .absent
  mine : DriverClaim
  /-- the claim its launch took over from -/
  displaced : Option DriverClaim := none
  /-- what it knows the fence to name of its own -/
  fenced : Option (Finset String) := some ∅
  /-- publications given the verdict to publish that have not settled -/
  publishing : Finset String := ∅
  /-- settlements the store has not taken -/
  unlanded : Finset String := ∅
  /-- publications waiting for a verdict -/
  due : Finset String := ∅
  pass : Pass := .idle

/-- what its fence has to name -/
def Driver.nodes (d : Driver) : Finset String := d.publishing ∪ d.unlanded ∪ d.due

structure State where
  store : Store
  drivers : DriverName → Driver

def State.set (s : State) (n : DriverName) (d : Driver) : State := { s with drivers := Function.update s.drivers n d }

/-- the first driver, launched over no claim, its own on the store -/
def launched (mine : DriverClaim) : State where
  store := { claim := some (mine, none) }
  drivers := Function.update (fun _ => { mine := default }) mine.name { standing := .driving, mine }

/-! ## The hand-over -/

/-- a later driver's launch reads the claim it takes over from -/
def launch (s : State) (mine : DriverClaim) : State :=
  match (s.drivers mine.name).standing, s.store.claim with
  | .absent, some (claim, _) => s.set mine.name { standing := .launching, mine, displaced := some claim }
  | _, _ => s

/-- `hand_over` writes its claim; one it cannot write refuses the launch -/
def claim (s : State) (n : DriverName) (lands : Bool) : State :=
  let d := s.drivers n
  if d.standing = .launching then
    if lands then
      { (s.set n { d with standing := .waiting }) with store := { s.store with claim := some (d.mine, none) } }
    else s.set n { d with standing := .gone }
  else s

/-- whether a fence names the driver a hand-over displaced -/
def fenceStands (s : State) (d : Driver) : Bool :=
  s.store.publishing.any fun publishing => d.displaced.any fun claim => claim.name = publishing.name

/-- one read of a waiting hand-over, and whether the wait its displaced claim states is over -/
def handOver (s : State) (n : DriverName) (answered past : Bool) : State :=
  let d := s.drivers n
  let starts := s.set n { d with standing := .driving }
  let waits := if past && d.displaced.any (fun claim => claim.lease.isSome) && !fenceStands s d then starts else s
  if d.standing = .waiting && answered then
    match s.store.claim with
    | some (claim, acknowledged) =>
      if claim.name = n && claim.claimedAt = d.mine.claimedAt then (if acknowledged.isSome then starts else waits)
      else s.set n { d with standing := .gone }
    | none => waits
  else s

/-! ## A running driver -/

/-- whether the store is known to hold a fence that covers some nodes -/
def covered (d : Driver) (nodes : Finset String) : Bool :=
  d.fenced = some nodes || d.standing = .driving && nodes ≠ ∅ && d.fenced.any fun fenced => nodes ⊆ fenced

/-- a pass goes on to read the claim only where something is due -/
def afterFence (d : Driver) : Pass := if d.due = ∅ then .idle else .fenced

/-- what the fence names as a driver's -/
def fenceOn (s : State) (n : DriverName) : Finset String :=
  match s.store.publishing with
  | some publishing => if publishing.name = n then publishing.nodes else ∅
  | none => ∅

def isSuperseded (d : Driver) : Bool :=
  match d.standing with
  | .superseded .. => true
  | _ => false

/-- a fence over some nodes as the store holds it: none is named as an absence -/
def Publishing.of (n : DriverName) (nodes : Finset String) : Option Publishing :=
  if nodes = ∅ then none else some { run := n.run, host := n.host, nodes }

/-- `ClaimWatch::fence` over what a pass has under way, where it makes at most a write -/
def fence (s : State) (n : DriverName) (lands : Bool) : State :=
  let d := s.drivers n
  if (d.standing = .driving || isSuperseded d && d.nodes ≠ ∅) && d.pass = .idle then
    if covered d d.nodes then s.set n { d with pass := afterFence d }
    else if lands then
      { (s.set n { d with fenced := some d.nodes, pass := afterFence d }) with
        store := { s.store with publishing := Publishing.of n d.nodes } }
    else s.set n { d with fenced := none }
  else s

/-- a superseded driver with nothing to name reads its fence before it clears it -/
def readFence (s : State) (n : DriverName) (answered : Bool) : State :=
  let d := s.drivers n
  if isSuperseded d && d.nodes = ∅ && d.pass = .idle && !covered d ∅ && answered then
    s.set n { d with fenced := some (fenceOn s n), pass := if fenceOn s n = ∅ then .idle else .clearing }
  else s

def clearFence (s : State) (n : DriverName) (lands : Bool) : State :=
  let d := s.drivers n
  if d.pass = .clearing then
    if lands then
      { (s.set n { d with fenced := some ∅, pass := .idle }) with store := { s.store with publishing := none } }
    else s.set n { d with fenced := none, pass := .idle }
  else s

/-- whether a claim names another driver than this one and than the one this launch took over from -/
def supersedes (n : DriverName) (d : Driver) (claim : DriverClaim) : Bool := claim.name ≠ n && d.displaced ≠ some claim

/-- `ClaimWatch::before_publishing`: what is due is published, withheld for good, or left for the next pass -/
def beforePublishing (s : State) (n : DriverName) (answered : Bool) : State :=
  let d := s.drivers n
  let published := { d with
    fenced := some (fenceOn s n), publishing := d.publishing ∪ d.due, due := ∅, pass := .idle }
  if d.standing = .driving && d.pass = .fenced then
    if answered then
      match s.store.claim with
      | some (claim, _) =>
        if supersedes n d claim then
          s.set n { d with fenced := some (fenceOn s n), standing := .superseded claim true, due := ∅, pass := .idle }
        else s.set n published
      | none => s.set n published
    else s.set n { d with pass := .idle }
  else s

/-- a superseded driver with nothing in progress acknowledges the claim that superseded it, over it as it was read -/
def acknowledge (s : State) (n : DriverName) (lands : Bool) : State :=
  let d := s.drivers n
  match d.standing with
  | .superseded claim true =>
    if d.nodes = ∅ && d.pass = .idle then
      let acknowledged := s.set n { d with standing := .superseded claim false }
      if lands then
        { acknowledged with store := { s.store with claim := some (claim, some { run := n.run, host := n.host }) } }
      else acknowledged
    else s
  | _ => s

/-! ## Runs -/

inductive Op where
  | launch (mine : DriverClaim)
  | claim (n : DriverName) (lands : Bool)
  | handOver (n : DriverName) (answered past : Bool)
  /-- a publication is ready for its verdict -/
  | due (n : DriverName) (node : String)
  | fence (n : DriverName) (lands : Bool)
  | readFence (n : DriverName) (answered : Bool)
  | clearFence (n : DriverName) (lands : Bool)
  | beforePublishing (n : DriverName) (answered : Bool)
  /-- a publication settles -/
  | settled (n : DriverName) (node : String)
  /-- the store takes a settlement -/
  | landed (n : DriverName) (node : String)
  | acknowledge (n : DriverName) (lands : Bool)
deriving DecidableEq

/-- one operation; one that is not its driver's to make changes nothing -/
def step (s : State) : Op → State
  | .launch mine => launch s mine
  | .claim n lands => claim s n lands
  | .handOver n answered past => handOver s n answered past
  | .due n node =>
    if (s.drivers n).standing = .driving && (s.drivers n).pass = .idle then
      s.set n { s.drivers n with due := insert node (s.drivers n).due }
    else s
  | .fence n lands => fence s n lands
  | .readFence n answered => readFence s n answered
  | .clearFence n lands => clearFence s n lands
  | .beforePublishing n answered => beforePublishing s n answered
  | .settled n node =>
    if node ∈ (s.drivers n).publishing && (s.drivers n).pass = .idle then
      s.set n { s.drivers n with
        publishing := (s.drivers n).publishing.erase node, unlanded := insert node (s.drivers n).unlanded }
    else s
  | .landed n node =>
    if (s.drivers n).pass = .idle then s.set n { s.drivers n with unlanded := (s.drivers n).unlanded.erase node } else s
  | .acknowledge n lands => acknowledge s n lands

/-- the state after some operations -/
def run (s : State) (ops : List Op) : State := ops.foldl step s

end OnePipeline.Takeover
