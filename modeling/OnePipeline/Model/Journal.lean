/-
The order a run's store is folded in (`src/journal.rs`), and the marker that says how much of the store a fold accounts
for (`src/checkpoint.rs`).
-/
import Mathlib.Data.Prod.Lex
import Mathlib.Data.String.Basic
import Mathlib.Tactic
import OnePipeline.Model.Record

namespace OnePipeline

/-! ## The merge order -/

/-- where a record sorts between streams: its timestamp, then its stream -/
abbrev Placed := String ×ₗ String

def placed (event : Envelope) : Placed := toLex (event.ts, event.stream)

/-- a record behind the ones of its stream that came before it -/
def enqueue (streams : StrMap (List Envelope)) (event : Envelope) : StrMap (List Envelope) :=
  streams.insert event.stream (streams[event.stream]?.getD [] ++ [event])

/-- a stream in its producer's order; two records claiming one `seq` keep the order they were appended in -/
def inSequence (queue : List Envelope) : List Envelope := queue.insertionSort fun a b => a.seq ≤ b.seq

/-- each stream's records, in the producer's own order -/
def queued (events : List Envelope) : StrMap (List Envelope) :=
  (events.foldl enqueue ∅).map fun _ queue => inSequence queue

/-- the stream whose head sorts first -/
def nextStream (streams : StrMap (List Envelope)) : Option String :=
  let heads := streams.toList.filterMap fun p => p.2.head?.map fun event => (toLex (event.ts, p.1) : Placed)
  (heads.argmin id).map fun head => (ofLex head).2

/-- the heads taken in turn; each turn takes one record, so the turns are as many as the records -/
def takeHeads : ℕ → StrMap (List Envelope) → List Envelope
  | 0, _ => []
  | turns + 1, streams =>
    match nextStream streams with
    | none => []
    | some stream =>
      match streams[stream]? with
      | some (event :: queue) => event :: takeHeads turns (streams.insert stream queue)
      | _ => []

/-- each stream in its own `seq`, interleaved between streams by `ts` -/
def mergeOrder (events : List Envelope) : List Envelope := takeHeads events.length (queued events)

/-! ## Coverage -/

/-- how much of a journal a fold accounts for: its bytes and lines, and how far its order and each stream reached -/
structure Coverage where
  bytes : ℕ := 0
  records : ℕ := 0
  «at» : Option Placed := none
  streams : StrMap ℕ := ∅

namespace Coverage

/-- whether the merge order puts every record accounted for in front of this one -/
def isInFrontOf (c : Coverage) (event : Envelope) : Bool :=
  c.at.all (fun «at» => «at» ≤ placed event) && c.streams[event.stream]?.all fun reached => reached ≤ event.seq

/-- one more line accounted for; one this build could not read moves the counts alone -/
def absorb (c : Coverage) (event : Option Envelope) (bytes : ℕ) : Coverage :=
  let c := { c with bytes := c.bytes + bytes, records := c.records + 1 }
  match event with
  | none => c
  | some event =>
    { c with
      «at» := if c.at.all fun «at» => «at» < placed event then some (placed event) else c.at
      streams := c.streams.insert event.stream (max (c.streams[event.stream]?.getD 0) event.seq) }

end Coverage

end OnePipeline
