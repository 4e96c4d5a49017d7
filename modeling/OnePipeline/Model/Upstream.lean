/-
Cross-DAG edges resolved off the upstream run's own ledger (`src/crossdag.rs`).

A ledger is read as the records it holds, in the order they were appended: the merge order is the fold's. The read-back
memory of the quiet readers is `answered`, what was read inside its window.
-/
import Mathlib.Data.Finset.Basic
import OnePipeline.Model.Projection

namespace OnePipeline.CrossDag

/-- each run's ledger under a runs root, where there is one -/
abbrev Ledgers := String → Option (List Envelope)

/-- how far a run's ledger has got -/
def extent (root : Ledgers) (run : String) : Option ℕ := (root run).map List.length

/-- the status a record settles a node as -/
def settledAs (node : String) (e : Envelope) : Option NodeStatus :=
  match e.body with
  | .nodeSettled settled => if e.node = some node then settled.status else none
  | _ => none

/-- how a node of another run last settled, its ledger scanned from the back -/
def readSettledStatus (root : Ledgers) (run node : String) : Option NodeStatus :=
  (root run).bind fun lines => (lines.filterMap (settledAs node)).getLast?

/-- only `done` satisfies an edge -/
def satisfiedStatus : Option NodeStatus → NodeStatus
  | some .done => .done
  | _ => .blocked

/-- every well-formed reference a graph names, with the nodes naming it -/
def edges (graph : Graph) : StrMap (List String) :=
  (graph.iter.flatMap fun node => (node.deps.filter isCrossDag).map fun dep => (dep, node.id)).foldl
    (fun m p => m.insert p.1 (m[p.1]?.getD [] ++ [p.2])) ∅

/-! ## The loop's own reads -/

structure Observer where
  /-- where each resolved upstream had got when it was first resolved -/
  baselines : StrMap ℕ := ∅
  /-- the dependencies already reported as moved, each to the consumer it was reported to -/
  reported : Finset (String × String) := ∅

/-- what resolving an edge records in the consumer's own journal -/
inductive Emitted where
  | satisfied (consumer dependency : String) (lastSeq : ℕ)
  | upstreamModified (consumer dependency : String) (captured observed : ℕ)
deriving DecidableEq, Repr

/-- one pass over the edges: what it leaves remembered, what it emitted and what each dependency resolved to -/
structure Resolving where
  observer : Observer
  emitted : List Emitted := []
  resolved : StrMap NodeStatus := ∅

namespace Resolving

/-- where the upstream had got when the edge was first resolved: now, where it never was -/
def baseline (s : Resolving) (dependency : String) (consumers : List String) (extent : ℕ) : Resolving × ℕ :=
  match s.observer.baselines[dependency]? with
  | some baseline => (s, baseline)
  | none =>
    ({ s with
      observer := { s.observer with baselines := s.observer.baselines.insert dependency extent }
      emitted := s.emitted ++ (consumers.head?.map fun first => Emitted.satisfied first dependency extent).toList }, extent)

/-- an upstream past its baseline, reported to one consumer at most once -/
def reportOne (dependency : String) (captured observed : ℕ) (s : Resolving) (consumer : String) : Resolving :=
  if (dependency, consumer) ∈ s.observer.reported then s
  else
    { s with
      observer := { s.observer with reported := insert (dependency, consumer) s.observer.reported }
      emitted := s.emitted ++ [.upstreamModified consumer dependency captured observed] }

def resolveOne (root : Ledgers) (s : Resolving) (edge : String × List String) : Resolving :=
  match crossDagParse edge.1 with
  | none => s
  | some (run, node) =>
    if readSettledStatus root run node ≠ some .done then { s with resolved := s.resolved.insert edge.1 .blocked }
    else
      let s := { s with resolved := s.resolved.insert edge.1 .done }
      match extent root run with
      | none => s
      | some extent =>
        let (s, baseline) := s.baseline edge.1 edge.2 extent
        if extent ≤ baseline then s else edge.2.foldl (reportOne edge.1 baseline extent) s

end Resolving

def resolve (root : Ledgers) (observer : Observer) (graph : Graph) : Resolving :=
  (edges graph).toList.foldl (Resolving.resolveOne root) { observer }

/-! ## The quiet readers -/

/-- the status a quiet reader is answered: one read inside the window is answered again -/
def settledStatusRecently (root : Ledgers) (answered : String → String → Option (Option NodeStatus)) (run node : String) :
    Option NodeStatus :=
  (answered run node).getD (readSettledStatus root run node)

def resolveQuietly (root : Ledgers) (answered : String → String → Option (Option NodeStatus)) (graph : Graph) :
    StrMap NodeStatus :=
  (edges graph).toList.foldl (fun m edge =>
    match crossDagParse edge.1 with
    | none => m
    | some (run, node) => m.insert edge.1 (satisfiedStatus (settledStatusRecently root answered run node))) ∅

end OnePipeline.CrossDag
