/-
What a shutdown offers to be preserved (`src/shutdown.rs`): every branch the run's records name, pushed to its identity's
origin.

`onevcs::preserve` is the parameter `preserve`, told what it was asked before; `termScope` is what the boundary derives of
the run's plan.
-/
import OnePipeline.Model.Projection

namespace OnePipeline.Preserve

/-- one branch offered to be preserved -/
structure PreserveRequest where
  repo : String
  branch : String
  termScope : List String
deriving DecidableEq, Repr

/-- what became of an offered branch -/
inductive Preserved where
  | pushed
  | alreadyOnOrigin
  | noRemote
  | refused
deriving DecidableEq, Repr

/-- what `onevcs::preserve` answers of a branch it took -/
structure Done where
  identity : String
  branch : String
  outcome : Preserved
  remote : Option String
  commit : Option String
  from_ : String
deriving DecidableEq, Repr

structure BranchPreserved where
  identity : String
  branch : String
  outcome : Preserved
  remote : Option String
  commit : Option String
  detail : String
deriving DecidableEq, Repr

/-- a node no longer in flight whose change landed -/
def finishedLanding (landed : RunState) (node : String) : Bool :=
  landed.landings[node]? = some .landed && landed.statuses[node]? ≠ some .running

/-- the repository the graph says a node is in -/
def repoOf (view : RunState) (node : String) : Option String := (view.graph.get node).bind Node.repo

/-- each node with a branch the run's records name under it: its session, in flight or closed, the session an adoption
cleared, and what its settlement left behind -/
def named (view : RunState) : List (String × String) :=
  (view.sessions.toList.map fun p => (p.1, p.2.branch)) ++ (view.abandoned.toList.map fun p => (p.1, p.2.branch)) ++
    view.branches.toList

/-- a pair put behind the ones found, where it is not among them -/
def foundOnce (found : List (String × String)) (pair : String × String) : List (String × String) :=
  if pair ∈ found then found else found ++ [pair]

/-- one named branch, in the repository its node stands in -/
def findOne (view landed : RunState) (found : List (String × String)) (p : String × String) : List (String × String) :=
  if finishedLanding landed p.1 then found
  else
    match repoOf view p.1 with
    | some repo => foundOnce found (repo, p.2)
    | none => found

def branchesOf (view landed : RunState) : List (String × String) := (named view).foldl (findOne view landed) []

/-- every pair offered, of the reading the shutdown began from and the one after the teardown -/
def offered (view : RunState) (now : Option RunState) : List (String × String) :=
  ((now.map fun now => branchesOf now now).getD []).foldl foundOnce (branchesOf view (now.getD view))

section

variable (preserve : List PreserveRequest → PreserveRequest → Except String Done)

/-- what is reported of one branch -/
def reported (request : PreserveRequest) : Except String Done → BranchPreserved
  | .ok done =>
    { identity := done.identity, branch := done.branch, outcome := done.outcome, remote := done.remote
      commit := done.commit, detail := "preserved from " ++ done.from_ }
  | .error why =>
    { identity := request.repo, branch := request.branch, outcome := .refused, remote := none, commit := none, detail := why }

/-- the branches pushed one after another, each with what is reported of it -/
def preserveEach : List PreserveRequest → List PreserveRequest → List (PreserveRequest × BranchPreserved)
  | _, [] => []
  | asked, request :: rest =>
    (request, reported request (preserve asked request)) :: preserveEach (asked ++ [request]) rest

/-- what was asked of `onevcs`, and what is reported, branch by branch -/
def preserveEveryBranch (termScope : RunState → List String) (view : RunState) (now : Option RunState) :
    List (PreserveRequest × BranchPreserved) :=
  preserveEach preserve [] ((offered view now).map fun p =>
    { repo := p.1, branch := p.2, termScope := termScope (now.getD view) })

end

end OnePipeline.Preserve
