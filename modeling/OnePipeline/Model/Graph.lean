/-
The desired graph and the derivation of every node's status (`src/graph.rs`).

A graph is its nodes in the order the plan wrote them, one an id: the source holds that order beside a map keyed by id
and keeps the two agreeing, and `Keyed` is the one collection they are.

`derive` is the source's loop: statuses are seeded with the parks and the recorded settlements, then filled in by passes
over the nodes until one changes nothing.
-/
import Mathlib.Tactic
import OnePipeline.Core.Keyed
import OnePipeline.Model.Plan

namespace OnePipeline

/-! ## Statuses -/

inductive NodeStatus where
  | pending
  | ready
  | running
  | waiting
  | blocked
  | parked
  | cancelled
  | done
  | completeDraft
  | completeHeld
  | failed
  | skipped
deriving DecidableEq, Repr, Inhabited

namespace NodeStatus

def asStr : NodeStatus → String
  | pending => "pending"
  | ready => "ready"
  | running => "running"
  | waiting => "waiting"
  | blocked => "blocked"
  | parked => "parked"
  | cancelled => "cancelled"
  | done => "done"
  | completeDraft => "complete-but-draft"
  | completeHeld => "complete-but-held"
  | failed => "failed"
  | skipped => "skipped"

def parse : String → Option NodeStatus
  | "pending" => some pending
  | "ready" => some ready
  | "running" => some running
  | "waiting" => some waiting
  | "blocked" => some blocked
  | "parked" => some parked
  | "cancelled" => some cancelled
  | "done" => some done
  | "complete-but-draft" => some completeDraft
  | "complete-but-held" => some completeHeld
  | "failed" => some failed
  | "skipped" => some skipped
  | _ => none

/-- a journal reads back the status it was written -/
theorem parse_asStr (s : NodeStatus) : parse s.asStr = some s := by
  cases s <;> rfl

def awaitsRelease : NodeStatus → Bool
  | completeDraft | completeHeld => true
  | _ => false

/-- the two gates derived on every read, which no settlement records -/
def isGate : NodeStatus → Bool
  | blocked | skipped => true
  | _ => false

end NodeStatus

/-- whether a settled node's change reached the branch it was published onto -/
inductive Landing where
  | landed
  | unlanded
deriving DecidableEq, Repr, Inhabited

def Landing.asStr : Landing → String
  | landed => "landed"
  | unlanded => "unlanded"

def Landing.parse : String → Option Landing
  | "landed" => some .landed
  | "unlanded" => some .unlanded
  | _ => none

theorem Landing.parse_asStr (l : Landing) : Landing.parse l.asStr = some l := by
  cases l <;> rfl

/-! ## Node identities -/

/-- a node's identity outside the graph: its id, trimmed, where that leaves anything -/
structure NodeRef where
  asStr : String
  stated : asStr ≠ ""

def NodeRef.of (node : Node) : Option NodeRef :=
  if h : Text.trim node.id ≠ "" then some ⟨Text.trim node.id, h⟩ else none

/-! ## The graph -/

structure Graph where
  nodes : Keyed Node.id
  concurrency : ℕ

namespace Graph

def empty : Graph := ⟨Keyed.empty, 0⟩

def withConcurrency (concurrency : ℕ) : Graph := { empty with concurrency }

def insert (g : Graph) (node : Node) : Graph := { g with nodes := g.nodes.insert node }

def remove (g : Graph) (id : String) : Graph := { g with nodes := g.nodes.remove id }

theorem id_sets (sets : List String) (n : Node) : ({ n with sets } : Node).id = n.id := rfl

theorem id_parked (parked : Bool) (n : Node) : ({ n with parked } : Node).id = n.id := rfl

theorem id_amendment (text : String) (n : Node) : ({ n with amendment := some text } : Node).id = n.id := rfl

theorem id_context (text : String) (n : Node) : ({ n with context := some text } : Node).id = n.id := rfl

theorem id_title (title : String) (n : Node) : ({ n with title := some title } : Node).id = n.id := rfl

/-- change the node of an id, which no change of the source's gives another id -/
def modify (g : Graph) (id : String) (f : Node → Node) (keeps : ∀ n, (f n).id = n.id := by intro n; exact Eq.symm rfl) : Graph :=
  { g with nodes := g.nodes.modify id f keeps }

/-- change every node -/
def modifyAll (g : Graph) (f : Node → Node) (keeps : ∀ n, (f n).id = n.id := by intro n; exact Eq.symm rfl) : Graph :=
  { g with nodes := g.nodes.mapItems f keeps }

def get (g : Graph) (id : String) : Option Node := g.nodes.get id

def contains (g : Graph) (id : String) : Bool := g.nodes.contains id

/-- the nodes, in the order the plan wrote them -/
def iter (g : Graph) : List Node := g.nodes.items

def ids (g : Graph) : List String := g.nodes.keys

def fromPlan (plan : Plan) : Graph := plan.tasks.foldl insert (withConcurrency plan.concurrency)

def toPlan (g : Graph) (source : Plan) : Plan := { source with concurrency := g.concurrency, tasks := g.iter }

/-- the nodes that name `id` as a dependency -/
def dependentsOf (g : Graph) (id : String) : List String :=
  (g.iter.filter fun n => id ∈ n.deps).map Node.id

/-! ### Lookups -/

variable {f : Node → Node} {keeps : ∀ n, (f n).id = n.id}

theorem get_insert (g : Graph) (n : Node) (id : String) :
    (g.insert n).get id = if id = n.id then some n else g.get id := Keyed.get_insert ..

theorem get_remove (g : Graph) (id id' : String) : (g.remove id).get id' = if id' = id then none else g.get id' :=
  Keyed.get_remove ..

theorem get_modify (g : Graph) (id id' : String) :
    (g.modify id f keeps).get id' = if id' = id then (g.get id').map f else g.get id' := Keyed.get_modify keeps ..

theorem get_modifyAll (g : Graph) (id : String) : (g.modifyAll f keeps).get id = (g.get id).map f :=
  Keyed.get_mapItems keeps ..

@[simp] theorem ids_modify (g : Graph) (id : String) : (g.modify id f keeps).ids = g.ids := Keyed.keys_modify keeps ..

@[simp] theorem ids_modifyAll (g : Graph) : (g.modifyAll f keeps).ids = g.ids := Keyed.keys_mapItems keeps ..

theorem ids_remove (g : Graph) (id : String) : (g.remove id).ids = g.ids.filter fun k => k ≠ id := Keyed.keys_remove ..

theorem ids_insert_mem {g : Graph} {n : Node} (h : n.id ∈ g.ids) : (g.insert n).ids = g.ids := Keyed.keys_insert_mem h

theorem ids_insert_new {g : Graph} {n : Node} (h : n.id ∉ g.ids) : (g.insert n).ids = g.ids ++ [n.id] :=
  Keyed.keys_insert_new h

theorem mem_ids_insert {g : Graph} {n : Node} {id : String} : id ∈ (g.insert n).ids ↔ id = n.id ∨ id ∈ g.ids :=
  Keyed.mem_keys_insert

theorem mem_ids_remove {g : Graph} {id id' : String} : id' ∈ (g.remove id).ids ↔ id' ∈ g.ids ∧ id' ≠ id :=
  Keyed.mem_keys_remove

theorem contains_iff {g : Graph} {id : String} : g.contains id = true ↔ id ∈ g.ids := Keyed.contains_iff

theorem contains_eq_false {g : Graph} {id : String} : g.contains id = false ↔ id ∉ g.ids := Keyed.contains_eq_false

theorem get_eq_none {g : Graph} {id : String} : g.get id = none ↔ id ∉ g.ids := Keyed.get_eq_none

theorem isSome_get {g : Graph} {id : String} : (g.get id).isSome ↔ id ∈ g.ids := Keyed.isSome_get

theorem get_eq_some {g : Graph} {id : String} {n : Node} : g.get id = some n ↔ n ∈ g.iter ∧ n.id = id :=
  Keyed.get_eq_some

theorem mem_ids_of_get {g : Graph} {id : String} {n : Node} (h : g.get id = some n) : id ∈ g.ids :=
  isSome_get.mp (by rw [h]; rfl)

theorem get_of_mem {g : Graph} {n : Node} (h : n ∈ g.iter) : g.get n.id = some n := Keyed.get_of_mem h

theorem id_of_get {g : Graph} {id : String} {n : Node} (h : g.get id = some n) : n.id = id := Keyed.key_of_get h

theorem mem_ids {g : Graph} {id : String} : id ∈ g.ids ↔ ∃ n ∈ g.iter, n.id = id := Keyed.mem_keys

theorem mem_dependentsOf {g : Graph} {id d : String} : d ∈ g.dependentsOf id ↔ ∃ n, g.get d = some n ∧ id ∈ n.deps := by
  simp only [dependentsOf, List.mem_map, List.mem_filter, decide_eq_true_eq]
  constructor
  · rintro ⟨n, ⟨hn, hd⟩, rfl⟩
    exact ⟨n, get_of_mem hn, hd⟩
  · rintro ⟨n, hn, hd⟩
    exact ⟨n, ⟨(get_eq_some.mp hn).1, hd⟩, id_of_get hn⟩

/-- the ids in order and the node of each determine a graph -/
theorem ext_get {g h : Graph} (hc : g.concurrency = h.concurrency) (hi : g.ids = h.ids)
    (hn : ∀ id, g.get id = h.get id) : g = h := by
  have hnodes : g.nodes = h.nodes := Keyed.ext_get hi hn
  cases g
  cases h
  cases hc
  cases hnodes
  rfl

@[simp] theorem concurrency_insert (g : Graph) (n : Node) : (g.insert n).concurrency = g.concurrency := rfl

@[simp] theorem concurrency_remove (g : Graph) (id : String) : (g.remove id).concurrency = g.concurrency := rfl

@[simp] theorem concurrency_modify (g : Graph) (id : String) : (g.modify id f keeps).concurrency = g.concurrency := rfl

@[simp] theorem concurrency_modifyAll (g : Graph) : (g.modifyAll f keeps).concurrency = g.concurrency := rfl

/-- two changes of a node that agree on the one it holds -/
theorem modify_congr {g : Graph} {id : String} {f' : Node → Node} {keeps' : ∀ n, (f' n).id = n.id}
    (h : ∀ n, g.get id = some n → f n = f' n) : g.modify id f keeps = g.modify id f' keeps' := by
  refine ext_get rfl (by simp) fun k => ?_
  rw [get_modify, get_modify]
  split_ifs with hk
  · subst hk
    cases hg : g.get k with
    | none => rfl
    | some n => simp [h n hg]
  · rfl

/-- a change that leaves the node it holds as it is -/
theorem modify_eq_self {g : Graph} {id : String} (h : ∀ n, g.get id = some n → f n = n) : g.modify id f keeps = g := by
  refine ext_get rfl (by simp) fun k => ?_
  rw [get_modify]
  split_ifs with hk
  · subst hk
    cases hg : g.get k with
    | none => rfl
    | some n => simp [h n hg]
  · rfl

theorem modify_modify {g : Graph} {id : String} {f' : Node → Node} {keeps' : ∀ n, (f' n).id = n.id} :
    (g.modify id f keeps).modify id f' keeps' =
      g.modify id (fun n => f' (f n)) fun n => (keeps' (f n)).trans (keeps n) := by
  refine ext_get rfl (by simp) fun k => ?_
  simp only [get_modify]
  split_ifs with hk
  · cases g.get k <;> rfl
  · rfl

/-- one change a node over a list of distinct ids -/
theorem get_foldl_modify {l : List String} (hl : l.Nodup) {f : String → Node → Node} {keeps : ∀ d n, (f d n).id = n.id}
    (g : Graph) (k : String) :
    (l.foldl (fun g d => g.modify d (f d) (keeps d)) g).get k = if k ∈ l then (g.get k).map (f k) else g.get k := by
  induction l generalizing g with
  | nil => simp
  | cons d l ih =>
    obtain ⟨hd, hl⟩ := List.nodup_cons.mp hl
    rw [List.foldl_cons, ih hl, get_modify]
    by_cases hk : k = d
    · subst hk
      simp [hd]
    · simp [hk]

theorem ids_foldl_modify {l : List String} {f : String → Node → Node} {keeps : ∀ d n, (f d n).id = n.id} (g : Graph) :
    (l.foldl (fun g d => g.modify d (f d) (keeps d)) g).ids = g.ids := by
  induction l generalizing g with
  | nil => rfl
  | cons d l ih => rw [List.foldl_cons, ih, ids_modify]

theorem concurrency_foldl_modify {l : List String} {f : String → Node → Node} {keeps : ∀ d n, (f d n).id = n.id}
    (g : Graph) : (l.foldl (fun g d => g.modify d (f d) (keeps d)) g).concurrency = g.concurrency := by
  induction l generalizing g with
  | nil => rfl
  | cons d l ih => rw [List.foldl_cons, ih, concurrency_modify]

theorem get_foldl_remove (l : List String) (g : Graph) (k : String) :
    (l.foldl remove g).get k = if k ∈ l then none else g.get k := by
  induction l generalizing g with
  | nil => simp
  | cons d l ih =>
    rw [List.foldl_cons, ih, get_remove]
    by_cases hk : k = d
    · simp [hk]
    · simp [hk]

theorem ids_foldl_remove (l : List String) (g : Graph) : (l.foldl remove g).ids = g.ids.filter fun k => k ∉ l := by
  induction l generalizing g with
  | nil => simp
  | cons d l ih =>
    rw [List.foldl_cons, ih, ids_remove, List.filter_filter]
    refine List.filter_congr fun k _ => ?_
    simp [Bool.and_comm]

theorem concurrency_foldl_remove (l : List String) (g : Graph) : (l.foldl remove g).concurrency = g.concurrency := by
  induction l generalizing g with
  | nil => rfl
  | cons d l ih => rw [List.foldl_cons, ih, concurrency_remove]

theorem nodup_ids (g : Graph) : g.ids.Nodup := g.nodes.nodup

theorem nodup_dependentsOf (g : Graph) (id : String) : (g.dependentsOf id).Nodup :=
  g.nodup_ids.sublist (List.filter_sublist.map Node.id)

/-- the graph of a plan whose ids are distinct holds its nodes as the plan wrote them -/
theorem iter_fromPlan (plan : Plan) (h : (plan.tasks.map Node.id).Nodup) : (fromPlan plan).iter = plan.tasks := by
  have hfold (l : List Node) (g : Graph) : (l.foldl insert g).nodes = l.foldl Keyed.insert g.nodes := by
    induction l generalizing g with
    | nil => rfl
    | cons n l ih => exact ih (g.insert n)
  rw [iter, fromPlan, hfold]
  exact Keyed.items_ofItems plan.tasks h

end Graph

/-! ## Cross-DAG references (`src/crossdag.rs`) -/

/-- the shape a cross-DAG reference must have -/
def crossDagSyntax : String := "run:<run_id>#<node_id>"

/-- `ledger::is_valid_run_id`: one path segment, and nothing that navigates -/
def isValidRunId (run : List Char) : Bool :=
  run ≠ [] && run ≠ ['.'] && run ≠ ['.', '.'] && '/' ∉ run && '\\' ∉ run

/-- the run and the node a cross-DAG reference names -/
def crossDagParse (dependency : String) : Option (String × String) :=
  match Text.stripPrefix "run:".toList dependency.toList with
  | none => none
  | some rest =>
    match Text.splitOnce ['#'] rest with
    | none => none
    | some (run, node) =>
      if node.isEmpty || !isValidRunId run then none else some (String.ofList run, String.ofList node)

def isCrossDag (reference : String) : Bool := (crossDagParse reference).isSome

/-- whether a dependency was meant as a cross-DAG reference and is not one -/
def isMalformed (dependency : String) : Bool :=
  Text.startsWith "run:".toList dependency.toList && (crossDagParse dependency).isNone

/-! ## Settlements as scheduling reads them -/

/-- the word a publication settles under whose push reached the origin and whose verdict could not be read -/
def unreadOutcome : String := "pushed-unverified"

inductive Settled where
  | at (status : NodeStatus)
  | reachedTheOrigin
  | reachedItsBase
deriving DecidableEq, Repr

namespace Settled

def of (status : NodeStatus) (outcome : Option String) (landing : Option Landing) : Settled :=
  if status = .failed ∧ outcome = some unreadOutcome then
    if landing = some .landed then reachedItsBase else reachedTheOrigin
  else .at status

def status : Settled → NodeStatus
  | .at s => s
  | reachedTheOrigin | reachedItsBase => .failed

/-- a settlement's case never changes the status it was read from -/
@[simp] theorem status_of (s : NodeStatus) (outcome : Option String) (landing : Option Landing) :
    (of s outcome landing).status = s := by
  unfold of
  split_ifs with h
  · exact h.1.symm
  · exact h.1.symm
  · rfl

/-- whether a dependency in this state makes executing its dependents unsafe -/
def skipsDependents : Settled → Bool
  | .at .failed | .at .skipped => true
  | _ => false

/-- whether its publication reached the origin with the verdict outstanding, so dependents wait -/
def holdsDependents : Settled → Bool
  | reachedTheOrigin => true
  | _ => false

end Settled

/-! ## The derivation -/

/-- what one dependency adds to a node's eligibility -/
structure Gates where
  allDone : Bool := true
  failed : Bool := false
  gated : Bool := false
deriving DecidableEq, Repr

/-- a dependency that has got as far as `reached` -/
def Gates.add (g : Gates) (reached : Settled) : Gates :=
  match reached with
  | .reachedItsBase => g
  | .at .done => g
  | _ =>
    if reached.holdsDependents then { g with gated := true, allDone := false }
    else if reached.skipsDependents then { g with failed := true, allDone := false }
    else
      match reached.status with
      | .waiting | .blocked | .parked | .cancelled => { g with gated := true, allDone := false }
      | _ => { g with allDone := false }

/-- how far a dependency of this graph has got: the settlement's own case where the pass still derives `failed` -/
def reachedBy (status : NodeStatus) (settled : Option Settled) : Settled :=
  match settled with
  | some .reachedTheOrigin => if status = .failed then .reachedTheOrigin else .at status
  | some .reachedItsBase => if status = .failed then .reachedItsBase else .at status
  | _ => .at status

section Derive

variable (graph : Graph) (settled : StrMap Settled) (resolved : String → Option NodeStatus)

def eligibilityOf (statuses : StrMap NodeStatus) (g : Gates) (dep : String) : Gates :=
  if isCrossDag dep then
    match resolved dep with
    | some status => g.add (.at status)
    | none => { g with allDone := false, gated := true }
  else if graph.contains dep then
    match statuses[dep]? with
    | some status => g.add (reachedBy status settled[dep]?)
    | none => { g with allDone := false }
  else g

def eligibility (node : Node) (statuses : StrMap NodeStatus) : Option NodeStatus :=
  let g := node.deps.foldl (eligibilityOf graph settled resolved statuses) {}
  if g.failed then some .skipped
  else if g.gated then some .blocked
  else if !g.allDone then none
  else if node.parked then some .parked
  else if node.kind = .human then some .waiting
  else some .ready

/-- a park, or a recorded settlement that is not one of the derived gates -/
def seed (statuses : StrMap NodeStatus) (node : Node) : StrMap NodeStatus :=
  if node.parked then statuses.insert node.id .parked
  else
    match settled[node.id]? with
    | some recorded => if recorded.status.isGate then statuses else statuses.insert node.id recorded.status
    | none => statuses

/-- one node of a pass: the statuses, and whether the pass has changed any -/
def passStep (p : StrMap NodeStatus × Bool) (node : Node) : StrMap NodeStatus × Bool :=
  if node.id ∈ p.1 then p
  else
    match eligibility graph settled resolved node p.1 with
    | some status => (p.1.insert node.id status, true)
    | none => p

def pass (statuses : StrMap NodeStatus) : StrMap NodeStatus × Bool :=
  graph.iter.foldl (passStep graph settled resolved) (statuses, false)

/-- passes until one changes nothing -/
def deriveLoop : ℕ → StrMap NodeStatus → StrMap NodeStatus
  | 0, statuses => statuses
  | fuel + 1, statuses =>
    let p := pass graph settled resolved statuses
    if p.2 then deriveLoop fuel p.1 else p.1

/-- the statuses the passes start from -/
def seeded : StrMap NodeStatus := graph.iter.foldl (seed settled) ∅

/-- every node's status, from the graph and what has settled: each pass but the last fills a node in -/
def derive : StrMap NodeStatus :=
  let statuses := deriveLoop graph settled resolved (graph.iter.length + 1) (seeded graph settled)
  graph.iter.foldl (fun s n => if n.id ∈ s then s else s.insert n.id .pending) statuses

end Derive

end OnePipeline
