/-
What folding an edit's operations, or a settlement, leaves of a run.

Results:
- `graph_foldOperations`: a run's graph after an edit is replay's;
- `aside_foldOperations`, `aside_foldSettled`: what neither an edit nor a settlement writes;
- `get_introduced`: the node an accepted edit introduced, as the run's graph then holds it.
-/
import Mathlib.Tactic
import OnePipeline.Laws.ReplayAgrees
import OnePipeline.Laws.Shapes
import OnePipeline.Model.Projection

namespace OnePipeline

namespace RunState

variable {host : Host} {s : RunState} {«at» : Option ℕ}

theorem graph_foldOne (op : Operation) : (foldOne host «at» s op).graph = apply host.serde s.graph op := by
  cases op with
  | settledFromEvidence node outcome evidence => exact Graph.modify_modify
  | reparent node was deps =>
    simp only [foldOne, foldOperation]
    split_ifs <;> rfl
  | landingFromEvidence node landing =>
    simp only [foldOne, foldOperation]
    cases StatedLanding.parse host.toSiblings landing <;> rfl
  | contextAdded node note delivery =>
    cases delivery with
    | live => rfl
    | deferred => exact owe_graph _ node _
  | noteDelivered node addressee text criterion reached envelope index =>
    cases reached with
    | carried waiting => exact owe_graph _ node _
    | _ => rfl
  | noteWithdrawn node envelope index «from» text alikeAfter =>
    cases «from» with
    | live => rfl
    | carried => exact owe_graph _ node _
  | _ => rfl

/-- **An edit.** The run's graph after it is the one replay folds its operations to. -/
theorem graph_foldOperations (ops : List Operation) :
    (s.foldOperations host ops «at»).graph = applyAll host.serde s.graph ops := by
  unfold foldOperations applyAll
  induction ops generalizing s with
  | nil => rfl
  | cons op ops ih => rw [List.foldl_cons, List.foldl_cons, ih, graph_foldOne]

/-! ## What is written aside -/

/-- the fields an operation leaves alone: where dispatches work, what readers read back, and the restacks under way -/
structure Aside where
  sessions : StrMap DispatchSession
  noted : StrSet
  recalled : List Envelope
  restacking : StrSet

def aside (s : RunState) : Aside where
  sessions := s.sessions
  noted := s.noted
  recalled := s.recalled
  restacking := s.restacking

@[simp] theorem aside_owe (s : RunState) (node : String) (context : Option String) : (s.owe node context).aside = s.aside := by
  cases context <;> rfl

theorem aside_foldOne (op : Operation) : (foldOne host «at» s op).aside = s.aside := by
  cases op with
  | reparent node was deps =>
    simp only [foldOne, foldOperation]
    split_ifs <;> rfl
  | landingFromEvidence node landing =>
    simp only [foldOne, foldOperation]
    cases StatedLanding.parse host.toSiblings landing <;> rfl
  | contextAdded node note delivery =>
    cases delivery with
    | live => rfl
    | deferred => exact aside_owe _ node _
  | noteDelivered node addressee text criterion reached envelope index =>
    cases reached with
    | carried waiting => exact aside_owe _ node _
    | _ => rfl
  | noteWithdrawn node envelope index «from» text alikeAfter =>
    cases «from» with
    | live => rfl
    | carried => exact aside_owe _ node _
  | _ => rfl

theorem aside_foldOperations (ops : List Operation) : (s.foldOperations host ops «at»).aside = s.aside := by
  unfold foldOperations
  induction ops generalizing s with
  | nil => rfl
  | cons op ops ih => rw [List.foldl_cons, ih, aside_foldOne]

theorem aside_foldStatus (node : String) (status : Option NodeStatus) : (s.foldStatus node status).aside = s.aside := by
  cases status with
  | none => rfl
  | some status =>
    simp only [foldStatus, foldSettledStatus]
    split_ifs <;> rfl

theorem aside_retractStated (node : String) (outcome : Option String) : (s.retractStated node outcome).aside = s.aside := by
  unfold retractStated
  split_ifs <;> rfl

theorem aside_pinSettled (node : String) (status : Option NodeStatus) : (s.pinSettled node status).aside = s.aside := by
  cases status with
  | none => rfl
  | some status =>
    simp only [pinSettled, pinPreservedBranch]
    split_ifs
    · cases s.branches[node]? <;> rfl
    · rfl

/-- a settlement ends its node's restack, and leaves the rest alone -/
theorem aside_foldSettled (node : String) (settled : Settlement) :
    (s.foldSettled node settled).aside = { s.aside with restacking := s.restacking.erase node } := by
  let start := (s.foldStatus node settled.status).foldOutcome node settled.outcome
  let left := (start.retractStated node settled.outcome).foldLeftBehind node settled
  have hstart : start.aside = s.aside := aside_foldStatus node settled.status
  have hleft : left.aside = start.aside := aside_retractStated node settled.outcome
  have hpin : (left.pinSettled node settled.status).aside = s.aside := by rw [aside_pinSettled, hleft, hstart]
  have hrestacking : (left.pinSettled node settled.status).restacking = s.restacking := congrArg Aside.restacking hpin
  show ({ (left.pinSettled node settled.status).aside with
    restacking := (left.pinSettled node settled.status).restacking.erase node } : Aside) = _
  rw [hpin, hrestacking]

theorem aside_foldChecksRead (read : NodeChecksRead) : (s.foldChecksRead read).aside = s.aside := by
  unfold foldChecksRead
  cases read.verdict with
  | failed => rfl
  | _ =>
    simp only
    split_ifs <;> rfl

end RunState

/-! ## The node an edit introduced -/

/-- a node with what it consumes at a retired id taken out of it, or the node itself -/
inductive AsIntroduced (n : Node) : Node → Prop
  | same : AsIntroduced n n
  | without (retired : String) : AsIntroduced n (withoutConsumed retired n)

variable {host : Host} {graph graph' : Graph} {frontier : Frontier} {author : Author} {ops : List Operation}

theorem get_superseded {serde : NodeSerde} {id : String} {replacement : Node} {request : Operation} (hid : id ∈ graph.ids)
    (hnew : replacement.id ∉ graph.ids) (hrequest : ∀ g, apply serde g request = g) :
    (applyAll serde graph (supersede graph id replacement request).2).get replacement.id =
      some (withoutConsumed id replacement) := by
  have hne : replacement.id ≠ id := fun h => hnew (h ▸ hid)
  rw [applyAll_supersede id replacement hrequest, Graph.get_modifyAll, get_superseding hnew, if_neg hne, if_pos rfl,
    Option.map_some]

/-- the node an introducing command brings in: recorded coming in, and in the graph its records fold to -/
theorem get_introduced {command : Command} (h : compile host graph frontier author command = .ok (graph', ops))
    (hi : introduces command = true) :
    ∃ n retryOf m, .nodeAdded n retryOf ∈ ops ∧ (applyAll host.serde graph ops).get n.id = some m ∧ AsIntroduced n m := by
  obtain ⟨resolved, haccepted⟩ := compile_ok h
  rw [← introduces_resolves (resolves_of_ok haccepted.resolves)] at hi
  have hc := haccepted.compiles
  cases resolved with
  | add node =>
    obtain ⟨-, -, -, rfl⟩ := compileAdd_ok hc
    refine ⟨node, none, node, List.mem_cons_self, ?_, .same⟩
    rw [applyAll_added, Graph.get_insert, if_pos rfl]
  | retry id node =>
    obtain ⟨target, replacement, hget, -, -, hnew, hrep, heq⟩ := compileRetry_ok hc
    obtain ⟨rfl, rfl⟩ := Prod.ext_iff.mp heq
    obtain ⟨rest, hops, -⟩ := supersede_ops graph id replacement
      (.retryRequested id replacement.id (resetBy graph id))
    refine ⟨replacement, some id, _, hops ▸ List.mem_cons_of_mem _ List.mem_cons_self, ?_, .without id⟩
    exact get_superseded (Graph.mem_ids_of_get hget) ((retryReplacement_ok hrep).1 ▸ hnew) fun _ => rfl
  | rework id reason instruction comments title replacement =>
    obtain ⟨target, new, branch, hget, -, -, -, hid, heq⟩ := compileRework_ok hc
    obtain ⟨rfl, rfl⟩ := Prod.ext_iff.mp heq
    have hu := reworkId_ok hid
    simp only [used, Bool.or_eq_false_iff] at hu
    obtain ⟨rest, hops, -⟩ := supersede_ops graph id
      (reworked target { id, reason, instruction, comments, title, replacement } new branch)
      (.reworkRequested id new (Text.trim reason) (Text.trim instruction) comments (title.map Text.trim))
    refine ⟨_, some id, _, hops ▸ List.mem_cons_of_mem _ List.mem_cons_self, ?_, .without id⟩
    exact get_superseded (Graph.mem_ids_of_get hget) (Graph.contains_eq_false.mp hu.1.1.1) fun _ => rfl
  | _ => cases hi

end OnePipeline
