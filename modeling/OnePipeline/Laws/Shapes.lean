/-
The operations an accepted command records, by shape: at most one node comes in with them, and the operations around it
touch edges, parks and sets alone.

Results:
- `compiled_shape`: the shapes;
- `supersede_ops`: what a supersession records.
-/
import Mathlib.Tactic
import OnePipeline.Laws.Compiled

namespace OnePipeline

open Checks

variable {host : Host} {graph graph' : Graph} {frontier : Frontier} {author : Author} {ops : List Operation}

/-- an operation that moves edges or takes a node out -/
def Operation.rewires : Operation → Bool
  | .edgeAdded .. | .edgeRemoved .. | .nodeDropped .. => true
  | _ => false

/-- an operation that brings no node in, releases none and attests none -/
def Operation.keepsNodes : Operation → Bool
  | .nodeAdded .. | .nodeRequeued .. | .humanAttested _ | .retryRequested .. | .reworkRequested .. => false
  | _ => true

theorem Operation.keepsNodes_of_rewires {op : Operation} (h : op.rewires = true) : op.keepsNodes = true := by
  cases op <;> first | rfl | cases h

theorem rewires_edgesInto {n : Node} {op : Operation} (h : op ∈ edgesInto n) : op.rewires = true := by
  obtain ⟨d, -, rfl⟩ := List.mem_map.mp h
  rfl

/-- a request that supersedes a node by another -/
inductive Supersedes (old new : String) : Operation → Prop
  | retry (reset : List String) : Supersedes old new (.retryRequested old new reset)
  | rework (reason instruction : String) (comments : List ReworkComment) (title : Option String) :
      Supersedes old new (.reworkRequested old new reason instruction comments title)

/-- the operations of a supersession after its request and its replacement -/
theorem supersede_ops (graph : Graph) (id : String) (replacement : Node) (request : Operation) :
    ∃ rest, (supersede graph id replacement request).2 = request :: .nodeAdded replacement (some id) :: rest ∧
      (∀ op ∈ rest, op.rewires = true) ∧ .nodeDropped id .detach ∈ rest := by
  have hfold (l : List String) (g : Graph) (acc : List Operation) :
      ∃ more, (l.foldl (rewireOne id replacement.id) (g, acc)).2 = acc ++ more ∧ ∀ op ∈ more, op.rewires = true := by
    induction l generalizing g acc with
    | nil => exact ⟨[], by simp, by simp⟩
    | cons d l ih =>
      obtain ⟨more, hmore, hall⟩ := ih (g.modify d (rewired id replacement.id))
        (acc ++ [.edgeRemoved id d, .edgeAdded replacement.id d ((g.get d).bind fun n => n.consumes[id]?)])
      refine ⟨_, by rw [List.foldl_cons, rewireOne, hmore, List.append_assoc], fun op hop => ?_⟩
      rcases List.mem_append.mp hop with h | h
      · rcases List.mem_cons.mp h with rfl | h
        · rfl
        · rw [List.mem_singleton.mp h]
          rfl
      · exact hall op h
  obtain ⟨more, hmore, hall⟩ := hfold (graph.dependentsOf id) (graph.insert replacement)
    (request :: .nodeAdded replacement (some id) :: edgesInto replacement)
  refine ⟨edgesInto replacement ++ more ++ [.nodeDropped id .detach], ?_, fun op hop => ?_, by simp⟩
  · rw [supersede, hmore]
    simp
  · rcases List.mem_append.mp hop with h | h
    · rcases List.mem_append.mp h with h | h
      · exact rewires_edgesInto h
      · exact hall op h
    · rw [List.mem_singleton.mp h]
      rfl

/-- the operations an accepted command records -/
inductive Shape (graph : Graph) : List Operation → Prop
  | added (n : Node) (new : n.id ∉ graph.ids) : Shape graph (.nodeAdded n none :: edgesInto n)
  | superseded (old : String) (n : Node) (request : Operation) (rest : List Operation) (present : old ∈ graph.ids)
      (new : n.id ∉ graph.ids) (asked : Supersedes old n.id request) (quiet : ∀ op ∈ rest, op.rewires = true)
      (dropped : .nodeDropped old .detach ∈ rest) :
      Shape graph (request :: .nodeAdded n (some old) :: rest)
  | requeued (node : String) (amend : Option Fields) (same : amends amend "id" = false) :
      Shape graph [.nodeRequeued node amend]
  | attested (reference : String) : Shape graph [.humanAttested reference]
  | quiet (ops : List Operation) (h : ∀ op ∈ ops, op.keepsNodes = true) : Shape graph ops

theorem shape_of_supersede {old : String} {n : Node} {request : Operation} (present : old ∈ graph.ids)
    (new : n.id ∉ graph.ids) (asked : Supersedes old n.id request) : Shape graph (supersede graph old n request).2 := by
  obtain ⟨rest, hops, hrest, hdropped⟩ := supersede_ops graph old n request
  exact hops ▸ .superseded old n request rest present new asked hrest hdropped

/-- a command that brings a node into the graph -/
def introduces : Command → Bool
  | .add _ | .retry .. | .rework .. => true
  | _ => false

theorem compileInto_shape {command : Command} (h : compileInto host graph frontier author command = .ok (graph', ops)) :
    Shape graph ops ∧ (introduces command = true ↔ ∃ n retryOf, .nodeAdded n retryOf ∈ ops) := by
  have hsimple {l : List Operation} (hl : ∀ op ∈ l, op.keepsNodes = true) :
      Shape graph l ∧ (false = true ↔ ∃ n retryOf, .nodeAdded n retryOf ∈ l) := by
    refine ⟨.quiet l hl, nofun, ?_⟩
    rintro ⟨n, retryOf, hin⟩
    cases hl _ hin
  cases command with
  | add node =>
    obtain ⟨hnew, -, -, rfl⟩ := compileAdd_ok h
    exact ⟨.added node hnew, fun _ => ⟨node, none, List.mem_cons_self⟩, fun _ => rfl⟩
  | retry id node =>
    obtain ⟨target, replacement, hget, -, -, hnew, hrep, heq⟩ := compileRetry_ok h
    obtain ⟨rfl, rfl⟩ := Prod.ext_iff.mp heq
    obtain ⟨rest, hops, -⟩ := supersede_ops graph id replacement
      (.retryRequested id replacement.id (resetBy graph id))
    refine ⟨shape_of_supersede (Graph.mem_ids_of_get hget) ((retryReplacement_ok hrep).1 ▸ hnew) (.retry _), fun _ => ?_, fun _ => rfl⟩
    exact ⟨replacement, some id, hops ▸ List.mem_cons_of_mem _ List.mem_cons_self⟩
  | rework id reason instruction comments title replacement =>
    obtain ⟨target, new, branch, hget, -, -, -, hid, heq⟩ := compileRework_ok h
    obtain ⟨rfl, rfl⟩ := Prod.ext_iff.mp heq
    have hnew : new ∉ graph.ids := by
      have hu := reworkId_ok hid
      simp only [used, Bool.or_eq_false_iff] at hu
      exact Graph.contains_eq_false.mp hu.1.1.1
    obtain ⟨rest, hops, -⟩ := supersede_ops graph id
      (reworked target { id, reason, instruction, comments, title, replacement } new branch)
      (.reworkRequested id new (Text.trim reason) (Text.trim instruction) comments (title.map Text.trim))
    refine ⟨shape_of_supersede (Graph.mem_ids_of_get hget) hnew (.rework ..), fun _ => ?_, fun _ => rfl⟩
    exact ⟨_, some id, hops ▸ List.mem_cons_of_mem _ List.mem_cons_self⟩
  | requeue id amend =>
    obtain ⟨node, amended, -, -, hid, -, -, rfl⟩ := compileRequeue_ok h
    refine ⟨.requeued id _ ?_, nofun, by simp⟩
    cases amend with
    | none => rfl
    | some a =>
      by_cases ha : (!a.isEmpty) = true
      · rw [Option.filter_some, if_pos ha]
        exact hid
      · rw [Option.filter_some, if_neg ha]
        rfl
  | attest reference =>
    obtain ⟨-, -, -, rfl⟩ := compileAttest_ok h
    exact ⟨.attested reference, nofun, by simp⟩
  | review => cases h
  | readjust => cases h
  | setNodeSets id sets =>
    obtain ⟨-, -, rfl⟩ := compileSetNodeSets_ok h
    exact hsimple (by simp [Operation.keepsNodes])
  | setRunNodeSets sets =>
    simp only [compileInto, bind_eq_ok, exists_unit, pure_eq_ok, Prod.mk.injEq] at h
    obtain ⟨-, -, rfl⟩ := h
    exact hsimple (by simp [Operation.keepsNodes])
  | drop id dependents reason =>
    obtain ⟨target, hget, hout⟩ := compileDrop_ok h
    refine hsimple ?_
    cases dependents with
    | drop =>
      rw [hout.2]
      simp [Operation.keepsNodes]
    | detach =>
      rw [hout.2]
      intro op hop
      rcases List.mem_append.mp hop with h | h
      · obtain ⟨d, -, rfl⟩ := List.mem_map.mp h
        rfl
      · rw [List.mem_singleton.mp h]
        rfl
  | reparent id deps =>
    obtain ⟨node, -, -, -, rfl⟩ := compileReparent_ok h
    refine hsimple fun op hop => ?_
    rcases List.mem_append.mp hop with h | h
    · rcases List.mem_append.mp h with h | h
      · obtain ⟨d, -, rfl⟩ := List.mem_map.mp h
        rfl
      · obtain ⟨d, -, rfl⟩ := List.mem_map.mp h
        rfl
    · rw [List.mem_singleton.mp h]
      rfl
  | cancel id reason =>
    obtain ⟨node, -, -, -, -, rfl⟩ := compileCancel_ok h
    exact hsimple (by simp [Operation.keepsNodes])
  | complete reason =>
    cases h
    exact hsimple (by simp [Operation.keepsNodes])
  | amend id text =>
    obtain ⟨-, -, -, rfl⟩ := compileAmend_ok h
    exact hsimple (by simp [Operation.keepsNodes])
  | note id addressee text criterion deliver persist seconds =>
    obtain ⟨-, -, rfl⟩ := compileNote_ok h
    exact hsimple (by simp)
  | withdrawNote envelope index reason =>
    cases h
    exact hsimple (by simp)
  | finding message blocking id =>
    obtain ⟨-, rfl⟩ := compileFinding_ok h
    exact hsimple (by simp [Operation.keepsNodes])
  | settle id outcome evidence landing release =>
    simp only [compileInto, bind_eq_ok] at h
    obtain ⟨stated, -, h⟩ := h
    obtain ⟨-, -, rfl⟩ := compileSettle_ok h
    refine hsimple ?_
    cases stated.landing? <;> simp [Operation.keepsNodes]
  | retitle id title reason =>
    obtain ⟨-, -, rfl⟩ := compileRetitle_ok h
    exact hsimple (by simp [Operation.keepsNodes])
  | decline id comments reason =>
    obtain ⟨-, rfl⟩ := compileDecline_ok h
    exact hsimple (by simp [Operation.keepsNodes])

theorem introduces_resolves {command resolved : Command} (h : Resolves command resolved) :
    introduces resolved = introduces command := by
  cases h <;> rfl

/-- **The shapes.** What an accepted command records; it records a node coming in when it introduces one. -/
theorem compiled_shape {command : Command} (h : compile host graph frontier author command = .ok (graph', ops)) :
    Shape graph ops ∧ (introduces command = true ↔ ∃ n retryOf, .nodeAdded n retryOf ∈ ops) := by
  obtain ⟨resolved, haccepted⟩ := compile_ok h
  rw [← introduces_resolves (resolves_of_ok haccepted.resolves)]
  exact compileInto_shape haccepted.compiles

end OnePipeline
