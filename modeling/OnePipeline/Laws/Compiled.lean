/-
What the compiler answers, one lemma an edit: the guards an accepted command passed, the graph it left and the
operations it recorded. Every later proof about an edit reads these and looks into no compiler again.

Results:
- `compile_ok`: an accepted command compiled against the graph, left a plan that passes its check, and was checked whole;
- `compileAdd_ok` … `compileDecline_ok`: each edit's own guards and effect.
-/
import Mathlib.Tactic
import OnePipeline.Laws.Checked
import OnePipeline.Model.Edits

namespace OnePipeline

open Checks

variable {host : Host} {graph graph' : Graph} {frontier : Frontier} {author : Author} {ops : List Operation}

/-! ## The compiler -/

/-- what an accepted command was held to -/
structure Accepted (host : Host) (graph : Graph) (frontier : Frontier) (author : Author) (command : Command)
    (resolved : Command) (graph' : Graph) (ops : List Operation) : Prop where
  resolves : resolveCommand host frontier command = .ok resolved
  compiles : compileInto host graph frontier author resolved = .ok (graph', ops)
  candidate : checkCandidate host frontier command graph' = .ok ()
  overrides : checkOverrides host frontier command graph' = .ok ()
  offered : offerNewTask host frontier command graph' = .ok ()

theorem compile_ok {command : Command} (h : compile host graph frontier author command = .ok (graph', ops)) :
    ∃ resolved, Accepted host graph frontier author command resolved graph' ops := by
  simp only [compile, bind_eq_ok, refuseIf_eq_ok, exists_unit, pure_eq_ok, Prod.exists] at h
  obtain ⟨-, resolved, hr, -, candidate, operations, hc, hcand, hover, hoff, heq⟩ := h
  obtain ⟨rfl, rfl⟩ := Prod.mk.inj heq
  exact ⟨resolved, hr, hc, hcand, hover, hoff⟩

/-- an edited graph is one its plan's rules accept -/
theorem Accepted.edited {command resolved : Command} (h : Accepted host graph frontier author command resolved graph' ops)
    (hl : leavesTheGraph command = false) :
    EditedRules host.toSiblings (editedPlan graph' (edgesAfter command frontier.exportEdges)) := by
  have hc := h.candidate
  simp only [checkCandidate, hl, Bool.false_eq_true, if_false, bind_eq_ok, exists_unit, mapError_eq_ok] at hc
  exact checkEdited_eq_ok.mp hc.2

/-! ## What resolving a command keeps -/

theorem resolveNodeGraphs_ok {base : String} {node node' : Node} (h : resolveNodeGraphs host base node = .ok node') :
    ∃ agentGraph steps, node' = { node with agentGraph, steps } := by
  simp only [resolveNodeGraphs, bind_eq_ok] at h
  obtain ⟨agentGraph, -, h⟩ := h
  cases hs : node.steps with
  | none =>
    simp only [hs, pure_eq_ok] at h
    exact ⟨agentGraph, none, by rw [← h, ← hs]⟩
  | some steps =>
    simp only [hs, bind_eq_ok, pure_eq_ok] at h
    obtain ⟨steps', -, h⟩ := h
    exact ⟨agentGraph, some steps', h.symm⟩

/-- an amendment's graph references resolve in place: no other field of it changes -/
theorem resolveAmendedGraphs_ok {id base : String} {amend amend' : Fields}
    (h : resolveAmendedGraphs host id base amend = .ok amend') {k : String} (hg : k ≠ "agent_graph") (hs : k ≠ "steps") :
    amend'[k]? = amend[k]? := by
  simp only [resolveAmendedGraphs, resolveAmendedGraph, bind_eq_ok] at h
  obtain ⟨a, ha, h⟩ := h
  have hfirst : a[k]? = amend[k]? := by
    cases hv : amend["agent_graph"]? with
    | none =>
      simp only [hv, Except.ok.injEq] at ha
      rw [ha]
    | some v =>
      simp only [hv, map_eq_ok] at ha
      obtain ⟨w, -, rfl⟩ := ha
      simp [Std.ExtTreeMap.getElem?_insert, hg.symm]
  rw [← hfirst]
  split at h
  · simp only [map_eq_ok] at h
    obtain ⟨w, -, rfl⟩ := h
    simp [Std.ExtTreeMap.getElem?_insert, hs.symm]
  · rw [Except.ok.inj h]

/-- a resolved command differs in the graphs its nodes and its amendment name -/
inductive Resolves : Command → Command → Prop
  | same (c : Command) : Resolves c c
  | add (node : Node) (agentGraph : Option String) (steps : Option (List Step)) :
      Resolves (.add node) (.add { node with agentGraph, steps })
  | retry (id : String) (node : Node) (agentGraph : Option String) (steps : Option (List Step)) :
      Resolves (.retry id node) (.retry id { node with agentGraph, steps })
  | requeue (id : String) (amend amend' : Fields)
      (keeps : ∀ k, k ≠ "agent_graph" → k ≠ "steps" → amend'[k]? = amend[k]?) :
      Resolves (.requeue id (some amend)) (.requeue id (some amend'))

theorem resolves_of_ok {command resolved : Command} (h : resolveCommand host frontier command = .ok resolved) :
    Resolves command resolved := by
  unfold resolveCommand at h
  cases hv : frontier.graphValidation with
  | none =>
    rw [hv] at h
    exact Except.ok.inj h ▸ .same command
  | some context =>
    simp only [hv] at h
    split at h
    · simp only [mapError_eq_ok, map_eq_ok] at h
      obtain ⟨node', hn, rfl⟩ := h
      obtain ⟨g, s, rfl⟩ := resolveNodeGraphs_ok hn
      exact .add _ g s
    · simp only [mapError_eq_ok, map_eq_ok] at h
      obtain ⟨node', hn, rfl⟩ := h
      obtain ⟨g, s, rfl⟩ := resolveNodeGraphs_ok hn
      exact .retry _ _ g s
    · simp only [map_eq_ok] at h
      obtain ⟨amend', ha, rfl⟩ := h
      exact .requeue _ _ _ fun k hg hs => resolveAmendedGraphs_ok ha hg hs
    · exact Except.ok.inj h ▸ .same _

/-! ## Each edit -/

theorem compileSetNodeSets_ok {id : String} {sets : List String}
    (h : compileSetNodeSets graph frontier id sets = .ok (graph', ops)) :
    id ∈ graph.ids ∧ graph' = graph.modify id (fun n => { n with sets }) ∧ ops = [.nodeSetsReplaced id sets] := by
  simp only [compileSetNodeSets, bind_eq_ok, refuseIf_eq_ok, exists_unit, pure_eq_ok, Prod.mk.injEq, Bool.not_eq_false,
    Graph.contains_iff] at h
  exact ⟨h.1, h.2.2.1.symm, h.2.2.2.symm⟩

theorem compileAdd_ok {node : Node} (h : compileAdd host graph node = .ok (graph', ops)) :
    node.id ∉ graph.ids ∧ checkNode host.toSiblings node = .ok () ∧ graph' = graph.insert node ∧
      ops = .nodeAdded node none :: edgesInto node := by
  simp only [compileAdd, validateNode, bind_eq_ok, refuseIf_eq_ok, exists_unit, pure_eq_ok, Prod.mk.injEq, mapError_eq_ok,
    Graph.contains_iff] at h
  exact ⟨h.1, h.2.2.1, h.2.2.2.2.1.symm, h.2.2.2.2.2.symm⟩

theorem compileReparent_ok {id : String} {deps : List String}
    (h : compileReparent graph frontier id deps = .ok (graph', ops)) :
    ∃ node, graph.get id = some node ∧ (id ∈ frontier.recorded → awaitsAttestation node frontier = true) ∧
      graph' = graph.modify id (reparented deps) ∧
      ops = node.deps.map (fun dep => .edgeRemoved dep id) ++ deps.map (fun dep => .edgeAdded dep id node.consumes[dep]?) ++
        [.reparent id node.deps deps] := by
  simp only [compileReparent, bind_eq_ok, need_eq_ok, refuseIf_eq_ok, exists_unit, pure_eq_ok, Prod.mk.injEq, not_and,
    Bool.not_eq_false] at h
  obtain ⟨node, hg, hr, hgraph, hops⟩ := h
  exact ⟨node, hg, hr, hgraph.symm, hops.symm⟩

theorem compileDrop_ok {id : String} {dependents : Dependents} {reason : Option String}
    (h : compileDrop graph frontier id dependents reason = .ok (graph', ops)) :
    ∃ target, graph.get id = some target ∧
      match dependents with
      | .drop =>
        graph' = (asSet (droppedWith graph id)).foldl Graph.remove graph ∧
          ops = (asSet (droppedWith graph id)).map fun d => .nodeDropped d .drop
      | .detach =>
        graph' = ((graph.dependentsOf id).foldl (fun g d => g.modify d (detached id)) graph).remove id ∧
          ops = (graph.dependentsOf id).map (fun d => .edgeRemoved id d) ++ [.nodeDropped id .detach] := by
  simp only [compileDrop, bind_eq_ok, need_eq_ok, refuseIf_eq_ok, exists_unit] at h
  obtain ⟨-, target, hg, -, h⟩ := h
  refine ⟨target, hg, ?_⟩
  cases dependents with
  | drop =>
    simp only [pure_eq_ok, Prod.mk.injEq] at h
    exact ⟨h.1.symm, h.2.symm⟩
  | detach =>
    simp only [pure_eq_ok, Prod.mk.injEq] at h
    exact ⟨h.1.symm, h.2.symm⟩

/-- the replacement of a retry: the node it stated, but for what it takes over from the one it supersedes -/
theorem retryReplacement_ok {target node replacement : Node}
    (h : retryReplacement host frontier target node = .ok replacement) :
    replacement.id = node.id ∧ replacement.parked = node.parked ∧
      replacement.consumes = (if node.deps = [] then target.consumes else node.consumes) ∧
      replacement.deps = (if node.deps = [] then target.deps else node.deps) ∧
      ∀ k ∈ node.consumes, k ∈ node.deps := by
  simp only [retryReplacement, validateRetryPin, validateNode, bind_eq_ok, exists_unit, pure_eq_ok, mapError_eq_ok] at h
  obtain ⟨n, hn, hcheck, -, rfl⟩ := h
  have hnode : n = node := by
    split at hn
    · split_ifs at hn
      exact (Except.ok.inj hn).symm
    · exact (Except.ok.inj hn).symm
  subst hnode
  have hpin (m : Node) : (pinRetryBranch m).id = m.id ∧ (pinRetryBranch m).parked = m.parked ∧
      (pinRetryBranch m).consumes = m.consumes ∧ (pinRetryBranch m).deps = m.deps := by
    unfold pinRetryBranch
    split
    · split_ifs <;> exact ⟨rfl, rfl, rfl, rfl⟩
    · exact ⟨rfl, rfl, rfl, rfl⟩
  have hinh (m t : Node) : (inheritPreservedBranch m t).id = m.id ∧ (inheritPreservedBranch m t).parked = m.parked ∧
      (inheritPreservedBranch m t).consumes = m.consumes ∧ (inheritPreservedBranch m t).deps = m.deps := by
    unfold inheritPreservedBranch
    split_ifs <;> exact ⟨rfl, rfl, rfl, rfl⟩
  generalize hm : (if (frontier.exportEdges.any fun edge => edge.to = target.id) = true then n
    else pinRetryBranch (inheritPreservedBranch n target)) = m at hcheck
  have hkeep : m.id = n.id ∧ m.parked = n.parked ∧ m.consumes = n.consumes ∧ m.deps = n.deps := by
    rw [← hm]
    split_ifs
    · exact ⟨rfl, rfl, rfl, rfl⟩
    · obtain ⟨h1, h2, h3, h4⟩ := hpin (inheritPreservedBranch n target)
      obtain ⟨g1, g2, g3, g4⟩ := hinh n target
      exact ⟨h1.trans g1, h2.trans g2, h3.trans g3, h4.trans g4⟩
  obtain ⟨hid, hpark, hcons, hdeps⟩ := hkeep
  refine ⟨hid, hpark, ?_, ?_, fun k hk => ?_⟩
  · simp only [inherited, hdeps, hcons]
  · simp only [inherited, hdeps]
  · rw [← hdeps]
    exact checkNode_consumes hcheck (hcons ▸ hk)

theorem compileRetry_ok {id : String} {node : Node}
    (h : compileRetry host graph frontier id node = .ok (graph', ops)) :
    ∃ target replacement, graph.get id = some target ∧
      frontier.recorded[id]? ∈ [some NodeStatus.running, some .failed, some .cancelled] ∧
      Text.isBlank node.id = false ∧ node.id ∉ graph.ids ∧
      retryReplacement host frontier target node = .ok replacement ∧
      (graph', ops) = supersede graph id replacement (.retryRequested id replacement.id (resetBy graph id)) := by
  simp only [compileRetry, bind_eq_ok, need_eq_ok, refuseIf_eq_ok, exists_unit, pure_eq_ok, not_not, Bool.not_eq_true,
    Graph.contains_eq_false] at h
  obtain ⟨target, hg, hrec, hblank, hnew, -, replacement, hrep, heq⟩ := h
  exact ⟨target, replacement, hg, hrec, hblank, hnew, hrep, heq.symm⟩

theorem compileCancel_ok {id : String} {reason : Option String}
    (h : compileCancel graph frontier author id reason = .ok (graph', ops)) :
    ∃ node, graph.get id = some node ∧ node.parked = false ∧
      (frontier.recorded[id]? = none ∨ frontier.recorded[id]? = some .running) ∧
      graph' = graph.modify id (fun n => { n with parked := true }) ∧ ops = [.nodeParked id author reason] := by
  simp only [compileCancel, bind_eq_ok, need_eq_ok, refuseIf_eq_ok, refuseAs_eq_ok, exists_unit, pure_eq_ok,
    Prod.mk.injEq, Bool.not_eq_true] at h
  obtain ⟨-, node, hg, hp, hrec, hgraph, hops⟩ := h
  refine ⟨node, hg, hp, ?_, hgraph.symm, hops.symm⟩
  unfold uncancellable at hrec
  split at hrec
  · exact Or.inl (by assumption)
  · exact Or.inr (by assumption)
  · cases hrec
  · cases hrec

/-- the object a requeue reads its node back from -/
def requeueObject (serde : NodeSerde) (node : Node) (amend : Option Fields) : Fields :=
  (merge (serde.toObject node) amend).erase "parked"

theorem compileRequeue_ok {id : String} {amend : Option Fields}
    (h : compileRequeue host graph frontier author id amend = .ok (graph', ops)) :
    ∃ node amended, graph.get id = some node ∧ node.parked = true ∧ amends amend "id" = false ∧
      host.serde.ofObject (requeueObject host.serde node amend) = .ok amended ∧
      graph' = graph.insert { amended with classification := amended.classification.strictest node.classification } ∧
      ops = [.nodeRequeued id (amend.filter fun a => !a.isEmpty)] := by
  simp only [compileRequeue, bind_eq_ok, need_eq_ok, refuseIf_eq_ok, refuseAs_eq_ok, mapError_eq_ok, exists_unit,
    pure_eq_ok, Prod.mk.injEq, Bool.not_eq_false, not_not] at h
  obtain ⟨node, hg, hp, -, -, hforb, -, -, -, amended, ham, -, -, hgraph, hops⟩ := h
  refine ⟨node, amended, hg, hp, ?_, ham, hgraph.symm, hops.symm⟩
  rw [List.filter_eq_nil_iff] at hforb
  simpa using hforb "id" (by simp)

theorem compileSettle_ok {id : String} {outcome : SettleOutcome} {evidence : String} {stated : StatedAt}
    (h : compileSettle graph frontier id outcome evidence stated = .ok (graph', ops)) :
    id ∈ graph.ids ∧ graph' = graph.modify id (fun n => { n with parked := false }) ∧
      ops = .settledFromEvidence id outcome evidence ::
        (stated.landing?.map fun l => Operation.landingFromEvidence id l.reference).toList := by
  simp only [compileSettle, bind_eq_ok, refuseIf_eq_ok, refuseAs_eq_ok, exists_unit, pure_eq_ok, Prod.mk.injEq,
    Bool.not_eq_false, Graph.contains_iff] at h
  exact ⟨h.2.1, h.2.2.2.2.1.symm, h.2.2.2.2.2.symm⟩

theorem compileFinding_ok {id : Option String} {message : String} {blocking : Bool}
    (h : compileFinding graph id message blocking = .ok (graph', ops)) :
    graph' = graph ∧ ops = [.findingRaised id message blocking] := by
  simp only [compileFinding, bind_eq_ok, refuseIf_eq_ok, refuseAs_eq_ok, exists_unit, pure_eq_ok, Prod.mk.injEq] at h
  exact ⟨h.2.2.1.symm, h.2.2.2.symm⟩

theorem compileAttest_ok {reference : String} (h : compileAttest graph frontier reference = .ok (graph', ops)) :
    reference ∉ frontier.attestations ∧ frontier.recorded[reference]? ∈ [some NodeStatus.waiting, some .failed] ∧
      graph' = graph ∧ ops = [.humanAttested reference] := by
  simp only [compileAttest, bind_eq_ok, refuseIf_eq_ok, exists_unit, pure_eq_ok, Prod.mk.injEq, not_not] at h
  exact ⟨h.1, h.2.1, h.2.2.1.symm, h.2.2.2.symm⟩

theorem compileNote_ok {id : String} {reach : Except String Reach}
    (h : compileNote graph frontier id reach = .ok (graph', ops)) : id ∈ graph.ids ∧ graph' = graph ∧ ops = [] := by
  simp only [compileNote, bind_eq_ok, refuseIf_eq_ok, exists_unit, pure_eq_ok, Prod.mk.injEq, Bool.not_eq_false,
    Graph.contains_iff] at h
  obtain ⟨hid, -, -, -, hgraph, hops⟩ := h
  exact ⟨hid, hgraph.symm, hops.symm⟩

theorem compileAmend_ok {id text : String} (h : compileAmend graph frontier id text = .ok (graph', ops)) :
    id ∈ graph.ids ∧ Text.isBlank text = false ∧ graph' = graph.modify id (fun n => { n with amendment := some text }) ∧
      ops = [.taskAmended id text] := by
  simp only [compileAmend, bind_eq_ok, refuseIf_eq_ok, exists_unit, pure_eq_ok, Prod.mk.injEq, Bool.not_eq_false,
    Bool.not_eq_true, Graph.contains_iff] at h
  exact ⟨h.1, h.2.1, h.2.2.2.1.symm, h.2.2.2.2.symm⟩

theorem reworkId_ok {rework : Rework} {id : String} (h : reworkId graph frontier rework = .ok id) :
    used graph frontier id = false := by
  unfold reworkId at h
  split at h
  · simp only [bind_eq_ok, refuseIf_eq_ok, exists_unit, pure_eq_ok, Bool.not_eq_true] at h
    rw [← h.2.2]
    exact h.2.1
  · rw [need_eq_ok] at h
    have hfree (root : String) (fuel n : ℕ) (hf : freeFrom (used graph frontier) root fuel n = some id) :
        used graph frontier id = false := by
      induction fuel generalizing n with
      | zero => cases hf
      | succ fuel ih =>
        unfold freeFrom at hf
        simp only at hf
        split_ifs at hf with hu
        · exact ih (n + 1) hf
        · rw [← Option.some.inj hf]
          simpa using hu
    exact hfree _ _ _ h

theorem compileRework_ok {rework : Rework} (h : compileRework host graph frontier rework = .ok (graph', ops)) :
    ∃ target id branch, graph.get rework.id = some target ∧ frontier.recorded[rework.id]? = some .done ∧
      frontier.landings[rework.id]? ≠ some .landed ∧ frontier.branches[rework.id]? = some branch ∧
      reworkId graph frontier rework = .ok id ∧
      (graph', ops) = supersede graph rework.id (reworked target rework id branch)
        (.reworkRequested rework.id id (Text.trim rework.reason) (Text.trim rework.instruction) rework.comments
          (rework.title.map Text.trim)) := by
  simp only [compileRework, bind_eq_ok, need_eq_ok, refuseIf_eq_ok, refuseAs_eq_ok, exists_unit, pure_eq_ok,
    not_not] at h
  obtain ⟨target, hg, -, -, hdone, hland, -, branch, hb, -, -, -, id, hid, -, heq⟩ := h
  exact ⟨target, id, branch, hg, hdone, hland, hb, hid, heq.symm⟩

theorem compileRetitle_ok {id title reason : String}
    (h : compileRetitle host graph frontier id title reason = .ok (graph', ops)) :
    id ∈ graph.ids ∧ graph' = graph.modify id (fun n => { n with title := some (Text.trim title) }) ∧
      ops = [.retitled id none (Text.trim title) (Text.trim reason)] := by
  simp only [compileRetitle, bind_eq_ok, need_eq_ok, refuseIf_eq_ok, mapError_eq_ok, exists_unit, pure_eq_ok,
    Prod.mk.injEq] at h
  obtain ⟨node, hg, -, -, -, -, hgraph, hops⟩ := h
  exact ⟨Graph.mem_ids_of_get hg, hgraph.symm, hops.symm⟩

theorem compileDecline_ok {id : String} {comments : List ReworkComment} {reason : String}
    (h : compileDecline host graph frontier id comments reason = .ok (graph', ops)) :
    graph' = graph ∧ ops = [.declineApplied id comments reason []] := by
  simp only [compileDecline, bind_eq_ok, need_eq_ok, refuseIf_eq_ok, exists_unit, pure_eq_ok, Prod.mk.injEq] at h
  obtain ⟨node, -, -, -, -, -, hgraph, hops⟩ := h
  exact ⟨hgraph.symm, hops.symm⟩

end OnePipeline
