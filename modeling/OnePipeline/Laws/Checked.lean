/-
What a plan that passed its check is: the facts every later proof about an accepted graph starts from.

Results:
- `checkEdited_eq_ok`: the check is the conjunction of its rules, `EditedRules`;
- `EditedRules.nodup`, `EditedRules.node`: distinct ids that are not blank, and every node passing its own check;
- `EditedRules.consumes_dep`, `EditedRules.not_self`, `EditedRules.dep_local`: what a dependency and a consumed target
  name.
-/
import Mathlib.Tactic
import OnePipeline.Model.Validate

namespace OnePipeline

open Checks

variable {sib : Siblings}

/-! ## One node -/

theorem checkNode_consumes {node : Node} (h : checkNode sib node = .ok ()) {k : String} (hk : k ∈ node.consumes) :
    k ∈ node.deps := by
  simp only [checkNode, checkFields, bind_eq_ok, each_eq_ok, refuseIf_eq_ok, exists_unit, not_not] at h
  exact h.1.2.2.2.2.2.2.2.2 k (Std.ExtTreeMap.mem_keys.mpr hk)

/-! ## The nodes of a plan -/

theorem checkNodes_spec {nodes : List Node} {seen : PlanSeen} (h : checkNodes sib seen nodes = .ok ()) :
    (∀ n ∈ nodes, Text.isBlank n.id = false ∧ n.id ∉ seen.ids ∧ checkNode sib n = .ok ()) ∧
      (nodes.map Node.id).Nodup := by
  induction nodes generalizing seen with
  | nil => simp
  | cons n nodes ih =>
    simp only [checkNodes, bind_eq_ok, refuseIf_eq_ok, exists_unit, Bool.not_eq_true] at h
    obtain ⟨hblank, hnew, hnode, delivered, -, hrest⟩ := h
    obtain ⟨hall, hnd⟩ := ih hrest
    constructor
    · intro m hm
      rcases List.mem_cons.mp hm with rfl | hm
      · exact ⟨hblank, hnew, hnode⟩
      · obtain ⟨hb, hs, hc⟩ := hall m hm
        exact ⟨hb, fun hmem => hs (List.mem_cons_of_mem _ hmem), hc⟩
    · rw [List.map_cons, List.nodup_cons, List.mem_map]
      refine ⟨?_, hnd⟩
      rintro ⟨m, hm, hid⟩
      exact (hall m hm).2.1 (by simp [hid])

/-! ## A plan -/

/-- the rules an edited plan is held to -/
structure EditedRules (sib : Siblings) (plan : Plan) : Prop where
  version : plan.schemaVersion ∈ planSchemaVersionsRead
  concurrency : plan.concurrency ≠ 0
  goal : plan.goal.any Text.isBlank = false
  nodes : checkNodes sib {} plan.tasks = .ok ()
  edges : checkEdges sib plan = .ok ()
  deps : ∀ n ∈ plan.tasks, ∀ d ∈ n.deps, checkDep plan n d = .ok ()
  acyclic : findCycle plan.tasks = none
  stacking : ∃ bases, stackingBases sib (nodesById plan.tasks) = .ok bases

theorem checkEdited_eq_ok {plan : Plan} : checkEdited sib plan = .ok () ↔ EditedRules sib plan := by
  simp only [checkEdited, bind_eq_ok, refuseIf_eq_ok, refuseAs_eq_ok, each_eq_ok, exists_unit, not_not, pure_eq_ok,
    Option.map_eq_none_iff, Bool.not_eq_true, and_true]
  constructor
  · rintro ⟨hv, hc, hg, hn, he, hd, ha, hs⟩
    exact ⟨hv, hc, hg, hn, he, hd, ha, hs⟩
  · rintro ⟨hv, hc, hg, hn, he, hd, ha, hs⟩
    exact ⟨hv, hc, hg, hn, he, hd, ha, hs⟩

namespace EditedRules

variable {plan : Plan}

theorem nodup (h : EditedRules sib plan) : (plan.tasks.map Node.id).Nodup := (checkNodes_spec h.nodes).2

theorem node (h : EditedRules sib plan) {n : Node} (hn : n ∈ plan.tasks) : checkNode sib n = .ok () :=
  ((checkNodes_spec h.nodes).1 n hn).2.2

theorem id_not_blank (h : EditedRules sib plan) {n : Node} (hn : n ∈ plan.tasks) : Text.isBlank n.id = false :=
  ((checkNodes_spec h.nodes).1 n hn).1

theorem consumes_dep (h : EditedRules sib plan) {n : Node} (hn : n ∈ plan.tasks) {k : String} (hk : k ∈ n.consumes) :
    k ∈ n.deps := checkNode_consumes (h.node hn) hk

theorem not_self (h : EditedRules sib plan) {n : Node} (hn : n ∈ plan.tasks) : n.id ∉ n.deps := by
  intro hd
  have hdep := h.deps n hn n.id hd
  simp [checkDep] at hdep

/-- a dependency names a node of the plan, or another run's -/
theorem dep_local (h : EditedRules sib plan) {n : Node} (hn : n ∈ plan.tasks) {d : String} (hd : d ∈ n.deps) :
    isCrossDag d = true ∨ d ∈ plan.tasks.map Node.id := by
  have hdep := h.deps n hn d hd
  simp only [checkDep, checkLocalDep, bind_eq_ok, refuseIf_eq_ok, exists_unit] at hdep
  by_cases hc : isCrossDag d = true
  · exact Or.inl hc
  · rw [if_neg hc] at hdep
    simp only [bind_eq_ok, refuseIf_eq_ok, exists_unit, not_not] at hdep
    exact Or.inr hdep.2.2.1

end EditedRules

end OnePipeline
