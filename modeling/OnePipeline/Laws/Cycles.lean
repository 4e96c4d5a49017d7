/-
The cycle check of a plan, against the relation it searches.

Results, for nodes with distinct ids:
- `edge_iff`: a child of the search is a dependency inside the graph;
- `dependsOn_of_cycle`, `isChain_of_isCycle`: no dangling dependency lies on a cycle;
- `cycle_check_exact`: the loop ends, finds a path exactly when some node depends on itself, and the path is a cycle.
-/
import Mathlib.Tactic
import OnePipeline.Model.Edits

namespace OnePipeline

open Relation

/-- `a` is a node of the plan that depends on `b`, another one; a dependency on another run is not an edge -/
def DependsOn (nodes : List Node) (a b : String) : Prop :=
  (∃ n ∈ nodes, n.id = a ∧ b ∈ n.deps ∧ isCrossDag b = false) ∧ b ∈ nodes.map Node.id

variable {nodes : List Node} {a b : String}

theorem mem_localDeps {n : Node} {d : String} : d ∈ localDeps n ↔ d ∈ n.deps ∧ isCrossDag d = false := by
  simp [localDeps]

/-- distinct ids leave one node the last of its id -/
theorem find?_reverse_of_mem (hids : (nodes.map Node.id).Nodup) {n : Node} (hn : n ∈ nodes) :
    nodes.reverse.find? (fun m => m.id = n.id) = some n := by
  obtain ⟨m, hm⟩ : ∃ m, nodes.reverse.find? (fun m => m.id = n.id) = some m :=
    Option.isSome_iff_exists.mp (List.find?_isSome.mpr ⟨n, List.mem_reverse.mpr hn, by simp⟩)
  have hid : m.id = n.id := by simpa using List.find?_some hm
  have hmem : m ∈ nodes := List.mem_reverse.mp (List.mem_of_find?_eq_some hm)
  rw [hm, List.inj_on_of_nodup_map hids hmem hn hid]

/-! ## The relation searched -/

theorem edge_iff (hids : (nodes.map Node.id).Nodup) :
    Dfs.Edge (childrenOf nodes) a b ↔ ∃ n ∈ nodes, n.id = a ∧ b ∈ n.deps ∧ isCrossDag b = false := by
  rw [Dfs.Edge, childrenOf]
  constructor
  · intro h
    cases hf : nodes.reverse.find? fun n => n.id = a with
    | none => simp [hf] at h
    | some n =>
      rw [hf, Option.map_some, Option.getD_some, mem_localDeps] at h
      exact ⟨n, List.mem_reverse.mp (List.mem_of_find?_eq_some hf), by simpa using List.find?_some hf, h⟩
  · rintro ⟨n, hn, rfl, h⟩
    rw [find?_reverse_of_mem hids hn, Option.map_some, Option.getD_some, mem_localDeps]
    exact h

theorem edge_of_dependsOn (hids : (nodes.map Node.id).Nodup) (h : DependsOn nodes a b) :
    Dfs.Edge (childrenOf nodes) a b := (edge_iff hids).mpr h.1

theorem inPlan_of_edge (hids : (nodes.map Node.id).Nodup) (h : Dfs.Edge (childrenOf nodes) a b) :
    a ∈ nodes.map Node.id := by
  obtain ⟨n, hn, hid, -⟩ := (edge_iff hids).mp h
  exact List.mem_map.mpr ⟨n, hn, hid⟩

theorem dependsOn_of_path (hids : (nodes.map Node.id).Nodup) (h : TransGen (Dfs.Edge (childrenOf nodes)) a b)
    (hb : b ∈ nodes.map Node.id) : TransGen (DependsOn nodes) a b := by
  induction h with
  | single h => exact .single ⟨(edge_iff hids).mp h, hb⟩
  | tail _ h ih => exact (ih (inPlan_of_edge hids h)).tail ⟨(edge_iff hids).mp h, hb⟩

/-- every node of a cycle has a dependency of its own, so a dangling one is on none -/
theorem dependsOn_of_cycle (hids : (nodes.map Node.id).Nodup) :
    TransGen (Dfs.Edge (childrenOf nodes)) a a ↔ TransGen (DependsOn nodes) a a := by
  constructor
  · intro h
    obtain ⟨c, hac, -⟩ := TransGen.head'_iff.mp h
    exact dependsOn_of_path hids h (inPlan_of_edge hids hac)
  · exact TransGen.mono (fun _ _ h => edge_of_dependsOn hids h) a a

theorem isChain_of_isCycle (hids : (nodes.map Node.id).Nodup) {cycle : List String}
    (h : Dfs.IsCycle (childrenOf nodes) cycle) : cycle.IsChain (DependsOn nodes) := by
  refine h.chain.imp_of_mem_imp fun x y _ hy hxy => ⟨(edge_iff hids).mp hxy, ?_⟩
  obtain ⟨z, hyz⟩ := h.exists_edge hy
  exact inPlan_of_edge hids hyz

theorem childrenOf_mem_searchSupport (v : String) : ∀ c ∈ childrenOf nodes v, c ∈ searchSupport nodes := by
  intro c hc
  rw [childrenOf] at hc
  cases hf : nodes.reverse.find? fun n => n.id = v with
  | none => simp [hf] at hc
  | some n =>
    rw [hf, Option.map_some, Option.getD_some] at hc
    have hn : n ∈ nodes := List.mem_reverse.mp (List.mem_of_find?_eq_some hf)
    exact List.mem_append_right _ (List.mem_flatMap.mpr ⟨n, hn, hc⟩)

/-! ## The check -/

/-- what the loop's end is rendered as -/
def rendered : Except (List String) (String → Option Dfs.Mark) → Option String
  | .error cycle => some (" -> ".intercalate cycle)
  | .ok _ => none

/-- **The cycle check.** Its loop, with no bound on its turns, ends with what it answers; it answers a path exactly when
some node depends on itself along dependencies inside the plan; and the path goes along dependencies of the plan, from
a node back to that node. -/
theorem cycle_check_exact (nodes : List Node) (hids : (nodes.map Node.id).Nodup) :
    (∃ out, Dfs.Searches (childrenOf nodes) (nodes.map Node.id) (fun _ => none) out ∧ findCycle nodes = rendered out) ∧
      ((findCycle nodes).isSome ↔ ∃ a, TransGen (DependsOn nodes) a a) ∧
      ∀ path, findCycle nodes = some path → ∃ ids : List String, path = " -> ".intercalate ids ∧ 2 ≤ ids.length ∧
        ids.head? = ids.getLast? ∧ ids.IsChain (DependsOn nodes) := by
  have hroots (r : String) (hr : r ∈ nodes.map Node.id) : r ∈ searchSupport nodes := List.mem_append_left _ hr
  refine ⟨?_, ?_, ?_⟩
  · obtain ⟨out, hs, he⟩ := Dfs.findCycle_searches childrenOf_mem_searchSupport hroots
    refine ⟨out, hs, ?_⟩
    rw [findCycle, he]
    cases out <;> rfl
  · have hnone := Dfs.findCycle_eq_none childrenOf_mem_searchSupport hroots
    rw [findCycle, Option.isSome_map, Option.isSome_iff_ne_none, ne_eq, hnone]
    constructor
    · intro h
      simp only [Dfs.AcyclicFrom] at h
      push Not at h
      obtain ⟨r, -, w, -, hw⟩ := h
      exact ⟨w, (dependsOn_of_cycle hids).mp hw⟩
    · rintro ⟨a, ha⟩ hall
      have hcycle := (dependsOn_of_cycle hids).mpr ha
      obtain ⟨c, hac, -⟩ := TransGen.head'_iff.mp hcycle
      exact hall a (inPlan_of_edge hids hac) a .refl hcycle
  · intro path hpath
    obtain ⟨cycle, hc, rfl⟩ := Option.map_eq_some_iff.mp hpath
    have hcycle := Dfs.findCycle_some childrenOf_mem_searchSupport hroots hc
    exact ⟨cycle, rfl, hcycle.length, hcycle.back, isChain_of_isCycle hids hcycle⟩

/-- `a` leads into a ring it is not on; one of its dependencies is in no plan, one in another run -/
def ring : List Node := [.direct "a" ["gone", "other/x", "b"], .direct "b" ["c"], .direct "c" ["d", "b"], .direct "d" []]

theorem cycle_check_exact_ring :
    findCycle ring = some "b -> c -> b" ∧ ∃ a, TransGen (DependsOn ring) a a :=
  ⟨by decide, (cycle_check_exact ring (by decide)).2.1.mp (by decide)⟩

end OnePipeline
