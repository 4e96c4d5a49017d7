/-
A landing node's placement: which of its dependencies' unlanded work it stands on.

A dependency absorbed into another node's draft stands on that node's branch. An absorber that was reworked or retried has left the
graph, and its work is its replacement's; placement follows the absorptions alone.

Results:
- `mem_ancestors`: the nodes a node depends on;
- `mem_candidates`, `mem_kept`: the stack parents are the topmost of the nodes absorptions lead to;
- `placement_refused`: when a record cannot be placed on;
- `placement_carries`: when a placement carries all the unlanded work its node depends on;
- `superseded_absorber_dropped`: a draft above an absorbed one, its absorber reworked since.
-/
import Mathlib.Tactic
import OnePipeline.Core.Topmost
import OnePipeline.Laws.Reworked
import OnePipeline.Model.Placement

namespace OnePipeline

open Checks Relation Tops

/-! ## Dependencies -/

section Ancestors

variable {graph : Graph} {a b id : String}

/-- a node depends on another of its graph -/
def Graph.DependsOn (graph : Graph) (a b : String) : Prop := ∃ n, graph.get a = some n ∧ b ∈ n.deps ∧ b ∈ graph.ids

/-- the work of one node is on the branch of another, which depends on it directly or not -/
def Graph.Below (graph : Graph) (a b : String) : Prop := TransGen graph.DependsOn b a

/-- what a worklist over the dependencies inside a graph drains from some of its nodes -/
theorem mem_drain_deps {pending : List String} (hp : ∀ v ∈ pending, v ∈ graph.ids) :
    a ∈ Worklist.drain (fun id => (((graph.get id).map Node.deps).getD []).filter fun dep => dep ∈ graph.ids)
      (Worklist.fuelOf graph.ids pending (graph.iter.map fun n => n.deps.length).sum) pending [] ↔
        ∃ p ∈ pending, ReflTransGen graph.DependsOn p a := by
  let deps (id : String) : List String := (((graph.get id).map Node.deps).getD []).filter fun dep => dep ∈ graph.ids
  have hdeps (a b : String) : b ∈ deps a ↔ graph.DependsOn a b := by
    simp only [deps, List.mem_filter, decide_eq_true_eq, Graph.DependsOn]
    cases graph.get a with
    | none => simp
    | some n => simp
  have hin (v w : String) (hw : w ∈ deps v) : w ∈ graph.ids := by
    obtain ⟨-, -, -, h⟩ := (hdeps v w).mp hw
    exact h
  have hwidth (v : String) : (deps v).length ≤ (graph.iter.map fun n => n.deps.length).sum := by
    refine (List.length_filter_le _ _).trans ?_
    cases hv : graph.get v with
    | none => exact Nat.zero_le _
    | some n => exact List.single_le_sum (fun _ _ => Nat.zero_le _) _ (List.mem_map_of_mem (Graph.get_eq_some.mp hv).1)
  have hmem := Worklist.mem_drain_iff (v := a) (fun v _ => hin v) (fun v _ => hwidth v) hp
  have hrel : (fun a b => b ∈ deps a) = graph.DependsOn := by
    funext a b
    exact propext (hdeps a b)
  rw [hrel] at hmem
  exact hmem

/-- **Ancestors.** -/
theorem mem_ancestors : a ∈ ancestors graph id ↔ graph.Below a id := by
  have hdeps (b : String) : b ∈ ((((graph.get id).map Node.deps).getD []).filter fun dep => dep ∈ graph.ids) ↔ graph.DependsOn id b := by
    simp only [List.mem_filter, decide_eq_true_eq, Graph.DependsOn]
    cases graph.get id with
    | none => simp
    | some n => simp
  have hin (v : String) (hv : v ∈ (((graph.get id).map Node.deps).getD []).filter fun dep => dep ∈ graph.ids) : v ∈ graph.ids := by
    obtain ⟨-, -, -, h⟩ := (hdeps v).mp hv
    exact h
  refine (mem_drain_deps hin).trans ⟨?_, fun h => ?_⟩
  · rintro ⟨p, hp, hr⟩
    exact .head' ((hdeps p).mp hp) hr
  · obtain ⟨p, hp, hr⟩ := TransGen.head'_iff.mp h
    exact ⟨p, (hdeps p).mpr hp, hr⟩

/-- in a graph without a cycle -/
theorem strict_below (hacyclic : ∀ a, ¬TransGen graph.DependsOn a a) : IsStrictOrder String graph.Below :=
  { irrefl := hacyclic, trans := fun _ _ _ hab hbc => hbc.trans hab }

end Ancestors

namespace StackedRun

variable {s : StackedRun} {statuses : StrMap NodeStatus} {same : String → String → Bool} {repo id : String} {node : Node} {plan : String}

/-! ## Stack parents -/

section

variable (s statuses same repo)

/-- a node done and unlanded, on record with a branch, in a repository -/
structure HoldsWork (id : String) : Prop where
  done : statuses[id]? = some .done
  unlanded : s.landings[id]? = some .unlanded
  branched : id ∈ s.branches
  within : ∃ n r, s.graph.get id = some n ∧ n.repo = some r ∧ (r = repo ∨ same repo r = true)

/-- the nodes that absorptions lead to from a list of dependencies, holding unlanded work -/
def Candidates (deps : List String) : Set String := fun id => s.HoldsWork statuses same repo id ∧ ∃ dep ∈ deps, s.standsOn dep = id

end

theorem standsFor_iff {parent : Node} (hget : s.graph.get id = some parent) :
    s.standsFor statuses same repo parent = true ↔ s.HoldsWork statuses same repo id := by
  obtain rfl := Graph.id_of_get hget
  unfold standsFor
  cases hr : parent.repo with
  | none =>
    refine iff_of_false (by simp) fun h => ?_
    obtain ⟨n, r, hn, hrepo, -⟩ := h.within
    rw [hget, Option.some.injEq] at hn
    rw [← hn, hr] at hrepo
    cases hrepo
  | some r =>
    simp only []
    split_ifs with hnot
    · refine iff_of_false (by simp) fun h => ?_
      rcases hnot with hd | hu | hb
      · exact hd h.done
      · exact hu h.unlanded
      · exact hb h.branched
    · push Not at hnot
      obtain ⟨hd, hu, hb⟩ := hnot
      rw [Bool.or_eq_true, decide_eq_true_eq]
      refine ⟨fun hsame => ⟨hd, hu, hb, parent, r, hget, hr, hsame⟩, fun h => ?_⟩
      obtain ⟨n, r', hn, hrepo, hsame⟩ := h.within
      rw [hget, Option.some.injEq] at hn
      rw [← hn, hr, Option.some.injEq] at hrepo
      exact hrepo ▸ hsame

/-- one dependency -/
theorem mem_addCandidate {l : List String} {dep : String} :
    id ∈ s.addCandidate statuses same repo l dep ↔ id ∈ l ∨ (s.HoldsWork statuses same repo id ∧ s.standsOn dep = id) := by
  unfold addCandidate
  cases hget : s.graph.get (s.standsOn dep) with
  | none =>
    refine ⟨.inl, fun h => h.resolve_right ?_⟩
    rintro ⟨hwork, rfl⟩
    obtain ⟨n, r, hn, -⟩ := hwork.within
    rw [hget] at hn
    cases hn
  | some parent =>
    have hid := Graph.id_of_get hget
    simp only [hid]
    split_ifs with hin hstands
    · refine ⟨.inl, fun h => ?_⟩
      rcases h with h | ⟨-, rfl⟩
      · exact h
      · exact hin
    · rw [List.mem_append, List.mem_singleton]
      have hwork := (standsFor_iff hget).mp hstands
      constructor
      · rintro (h | rfl)
        · exact .inl h
        · exact .inr ⟨hwork, rfl⟩
      · rintro (h | ⟨-, rfl⟩)
        · exact .inl h
        · exact .inr rfl
    · refine ⟨.inl, fun h => h.resolve_right ?_⟩
      rintro ⟨hwork, rfl⟩
      exact hstands ((standsFor_iff hget).mpr hwork)

theorem nodup_addCandidate {l : List String} {dep : String} (hl : l.Nodup) : (s.addCandidate statuses same repo l dep).Nodup := by
  unfold addCandidate
  cases s.graph.get (s.standsOn dep) with
  | none => exact hl
  | some parent =>
    simp only []
    split_ifs with hin
    · exact hl
    · exact List.nodup_append.mpr ⟨hl, List.nodup_singleton _, fun a ha b hb => by rw [List.mem_singleton.mp hb]; rintro rfl; exact hin ha⟩
    · exact hl

theorem foldl_addCandidate (deps l : List String) (hl : l.Nodup) :
    (deps.foldl (s.addCandidate statuses same repo) l).Nodup ∧
      ∀ id, id ∈ deps.foldl (s.addCandidate statuses same repo) l ↔
        id ∈ l ∨ (s.HoldsWork statuses same repo id ∧ ∃ dep ∈ deps, s.standsOn dep = id) := by
  induction deps generalizing l with
  | nil => exact ⟨hl, fun id => by simp⟩
  | cons dep deps ih =>
    obtain ⟨hnodup, hmem⟩ := ih (s.addCandidate statuses same repo l dep) (nodup_addCandidate hl)
    refine ⟨hnodup, fun id => ?_⟩
    rw [List.foldl_cons, hmem, mem_addCandidate, or_assoc, ← and_or_left, List.exists_mem_cons_iff]

theorem nodup_candidates : (s.candidates statuses same repo node).Nodup := (foldl_addCandidate node.deps [] List.nodup_nil).1

theorem mem_candidates : id ∈ s.candidates statuses same repo node ↔ id ∈ s.Candidates statuses same repo node.deps := by
  rw [candidates, (foldl_addCandidate node.deps [] List.nodup_nil).2]
  simp only [List.not_mem_nil, false_or]
  exact .rfl

theorem finite_candidates : (s.Candidates statuses same repo node.deps).Finite :=
  (List.finite_toSet (s.candidates statuses same repo node)).subset fun _ h => mem_candidates.mpr h

/-- **Stack parents.** What is kept is topmost. -/
theorem mem_kept (hacyclic : ∀ a, ¬TransGen s.graph.DependsOn a a) :
    id ∈ s.kept (s.candidates statuses same repo node) ↔ id ∈ Topmost s.graph.Below (s.Candidates statuses same repo node.deps) := by
  rw [kept, List.mem_filter, mem_candidates, mem_topmost]
  refine and_congr_right fun _ => ?_
  simp only [Bool.not_eq_true', List.any_eq_false, Bool.and_eq_true, decide_eq_true_eq, not_and, mem_ancestors, mem_candidates]
  refine forall₂_congr fun d _ => ⟨fun h hbelow => ?_, fun h _ => h⟩
  refine h ?_ hbelow
  rintro rfl
  exact hacyclic d hbelow

/-! ## What a placement answers -/

/-- the parents of a list of nodes, as the record holds them -/
structure AsRecorded (s : StackedRun) (p : StackParent) : Prop where
  branch : p.node ∈ s.branches → s.branches[p.node]? = some p.branch
  head : s.heads[p.node]? = some p.head
  change : s.changeUrls[p.node]? = p.changeUrl

theorem parentOf_ok {p : StackParent} (h : s.parentOf node id = .ok p) : p.node = id ∧ s.AsRecorded p := by
  unfold parentOf at h
  cases hh : s.heads[id]? with
  | none => simp [hh] at h
  | some head =>
    simp only [hh, Except.ok.injEq] at h
    subst h
    refine ⟨rfl, fun hin => ?_, hh, rfl⟩
    obtain ⟨branch, hb⟩ := Maps.mem_iff.mp hin
    show s.branches[id]? = some (s.branches[id]?.getD "")
    rw [hb]
    rfl

theorem mapM_parentOf {l : List String} {parents : List StackParent} (h : l.mapM (s.parentOf node) = .ok parents) :
    parents.map StackParent.node = l ∧ ∀ p ∈ parents, s.AsRecorded p := by
  induction l generalizing parents with
  | nil =>
    cases h
    simp
  | cons id l ih =>
    simp only [List.mapM_cons, bind_eq_ok, pure_eq_ok] at h
    obtain ⟨p, hp, rest, hrest, rfl⟩ := h
    obtain ⟨hid, hp⟩ := parentOf_ok hp
    obtain ⟨hids, hall⟩ := ih hrest
    refine ⟨by rw [List.map_cons, hid, hids], fun q hq => ?_⟩
    rcases List.mem_cons.mp hq with rfl | hq
    · exact hp
    · exact hall q hq

/-- the parents of a list of nodes can be named exactly where each has a commit on the record -/
theorem exists_mapM_parentOf {l : List String} : (∃ parents, l.mapM (s.parentOf node) = .ok parents) ↔ ∀ id ∈ l, id ∈ s.heads := by
  induction l with
  | nil => simp [pure, Except.pure]
  | cons id l ih =>
    rw [List.forall_mem_cons, ← ih]
    simp only [List.mapM_cons, bind_eq_ok, pure_eq_ok]
    constructor
    · rintro ⟨_, p, hp, rest, hrest, rfl⟩
      obtain ⟨rfl, hrec⟩ := parentOf_ok hp
      exact ⟨Maps.mem_iff.mpr ⟨p.head, hrec.head⟩, rest, hrest⟩
    · rintro ⟨hin, rest, hrest⟩
      obtain ⟨head, hh⟩ := Maps.mem_iff.mp hin
      have hp : s.parentOf node id = .ok ⟨id, s.branches[id]?.getD "", head, s.changeUrls[id]?⟩ := by simp only [parentOf, hh]
      exact ⟨_, _, hp, rest, hrest, rfl⟩

section

variable (hland : node.publish = .land) (hrepo : node.repo = some repo)

include hland hrepo

/-- what a placement that answers read: the parents of its candidates kept -/
theorem placement_ok {answer : Option Stack} (h : s.placement statuses same node plan = .ok answer) :
    ((answer.map Stack.parents).getD []).map StackParent.node = s.kept (s.candidates statuses same repo node) ∧
      (∀ stack ∈ answer, stack.parents ≠ [] ∧ ∀ p ∈ stack.parents, s.AsRecorded p) := by
  simp only [placement, hland, hrepo, bind_eq_ok] at h
  obtain ⟨parents, hparents, h⟩ := h
  obtain ⟨hnodes, hrecorded⟩ := mapM_parentOf hparents
  rw [← hnodes]
  cases hseveral : Several.of parents with
  | some several =>
    have hsame : several.parents = parents := by
      unfold Several.of at hseveral
      split_ifs at hseveral
      cases hseveral
      rfl
    simp only [hseveral, map_eq_ok] at h
    obtain ⟨stack, hbase, rfl⟩ := h
    have hstack : stack.parents = parents := by
      unfold onBase at hbase
      split at hbase
      · cases hbase
      · cases hbase
        exact hsame
    refine ⟨by simp [hstack], fun t ht => ?_⟩
    cases ht
    refine ⟨fun hnil => ?_, hstack ▸ hrecorded⟩
    have hlen := several.several
    rw [hsame, ← hstack, hnil] at hlen
    simp at hlen
  | none =>
    have hfew : parents.length < 2 := by
      unfold Several.of at hseveral
      split_ifs at hseveral with hlen
      omega
    simp only [hseveral, pure_eq_ok] at h
    subst h
    rcases parents with _ | ⟨p, _ | ⟨q, rest⟩⟩
    · simp
    · refine ⟨rfl, fun t ht => ?_⟩
      cases ht
      exact ⟨by simp [Stack.parents], hrecorded⟩
    · simp at hfew

/-- **Refusals.** A placement is refused exactly where a stack parent has no commit on the record, or several have no root to be merged
onto. -/
theorem placement_refused :
    (∃ why, s.placement statuses same node plan = .error why) ↔
      (∃ id ∈ s.kept (s.candidates statuses same repo node), id ∉ s.heads) ∨
        (2 ≤ (s.kept (s.candidates statuses same repo node)).length ∧ node.baseBranch = none ∧
          (s.kept (s.candidates statuses same repo node)).head?.bind s.rootOf = none) := by
  simp only [placement, hland, hrepo]
  generalize s.kept (s.candidates statuses same repo node) = l
  cases hmap : l.mapM (s.parentOf node) with
  | error why =>
    refine iff_of_true ⟨why, rfl⟩ (.inl ?_)
    by_contra hall
    push Not at hall
    obtain ⟨parents, hparents⟩ := (@exists_mapM_parentOf s node _).mpr hall
    rw [hmap] at hparents
    cases hparents
  | ok parents =>
    obtain ⟨hnodes, -⟩ := mapM_parentOf hmap
    have hheads := exists_mapM_parentOf.mp ⟨parents, hmap⟩
    have hlen : l.length = parents.length := by rw [← hnodes, List.length_map]
    have hhead : l.head?.bind s.rootOf = parents.head?.bind fun first => s.rootOf first.node := by
      rw [← hnodes, List.head?_map]
      cases parents.head? <;> rfl
    rw [or_iff_right (by push Not; exact hheads), hlen, hhead]
    have hbind (f : List StackParent → Except String (Option Stack)) : (Except.ok parents >>= f) = f parents := rfl
    rw [hbind]
    unfold Several.of
    split_ifs with hseveral
    · rw [and_iff_right hseveral, ← Option.or_eq_none_iff]
      simp only [map_eq_error, onBase]
      cases node.baseBranch.or (parents.head?.bind fun first => s.rootOf first.node) with
      | none => simp
      | some root => simp
    · refine iff_of_false ?_ fun h => hseveral h.1
      rintro ⟨why, h⟩
      cases h

end

/-! ## The work a dependency stands for -/

/-- what an id's work went on to: what it was absorbed into, or what superseded it out of the graph -/
def carrier (s : StackedRun) (id : String) : Option String :=
  s.absorbed[id]?.or (if id ∈ s.graph.ids then none else s.superseded[id]?)

/-- the node that carries a dependency's work: itself, or the last one absorptions, and supersessions of an absorber, lead to -/
def carriedOn (s : StackedRun) (dep : String) : String :=
  if dep ∈ s.absorbed then Chase.follow s.carrier (s.absorbed.size + s.superseded.size) [] dep else dep

section

variable (s statuses same repo)

/-- the nodes that carry the unlanded work of a list of dependencies -/
def Carriers (deps : List String) : Set String := fun id => s.HoldsWork statuses same repo id ∧ ∃ dep ∈ deps, s.carriedOn dep = id

/-- a placement that carries a set of nodes' work: on no stack where there is none, and else on the topmost of them, each once -/
def Carries (C : Set String) : Option Stack → Prop
  | none => C = ∅
  | some stack =>
    C.Nonempty ∧ (stack.parents.map StackParent.node).Nodup ∧
      (∀ id, id ∈ stack.parents.map StackParent.node ↔ id ∈ Topmost s.graph.Below C) ∧
      ∀ id ∈ C, ∃ p ∈ stack.parents.map StackParent.node, id = p ∨ s.graph.Below id p

end

/-- absorptions that lead to a node of the graph lead no further with supersessions -/
theorem carriedOn_eq {dep : String} (h : s.standsOn dep ∈ s.graph.ids) : s.carriedOn dep = s.standsOn dep := by
  unfold carriedOn
  split_ifs with hdep
  · have hK (c : String) (hc : (s.absorbed[c]?).isSome = true) : c ∈ s.absorbed.keys.toFinset := by
      rw [List.mem_toFinset, Std.ExtTreeMap.mem_keys]
      exact Maps.mem_iff.mpr (Option.isSome_iff_exists.mp hc)
    show Chase.follow s.carrier _ [] dep = Chase.follow (fun id => s.absorbed[id]?) s.absorbed.size [] dep
    refine Chase.follow_extend hK (fun c d hlink => ?_) List.nodup_nil (by simp) ?_ (by omega) fun hend => ?_
    · show s.absorbed[c]?.or _ = some d
      rw [hlink]
      rfl
    · have hcard := List.toFinset_card_le s.absorbed.keys
      rw [Std.ExtTreeMap.length_keys] at hcard
      simpa using hcard
    · have hlast : s.absorbed[s.standsOn dep]? = none := hend
      show s.absorbed[s.standsOn dep]?.or (if s.standsOn dep ∈ s.graph.ids then none else s.superseded[s.standsOn dep]?) = none
      rw [hlast, if_pos h]
      rfl
  · -- a dependency that was not absorbed stands for itself
    have hnone : s.absorbed[dep]? = none := Maps.not_mem_iff.mp hdep
    unfold standsOn
    cases s.absorbed.size with
    | zero => rfl
    | succ fuel => simp only [Chase.follow, hnone]

theorem candidates_subset {deps : List String} : s.Candidates statuses same repo deps ⊆ s.Carriers statuses same repo deps := by
  rintro id ⟨hwork, dep, hdep, rfl⟩
  obtain ⟨n, r, hn, -⟩ := hwork.within
  exact ⟨hwork, dep, hdep, carriedOn_eq (Graph.mem_ids_of_get hn)⟩

theorem finite_carriers {deps : List String} : (s.Carriers statuses same repo deps).Finite := by
  refine (List.finite_toSet s.graph.ids).subset ?_
  rintro id ⟨hwork, -⟩
  obtain ⟨n, r, hn, -⟩ := hwork.within
  exact Graph.mem_ids_of_get hn

/-- the nodes a placement names as stack parents -/
def parentNodes (answer : Option Stack) : List String := ((answer.map Stack.parents).getD []).map StackParent.node

/-- **What is carried.** A placement that answers carries all the unlanded work exactly where what supersessions add is below what
absorptions lead to. -/
theorem carries_iff (hacyclic : ∀ a, ¬TransGen s.graph.DependsOn a a) (hland : node.publish = .land) (hrepo : node.repo = some repo)
    {answer : Option Stack} (h : s.placement statuses same node plan = .ok answer) :
    s.Carries (s.Carriers statuses same repo node.deps) answer ↔
      ∀ id ∈ s.Carriers statuses same repo node.deps, id ∉ s.Candidates statuses same repo node.deps →
        ∃ c ∈ s.Candidates statuses same repo node.deps, s.graph.Below id c := by
  have hstrict := strict_below hacyclic
  obtain ⟨hnodes, hstack⟩ := placement_ok hland hrepo h
  have hmem (id : String) : id ∈ parentNodes answer ↔ id ∈ Topmost s.graph.Below (s.Candidates statuses same repo node.deps) := by
    rw [parentNodes, hnodes]
    exact mem_kept hacyclic
  have hany : (s.Candidates statuses same repo node.deps).Nonempty ↔ parentNodes answer ≠ [] := by
    rw [← @topmost_nonempty _ s.graph.Below _ _ finite_candidates]
    refine ⟨fun ⟨t, ht⟩ hnil => ?_, fun hne => ?_⟩
    · have hin := (hmem t).mpr ht
      rw [hnil] at hin
      cases hin
    · obtain ⟨t, ht⟩ := List.exists_mem_of_ne_nil _ hne
      exact ⟨t, (hmem t).mp ht⟩
  cases answer with
  | none =>
    have hnone : s.Candidates statuses same repo node.deps = ∅ := by
      rw [← Set.not_nonempty_iff_eq_empty, hany]
      exact not_not.mpr rfl
    rw [Carries, hnone, Set.eq_empty_iff_forall_notMem]
    refine forall_congr' fun id => ⟨fun hid hin => absurd hin hid, fun hall hin => ?_⟩
    obtain ⟨c, hc, -⟩ := hall hin (Set.notMem_empty id)
    exact hc
  | some stack =>
    have hnonempty : (s.Candidates statuses same repo node.deps).Nonempty := by
      refine hany.mpr fun hnil => (hstack stack rfl).1 ?_
      exact List.map_eq_nil_iff.mp hnil
    have hnodup : (stack.parents.map StackParent.node).Nodup := by
      have hkept : stack.parents.map StackParent.node = s.kept (s.candidates statuses same repo node) := hnodes
      rw [hkept]
      exact nodup_candidates.filter _
    rw [← topmost_eq_iff finite_carriers candidates_subset]
    constructor
    · rintro ⟨-, -, htop, -⟩
      ext id
      exact (htop id).symm.trans (hmem id)
    · intro heq
      have htop (id : String) : id ∈ stack.parents.map StackParent.node ↔
          id ∈ Topmost s.graph.Below (s.Carriers statuses same repo node.deps) := by
        rw [heq]
        exact hmem id
      refine ⟨hnonempty.mono candidates_subset, hnodup, htop, fun id hid => ?_⟩
      obtain ⟨t, ht, hor⟩ := @exists_topmost _ s.graph.Below _ _ _ finite_carriers hid
      exact ⟨t, (htop t).mpr ht, hor⟩

/-- the stack parents of a node do not depend on the order of its dependencies -/
theorem parentNodes_order_free (hacyclic : ∀ a, ¬TransGen s.graph.DependsOn a a) {other : Node} {answer answer' : Option Stack}
    (hland : node.publish = .land) (hrepo : node.repo = some repo) (hland' : other.publish = .land) (hrepo' : other.repo = some repo)
    (hdeps : ∀ d, d ∈ other.deps ↔ d ∈ node.deps) (h : s.placement statuses same node plan = .ok answer)
    (h' : s.placement statuses same other plan = .ok answer') : ∀ id, id ∈ parentNodes answer ↔ id ∈ parentNodes answer' := by
  have hsame : s.Candidates statuses same repo node.deps = s.Candidates statuses same repo other.deps := by
    ext id
    refine and_congr_right fun _ => exists_congr fun d => and_congr_left fun _ => (hdeps d).symm
  intro id
  rw [parentNodes, (placement_ok hland hrepo h).1, parentNodes, (placement_ok hland' hrepo' h').1, mem_kept hacyclic, mem_kept hacyclic,
    hsame]

end StackedRun

open StackedRun

/-- **Placement.** Of a landing lifecycle node in a graph without a cycle: where it is answered, the parents are as the record holds them,
and it carries all the unlanded work its dependencies stand for exactly where what is met only past a superseded absorber is an ancestor
of what is met before one; it is refused only where the record cannot name a parent's commit, or a root; and the order of the
dependencies decides none of its parents. -/
theorem placement_carries (s : StackedRun) (statuses : StrMap NodeStatus) (same : String → String → Bool) (node : Node)
    (repo plan : String) (hacyclic : ∀ a, ¬TransGen s.graph.DependsOn a a) (hland : node.publish = .land)
    (hrepo : node.repo = some repo) :
    (∀ answer, s.placement statuses same node plan = .ok answer →
      (∀ stack ∈ answer, ∀ p ∈ stack.parents, s.AsRecorded p) ∧
      (s.Carries (s.Carriers statuses same repo node.deps) answer ↔
        ∀ id ∈ s.Carriers statuses same repo node.deps, id ∉ s.Candidates statuses same repo node.deps →
          ∃ c ∈ s.Candidates statuses same repo node.deps, s.graph.Below id c)) ∧
    ((∃ why, s.placement statuses same node plan = .error why) ↔
      (∃ id ∈ s.kept (s.candidates statuses same repo node), id ∉ s.heads) ∨
        (2 ≤ (s.kept (s.candidates statuses same repo node)).length ∧ node.baseBranch = none ∧
          (s.kept (s.candidates statuses same repo node)).head?.bind s.rootOf = none)) ∧
    ∀ other : Node, other.publish = .land → other.repo = some repo → (∀ d, d ∈ other.deps ↔ d ∈ node.deps) → ∀ answer answer',
      s.placement statuses same node plan = .ok answer → s.placement statuses same other plan = .ok answer' →
        ∀ id, id ∈ parentNodes answer ↔ id ∈ parentNodes answer' := by
  refine ⟨fun answer h => ⟨fun stack hstack => ?_, carries_iff hacyclic hland hrepo h⟩, placement_refused hland hrepo, ?_⟩
  · exact ((placement_ok hland hrepo h).2 stack hstack).2
  · intro other hland' hrepo' hdeps answer answer' h h'
    exact parentNodes_order_free hacyclic hland hrepo hland' hrepo' hdeps h h'

/-! ## An absorber reworked -/

/-- a landing lifecycle node -/
def Node.landing (id : String) (deps : List String) : Node :=
  { Node.direct id deps with repo := some "owner/app", title := some "Land it" }

/-- a change, one drafted on it, and one above that -/
def stackOfThree : Plan := .ofNodes [.landing "a" [], .landing "b" ["a"], .landing "c" ["b"]]

/-- a node's draft settled on a branch, where its checks stand -/
def draftOf (seq : ℕ) (node branch head : String) : Envelope × StackSays :=
  (.own seq (some node) (.nodeSettled
    { status := some .done, branch := some branch, base := some "main", statesHead := true, head := some head,
      landing := some .unlanded }), .nothing)

/-- both drafts out, and the upper one merged into the lower one's branch -/
def absorbedBelow : StackedRun :=
  [draftOf 1 "a" "br-a" "1a", draftOf 2 "b" "br-b" "1b", (.own 3 none (.nodeAbsorbed (some ("b", "a"))), .nothing)].foldl
    (StackedRun.foldRecord .lenient) { toRunState := RunState.started stackOfThree }

def reworkOfA : Command := .rework "a" "a review asks for more" "say more" [] none none

/-- the lower draft reworked, and its replacement out on the same branch -/
def absorberReworked : StackedRun :=
  [(.own 4 none (.editCommitted (some (RunState.operationsOf .lenient absorbedBelow.toRunState reworkOfA))), .nothing),
    draftOf 5 "a-rework-1" "br-a" "2a"].foldl (StackedRun.foldRecord .lenient) absorbedBelow

/-- whether two spellings are the same text -/
def sameSpelling (a b : String) : Bool := a = b

theorem dependsOn_acyclic {graph : Graph} (rank : String → ℕ)
    (h : ∀ n ∈ graph.iter, ∀ d ∈ n.deps, d ∈ graph.ids → rank d < rank n.id) (a : String) : ¬TransGen graph.DependsOn a a := by
  have hfall (a b : String) (hab : TransGen graph.DependsOn a b) : rank b < rank a := by
    have hstep {a b : String} (hab : graph.DependsOn a b) : rank b < rank a := by
      obtain ⟨n, hn, hdep, hin⟩ := hab
      obtain ⟨hmem, rfl⟩ := Graph.get_eq_some.mp hn
      exact h n hmem b hdep hin
    induction hab with
    | single hab => exact hstep hab
    | tail _ hbc ih => exact (hstep hbc).trans ih
  exact fun hcycle => (hfall a a hcycle).false

/-- how far a node of the stack is above its lowest -/
def heightOf (id : String) : ℕ := if id = "c" then 2 else if id = "b" then 1 else 0

/-- the rework as the compiler is asked it -/
def askedOfA : Rework :=
  { id := "a", reason := "a review asks for more", instruction := "say more", comments := [], title := none, replacement := none }

/-- the operations the rework commits -/
def reworkedA : List Operation :=
  (supersede absorbedBelow.graph "a" (reworked (.landing "a" []) askedOfA "a-rework-1" "br-a")
    (.reworkRequested "a" "a-rework-1" (Text.trim askedOfA.reason) (Text.trim askedOfA.instruction) [] none)).2

theorem absorbedBelow_passing : absorbedBelow.toRunState.Passing .lenient where
  rules := checkEdited_eq_ok.mp (by decide)
  runsOut := by
    have hnone : absorbedBelow.toRunState.launchEdges = [] := by decide
    rw [hnone]
    exact fun edge he => (List.not_mem_nil he).elim
  own := by
    have hids : ∀ id ∈ absorbedBelow.graph.ids, ownId id = true := by decide
    have hnone : absorbedBelow.superseded = ∅ := Std.ExtTreeMap.isEmpty_iff.mp (by decide)
    rintro id (hid | hid | ⟨x, hx⟩)
    · exact hids id hid
    · rw [hnone] at hid
      exact absurd hid (Std.ExtTreeMap.not_mem_empty)
    · rw [hnone, Std.ExtTreeMap.getElem?_empty] at hx
      cases hx

theorem absorbedBelow_draft : absorbedBelow.toRunState.ReviewDraft {} "a" (.landing "a" []) "br-a" :=
  ⟨rfl, rfl, by decide, by decide, by decide, by decide, by decide⟩

/-- the rework is accepted -/
theorem reworkOfA_accepted : ∃ graph',
    compile .lenient absorbedBelow.graph (absorbedBelow.toRunState.judged {}) .planner reworkOfA = .ok (graph', reworkedA) := by
  have hasked : RunState.Askable .lenient askedOfA.reason askedOfA.instruction askedOfA.title :=
    ⟨by decide, by decide, fun _ ht => by cases ht⟩
  have hreworks : ∃ graph' operations,
      compile .lenient absorbedBelow.graph (absorbedBelow.toRunState.judged {}) .planner reworkOfA = .ok (graph', operations) := by
    obtain ⟨graph', operations, hcompiled, -⟩ := (RunState.rework_ok_iff absorbedBelow_passing absorbedBelow_draft rfl
      hasked).mpr ⟨rfl, by decide⟩
    exact ⟨graph', operations, hcompiled⟩
  obtain ⟨graph', operations, hcompiled⟩ := hreworks
  obtain ⟨resolved, haccepted⟩ := compile_ok hcompiled
  cases haccepted.resolves
  have hnew : reworkId absorbedBelow.graph (absorbedBelow.toRunState.judged {}) askedOfA = .ok "a-rework-1" := by decide
  obtain ⟨-, hoperations⟩ := (RunState.compileRework_iff absorbedBelow_draft hasked hnew).mp haccepted.compiles
  refine ⟨graph', ?_⟩
  have hcommitted : operations = reworkedA := congrArg Prod.snd hoperations
  rw [← hcommitted]
  exact hcompiled

theorem operationsOf_reworkOfA : RunState.operationsOf .lenient absorbedBelow.toRunState reworkOfA = reworkedA := by
  obtain ⟨graph', hcompiled⟩ := reworkOfA_accepted
  rw [RunState.operationsOf, hcompiled]

/-- what the record reads once the absorber is reworked: its replacement is out on the branch, and the draft above what was
absorbed is placed on no stack -/
theorem absorberReworked_reads :
    (∀ n ∈ absorberReworked.graph.iter, ∀ d ∈ n.deps, d ∈ absorberReworked.graph.ids → heightOf d < heightOf n.id) ∧
      (absorberReworked.graph.get "a-rework-1").bind Node.repo = some "owner/app" ∧
      absorberReworked.statuses["a-rework-1"]? = some .done ∧
      absorberReworked.landings["a-rework-1"]? = some .unlanded ∧
      "a-rework-1" ∈ absorberReworked.branches ∧
      absorberReworked.carriedOn "b" = "a-rework-1" ∧
      ((absorberReworked.graph.get "c").any fun n => n.publish = .land && n.repo = some "owner/app" && n.deps = ["b"] &&
        absorberReworked.placement absorberReworked.statuses sameSpelling n "plan" = .ok none) = true := by
  unfold absorberReworked
  rw [operationsOf_reworkOfA]
  decide

/-- the repository's work there is above the draft, once its absorber is reworked -/
theorem reworked_carries : "a-rework-1" ∈ absorberReworked.Carriers absorberReworked.statuses sameSpelling "owner/app" ["b"] := by
  obtain ⟨-, hrepo, hdone, hunlanded, hbranched, hcarried, -⟩ := absorberReworked_reads
  obtain ⟨n, hn, hr⟩ := Option.bind_eq_some_iff.mp hrepo
  exact ⟨⟨hdone, hunlanded, hbranched, n, "owner/app", hn, hr, .inl rfl⟩, "b", List.mem_singleton_self _, hcarried⟩

/-- an accepted rework of an absorber, and the draft above what it absorbed placed on no stack -/
theorem superseded_absorber_dropped :
    check Host.lenient.toSiblings stackOfThree = .ok () ∧
      absorbedBelow.toRunState.Compiled .lenient (RunState.operationsOf .lenient absorbedBelow.toRunState reworkOfA) ∧
      (∀ a, ¬TransGen absorberReworked.graph.DependsOn a a) ∧
      ∃ n, absorberReworked.graph.get "c" = some n ∧ n.publish = .land ∧ n.repo = some "owner/app" ∧
        absorberReworked.placement absorberReworked.statuses sameSpelling n "plan" = .ok none ∧
        ¬absorberReworked.Carries (absorberReworked.Carriers absorberReworked.statuses sameSpelling "owner/app" n.deps) none := by
  have hplan : check Host.lenient.toSiblings stackOfThree = .ok () := by decide
  obtain ⟨hheight, -, -, -, -, -, hnode⟩ := absorberReworked_reads
  obtain ⟨graph', hcompiled⟩ := reworkOfA_accepted
  obtain ⟨n, hn, hall⟩ := (Option.any_eq_true _ _).mp hnode
  simp only [Bool.and_eq_true, decide_eq_true_eq] at hall
  obtain ⟨⟨⟨hland, hrepo⟩, hdeps⟩, hplaced⟩ := hall
  rw [operationsOf_reworkOfA]
  refine ⟨hplan, ⟨{}, .planner, reworkOfA, graph', hcompiled⟩, dependsOn_acyclic heightOf hheight, n, hn, hland, hrepo, hplaced,
    fun hcarries => ?_⟩
  have hempty : absorberReworked.Carriers absorberReworked.statuses sameSpelling "owner/app" n.deps = ∅ := hcarries
  have hin := reworked_carries
  rw [← hdeps, hempty] at hin
  exact hin

/-- before the rework the draft is placed on the absorber -/
theorem placement_carries_absorbed :
    ∃ stack, absorbedBelow.placement absorbedBelow.statuses sameSpelling (.landing "c" ["b"]) "plan" = .ok (some stack) ∧
      absorbedBelow.Carries (absorbedBelow.Carriers absorbedBelow.statuses sameSpelling "owner/app" ["b"]) (some stack) := by
  have hacyclic := @dependsOn_acyclic absorbedBelow.graph heightOf (by decide)
  have hplaced : absorbedBelow.placement absorbedBelow.statuses sameSpelling (.landing "c" ["b"]) "plan" =
      .ok (some (.onParent ⟨"a", "br-a", "1a", none⟩)) := by
    decide
  refine ⟨_, hplaced, ?_⟩
  obtain ⟨hanswers, -, -⟩ := placement_carries absorbedBelow absorbedBelow.statuses sameSpelling (.landing "c" ["b"]) "owner/app" "plan"
    hacyclic rfl rfl
  refine ((hanswers _ hplaced).2).mpr fun id hid hnew => absurd ?_ hnew
  -- the one dependency is absorbed into a node of the graph
  obtain ⟨hwork, dep, hdep, hcarried⟩ := hid
  have hstands : absorbedBelow.standsOn "b" = absorbedBelow.carriedOn "b" := by decide
  rw [List.mem_singleton.mp hdep] at hcarried
  exact ⟨hwork, "b", List.mem_singleton_self _, hstands.trans hcarried⟩

end OnePipeline
