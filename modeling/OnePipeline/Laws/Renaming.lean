/-
Plans alike but for the names of their nodes and the order of their dependencies: what the rules an edited plan is held to
say of one they say of the other.

Results:
- `checkNodes_iff`, `findCycle_iff`, `stacks_iff`: the rules on the nodes of a plan together, free of their order;
- `EditedRules.renamed`: the rules, from a graph to one renamed.
-/
import Mathlib.Tactic
import OnePipeline.Core.Dfs
import OnePipeline.Laws.Boundary
import OnePipeline.Laws.Checked
import OnePipeline.Laws.Stacking

namespace OnePipeline

open Checks Relation

variable {sib : Siblings}

/-! ## The nodes together -/

theorem checkDelivers_spec {node : Node} {tickets : List String} {delivered delivered' : StrMap String}
    (h : checkDelivers node tickets delivered = .ok delivered') :
    (∀ t ∈ tickets, ∀ first, delivered[t]? = some first → first = node.id) ∧
      ∀ t : String, delivered'[t]? = if t ∈ tickets then some node.id else delivered[t]? := by
  induction tickets generalizing delivered with
  | nil =>
    cases h
    simp
  | cons ticket tickets ih =>
    rw [checkDelivers] at h
    have hrest (h : checkDelivers node tickets (delivered.insert ticket node.id) = .ok delivered')
        (hfirst : ∀ first, delivered[ticket]? = some first → first = node.id) :
        (∀ t ∈ ticket :: tickets, ∀ first, delivered[t]? = some first → first = node.id) ∧
          ∀ t : String, delivered'[t]? = if t ∈ ticket :: tickets then some node.id else delivered[t]? := by
      obtain ⟨hall, hget⟩ := ih h
      constructor
      · intro t ht first hf
        rcases List.mem_cons.mp ht with rfl | ht
        · exact hfirst first hf
        · by_cases heq : t = ticket
          · exact hfirst first (heq ▸ hf)
          · exact hall t ht first (by rw [Maps.get_insert, if_neg heq]; exact hf)
      · intro t
        rw [hget, Maps.get_insert]
        by_cases heq : t = ticket
        · simp [heq]
        · simp [heq]
    cases hd : delivered[ticket]? with
    | none =>
      rw [hd] at h
      exact hrest h fun first hf => by rw [hd] at hf; cases hf
    | some first =>
      simp only [hd] at h
      split_ifs at h with hne
      exact hrest h fun first' hf => by
        rw [hd] at hf
        cases hf
        exact not_not.mp hne

theorem exists_checkDelivers {node : Node} {tickets : List String} {delivered : StrMap String}
    (h : ∀ t ∈ tickets, ∀ first, delivered[t]? = some first → first = node.id) :
    ∃ delivered', checkDelivers node tickets delivered = .ok delivered' := by
  induction tickets generalizing delivered with
  | nil => exact ⟨delivered, rfl⟩
  | cons ticket tickets ih =>
    obtain ⟨delivered', hrest⟩ := @ih (delivered.insert ticket node.id) fun t ht first hf => by
      rw [Maps.get_insert] at hf
      split_ifs at hf
      · exact (Option.some.inj hf).symm
      · exact h t (List.mem_cons_of_mem _ ht) first hf
    refine ⟨delivered', ?_⟩
    rw [checkDelivers]
    cases hd : delivered[ticket]? with
    | none => exact hrest
    | some first =>
      have hfirst : first = node.id := h ticket List.mem_cons_self first hd
      simp only [ne_eq, hfirst, not_true_eq_false, if_false]
      exact hrest

/-- one ticket, delivered by one node -/
def OneDelivers (nodes : List Node) : Prop :=
  ∀ n ∈ nodes, ∀ m ∈ nodes, ∀ t ∈ n.delivers, t ∈ m.delivers → n.id = m.id

/-- **The nodes of a plan.** They pass exactly where each does by itself, no two share an id and no two a ticket. -/
theorem checkNodes_iff {nodes : List Node} {seen : PlanSeen} :
    checkNodes sib seen nodes = .ok () ↔
      (∀ n ∈ nodes, Text.isBlank n.id = false ∧ checkNode sib n = .ok ()) ∧
        (∀ n ∈ nodes, n.id ∉ seen.ids ∧ ∀ t ∈ n.delivers, ∀ first, seen.delivered[t]? = some first → first = n.id) ∧
        (nodes.map Node.id).Nodup ∧ OneDelivers nodes := by
  induction nodes generalizing seen with
  | nil => simp [checkNodes, OneDelivers]
  | cons n nodes ih =>
    simp only [checkNodes, bind_eq_ok, refuseIf_eq_ok, exists_unit, Bool.not_eq_true]
    constructor
    · rintro ⟨hblank, hnew, hnode, delivered, hd, hrest⟩
      obtain ⟨hfirst, hget⟩ := checkDelivers_spec hd
      obtain ⟨hall, hseen, hnd, hone⟩ := ih.mp hrest
      refine ⟨?_, ?_, ?_, ?_⟩
      · exact List.forall_mem_cons.mpr ⟨⟨hblank, hnode⟩, hall⟩
      · refine List.forall_mem_cons.mpr ⟨⟨hnew, hfirst⟩, fun m hm => ?_⟩
        obtain ⟨hid, htickets⟩ := hseen m hm
        refine ⟨fun h => hid (List.mem_cons_of_mem _ h), fun t ht first hf => ?_⟩
        have hat := hget t
        split_ifs at hat with hin
        · have hmn := htickets t ht n.id hat
          exact absurd (hmn ▸ List.mem_cons_self) hid
        · exact htickets t ht first (hat.trans hf)
      · rw [List.map_cons, List.nodup_cons]
        refine ⟨fun hin => ?_, hnd⟩
        obtain ⟨m, hm, hid⟩ := List.mem_map.mp hin
        exact (hseen m hm).1 (hid ▸ List.mem_cons_self)
      · have hcross (m : Node) (hm : m ∈ nodes) (t : String) (ht : t ∈ n.delivers) (htm : t ∈ m.delivers) : n.id = m.id :=
          (hseen m hm).2 t htm n.id (by rw [hget, if_pos ht])
        intro a ha b hb t hta htb
        rcases List.mem_cons.mp ha with rfl | ha'
        · rcases List.mem_cons.mp hb with rfl | hb'
          · rfl
          · exact hcross b hb' t hta htb
        · rcases List.mem_cons.mp hb with rfl | hb'
          · exact (hcross a ha' t htb hta).symm
          · exact hone a ha' b hb' t hta htb
    · rintro ⟨hall, hseen, hnd, hone⟩
      obtain ⟨⟨hblank, hnode⟩, hall⟩ := List.forall_mem_cons.mp hall
      obtain ⟨⟨hnew, hfirst⟩, hseen⟩ := List.forall_mem_cons.mp hseen
      rw [List.map_cons, List.nodup_cons] at hnd
      obtain ⟨delivered, hd⟩ := exists_checkDelivers hfirst
      obtain ⟨-, hget⟩ := checkDelivers_spec hd
      refine ⟨hblank, hnew, hnode, delivered, hd, ih.mpr ⟨hall, fun m hm => ⟨?_, ?_⟩, hnd.2, ?_⟩⟩
      · rw [List.mem_cons, not_or]
        exact ⟨fun h => hnd.1 (h ▸ List.mem_map_of_mem hm), (hseen m hm).1⟩
      · intro t ht first hf
        rw [hget] at hf
        split_ifs at hf with hin
        · rw [← Option.some.inj hf]
          exact hone n List.mem_cons_self m (List.mem_cons_of_mem _ hm) t hin ht
        · exact (hseen m hm).2 t ht first hf
      · exact fun a ha b hb => hone a (List.mem_cons_of_mem _ ha) b (List.mem_cons_of_mem _ hb)

/-! ## Dependencies -/

section

variable {g g' : Graph}

theorem nodesById_get (g : Graph) (k : String) : (nodesById g.iter)[k]? = g.get k := by
  have hnd : (g.iter.map Node.id).Nodup := g.nodup_ids
  cases hg : g.get k with
  | some n =>
    obtain ⟨hn, rfl⟩ := Graph.get_eq_some.mp hg
    exact Maps.get_foldl_insert_by Node.id (fun n => n) hnd ∅ hn
  | none =>
    refine Maps.not_mem_iff.mp fun hin => ?_
    have hmem := (Maps.mem_foldl_insert_by Node.id (fun n => n) g.iter ∅ k).mp hin
    exact hmem.elim (fun h => by simp at h) (Graph.get_eq_none.mp hg)

theorem mem_nodesById {k : String} : k ∈ nodesById g.iter ↔ k ∈ g.ids := by
  rw [Maps.mem_iff, ← Graph.isSome_get, Option.isSome_iff_exists]
  simp only [nodesById_get]

/-- a dependency inside a graph -/
def LocalDep (g : Graph) (a b : String) : Prop := ∃ n, g.get a = some n ∧ b ∈ n.deps ∧ isCrossDag b = false

theorem mem_childrenOf {a b : String} : b ∈ childrenOf g.iter a ↔ LocalDep g a b := by
  have hfind : g.iter.reverse.find? (fun n => n.id = a) = g.get a := by
    cases hg : g.get a with
    | none =>
      refine List.find?_eq_none.mpr fun n hn => ?_
      simp only [decide_eq_true_eq]
      exact fun hid => Graph.get_eq_none.mp hg (Graph.mem_ids.mpr ⟨n, List.mem_reverse.mp hn, hid⟩)
    | some n =>
      obtain ⟨hn, hid⟩ := Graph.get_eq_some.mp hg
      obtain ⟨m, hm⟩ : ∃ m, g.iter.reverse.find? (fun n => n.id = a) = some m :=
        Option.isSome_iff_exists.mp (List.find?_isSome.mpr ⟨n, List.mem_reverse.mpr hn, by simpa using hid⟩)
      have hmid : m.id = a := by simpa using List.find?_some hm
      have hmg : g.get a = some m :=
        Graph.get_eq_some.mpr ⟨List.mem_reverse.mp (List.mem_of_find?_eq_some hm), hmid⟩
      rw [hm, ← hmg, hg]
  rw [childrenOf, hfind, LocalDep]
  cases g.get a with
  | none => simp
  | some n => simp [localDeps]

/-- **The cycle check.** It passes exactly where no node depends on itself along dependencies inside the graph. -/
theorem findCycle_iff : findCycle g.iter = none ↔ ∀ a, ¬TransGen (LocalDep g) a a := by
  have hedge : Dfs.Edge (childrenOf g.iter) = LocalDep g := by
    funext a b
    exact propext mem_childrenOf
  have hsupport (v : String) (c : String) (hc : c ∈ childrenOf g.iter v) : c ∈ searchSupport g.iter := by
    obtain ⟨n, hn, hdep, hlocal⟩ := mem_childrenOf.mp hc
    refine List.mem_append_right _ (List.mem_flatMap.mpr ⟨n, (Graph.get_eq_some.mp hn).1, ?_⟩)
    simp [localDeps, hdep, hlocal]
  rw [findCycle, Option.map_eq_none_iff, Dfs.findCycle_eq_none hsupport fun r hr => List.mem_append_left _ hr]
  constructor
  · intro h a hcycle
    obtain ⟨b, ⟨n, hn, -⟩, -⟩ := TransGen.head'_iff.mp hcycle
    have hroot : a ∈ g.iter.map Node.id := Graph.mem_ids_of_get hn
    exact h a hroot a .refl (hedge ▸ hcycle)
  · intro h r _ w _ hcycle
    exact h w (hedge ▸ hcycle)

/-- ids of its own nodes, none of another run's shape -/
def OwnIds (g : Graph) : Prop := ∀ k ∈ g.ids, isCrossDag k = false

theorem exists_layered (hown : OwnIds g) (h : findCycle g.iter = none) : ∃ rank, Layered (nodesById g.iter) rank := by
  have hsupport (a b : String) (hab : LocalDep g a b) : b ∈ (searchSupport g.iter).toFinset := by
    obtain ⟨n, hn, hdep, hlocal⟩ := hab
    refine List.mem_toFinset.mpr (List.mem_append_right _ (List.mem_flatMap.mpr ⟨n, (Graph.get_eq_some.mp hn).1, ?_⟩))
    simp [localDeps, hdep, hlocal]
  obtain ⟨rank, hrank⟩ := Dfs.exists_rank hsupport (findCycle_iff.mp h)
  refine ⟨rank, fun k n hn => ?_, fun k n hn d hd hin => ?_⟩
  · exact Graph.id_of_get (nodesById_get g k ▸ hn)
  · exact hrank k d ⟨n, nodesById_get g k ▸ hn, hd, hown d (mem_nodesById.mp hin)⟩

/-! ## A graph renamed -/

/-- a node renamed: its dependencies inside the graph are, and what it shares with other nodes stays -/
structure Node.Renamed (σ : String → String) (g : Graph) (n n' : Node) : Prop where
  publish : n'.publish = n.publish
  repo : n'.repo = n.repo
  baseBranch : n'.baseBranch = n.baseBranch
  delivers : n'.delivers = n.delivers
  deps : ∀ d', d' ∈ n'.deps ↔ ∃ d ∈ n.deps, (if d ∈ g.ids then σ d else d) = d'

/-- a graph renamed, one to one -/
structure Graph.Renamed (σ : String → String) (g g' : Graph) : Prop where
  concurrency : g'.concurrency = g.concurrency
  forth : ∀ k n, g.get k = some n → ∃ n', g'.get (σ k) = some n' ∧ n.Renamed σ g n'
  back : ∀ k' ∈ g'.ids, ∃ k ∈ g.ids, σ k = k'
  inj : ∀ a ∈ g.ids, ∀ b ∈ g.ids, σ a = σ b → a = b
  own : OwnIds g
  own' : OwnIds g'
  wellFormed : ∀ k ∈ g.ids, isMalformed k = false → isMalformed (σ k) = false

variable {σ : String → String}

namespace Graph.Renamed

/-- a node of the graph renamed is one of the graph's, renamed -/
theorem node_back (h : g.Renamed σ g') {n' : Node} (hn' : n' ∈ g'.iter) :
    ∃ n ∈ g.iter, n'.id = σ n.id ∧ n.Renamed σ g n' ∧ g'.get (σ n.id) = some n' := by
  obtain ⟨k, hk, hid⟩ := h.back n'.id (Graph.mem_ids.mpr ⟨n', hn', rfl⟩)
  obtain ⟨n, hn, rfl⟩ := Graph.mem_ids.mp hk
  obtain ⟨m, hm, hlike⟩ := h.forth n.id n (Graph.get_of_mem hn)
  have hsame : g'.get (σ n.id) = some n' := by rw [hid]; exact Graph.get_of_mem hn'
  rw [hsame] at hm
  cases hm
  exact ⟨n, hn, hid.symm, hlike, hsame⟩

variable {edges : List ExportEdge}

/-- a dependency of a node renamed is a dependency of the node inside the graph, renamed, or another run's -/
theorem dep_back (h : g.Renamed σ g') (hr : EditedRules sib (editedPlan g edges)) {n n' : Node} (hn : n ∈ g.iter)
    (hlike : n.Renamed σ g n') {d' : String} (hd' : d' ∈ n'.deps) :
    (∃ d ∈ n.deps, d ∈ g.ids ∧ σ d = d') ∨ (d' ∈ n.deps ∧ isCrossDag d' = true ∧ d' ∉ g'.ids) := by
  obtain ⟨d, hd, heq⟩ := (hlike.deps d').mp hd'
  split_ifs at heq with hin
  · exact .inl ⟨d, hd, hin, heq⟩
  · subst heq
    have hcross : isCrossDag d = true := (hr.dep_local hn hd).resolve_right hin
    refine .inr ⟨hd, hcross, fun hlive => ?_⟩
    rw [h.own' d hlive] at hcross
    cases hcross

theorem dep_forth (hlike : Node.Renamed σ g n n') {d : String} (hd : d ∈ n.deps) (hin : d ∈ g.ids) : σ d ∈ n'.deps :=
  (hlike.deps _).mpr ⟨d, hd, if_pos hin⟩

theorem mem_ids (h : g.Renamed σ g') {k : String} (hk : k ∈ g.ids) : σ k ∈ g'.ids := by
  obtain ⟨n, hn⟩ := Option.isSome_iff_exists.mp (Graph.isSome_get.mpr hk)
  obtain ⟨n', hn', -⟩ := h.forth k n hn
  exact Graph.mem_ids_of_get hn'

theorem stacking (h : g.Renamed σ g') (hr : EditedRules sib (editedPlan g edges)) :
    OnePipeline.Renamed σ (nodesById g.iter) (nodesById g'.iter) := by
  refine ⟨fun k n hn => ?_, fun k' hk' => ?_, fun a ha b hb => h.inj a (mem_nodesById.mp ha) b (mem_nodesById.mp hb)⟩
  · rw [nodesById_get] at hn
    obtain ⟨n', hn', hlike⟩ := h.forth k n hn
    refine ⟨n', by rw [nodesById_get]; exact hn', hlike.publish, hlike.repo, hlike.baseBranch, fun d hd => ?_⟩
    have hin := mem_nodesById.mp hd
    refine ⟨fun hdep => dep_forth hlike hdep hin, fun hdep => ?_⟩
    rcases h.dep_back hr (Graph.get_eq_some.mp hn).1 hlike hdep with ⟨e, he, hein, heq⟩ | ⟨-, -, hout⟩
    · exact h.inj e hein d hin heq ▸ he
    · exact absurd (h.mem_ids hin) hout
  · obtain ⟨k, hk, hid⟩ := h.back k' (mem_nodesById.mp hk')
    exact ⟨k, mem_nodesById.mpr hk, hid⟩

/-- a cycle of the graph renamed is one of the graph -/
theorem acyclic (h : g.Renamed σ g') (hr : EditedRules sib (editedPlan g edges)) : findCycle g'.iter = none := by
  have hstep (x' y' : String) (hxy : LocalDep g' x' y') :
      ∃ x ∈ g.ids, ∃ y ∈ g.ids, σ x = x' ∧ σ y = y' ∧ LocalDep g x y := by
    obtain ⟨n', hn', hdep, hlocal⟩ := hxy
    obtain ⟨n, hn, hid, hlike, -⟩ := h.node_back (Graph.get_eq_some.mp hn').1
    rcases h.dep_back hr hn hlike hdep with ⟨y, hy, hyin, rfl⟩ | ⟨-, hcross, -⟩
    · have hx : σ n.id = x' := hid.symm.trans (Graph.id_of_get hn')
      have hnin : n.id ∈ g.ids := Graph.mem_ids.mpr ⟨n, hn, rfl⟩
      exact ⟨n.id, hnin, y, hyin, hx, rfl, n, Graph.get_of_mem hn, hy, h.own y hyin⟩
    · rw [hlocal] at hcross
      cases hcross
  have hpath (x' y' : String) (hxy : TransGen (LocalDep g') x' y') :
      ∃ x ∈ g.ids, ∃ y ∈ g.ids, σ x = x' ∧ σ y = y' ∧ TransGen (LocalDep g) x y := by
    induction hxy with
    | single hxy =>
      obtain ⟨x, hx, y, hy, hxx, hyy, hdep⟩ := hstep _ _ hxy
      exact ⟨x, hx, y, hy, hxx, hyy, .single hdep⟩
    | tail _ hyz ih =>
      obtain ⟨x, hx, y, hy, hxx, hyy, hxy⟩ := ih
      obtain ⟨y₂, hy₂, z, hz, hyy₂, hzz, hdep⟩ := hstep _ _ hyz
      obtain rfl := h.inj y₂ hy₂ y hy (hyy₂.trans hyy.symm)
      exact ⟨x, hx, z, hz, hxx, hzz, .tail hxy hdep⟩
  refine findCycle_iff.mpr fun a' hcycle => ?_
  obtain ⟨x, hx, y, hy, hxx, hyy, hxy⟩ := hpath a' a' hcycle
  obtain rfl := h.inj x hx y hy (hxx.trans hyy.symm)
  exact findCycle_iff.mp hr.acyclic x hxy

end Graph.Renamed

/-! ## The rules -/

variable {edges : List ExportEdge}

theorem checkDep_iff {plan : Plan} {n : Node} {d : String} :
    checkDep plan n d = .ok () ↔ d ≠ n.id ∧ (isCrossDag d = false → isMalformed d = false ∧ d ∈ plan.tasks.map Node.id ∧
      ¬(isPreserved plan d = true ∧ n.publish ≠ .preserve ∧ isExport plan d n.id = false)) := by
  simp only [checkDep, checkLocalDep, bind_eq_ok, refuseIf_eq_ok, exists_unit]
  refine and_congr_right fun _ => ?_
  cases isCrossDag d with
  | true => simp
  | false => simp

theorem checkEdgeShapes_of_ids {ids ids' : List String} {seen : EdgesSeen} {number : ℕ}
    (hids : ∀ e ∈ edges, e.from ∈ ids' ∧ e.to ∈ ids') (h : checkEdgeShapes sib ids seen number edges = .ok ()) :
    checkEdgeShapes sib ids' seen number edges = .ok () := by
  induction edges generalizing seen number with
  | nil => rfl
  | cons e edges ih =>
    obtain ⟨hends, hids⟩ := List.forall_mem_cons.mp hids
    rw [checkEdgeShapes, bind_eq_ok, exists_unit] at h ⊢
    obtain ⟨hedge, hrest⟩ := h
    refine ⟨?_, ih hids hrest⟩
    simp only [checkEdge, bind_eq_ok, exists_unit, each_eq_ok, List.forall_mem_cons, refuseIf_eq_ok, not_not] at hedge ⊢
    exact ⟨hedge.1, ⟨hends.1, hends.2, by simp⟩, hedge.2.2⟩

theorem find_of_id {n : Node} (hn : n ∈ g.iter) {k : String} (hk : n.id = k) :
    g.iter.find? (fun n => n.id = k) = some n := by
  subst hk
  obtain ⟨m, hm⟩ : ∃ m, g.iter.find? (fun m => m.id = n.id) = some m :=
    Option.isSome_iff_exists.mp (List.find?_isSome.mpr ⟨n, hn, by simp⟩)
  have hid : m.id = n.id := by simpa using List.find?_some hm
  rw [hm, g.nodes.eq_of_key_eq (List.mem_of_find?_eq_some hm) hn hid]

theorem Graph.Renamed.checkEdges (h : g.Renamed σ g') (hr : EditedRules sib (editedPlan g edges))
    (hends : ∀ edge ∈ edges, σ edge.from = edge.from ∧ σ edge.to = edge.to) :
    checkEdges sib (editedPlan g' edges) = .ok () := by
  have hlive (edge : ExportEdge) (he : edge ∈ edges) : edge.from ∈ g.ids ∧ edge.to ∈ g.ids := Boundary.ends_mem hr.edges he
  have hchecked := hr.edges
  simp only [OnePipeline.checkEdges, bind_eq_ok, exists_unit, each_eq_ok, refuseIf_eq_ok] at hchecked ⊢
  refine ⟨checkEdgeShapes_of_ids (fun edge he => ?_) hchecked.1, fun p hp => ?_⟩
  · obtain ⟨hfrom, hto⟩ := hlive edge he
    obtain ⟨hfix, hfix'⟩ := hends edge he
    exact ⟨hfix ▸ h.mem_ids hfrom, hfix' ▸ h.mem_ids hto⟩
  · have hedge : p.1 ∈ edges := (List.mem_zipIdx' hp).2 ▸ List.getElem_mem _
    obtain ⟨hfrom, hto⟩ := hlive p.1 hedge
    obtain ⟨hfix, hfix'⟩ := hends p.1 hedge
    have hstated := hchecked.2 p hp
    cases hfind : (editedPlan g' edges).tasks.find? fun n => n.id = p.1.to with
    | none => simp
    | some n' =>
      have hid : n'.id = p.1.to := by simpa using List.find?_some hfind
      obtain ⟨n, hn, hσ, hlike, -⟩ := h.node_back (List.mem_of_find?_eq_some hfind)
      have hnid : n.id = p.1.to :=
        h.inj n.id (Graph.mem_ids.mpr ⟨n, hn, rfl⟩) p.1.to hto (hσ.symm.trans (hid.trans hfix'.symm))
      have hdep : p.1.from ∈ n.deps := by
        have hat : (editedPlan g edges).tasks.find? (fun n => n.id = p.1.to) = some n := find_of_id hn hnid
        rw [hat] at hstated
        simpa using hstated
      have hdep' : p.1.from ∈ n'.deps := hfix ▸ Graph.Renamed.dep_forth hlike hdep hfrom
      simpa using hdep'

/-- **The rules, renamed.** A graph an edited plan's rules hold of, renamed: they hold of it where its nodes pass. -/
theorem EditedRules.renamed (h : g.Renamed σ g') (hr : EditedRules sib (editedPlan g edges))
    (hnodes : ∀ n' ∈ g'.iter, Text.isBlank n'.id = false ∧ checkNode sib n' = .ok ())
    (hends : ∀ edge ∈ edges, σ edge.from = edge.from ∧ σ edge.to = edge.to) : EditedRules sib (editedPlan g' edges) := by
  have hnode {n : Node} (hn : n ∈ g.iter) : n.id ∈ g.ids := Graph.mem_ids.mpr ⟨n, hn, rfl⟩
  obtain ⟨-, -, -, hone⟩ := checkNodes_iff.mp hr.nodes
  have hone' : OneDelivers g'.iter := by
    intro a' ha' b' hb' t hta htb
    obtain ⟨a, ha, haid, halike, -⟩ := h.node_back ha'
    obtain ⟨b, hb, hbid, hblike, -⟩ := h.node_back hb'
    rw [haid, hbid, hone a ha b hb t (halike.delivers ▸ hta) (hblike.delivers ▸ htb)]
  have hdeps : ∀ n' ∈ g'.iter, ∀ d' ∈ n'.deps, checkDep (editedPlan g' edges) n' d' = .ok () := by
    intro n' hn' d' hd'
    obtain ⟨n, hn, hid, hlike, -⟩ := h.node_back hn'
    rw [checkDep_iff]
    rcases h.dep_back hr hn hlike hd' with ⟨d, hd, hin, rfl⟩ | ⟨-, hcross, hout⟩
    · obtain ⟨hself, hlocal⟩ := checkDep_iff.mp (hr.deps n hn d hd)
      obtain ⟨hformed, -, hpreserved⟩ := hlocal (h.own d hin)
      refine ⟨fun heq => hself (h.inj d hin n.id (hnode hn) (heq.trans hid)), fun _ => ⟨h.wellFormed d hin hformed, ?_, ?_⟩⟩
      · exact h.mem_ids hin
      · rintro ⟨hp, hpub, hexport⟩
        refine hpreserved ⟨?_, hlike.publish ▸ hpub, ?_⟩
        · obtain ⟨m', hm', hkept⟩ := List.any_eq_true.mp hp
          obtain ⟨m, hm, hmid, hmlike, -⟩ := h.node_back hm'
          simp only [Bool.and_eq_true, decide_eq_true_eq] at hkept
          have hmd : m.id = d := h.inj m.id (hnode hm) d hin (hmid.symm.trans hkept.2)
          refine List.any_eq_true.mpr ⟨m, hm, ?_⟩
          simp only [Bool.and_eq_true, decide_eq_true_eq]
          exact ⟨hmlike.publish ▸ hkept.1, hmd⟩
        · refine Bool.eq_false_iff.mpr fun hex => ?_
          obtain ⟨edge, he, hat⟩ := List.any_eq_true.mp hex
          simp only [Bool.and_eq_true, decide_eq_true_eq] at hat
          obtain ⟨hfix, hfix'⟩ := hends edge he
          refine Bool.eq_false_iff.mp hexport (List.any_eq_true.mpr ⟨edge, he, ?_⟩)
          simp only [Bool.and_eq_true, decide_eq_true_eq]
          exact ⟨by rw [← hat.1, hfix], by rw [hid, ← hat.2, hfix']⟩
    · refine ⟨fun heq => hout (heq ▸ Graph.mem_ids.mpr ⟨n', hn', rfl⟩), fun hlocal => ?_⟩
      rw [hcross] at hlocal
      cases hlocal
  have hacyclic := h.acyclic hr
  have hstacks : ∃ bases, stackingBases sib (nodesById g'.iter) = .ok bases := by
    obtain ⟨rank, hl⟩ := exists_layered h.own hr.acyclic
    obtain ⟨rank', hl'⟩ := exists_layered h.own' hacyclic
    exact (stackingBases_iff hl').mpr (((stackingBases_iff hl).mp hr.stacking).renamed hl.ids hl'.ids (h.stacking hr))
  exact {
    version := hr.version
    concurrency := by
      show g'.concurrency ≠ 0
      rw [h.concurrency]
      exact hr.concurrency
    goal := rfl
    nodes := checkNodes_iff.mpr ⟨hnodes, fun n _ => ⟨by simp, fun t _ first hf => by simp at hf⟩, g'.nodup_ids, hone'⟩
    edges := h.checkEdges hr hends
    deps := hdeps
    acyclic := hacyclic
    stacking := hstacks }

end

end OnePipeline
