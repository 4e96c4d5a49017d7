/-
Replay against the compiler: what `apply` folds an accepted command's operations to, beside the graph `compile` left.

Two graphs agree when they hold the same ids in the same order, and under each id two nodes that differ in nothing but
the order their dependencies are listed in.

Results:
- `applyAll_edgesInto`, `applyAll_reparent`, `applyAll_dropped`, `applyAll_detached`: what each run of records folds to;
- `supersede_agrees`: a supersession replays alike exactly when its replacement consumes nothing at the id it retires;
- `requeue_agrees`: a requeue does exactly when its amendment leaves the park alone or states it off;
- `replay_agrees_iff`: of every accepted command, replay agrees exactly under those two conditions.
-/
import Mathlib.Tactic
import OnePipeline.Core.Maps
import OnePipeline.Laws.Compiled
import OnePipeline.Model.Replay

namespace OnePipeline

open Checks

/-! ## Agreement -/

/-- two nodes alike but for the order of their dependencies -/
structure Node.Alike (a b : Node) : Prop where
  deps : ∀ d, d ∈ a.deps ↔ d ∈ b.deps
  rest : { a with deps := [] } = { b with deps := [] }

namespace Node.Alike

variable {a b c : Node}

@[refl] protected theorem refl (a : Node) : Alike a a := ⟨fun _ => Iff.rfl, rfl⟩

theorem symm (h : Alike a b) : Alike b a := ⟨fun d => (h.deps d).symm, h.rest.symm⟩

theorem trans (h : Alike a b) (h' : Alike b c) : Alike a c :=
  ⟨fun d => (h.deps d).trans (h'.deps d), h.rest.trans h'.rest⟩

/-- a field but the dependencies is one in two nodes alike -/
theorem field {β : Type} (h : Alike a b) (f : Node → β) (hf : ∀ n : Node, f { n with deps := [] } = f n) : f a = f b := by
  rw [← hf a, ← hf b, h.rest]

theorem id (h : Alike a b) : a.id = b.id := h.field Node.id fun _ => rfl

theorem parked (h : Alike a b) : a.parked = b.parked := h.field Node.parked fun _ => rfl

theorem consumes (h : Alike a b) : a.consumes = b.consumes := h.field Node.consumes fun _ => rfl

end Node.Alike

/-- two graphs of the same ids in one order, with nodes alike under each -/
structure Graph.Agree (g h : Graph) : Prop where
  ids : g.ids = h.ids
  concurrency : g.concurrency = h.concurrency
  nodes : ∀ id, Option.Rel Node.Alike (g.get id) (h.get id)

namespace Graph.Agree

variable {g h : Graph}

@[refl] protected theorem refl (g : Graph) : Agree g g := by
  refine ⟨rfl, rfl, fun id => ?_⟩
  cases g.get id with
  | none => exact .none
  | some n => exact .some (.refl n)

theorem of_eq (he : g = h) : Agree g h := he ▸ .refl g

theorem get (ha : Agree g h) {id : String} {n m : Node} (hn : g.get id = some n) (hm : h.get id = some m) :
    n.Alike m := by
  have hr := ha.nodes id
  rw [hn, hm] at hr
  cases hr with
  | some hr => exact hr

end Graph.Agree

variable {host : Host} {serde : NodeSerde} {graph graph' : Graph} {frontier : Frontier} {author : Author}
  {ops : List Operation}

/-! ## Replaying a list -/

theorem applyAll_append (g : Graph) (l m : List Operation) :
    applyAll serde g (l ++ m) = applyAll serde (applyAll serde g l) m := List.foldl_append

@[simp] theorem applyAll_nil (g : Graph) : applyAll serde g [] = g := rfl

@[simp] theorem applyAll_cons (g : Graph) (op : Operation) (l : List Operation) :
    applyAll serde g (op :: l) = applyAll serde (apply serde g op) l := rfl

/-- one run of records an id, over a list of ids -/
theorem applyAll_flatMap (f : String → List Operation) (l : List String) (g : Graph) :
    applyAll serde g (l.flatMap f) = l.foldl (fun g d => applyAll serde g (f d)) g := by
  induction l generalizing g with
  | nil => rfl
  | cons d l ih => rw [List.flatMap_cons, applyAll_append, ih, List.foldl_cons]

theorem mem_deps_withEdge {«from» d : String} (target : Option String) {n : Node} :
    d ∈ (withEdge «from» target n).deps ↔ d = «from» ∨ d ∈ n.deps := by
  by_cases h : «from» ∈ n.deps
  · simp only [withEdge, if_pos h]
    constructor
    · exact Or.inr
    · rintro (rfl | hd)
      · exact h
      · exact hd
  · simp only [withEdge, if_neg h, List.mem_append, List.mem_singleton]
    exact Or.comm

theorem mem_deps_withoutEdge {«from» d : String} {n : Node} :
    d ∈ (withoutEdge «from» n).deps ↔ d ∈ n.deps ∧ d ≠ «from» := by
  simp [withoutEdge]

/-- an edge a node already holds, at the target it consumes it at -/
theorem withEdge_eq_self {n : Node} {dep : String} (h : dep ∈ n.deps) : withEdge dep n.consumes[dep]? n = n := by
  cases ht : n.consumes[dep]? with
  | none => simp only [withEdge, if_pos h]
  | some t =>
    simp only [withEdge, if_pos h]
    rw [Maps.insert_of_get ht]

/-- the edges recorded into a node are the ones it came with -/
theorem applyAll_edgesInto {g : Graph} {n : Node} (h : g.get n.id = some n) :
    applyAll serde g (edgesInto n) = g := by
  have hall (l : List String) (hl : ∀ d ∈ l, d ∈ n.deps) :
      applyAll serde g (l.map fun dep => .edgeAdded dep n.id n.consumes[dep]?) = g := by
    induction l with
    | nil => rfl
    | cons d l ih =>
      rw [List.map_cons, applyAll_cons, apply, Graph.modify_eq_self, ih fun e he => hl e (List.mem_cons_of_mem _ he)]
      intro m hm
      rw [h] at hm
      cases hm
      exact withEdge_eq_self (hl d List.mem_cons_self)
  exact hall n.deps fun d hd => hd

theorem applyAll_added {g : Graph} {n : Node} {retryOf : Option String} :
    applyAll serde g (.nodeAdded n retryOf :: edgesInto n) = g.insert n := by
  rw [applyAll_cons, apply]
  exact applyAll_edgesInto (by rw [Graph.get_insert, if_pos rfl])

/-! ## Edges and drops -/

/-- the edges of a reparent read back change its node's dependencies alone -/
theorem applyAll_edges {g : Graph} {id : String} {n : Node} (hn : g.get id = some n) (removed added : List String) :
    ∃ deps, applyAll serde g (removed.map (fun dep => .edgeRemoved dep id) ++
      added.map fun dep => .edgeAdded dep id n.consumes[dep]?) = g.modify id fun m => { m with deps } := by
  have hremoved (l : List String) (ds : List String) :
      ∃ deps, applyAll serde (g.modify id fun m => { m with deps := ds }) (l.map fun dep => .edgeRemoved dep id) =
        g.modify id fun m => { m with deps } := by
    induction l generalizing ds with
    | nil => exact ⟨ds, rfl⟩
    | cons d l ih =>
      rw [List.map_cons, applyAll_cons, apply, Graph.modify_modify]
      exact ih (ds.filter fun dep => dep ≠ d)
  have hadded (l : List String) (ds : List String) :
      ∃ deps, applyAll serde (g.modify id fun m => { m with deps := ds })
        (l.map fun dep => .edgeAdded dep id n.consumes[dep]?) = g.modify id fun m => { m with deps } := by
    induction l generalizing ds with
    | nil => exact ⟨ds, rfl⟩
    | cons d l ih =>
      have hstep : (g.modify id fun m => { m with deps := ds }).modify id (withEdge d n.consumes[d]?) =
          g.modify id fun m => { m with deps := if d ∈ ds then ds else ds ++ [d] } := by
        rw [Graph.modify_modify]
        refine Graph.modify_congr fun m hm => ?_
        rw [hn] at hm
        cases hm
        cases ht : n.consumes[d]? with
        | none => rfl
        | some t =>
          simp only [withEdge]
          rw [Maps.insert_of_get ht]
      rw [List.map_cons, applyAll_cons, apply, hstep]
      exact ih _
  have hstart : (g.modify id fun m => { m with deps := n.deps }) = g := by
    refine Graph.modify_eq_self fun m hm => ?_
    rw [hn] at hm
    cases hm
    rfl
  obtain ⟨ds, hds⟩ := hremoved removed n.deps
  rw [hstart] at hds
  rw [applyAll_append, hds]
  exact hadded added ds

theorem applyAll_reparent {g : Graph} {id : String} {n : Node} (hn : g.get id = some n) (deps : List String) :
    applyAll serde g (n.deps.map (fun dep => .edgeRemoved dep id) ++
      deps.map (fun dep => .edgeAdded dep id n.consumes[dep]?) ++ [.reparent id n.deps deps]) =
        g.modify id (reparented deps) := by
  obtain ⟨ds, hds⟩ := applyAll_edges hn n.deps deps
  rw [applyAll_append, hds, applyAll_cons, applyAll_nil, apply, Graph.modify_modify]
  rfl

/-- a node with nothing consumed at any of a list of ids keeps its targets when the list is dropped -/
theorem foldl_withoutConsumed {l : List String} {n : Node} (h : ∀ d ∈ l, d ∉ n.consumes) :
    l.foldl (fun n d => withoutConsumed d n) n = n := by
  induction l generalizing n with
  | nil => rfl
  | cons d l ih =>
    have hd : withoutConsumed d n = n := by
      rw [withoutConsumed, Maps.erase_of_not_mem (h d List.mem_cons_self)]
    rw [List.foldl_cons, hd]
    exact ih fun e he => h e (List.mem_cons_of_mem _ he)

theorem get_applyAll_dropped (how : Dependents) (l : List String) (g : Graph) (k : String) :
    (applyAll serde g (l.map fun d => .nodeDropped d how)).get k =
      if k ∈ l then none else (g.get k).map fun n => l.foldl (fun n d => withoutConsumed d n) n := by
  induction l generalizing g with
  | nil => simp
  | cons d l ih =>
    rw [List.map_cons, applyAll_cons, apply, ih, Graph.get_modifyAll, Graph.get_remove]
    by_cases hk : k = d
    · simp [hk]
    · simp [hk, Function.comp_def]

theorem ids_applyAll_dropped (how : Dependents) (l : List String) (g : Graph) :
    (applyAll serde g (l.map fun d => .nodeDropped d how)).ids = g.ids.filter fun k => k ∉ l := by
  induction l generalizing g with
  | nil => simp
  | cons d l ih =>
    rw [List.map_cons, applyAll_cons, apply, ih, Graph.ids_modifyAll, Graph.ids_remove, List.filter_filter]
    refine List.filter_congr fun k _ => ?_
    simp [Bool.and_comm]

theorem concurrency_applyAll_dropped (how : Dependents) (l : List String) (g : Graph) :
    (applyAll serde g (l.map fun d => .nodeDropped d how)).concurrency = g.concurrency := by
  induction l generalizing g with
  | nil => rfl
  | cons d l ih =>
    rw [List.map_cons, applyAll_cons, ih]
    rfl

/-- dropping ids none of which a node that stays consumes -/
theorem applyAll_dropped {how : Dependents} {l : List String} {g : Graph}
    (h : ∀ k n, g.get k = some n → k ∉ l → ∀ d ∈ l, d ∉ n.consumes) :
    applyAll serde g (l.map fun d => .nodeDropped d how) = l.foldl Graph.remove g := by
  refine Graph.ext_get ?_ ?_ fun k => ?_
  · rw [concurrency_applyAll_dropped, Graph.concurrency_foldl_remove]
  · rw [ids_applyAll_dropped, Graph.ids_foldl_remove]
  · rw [get_applyAll_dropped, Graph.get_foldl_remove]
    split_ifs with hk
    · rfl
    · cases hn : g.get k with
      | none => rfl
      | some n => rw [Option.map_some, foldl_withoutConsumed (h k n hn hk)]

/-- every dependent of a node a drop takes is taken with it -/
theorem droppedWith_closed (g : Graph) {id d k : String} (hd : d ∈ asSet (droppedWith g id)) (hk : k ∈ g.dependentsOf d) :
    k ∈ asSet (droppedWith g id) := by
  have hmem (e : String) : e ∈ asSet (droppedWith g id) ↔ e ∈ droppedWith g id := by
    simp [asSet, Std.ExtTreeSet.mem_toList, Std.ExtTreeSet.mem_ofList]
  have hsupp (e : String) : ∀ w ∈ g.dependentsOf e, w ∈ g.ids := by
    intro w hw
    obtain ⟨n, hn, -⟩ := Graph.mem_dependentsOf.mp hw
    exact Graph.mem_ids_of_get hn
  have hwidth (e : String) : (g.dependentsOf e).length ≤ g.ids.length := by
    rw [Graph.dependentsOf, List.length_map, Graph.ids, Keyed.keys, List.length_map]
    exact List.length_filter_le _ _
  rw [hmem] at hd ⊢
  have hfuel : (g.dependentsOf id).length + (g.ids.length + 1) * (Worklist.unseen g.ids [id]).length <
      Worklist.fuelOf g.ids (g.dependentsOf id) g.ids.length := by
    have hle : (Worklist.unseen g.ids [id]).length ≤ g.ids.length := List.length_filter_le _ _
    have := Nat.mul_le_mul_left (g.ids.length + 1) hle
    rw [Worklist.fuelOf]
    omega
  have hseen : ∀ v ∈ [id], ∀ w ∈ g.dependentsOf v, w ∈ [id] ∨ w ∈ g.dependentsOf id := by
    intro v hv w hw
    rw [List.mem_singleton.mp hv] at hw
    exact Or.inr hw
  exact (Worklist.drain_closed (fun e _ => hsupp e) (fun e _ => hwidth e) _ hfuel (hsupp id) hseen).2 d hd k hk

theorem applyAll_detached {g : Graph} (hcons : ∀ k n, g.get k = some n → ∀ d ∈ n.consumes, d ∈ n.deps) (id : String) :
    applyAll serde g ((g.dependentsOf id).map (fun d => .edgeRemoved id d) ++ [.nodeDropped id .detach]) =
      ((g.dependentsOf id).foldl (fun g d => g.modify d (detached id)) g).remove id := by
  have hedges (l : List String) (g : Graph) :
      applyAll serde g (l.map fun d => .edgeRemoved id d) = l.foldl (fun g d => g.modify d (withoutEdge id)) g := by
    induction l generalizing g with
    | nil => rfl
    | cons d l ih =>
      rw [List.map_cons, applyAll_cons, ih]
      rfl
  have hnd := g.nodup_dependentsOf id
  rw [applyAll_append, hedges, applyAll_cons, applyAll_nil, apply]
  refine Graph.ext_get ?_ ?_ fun k => ?_
  · rw [Graph.concurrency_modifyAll, Graph.concurrency_remove, Graph.concurrency_remove, Graph.concurrency_foldl_modify,
      Graph.concurrency_foldl_modify]
  · rw [Graph.ids_modifyAll, Graph.ids_remove, Graph.ids_remove, Graph.ids_foldl_modify, Graph.ids_foldl_modify]
  · rw [Graph.get_modifyAll, Graph.get_remove, Graph.get_remove, Graph.get_foldl_modify hnd, Graph.get_foldl_modify hnd]
    by_cases hk : k = id
    · rw [if_pos hk, if_pos hk]
      rfl
    · rw [if_neg hk, if_neg hk]
      cases hn : g.get k with
      | none => simp
      | some n =>
        split_ifs with hd
        · rfl
        · have hout : id ∉ n.consumes := fun hin =>
            hd (Graph.mem_dependentsOf.mpr ⟨n, hn, hcons k n hn id hin⟩)
          rw [Option.map_some, withoutConsumed, Maps.erase_of_not_mem hout]

/-! ## Supersessions -/

/-- the records of a rewired dependent -/
def rewireOps (id replacement : String) (carried : String → Option String) (d : String) : List Operation :=
  [.edgeRemoved id d, .edgeAdded replacement d (carried d)]

/-- the dependents rewired in turn: one change each, and one pair of records each -/
theorem foldl_rewireOne {l : List String} (hl : l.Nodup) (id replacement : String) (g : Graph) (acc : List Operation) :
    l.foldl (rewireOne id replacement) (g, acc) =
      (l.foldl (fun g d => g.modify d (rewired id replacement)) g,
        acc ++ l.flatMap (rewireOps id replacement fun d => (g.get d).bind fun n => n.consumes[id]?)) := by
  induction l generalizing g acc with
  | nil => simp
  | cons d l ih =>
    obtain ⟨hd, hl⟩ := List.nodup_cons.mp hl
    have hcarried : l.flatMap (rewireOps id replacement fun e =>
        ((g.modify d (rewired id replacement)).get e).bind fun n => n.consumes[id]?) =
        l.flatMap (rewireOps id replacement fun e => (g.get e).bind fun n => n.consumes[id]?) := by
      refine List.flatMap_congr fun e he => ?_
      have hne : e ≠ d := fun h => hd (h ▸ he)
      rw [rewireOps, rewireOps, Graph.get_modify, if_neg hne]
    rw [List.foldl_cons, rewireOne, ih hl, hcarried, List.foldl_cons, List.flatMap_cons, List.append_assoc]
    rfl

/-- the edge of a dependent read back: the retired dependency goes, the replacement comes -/
def rewiredBack (id replacement : String) (target : Option String) (n : Node) : Node :=
  withEdge replacement target (withoutEdge id n)

theorem applyAll_rewireOps (id replacement : String) (carried : String → Option String) (l : List String) (g : Graph) :
    applyAll serde g (l.flatMap (rewireOps id replacement carried)) =
      l.foldl (fun g d => g.modify d (rewiredBack id replacement (carried d))) g := by
  rw [applyAll_flatMap]
  congr 1
  funext g d
  rw [rewireOps, applyAll_cons, applyAll_cons, applyAll_nil, apply, apply, Graph.modify_modify]
  rfl

/-- a dependent rewired by the compiler and one read back, but for the order of its dependencies -/
theorem alike_rewired {id replacement : String} (hne : replacement ≠ id) {n : Node} (hd : id ∈ n.deps) :
    (withoutConsumed id (rewiredBack id replacement n.consumes[id]? n)).Alike (rewired id replacement n) := by
  have hcons : (withoutConsumed id (rewiredBack id replacement n.consumes[id]? n)).consumes =
      (rewired id replacement n).consumes := by
    cases ht : n.consumes[id]? with
    | none => simp only [withoutConsumed, rewiredBack, withEdge, withoutEdge, rewired, ht]
    | some t =>
      simp only [withoutConsumed, rewiredBack, withEdge, withoutEdge, rewired, ht]
      rw [Maps.erase_insert hne]
  constructor
  · intro d
    have hback : d ∈ (withoutConsumed id (rewiredBack id replacement n.consumes[id]? n)).deps ↔
        d = replacement ∨ (d ∈ n.deps ∧ d ≠ id) := by
      rw [← mem_deps_withoutEdge]
      exact mem_deps_withEdge n.consumes[id]?
    rw [hback]
    simp only [rewired, List.mem_map]
    constructor
    · rintro (rfl | ⟨hdn, hdi⟩)
      · exact ⟨id, hd, if_pos rfl⟩
      · exact ⟨d, hdn, if_neg hdi⟩
    · rintro ⟨e, he, rfl⟩
      by_cases hei : e = id
      · exact Or.inl (if_pos hei)
      · rw [if_neg hei]
        exact Or.inr ⟨he, hei⟩
  · have hrest : { withoutConsumed id (rewiredBack id replacement n.consumes[id]? n) with deps := [] } =
        { n with
          deps := []
          consumes := (withoutConsumed id (rewiredBack id replacement n.consumes[id]? n)).consumes } := rfl
    rw [hrest, hcons]
    rfl

/-- a supersession's records folded back: a replacement taken in, the dependents rewired, the retired node dropped -/
theorem applyAll_supersede (id : String) (replacement : Node) {request : Operation}
    (hrequest : ∀ g, apply serde g request = g) :
    applyAll serde graph (supersede graph id replacement request).2 =
      (((graph.dependentsOf id).foldl (fun g d => g.modify d (rewiredBack id replacement.id
        (((graph.insert replacement).get d).bind fun n => n.consumes[id]?))) (graph.insert replacement)).remove
          id).modifyAll (withoutConsumed id) := by
  have hstart : applyAll serde graph (request :: .nodeAdded replacement (some id) :: edgesInto replacement) =
      graph.insert replacement := by
    rw [applyAll_cons, hrequest, applyAll_added]
  rw [supersede, foldl_rewireOne (graph.nodup_dependentsOf id), applyAll_append, applyAll_append, hstart,
    applyAll_rewireOps]
  rfl

theorem supersede_graph (id : String) (replacement : Node) (request : Operation) :
    (supersede graph id replacement request).1 =
      ((graph.dependentsOf id).foldl (fun g d => g.modify d (rewired id replacement.id)) (graph.insert replacement)).remove
        id := by
  rw [supersede, foldl_rewireOne (graph.nodup_dependentsOf id)]

section

variable {id : String} {replacement : Node} {change : String → Node → Node} {keeps : ∀ d n, (change d n).id = n.id}

/-- the node under each id once a replacement is in, the dependents are changed and the retired node is out -/
theorem get_superseding (hnew : replacement.id ∉ graph.ids) (k : String) :
    (((graph.dependentsOf id).foldl (fun g d => g.modify d (change d) (keeps d)) (graph.insert replacement)).remove
        id).get k =
      if k = id then none
      else if k = replacement.id then some replacement
      else if k ∈ graph.dependentsOf id then (graph.get k).map (change k)
      else graph.get k := by
  have hout : replacement.id ∉ graph.dependentsOf id := by
    intro hd
    obtain ⟨n, hn, -⟩ := Graph.mem_dependentsOf.mp hd
    exact hnew (Graph.mem_ids_of_get hn)
  rw [Graph.get_remove, Graph.get_foldl_modify (graph.nodup_dependentsOf id), Graph.get_insert]
  by_cases hk : k = id
  · rw [if_pos hk, if_pos hk]
  · by_cases hr : k = replacement.id
    · rw [if_neg hk, if_neg hk, if_neg (hr ▸ hout), if_pos hr, if_pos hr]
    · rw [if_neg hk, if_neg hk, if_neg hr, if_neg hr]

end

/-- **A supersession.** Replay leaves the compiler's graph exactly when the replacement consumes nothing at the id it
retires. -/
theorem supersede_agrees {id : String} {target replacement : Node} {request : Operation} (hget : graph.get id = some target)
    (hcons : ∀ k n, graph.get k = some n → ∀ d ∈ n.consumes, d ∈ n.deps) (hnew : replacement.id ∉ graph.ids)
    (hrequest : ∀ g, apply serde g request = g) :
    (applyAll serde graph (supersede graph id replacement request).2).Agree (supersede graph id replacement request).1 ↔
      id ∉ replacement.consumes := by
  have hne : replacement.id ≠ id := fun h => hnew (h ▸ Graph.mem_ids_of_get hget)
  rw [applyAll_supersede id replacement hrequest, supersede_graph]
  constructor
  · intro hagree
    have hat : (withoutConsumed id replacement).Alike replacement := by
      refine @Graph.Agree.get _ _ hagree replacement.id _ _ ?_ ?_
      · rw [Graph.get_modifyAll, get_superseding hnew, if_neg hne, if_pos rfl, Option.map_some]
      · rw [get_superseding hnew, if_neg hne, if_pos rfl]
    exact Maps.erase_eq_self.mp hat.consumes
  · intro hfree
    refine ⟨?_, ?_, fun k => ?_⟩
    · rw [Graph.ids_modifyAll, Graph.ids_remove, Graph.ids_remove, Graph.ids_foldl_modify, Graph.ids_foldl_modify]
    · rw [Graph.concurrency_modifyAll, Graph.concurrency_remove, Graph.concurrency_remove,
        Graph.concurrency_foldl_modify, Graph.concurrency_foldl_modify]
    · rw [Graph.get_modifyAll, get_superseding hnew, get_superseding hnew]
      split_ifs with hk hr hd
      · exact .none
      · rw [Option.map_some, withoutConsumed, Maps.erase_of_not_mem hfree]
        exact .some (.refl _)
      · obtain ⟨n, hn, hdep⟩ := Graph.mem_dependentsOf.mp hd
        rw [Graph.get_insert, if_neg hr, hn]
        exact .some (alike_rewired hne hdep)
      · cases hn : graph.get k with
        | none => exact .none
        | some n =>
          have hkeep : id ∉ n.consumes := fun hin => hd (Graph.mem_dependentsOf.mpr ⟨n, hn, hcons k n hn id hin⟩)
          rw [Option.map_some, withoutConsumed, Maps.erase_of_not_mem hkeep]
          exact .some (.refl _)

/-! ## Requeues -/

theorem getElem?_merge (o a : Fields) (k : String) : (merge o (some a))[k]? = a[k]?.or o[k]? := Maps.get_insertAll o a k

/-- an amendment that states nothing is recorded as no amendment -/
theorem merge_filter (o : Fields) (amend : Option Fields) : merge o (amend.filter fun a => !a.isEmpty) = merge o amend := by
  cases amend with
  | none => rfl
  | some a =>
    by_cases ha : a.isEmpty = true
    · have hnil : a = ∅ := Std.ExtTreeMap.isEmpty_iff.mp ha
      rw [Option.filter_some, if_neg (by simp [ha]), hnil]
      rfl
    · rw [Option.filter_some, if_pos (by simpa using ha)]

/-- the object replay reads: the compiler's, with the park the amendment states where it states one -/
theorem replayed_object (o : Fields) (amend : Option Fields) :
    merge (o.erase "parked") amend =
      match amend.bind fun a => a["parked"]? with
      | some v => ((merge o amend).erase "parked").insert "parked" v
      | none => (merge o amend).erase "parked" := by
  cases amend with
  | none => rfl
  | some a =>
    refine Std.ExtTreeMap.ext_getElem? fun k => ?_
    rw [getElem?_merge, Option.bind_some]
    cases hv : a["parked"]? with
    | none =>
      rw [Maps.get_erase, Maps.get_erase, getElem?_merge]
      split_ifs with hk
      · rw [hk, hv]
        rfl
      · rfl
    | some v =>
      rw [Maps.get_insert, Maps.get_erase, Maps.get_erase, getElem?_merge]
      split_ifs with hk
      · rw [hk, hv]
        rfl
      · rfl

/-- a node read back from a requeue keeps its id where the amendment states none -/
theorem id_of_requeued {n amended : Node} {amend : Option Fields} (hid : amends amend "id" = false)
    (h : requeued serde n amend = some amended) : amended.id = n.id := by
  unfold requeued at h
  cases hread : serde.ofObject (merge ((serde.toObject n).erase "parked") amend) with
  | error e => simp [hread] at h
  | ok m =>
    simp only [hread, Option.some.injEq] at h
    subst h
    have herase : ((serde.toObject n).erase "parked")["id"]? = (serde.toObject n)["id"]? := by
      rw [Maps.get_erase, if_neg (by decide)]
    have hkeep : (merge ((serde.toObject n).erase "parked") amend)["id"]? = (serde.toObject n)["id"]? := by
      cases amend with
      | none => exact herase
      | some a =>
        have ha : a["id"]? = none := Maps.not_mem_iff.mp (by simpa [amends] using hid)
        rw [getElem?_merge, ha, herase]
        rfl
    have hm := serde.id_of_ok hread
    rw [hkeep, serde.id_of_ok (serde.ofObject_toObject n)] at hm
    exact (Value.str.inj (Option.some.inj hm)).symm

/-- a requeue read back changes the node of its id alone -/
theorem get_apply_requeued {g : Graph} {node : String} {amend : Option Fields} (hid : amends amend "id" = false)
    {k : String} (hk : k ≠ node) : (apply serde g (.nodeRequeued node amend)).get k = g.get k := by
  rw [apply]
  cases hg : g.get node with
  | none => rfl
  | some n =>
    rw [Option.bind_some]
    cases hr : requeued serde n amend with
    | none => rfl
    | some amended =>
      have hname : amended.id = node := (id_of_requeued hid hr).trans (Graph.id_of_get hg)
      simp only
      rw [Graph.get_insert, if_neg (hname.symm ▸ hk)]

/-- whether an amendment leaves the park to the requeue: unstated, or stated off -/
def leavesThePark (amend : Option Fields) : Bool := (amend.bind fun a => a["parked"]?).all (Value.isBool false)

/-- **A requeue.** Replay leaves the compiler's graph exactly when the amendment leaves the park to the requeue. -/
theorem requeue_agrees {id : String} {amend : Option Fields}
    (h : compileRequeue host graph frontier author id amend = .ok (graph', ops)) :
    (applyAll host.serde graph ops).Agree graph' ↔ leavesThePark amend = true := by
  obtain ⟨node, amended, hget, hparked, hid, hread, rfl, rfl⟩ := compileRequeue_ok h
  have habsent : (requeueObject host.serde node amend)["parked"]? = none := by
    rw [requeueObject, Maps.get_erase, if_pos rfl]
  have hpark : amended.parked = false := host.serde.parked_of_absent habsent hread
  have hamended : amended.id = id := by
    have hkeep : (requeueObject host.serde node amend)["id"]? = (host.serde.toObject node)["id"]? := by
      rw [requeueObject, Maps.get_erase, if_neg (by decide)]
      cases amend with
      | none => rfl
      | some a =>
        have ha : a["id"]? = none := Maps.not_mem_iff.mp (by simpa [amends] using hid)
        rw [getElem?_merge, ha]
        rfl
    have hread' := host.serde.id_of_ok hread
    rw [hkeep, host.serde.id_of_ok (host.serde.ofObject_toObject node), Graph.id_of_get hget] at hread'
    exact (Value.str.inj (Option.some.inj hread')).symm
  rw [applyAll_cons, applyAll_nil, apply, hget, Option.bind_some, requeued, merge_filter, replayed_object,
    ← requeueObject, leavesThePark]
  cases amend.bind fun a => a["parked"]? with
  | none =>
    simp only [hread, Option.all_none, iff_true]
    exact .refl _
  | some v =>
    simp only [Option.all_some]
    have hstays {other : Graph} (hn : (other.get id).map Node.parked = some true) :
        ¬other.Agree (graph.insert { amended with
          classification := amended.classification.strictest node.classification }) := by
      intro hagree
      obtain ⟨n, hn, hnp⟩ := Option.map_eq_some_iff.mp hn
      have halike := hagree.get hn (by rw [Graph.get_insert, if_pos hamended.symm])
      rw [halike.parked, hpark] at hnp
      cases hnp
    cases v with
    | bool b =>
      have hback := (host.serde.ofObject_parked (b := b) habsent).mpr ⟨amended, hread, rfl⟩
      rw [hback]
      cases b with
      | false =>
        have hsame : { amended with parked := false } = amended := by rw [← hpark]
        rw [hsame]
        exact ⟨fun _ => rfl, fun _ => .refl _⟩
      | true =>
        refine iff_of_false (hstays ?_) (by decide)
        rw [Graph.get_insert, if_pos hamended.symm]
        rfl
    | _ =>
      split
      · rename_i hread'
        split at hread'
        · rename_i hok
          exact absurd hok (host.serde.not_ok_of_not_bool (by rintro b ⟨⟩))
        · cases hread'
      · exact iff_of_false (hstays (by rw [hget, Option.map_some, hparked])) (by simp [Value.isBool])

/-! ## Every command -/

/-- whether a command's records read back as the graph it left -/
def replaysAlike : Command → Bool
  | .requeue _ amend => leavesThePark amend
  | .retry id node => id ∉ node.consumes
  | _ => true

/-- a graph whose nodes pass the check of a plan consumes at dependencies alone, and no node depends on itself -/
structure Graph.Sound (g : Graph) : Prop where
  consumes : ∀ k n, g.get k = some n → ∀ d ∈ n.consumes, d ∈ n.deps
  notSelf : ∀ k n, g.get k = some n → k ∉ n.deps

theorem EditedRules.sound {source : Plan} (h : EditedRules host.toSiblings (graph.toPlan source)) : graph.Sound where
  consumes _ _ hn _ hd := h.consumes_dep (Graph.get_eq_some.mp hn).1 hd
  notSelf _ _ hn := Graph.id_of_get hn ▸ h.not_self (Graph.get_eq_some.mp hn).1

theorem retry_agrees {id : String} {node : Node} (hs : graph.Sound)
    (h : compileRetry host graph frontier id node = .ok (graph', ops)) :
    (applyAll serde graph ops).Agree graph' ↔ id ∉ node.consumes := by
  obtain ⟨target, replacement, hget, -, -, hnew, hrep, heq⟩ := compileRetry_ok h
  obtain ⟨hid, -, hcons, -, hdeps⟩ := retryReplacement_ok hrep
  obtain ⟨rfl, rfl⟩ := Prod.ext_iff.mp heq
  rw [supersede_agrees hget hs.consumes (hid ▸ hnew) fun _ => rfl, hcons]
  split_ifs with hnil
  · have htarget : id ∉ target.consumes := fun hin => hs.notSelf id target hget (hs.consumes id target hget id hin)
    have hnode : id ∉ node.consumes := by
      intro hin
      have hd := hdeps id hin
      rw [hnil] at hd
      cases hd
    exact iff_of_true htarget hnode
  · exact Iff.rfl

theorem rework_agrees {rework : Rework} (hs : graph.Sound)
    (h : compileRework host graph frontier rework = .ok (graph', ops)) : (applyAll serde graph ops).Agree graph' := by
  obtain ⟨target, id, branch, hget, -, -, -, hid, heq⟩ := compileRework_ok h
  obtain ⟨rfl, rfl⟩ := Prod.ext_iff.mp heq
  have hnew : id ∉ graph.ids := by
    have hu := reworkId_ok hid
    simp only [used, Bool.or_eq_false_iff] at hu
    exact Graph.contains_eq_false.mp hu.1.1.1
  rw [supersede_agrees hget hs.consumes hnew fun _ => rfl]
  exact fun hin => hs.notSelf _ target hget (hs.consumes _ target hget _ hin)

/-- an accepted command that passed the compiler: the graph its records fold to -/
theorem compileInto_agrees {command : Command} (hs : graph.Sound)
    (h : compileInto host graph frontier author command = .ok (graph', ops)) :
    (applyAll host.serde graph ops).Agree graph' ↔ replaysAlike command = true := by
  cases command with
  | requeue id amend => exact requeue_agrees h
  | retry id node => exact (retry_agrees hs h).trans (by simp [replaysAlike])
  | rework id reason instruction comments title replacement => exact iff_of_true (rework_agrees hs h) rfl
  | review => cases h
  | readjust => cases h
  | setNodeSets id sets =>
    obtain ⟨-, rfl, rfl⟩ := compileSetNodeSets_ok h
    exact iff_of_true (.refl _) rfl
  | setRunNodeSets sets =>
    simp only [compileInto, bind_eq_ok, exists_unit, pure_eq_ok, Prod.mk.injEq] at h
    obtain ⟨-, rfl, rfl⟩ := h
    exact iff_of_true (.refl _) rfl
  | add node =>
    obtain ⟨-, -, rfl, rfl⟩ := compileAdd_ok h
    exact iff_of_true (.of_eq applyAll_added) rfl
  | drop id dependents reason =>
    obtain ⟨target, hget, hout⟩ := compileDrop_ok h
    cases dependents with
    | drop =>
      obtain ⟨rfl, rfl⟩ := hout
      refine iff_of_true (.of_eq (applyAll_dropped fun k n hn hk d hd hc => hk ?_)) rfl
      exact droppedWith_closed graph hd (Graph.mem_dependentsOf.mpr ⟨n, hn, hs.consumes k n hn d hc⟩)
    | detach =>
      obtain ⟨rfl, rfl⟩ := hout
      exact iff_of_true (.of_eq (applyAll_detached hs.consumes id)) rfl
  | reparent id deps =>
    obtain ⟨node, hget, -, rfl, rfl⟩ := compileReparent_ok h
    exact iff_of_true (.of_eq (applyAll_reparent hget deps)) rfl
  | cancel id reason =>
    obtain ⟨node, -, -, -, rfl, rfl⟩ := compileCancel_ok h
    exact iff_of_true (.refl _) rfl
  | attest reference =>
    obtain ⟨-, -, rfl, rfl⟩ := compileAttest_ok h
    exact iff_of_true (.refl _) rfl
  | complete reason =>
    cases h
    exact iff_of_true (.refl _) rfl
  | amend id text =>
    obtain ⟨-, -, rfl, rfl⟩ := compileAmend_ok h
    exact iff_of_true (.refl _) rfl
  | note id addressee text criterion deliver persist seconds =>
    obtain ⟨-, rfl, rfl⟩ := compileNote_ok h
    exact iff_of_true (.refl _) rfl
  | withdrawNote envelope index reason =>
    cases h
    exact iff_of_true (.refl _) rfl
  | finding message blocking id =>
    obtain ⟨rfl, rfl⟩ := compileFinding_ok h
    exact iff_of_true (.refl _) rfl
  | settle id outcome evidence landing release =>
    simp only [compileInto, bind_eq_ok] at h
    obtain ⟨stated, -, h⟩ := h
    obtain ⟨-, rfl, rfl⟩ := compileSettle_ok h
    refine iff_of_true (.of_eq ?_) rfl
    cases stated.landing? <;> rfl
  | retitle id title reason =>
    obtain ⟨-, rfl, rfl⟩ := compileRetitle_ok h
    exact iff_of_true (.refl _) rfl
  | decline id comments reason =>
    obtain ⟨rfl, rfl⟩ := compileDecline_ok h
    exact iff_of_true (.refl _) rfl

/-- resolving a command's graph references changes nothing replay depends on -/
theorem replaysAlike_resolves {command resolved : Command} (h : Resolves command resolved) :
    replaysAlike resolved = replaysAlike command := by
  cases h with
  | same => rfl
  | add => rfl
  | retry => rfl
  | requeue id amend amend' keeps =>
    simp only [replaysAlike, leavesThePark, Option.bind_some, keeps "parked" (by decide) (by decide)]

/-- **Replay.** Folding an accepted command's operations onto the graph it was compiled against gives the graph it left
exactly when a requeue's amendment leaves the park alone and a retry's node consumes nothing at the id it retires. -/
theorem replay_agrees_iff {source : Plan} {command : Command}
    (hchecked : checkEdited host.toSiblings (graph.toPlan source) = .ok ())
    (h : compile host graph frontier author command = .ok (graph', ops)) :
    (applyAll host.serde graph ops).Agree graph' ↔ replaysAlike command = true := by
  obtain ⟨resolved, haccepted⟩ := compile_ok h
  have hs := (checkEdited_eq_ok.mp hchecked).sound
  rw [compileInto_agrees hs haccepted.compiles, replaysAlike_resolves (resolves_of_ok haccepted.resolves)]

/-- a graph of one held node -/
def heldGraph : Graph := .ofNodes [{ Node.direct "a" [] with parked := true }]

/-- an amendment stating the park a requeue takes off -/
def statesParked : Fields := (∅ : Fields).insert "parked" (.bool true)

/-- a requeue stating the park it takes off: compiled it releases the node, read back it holds it still -/
theorem requeue_stating_parked_disagrees :
    checkEdited Host.lenient.toSiblings (editedPlan heldGraph []) = .ok () ∧
      ∃ graph' ops, compile .lenient heldGraph {} .planner (.requeue "a" (some statesParked)) = .ok (graph', ops) ∧
        ¬(applyAll Host.lenient.serde heldGraph ops).Agree graph' := by
  refine ⟨by decide, ?_⟩
  obtain ⟨⟨graph', ops⟩, hok, hp⟩ := exists_ok_of_any
    (x := compile .lenient heldGraph {} .planner (.requeue "a" (some statesParked)))
    (p := fun p => (p.1.get "a").map Node.parked = some false ∧
      ((applyAll Host.lenient.serde heldGraph p.2).get "a").map Node.parked = some true) (by decide)
  obtain ⟨hcompiled, hreplayed⟩ := of_decide_eq_true hp
  refine ⟨graph', ops, hok, fun hagree => ?_⟩
  obtain ⟨n, hn, hnp⟩ := Option.map_eq_some_iff.mp hcompiled
  obtain ⟨m, hm, hmp⟩ := Option.map_eq_some_iff.mp hreplayed
  rw [(hagree.get hm hn).parked, hnp] at hmp
  cases hmp

/-- a requeue amending nothing, read back as it was compiled -/
theorem replay_agrees_of_plain_requeue :
    ∃ graph' ops, compile .lenient heldGraph {} .planner (.requeue "a" none) = .ok (graph', ops) ∧
      (applyAll Host.lenient.serde heldGraph ops).Agree graph' := by
  obtain ⟨⟨graph', ops⟩, hok, -⟩ := exists_ok_of_any (x := compile .lenient heldGraph {} .planner (.requeue "a" none))
    (p := fun _ => true) (by decide)
  have hchecked : checkEdited Host.lenient.toSiblings (heldGraph.toPlan (editedPlan heldGraph [])) = .ok () := by
    decide
  exact ⟨graph', ops, hok, (replay_agrees_iff hchecked hok).mpr (by decide)⟩

end OnePipeline
