/-
The base a preserved node's dispatch starts from (`src/engine.rs`: `StackingPlacement::base_for`), over a run's edits and calls.

The reading kept is of the whole graph, so a refusal anywhere in it refuses every node (`other_subtree_refuses`); the one made at the
dispatch is of the node's own ancestors.

Results:
- `Within.bases`: a reading of nodes closed under their dependencies answers what one of the whole does;
- `shape_within`: a reading depends on the placement's shape only;
- `baseFor_meets_iff`: one call;
- `base_for_placed`: along any run of edits and calls, exactly when a refusal outside its ancestors does not fail a node.
-/
import OnePipeline.Laws.Chains
import OnePipeline.Laws.Placement
import OnePipeline.Laws.Renaming
import OnePipeline.Model.StackingPlacement

namespace OnePipeline

open Checks Relation

/-! ## Nodes within nodes -/

/-- nodes as far as their bases are read from them -/
structure Node.PlacedAs (n m : Node) : Prop where
  id : n.id = m.id
  publish : n.publish = m.publish
  repo : n.repo = m.repo
  deps : n.deps = m.deps
  baseBranch : n.baseBranch = m.baseBranch

/-- preserved nodes among others, with the preserved nodes they depend on -/
structure Within (nodes whole : StrMap Node) : Prop where
  preserved : ∀ (k : String) (n : Node), nodes[k]? = some n → n.publish = .preserve → ∃ m : Node, whole[k]? = some m ∧ n.PlacedAs m
  landing : ∀ (k : String) (n m : Node), nodes[k]? = some n → whole[k]? = some m → n.publish ≠ .preserve → m.publish ≠ .preserve
  closed : ∀ (k : String) (n : Node), nodes[k]? = some n → n.publish = .preserve → ∀ d ∈ n.deps, ∀ m : Node, whole[d]? = some m →
    m.publish = .preserve → ∃ c : Node, nodes[d]? = some c ∧ c.PlacedAs m

section

variable {sib : Siblings} {nodes whole : StrMap Node} {base : String → Option String} {rank rank' : String → ℕ}

theorem Within.candidate_forth (h : Within nodes whole) {n m c : Node} (hn : nodes[n.id]? = some n) (hnm : n.PlacedAs m)
    (hpub : n.publish = .preserve) (hc : Candidate sib whole m c) : ∃ c', Candidate sib nodes n c' ∧ c'.id = c.id := by
  obtain ⟨⟨d, hd, hdc⟩, hone⟩ := hc
  obtain ⟨c', hc', halike⟩ := h.closed _ n hn hpub d (hnm.deps ▸ hd) c hdc hone.1
  exact ⟨c', ⟨⟨d, hnm.deps ▸ hd, hc'⟩, hone.of_fields hnm.repo halike.repo halike.publish⟩, halike.id⟩

theorem Within.candidate_back (h : Within nodes whole) {n m c' : Node} (hnm : n.PlacedAs m) (hc : Candidate sib nodes n c') :
    ∃ c, Candidate sib whole m c ∧ c.id = c'.id := by
  obtain ⟨⟨d, hd, hdc⟩, hone⟩ := hc
  obtain ⟨c, hc, halike⟩ := h.preserved d c' hdc hone.1
  refine ⟨c, ⟨⟨d, hnm.deps ▸ hd, hc⟩, hone.of_fields hnm.repo.symm halike.repo.symm halike.publish.symm⟩, halike.id.symm⟩

/-- an assignment that follows the rule at every node follows it at the nodes within them -/
theorem Within.rule (h : Within nodes whole) (hl : Layered nodes rank) (hw : Layered whole rank')
    (hb : ∀ (k : String) (m : Node), whole[k]? = some m → Rule sib whole base m) (hout : ∀ k : String, k ∉ whole → base k = none)
    {k : String} {n : Node} (hn : nodes[k]? = some n) : Rule sib nodes base n := by
  obtain rfl := hl.ids k n hn
  by_cases hpub : n.publish = .preserve
  · obtain ⟨m, hm, hnm⟩ := h.preserved _ n hn hpub
    have hread (hreads : ∀ d ∈ m.deps, ∀ dep, whole[d]? = some dep → Readable sib m dep) :
        ∀ d ∈ n.deps, ∀ dep, nodes[d]? = some dep → Readable sib n dep := by
      intro d hd dep hdep hland
      obtain ⟨dep', hdep', halike⟩ := h.preserved d dep hdep hland
      exact (hreads d (hnm.deps ▸ hd) dep' hdep').of_fields hnm.repo halike.repo halike.publish hland
    cases hb _ m hm with
    | lands hland => exact absurd (hnm.publish.symm.trans hpub) hland
    | first _ reads alone hnone =>
      refine .first hpub (hread reads) (fun c hc => ?_) (hnm.id ▸ hnone)
      obtain ⟨c', hc', -⟩ := h.candidate_back hnm hc
      exact alone c' hc'
    | stacked c _ reads hc free hsome top =>
      obtain ⟨c', hc', hid⟩ := h.candidate_forth hn hnm hpub hc
      refine .stacked c' hpub (hread reads) hc' (hnm.baseBranch ▸ free) ?_ fun o ho => ?_
      · rw [hnm.id, hsome, hid]
      · obtain ⟨o', ho', ho⟩ := h.candidate_back hnm ho
        rw [hid, ← ho]
        exact top o' ho'
  · refine .lands hpub ?_
    cases hm : whole[n.id]? with
    | none => exact hout _ (Maps.not_mem_iff.mpr hm)
    | some m =>
      have hland := h.landing _ n m hn hm hpub
      cases hb _ m hm with
      | lands _ hnone => exact hw.ids _ m hm ▸ hnone
      | first hpres => exact absurd hpres hland
      | stacked _ hpres => exact absurd hpres hland

/-- **A reading of some.** Where the bases of a whole resolve, those of nodes within it do, to the same. -/
theorem Within.bases (h : Within nodes whole) (hl : Layered nodes rank) (hw : Layered whole rank') {bases : StrMap String}
    (hb : stackingBases sib whole = .ok bases) :
    ∃ bases', stackingBases sib nodes = .ok bases' ∧ ∀ k : String, k ∈ nodes → bases'[k]? = bases[k]? := by
  obtain ⟨st, rfl, hs, hvisited⟩ := stackingBases_spec hw hb
  have hwhole (k : String) (m : Node) (hm : whole[k]? = some m) : Rule sib whole (links st.bases) m :=
    hs.rule k m hm (hvisited k (Maps.mem_iff.mpr ⟨m, hm⟩)) (by simp)
  have hout (k : String) (hk : k ∉ whole) : links st.bases k = none := hs.out k (.inl fun hv => hk (hs.live k hv))
  have hrule (k : String) (n : Node) (hn : nodes[k]? = some n) : Rule sib nodes (links st.bases) n :=
    h.rule hl hw hwhole hout hn
  obtain ⟨bases', hb'⟩ := (stackingBases_iff hl).mpr ⟨_, hrule⟩
  refine ⟨bases', hb', fun k hk => ?_⟩
  obtain ⟨st', rfl, hs', hvisited'⟩ := stackingBases_spec hl hb'
  obtain ⟨n, hn⟩ := Maps.mem_iff.mp hk
  obtain rfl := hl.ids k n hn
  exact hs'.agrees hl hrule hn (hvisited' _ hk) (by simp)

end

/-! ## A graph's nodes -/

section

variable {graph kept : Graph} {node : String}

open StackingPlacement

theorem layered_of_acyclic (h : ∀ a, ¬TransGen graph.DependsOn a a) : ∃ rank, Layered (nodesById graph.iter) rank := by
  have hrel : DependsIn (nodesById graph.iter) = graph.DependsOn := by
    funext a b
    simp only [DependsIn, Graph.DependsOn, nodesById_get, mem_nodesById]
  refine Acyclical.exists_layered ⟨fun k n hn => ?_, fun a => hrel ▸ h a⟩
  exact Graph.id_of_get (nodesById_get graph k ▸ hn)

theorem get_shapeOf (k : String) : (shapeOf graph)[k]? =
    ((graph.get k).filter fun n => n.publish = .preserve).map fun n =>
      { repo := n.repo, deps := n.deps, publish := n.publish, base := n.baseBranch } := by
  have hnodup : ((graph.iter.filter fun n => n.publish = .preserve).map Node.id).Nodup :=
    graph.nodup_ids.sublist (List.filter_sublist.map Node.id)
  by_cases hin : k ∈ (graph.iter.filter fun n => n.publish = .preserve).map Node.id
  · obtain ⟨n, hn, rfl⟩ := List.mem_map.mp hin
    rw [shapeOf, Maps.get_foldl_insert_by Node.id _ hnodup ∅ hn]
    obtain ⟨hn, hpub⟩ := List.mem_filter.mp hn
    simp [Graph.get_of_mem hn, Option.filter, of_decide_eq_true hpub]
  · have hnone : (graph.get k).filter (fun n => n.publish = .preserve) = none := by
      refine Option.filter_eq_none_iff.mpr fun n hn hpub => hin ?_
      obtain ⟨hmem, rfl⟩ := Graph.get_eq_some.mp hn
      exact List.mem_map_of_mem (List.mem_filter.mpr ⟨hmem, hpub⟩)
    rw [hnone, Option.map_none, ← Maps.not_mem_iff, shapeOf, Maps.mem_foldl_insert_by]
    simpa using hin

/-- graphs of one shape: the preserved nodes of one are those of the other -/
theorem preserved_of_shape (h : shapeOf graph = shapeOf kept) {k : String} {n : Node} (hn : graph.get k = some n)
    (hpub : n.publish = .preserve) : ∃ m, kept.get k = some m ∧ n.PlacedAs m := by
  have hk := @get_shapeOf graph k
  rw [h, get_shapeOf, hn] at hk
  simp only [Option.filter, hpub, decide_true, if_true, Option.map_some, Option.map_eq_some_iff] at hk
  obtain ⟨m, hm, heq⟩ := hk
  have hget : kept.get k = some m := (Option.filter_eq_some_iff.mp hm).1
  injection heq with hrepo hdeps hpublish hbase
  refine ⟨m, hget, (Graph.id_of_get hn).trans (Graph.id_of_get hget).symm, ?_, hrepo.symm, hdeps.symm, hbase.symm⟩
  rw [hpub, hpublish]

/-- **The shape.** A reading depends on nothing else of a graph. -/
theorem shape_within (h : shapeOf graph = shapeOf kept) : Within (nodesById graph.iter) (nodesById kept.iter) where
  preserved k n hn hpub := by
    rw [nodesById_get] at hn ⊢
    exact preserved_of_shape h hn hpub
  landing k n m hn hm hland hpub := by
    rw [nodesById_get] at hn hm
    obtain ⟨n', hn', hplaced⟩ := preserved_of_shape h.symm hm hpub
    rw [hn] at hn'
    cases hn'
    exact hland (hplaced.publish.symm.trans hpub)
  closed k n hn hpub d hd m hm hpubm := by
    rw [nodesById_get] at hm ⊢
    obtain ⟨c, hc, hplaced⟩ := preserved_of_shape h.symm hm hpubm
    exact ⟨c, hc, hplaced.id.symm, hplaced.publish.symm, hplaced.repo.symm, hplaced.deps.symm, hplaced.baseBranch.symm⟩

theorem mem_dependencies {n : Node} : n ∈ dependencies graph node ↔ graph.get n.id = some n ∧ ReflTransGen graph.DependsOn node n.id ∧
    node ∈ graph.ids := by
  have hp : ∀ v ∈ [node].filter fun id => id ∈ graph.ids, v ∈ graph.ids := by
    intro v hv
    exact of_decide_eq_true (List.mem_filter.mp hv).2
  rw [dependencies, List.mem_filterMap]
  constructor
  · rintro ⟨id, hid, hn⟩
    obtain rfl := Graph.id_of_get hn
    obtain ⟨p, hp, hr⟩ := (mem_drain_deps hp).mp hid
    obtain ⟨hp, hin⟩ := List.mem_filter.mp hp
    rw [List.mem_singleton.mp hp] at hr hin
    exact ⟨hn, hr, of_decide_eq_true hin⟩
  · rintro ⟨hn, hr, hin⟩
    exact ⟨n.id, (mem_drain_deps hp).mpr ⟨node, by simp [hin], hr⟩, hn⟩

theorem get_dependencies (k : String) (n : Node) : (nodesById (dependencies graph node))[k]? = some n ↔
    graph.get k = some n ∧ ReflTransGen graph.DependsOn node k ∧ node ∈ graph.ids := by
  have hsame : ∀ c ∈ dependencies graph node, ∀ d ∈ dependencies graph node, c.id = d.id → c = d := by
    intro c hc d hd heq
    have hcg := (mem_dependencies.mp hc).1
    rw [heq, (mem_dependencies.mp hd).1] at hcg
    exact (Option.some.inj hcg).symm
  constructor
  · intro h
    have hin : k ∈ nodesById (dependencies graph node) := Maps.mem_iff.mpr ⟨n, h⟩
    rw [nodesById, Maps.mem_foldl_insert_by Node.id (fun n => n)] at hin
    obtain ⟨c, hc, rfl⟩ := List.mem_map.mp (hin.resolve_left (by simp))
    have hget := Maps.get_foldl_insert_same Node.id (fun n => n) hsame (∅ : StrMap Node) hc
    rw [nodesById, hget] at h
    cases h
    exact mem_dependencies.mp hc
  · rintro ⟨hget, hr, hin⟩
    obtain rfl := Graph.id_of_get hget
    exact Maps.get_foldl_insert_same Node.id (fun n => n) hsame ∅ (mem_dependencies.mpr ⟨hget, hr, hin⟩)

/-- a node's own ancestors are within its graph -/
theorem dependencies_within : Within (nodesById (dependencies graph node)) (nodesById graph.iter) where
  preserved k n hn hpub := by
    rw [nodesById_get]
    exact ⟨n, ((get_dependencies k n).mp hn).1, rfl, rfl, rfl, rfl, rfl⟩
  landing k n m hn hm hland hpub := by
    rw [nodesById_get, ((get_dependencies k n).mp hn).1] at hm
    cases hm
    exact hland hpub
  closed k n hn hpub d hd m hm hpubm := by
    rw [nodesById_get] at hm
    obtain ⟨hget, hr, hin⟩ := (get_dependencies k n).mp hn
    refine ⟨m, (get_dependencies d m).mpr ⟨hm, hr.tail ⟨n, hget, hd, Graph.mem_ids_of_get hm⟩, hin⟩, rfl, rfl, rfl, rfl, rfl⟩

theorem Layered.dependencies {rank : String → ℕ} (h : Layered (nodesById graph.iter) rank) :
    Layered (nodesById (StackingPlacement.dependencies graph node)) rank where
  ids k n hn := h.ids k n (nodesById_get graph k ▸ ((get_dependencies k n).mp hn).1)
  down k n hn d hd hin := by
    obtain ⟨m, hm⟩ := Maps.mem_iff.mp hin
    refine h.down k n (nodesById_get graph k ▸ ((get_dependencies k n).mp hn).1) d hd ?_
    exact Maps.mem_iff.mpr ⟨m, nodesById_get graph d ▸ ((get_dependencies d m).mp hm).1⟩

end

namespace StackingPlacement

/-! ## One call -/

/-- what a reading answers of a node's own ancestors -/
def ownBases (sib : Siblings) (graph : Graph) (node : String) : Except Refusal (StrMap String) :=
  stackingBases sib (nodesById (dependencies graph node))

/-- a node's own ancestors are refused by one of two readings, or it is based differently by them -/
def Troubled (sib dispatch : Siblings) (graph : Graph) (node : String) : Prop :=
  (∃ refusal, ownBases sib graph node = .error refusal) ∨ (∃ refusal, ownBases dispatch graph node = .error refusal) ∨
    ∃ bases now, ownBases sib graph node = .ok bases ∧ ownBases dispatch graph node = .ok now ∧ bases[node]? ≠ now[node]?

/-- an answer is refused only for the node's own ancestors, and is otherwise the base the whole graph gives it at the dispatch -/
structure Meets (sib dispatch : Siblings) (graph : Graph) (node : String) (answer : Except String (Option String)) : Prop where
  refused : ∀ why, answer = .error why → Troubled sib dispatch graph node
  based : ∀ base, answer = .ok base → ∀ bases, stackingBases dispatch (nodesById graph.iter) = .ok bases → base = bases[node]?

section

variable {graph kept : Graph} {node : String} {sib dispatch : Siblings}

/-- what a call answers on a placement of its graph's shape -/
theorem baseFor_of (again : Siblings) (hshape : shapeOf graph = shapeOf kept) :
    ((of sib kept).baseFor again dispatch graph node).2 = (do
      let expected := (← basesOf sib kept)[node]?
      let now ←
        match ownBases dispatch graph node with
        | .ok bases => .ok bases[node]?
        | .error refusal => .error refusal.message
      if expected ≠ now then .error (baseChanged node expected now) else .ok now) := by
  have hsame : (of sib kept).resolved again graph = of sib kept := if_neg (not_not.mpr hshape)
  simp only [baseFor, hsame, ownBases]
  rfl

theorem own_of_whole (hg : ∀ a, ¬TransGen graph.DependsOn a a) (hin : node ∈ graph.ids) {bases : StrMap String}
    (h : stackingBases sib (nodesById graph.iter) = .ok bases) :
    ∃ own, ownBases sib graph node = .ok own ∧ own[node]? = bases[node]? := by
  obtain ⟨rank, hl⟩ := layered_of_acyclic hg
  obtain ⟨own, hown, hsame⟩ := (@dependencies_within graph node).bases hl.dependencies hl h
  obtain ⟨n, hn⟩ := Option.isSome_iff_exists.mp (Graph.isSome_get.mpr hin)
  exact ⟨own, hown, hsame node (Maps.mem_iff.mpr ⟨n, (get_dependencies node n).mpr ⟨hn, .refl, hin⟩⟩)⟩

theorem whole_of_shape (hg : ∀ a, ¬TransGen graph.DependsOn a a) (hk : ∀ a, ¬TransGen kept.DependsOn a a)
    (hshape : shapeOf graph = shapeOf kept) (hin : node ∈ graph.ids) {bases : StrMap String}
    (h : stackingBases sib (nodesById kept.iter) = .ok bases) :
    ∃ bases', stackingBases sib (nodesById graph.iter) = .ok bases' ∧ bases'[node]? = bases[node]? := by
  obtain ⟨rank, hl⟩ := layered_of_acyclic hg
  obtain ⟨rank', hl'⟩ := layered_of_acyclic hk
  obtain ⟨bases', hb, hsame⟩ := (shape_within hshape).bases hl hl' h
  exact ⟨bases', hb, hsame node (mem_nodesById.mpr hin)⟩

/-- **One call.** It meets the claim of it exactly where the reading kept refused nothing, or the node's own ancestors are refused or
based differently. -/
theorem baseFor_meets_iff (again : Siblings) (hg : ∀ a, ¬TransGen graph.DependsOn a a) (hk : ∀ a, ¬TransGen kept.DependsOn a a)
    (hshape : shapeOf graph = shapeOf kept) (hin : node ∈ graph.ids) :
    Meets sib dispatch graph node ((of sib kept).baseFor again dispatch graph node).2 ↔
      (∃ bases, stackingBases sib (nodesById kept.iter) = .ok bases) ∨ Troubled sib dispatch graph node := by
  rw [baseFor_of again hshape]
  cases hkept : stackingBases sib (nodesById kept.iter) with
  | error refusal =>
    have hbases : basesOf sib kept = .error refusal.message := by rw [basesOf, hkept]
    rw [hbases]
    constructor
    · intro h
      exact .inr (h.refused _ rfl)
    · rintro (⟨bases, h⟩ | h)
      · cases h
      · exact ⟨fun _ _ => h, nofun⟩
  | ok bases =>
    have hbases : basesOf sib kept = .ok bases := by rw [basesOf, hkept]
    obtain ⟨whole, hwhole, hsame⟩ := whole_of_shape hg hk hshape hin hkept
    obtain ⟨own, hown, hownsame⟩ := own_of_whole hg hin hwhole
    rw [hbases]
    refine iff_of_true ?_ (.inl ⟨bases, rfl⟩)
    cases hnow : ownBases dispatch graph node with
    | error refusal => exact ⟨fun _ _ => .inr (.inl ⟨refusal, hnow⟩), nofun⟩
    | ok now =>
      show Meets sib dispatch graph node (if bases[node]? ≠ now[node]? then _ else .ok now[node]?)
      by_cases hdiffer : bases[node]? ≠ now[node]?
      · rw [if_pos hdiffer]
        refine ⟨fun _ _ => .inr (.inr ⟨own, now, hown, hnow, ?_⟩), nofun⟩
        rw [hownsame, hsame]
        exact hdiffer
      · rw [if_neg hdiffer]
        refine ⟨nofun, fun base hbase bases' hbases' => ?_⟩
        obtain ⟨now', hnow', hlast⟩ := own_of_whole hg hin hbases'
        rw [hnow] at hnow'
        cases hnow'
        rw [← Except.ok.inj hbase, hlast]

/-! ## A run -/

/-- the reading a placement was last resolved by, and the graph it was of -/
def resolution (last : Siblings × Graph) (call : Call) : Siblings × Graph :=
  if shapeOf call.graph ≠ shapeOf last.2 then (call.sib, call.graph) else last

theorem called_of (last : Siblings × Graph) (call : Call) :
    (of last.1 last.2).called call = of (resolution last call).1 (resolution last call).2 := by
  have hshape : (of last.1 last.2).shape = shapeOf last.2 := rfl
  simp only [called, baseFor, resolved, resolution, hshape]
  split_ifs <;> rfl

theorem ran_of (last : Siblings × Graph) (calls : List Call) :
    (of last.1 last.2).ran calls = of (calls.foldl resolution last).1 (calls.foldl resolution last).2 := by
  induction calls generalizing last with
  | nil => rfl
  | cons call calls ih =>
    rw [ran, List.foldl_cons, called_of]
    exact ih _

theorem shape_resolution (last : Siblings × Graph) (call : Call) : shapeOf call.graph = shapeOf (resolution last call).2 := by
  unfold resolution
  split_ifs with h
  · rfl
  · exact not_not.mp h

theorem baseFor_resolution (last : Siblings × Graph) (call : Call) :
    ((of last.1 last.2).baseFor call.sib call.dispatch call.graph call.node).2 =
      ((of (resolution last call).1 (resolution last call).2).baseFor call.sib call.dispatch call.graph call.node).2 := by
  have hshape : (of last.1 last.2).shape = shapeOf last.2 := rfl
  have hfirst : (of last.1 last.2).resolved call.sib call.graph = of (resolution last call).1 (resolution last call).2 := by
    simp only [resolved, resolution, hshape]
    split_ifs <;> rfl
  have hagain : (of (resolution last call).1 (resolution last call).2).resolved call.sib call.graph =
      of (resolution last call).1 (resolution last call).2 :=
    if_neg (not_not.mpr (shape_resolution last call))
  simp only [baseFor, hfirst, hagain]

theorem graph_resolution {P : Graph → Prop} {last : Siblings × Graph} {calls : List Call} (hlast : P last.2)
    (hcalls : ∀ call ∈ calls, P call.graph) : P (calls.foldl resolution last).2 := by
  induction calls generalizing last with
  | nil => exact hlast
  | cons call calls ih =>
    refine ih ?_ fun c hc => hcalls c (List.mem_cons_of_mem _ hc)
    unfold resolution
    split_ifs
    · exact hcalls call List.mem_cons_self
    · exact hlast

end

end StackingPlacement

open StackingPlacement

/-- **Other subtrees.** Along any run of edits, none of which makes a cycle, and calls: a call is refused only for the node's own
ancestors, and otherwise answers the base the whole graph gives the node at the dispatch, exactly where the whole graph was refused nothing
when the placement was last resolved, or the node's own ancestors are refused by one of the two readings or based differently. -/
theorem base_for_placed (sib : Siblings) (graph : Graph) (calls : List Call) (hgraph : ∀ a, ¬TransGen graph.DependsOn a a)
    (hcalls : ∀ call ∈ calls, ∀ a, ¬TransGen call.graph.DependsOn a a) (before after : List Call) (call : Call)
    (hrun : calls = before ++ call :: after) (hin : call.node ∈ call.graph.ids) :
    let last := resolution (before.foldl resolution (sib, graph)) call
    Meets last.1 call.dispatch call.graph call.node
        (((of sib graph).ran before).baseFor call.sib call.dispatch call.graph call.node).2 ↔
      (∃ bases, stackingBases last.1 (nodesById last.2.iter) = .ok bases) ∨ Troubled last.1 call.dispatch call.graph call.node := by
  intro last
  have hcall := hcalls call (hrun ▸ List.mem_append_right _ List.mem_cons_self)
  have hlast : ∀ a, ¬TransGen last.2.DependsOn a a := by
    have hall : ∀ c ∈ before ++ [call], ∀ a, ¬TransGen c.graph.DependsOn a a := by
      intro c hc
      refine hcalls c (hrun ▸ ?_)
      rcases List.mem_append.mp hc with hc | hc
      · exact List.mem_append_left _ hc
      · exact List.mem_append_right _ (List.mem_singleton.mp hc ▸ List.mem_cons_self)
    have hgraphs := @graph_resolution (fun g => ∀ a, ¬TransGen g.DependsOn a a) (sib, graph) (before ++ [call]) hgraph hall
    rwa [List.foldl_append] at hgraphs
  have hran : (of sib graph).ran before = of (before.foldl resolution (sib, graph)).1 (before.foldl resolution (sib, graph)).2 :=
    ran_of (sib, graph) before
  rw [hran, baseFor_resolution]
  exact baseFor_meets_iff call.sib hcall hlast (shape_resolution _ call) hin

/-! ## An unreadable repository in another subtree -/

/-- a node kept in one repository, one that depends on it kept in another, and one beside them -/
def keptApart : Plan :=
  .ofNodes [.keptOn "a" [] none, { Node.keptOn "b" ["a"] none with repo := some "owner/gone" }, .keptOn "c" [] none]

/-- a registry that no longer names the other repository -/
def Siblings.withoutGone : Siblings :=
  { Host.lenient.toSiblings with identity := fun repo => if repo = "owner/gone" then .error "not registered" else .ok repo }

theorem keptApart_acyclic (a : String) : ¬TransGen (Graph.fromPlan keptApart).DependsOn a a :=
  dependsOn_acyclic (fun id => if id = "b" then 1 else 0) (by decide) a

def callOf (dispatch : Siblings) : Call := { graph := .fromPlan keptApart, node := "c", sib := dispatch, dispatch }

/-- an accepted plan, and its registry unreadable since for one node: every other is refused -/
theorem other_subtree_refuses :
    check Host.lenient.toSiblings keptApart = .ok () ∧ (∀ a, ¬TransGen (Graph.fromPlan keptApart).DependsOn a a) ∧
      ¬Meets .withoutGone .withoutGone (.fromPlan keptApart) "c"
        ((of .withoutGone (.fromPlan keptApart)).baseFor .withoutGone .withoutGone (.fromPlan keptApart) "c").2 := by
  have hchecked : check Host.lenient.toSiblings keptApart = .ok () := by decide
  have hrefused : ((of .withoutGone (.fromPlan keptApart)).baseFor .withoutGone .withoutGone (.fromPlan keptApart) "c").2.isOk = false := by
    decide
  have hown : ((ownBases .withoutGone (.fromPlan keptApart) "c").toOption.map fun bases => bases.toList) = some [] := by decide
  refine ⟨hchecked, keptApart_acyclic, fun h => ?_⟩
  obtain ⟨why, hwhy⟩ : ∃ why, ((of .withoutGone (.fromPlan keptApart)).baseFor .withoutGone .withoutGone (.fromPlan keptApart) "c").2 =
      .error why := by
    cases hanswer : ((of .withoutGone (.fromPlan keptApart)).baseFor .withoutGone .withoutGone (.fromPlan keptApart) "c").2 with
    | error why => exact ⟨why, rfl⟩
    | ok base =>
      rw [hanswer] at hrefused
      cases hrefused
  cases hbases : ownBases .withoutGone (.fromPlan keptApart) "c" with
  | error refusal =>
    rw [hbases] at hown
    cases hown
  | ok bases =>
    rcases h.refused why hwhy with ⟨refusal, hr⟩ | ⟨refusal, hr⟩ | ⟨own, now, hr, hr', hne⟩
    · rw [hbases] at hr
      cases hr
    · rw [hbases] at hr
      cases hr
    · rw [hr] at hr'
      cases hr'
      exact hne rfl

/-- where every repository is read, the node is placed -/
theorem base_for_placed_apart : Meets Host.lenient.toSiblings Host.lenient.toSiblings (.fromPlan keptApart) "c"
    ((of Host.lenient.toSiblings (.fromPlan keptApart)).baseFor Host.lenient.toSiblings Host.lenient.toSiblings (.fromPlan keptApart) "c").2 := by
  have hwhole : (stackingBases Host.lenient.toSiblings (nodesById (Graph.fromPlan keptApart).iter)).isOk = true := by decide
  have hcalls : ∀ call ∈ [callOf Host.lenient.toSiblings], ∀ a, ¬TransGen call.graph.DependsOn a a := by
    intro call hcall
    rw [List.mem_singleton.mp hcall]
    exact keptApart_acyclic
  have hlast : resolution (Host.lenient.toSiblings, .fromPlan keptApart) (callOf Host.lenient.toSiblings) =
      (Host.lenient.toSiblings, .fromPlan keptApart) :=
    if_neg (not_not.mpr rfl)
  have hplaced := base_for_placed Host.lenient.toSiblings (.fromPlan keptApart) [callOf Host.lenient.toSiblings] keptApart_acyclic hcalls [] []
    (callOf Host.lenient.toSiblings) rfl (show "c" ∈ (Graph.fromPlan keptApart).ids by decide)
  simp only [List.foldl_nil, hlast] at hplaced
  refine hplaced.mpr (.inl ?_)
  cases hbases : stackingBases Host.lenient.toSiblings (nodesById (Graph.fromPlan keptApart).iter) with
  | error refusal =>
    rw [hbases] at hwhole
    cases hwhole
  | ok bases => exact ⟨bases, rfl⟩

end OnePipeline
