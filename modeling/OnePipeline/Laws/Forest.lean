/-
The lineage map over whole runs: each supersession links a node to its replacement, and what reads lineages back.

Results:
- `moves_of_compiled`: what an accepted command does to the graph's ids and to the lineage map;
- `Forest.meets`: over a forest every walk along a lineage ends at one id, and back from it at the lineage's first;
- `forest_iff`: the map stays a forest exactly while no edit brings in an id a lineage has used.
-/
import Mathlib.Tactic
import OnePipeline.Laws.Lineage
import OnePipeline.Laws.ReplayAgrees
import OnePipeline.Laws.Shapes

namespace OnePipeline

open Chase Checks Runs

/-! ## The links back -/

section

variable {m : StrMap String} {a b : String}

theorem mem_of_predecessor (h : predecessor m b = some a) : m[a]? = some b := by
  obtain ⟨p, hp, rfl⟩ := Option.map_eq_some_iff.mp h
  have hin : (p.1, p.2) ∈ m.toList := List.mem_of_find?_eq_some hp
  have hto : p.2 = b := by simpa using List.find?_some hp
  rw [Std.ExtTreeMap.mem_toList_iff_getElem?_eq_some.mp hin, hto]

theorem predecessor_of_mem (hinj : ∀ x y c : String, m[x]? = some c → m[y]? = some c → x = y) (h : m[a]? = some b) :
    predecessor m b = some a := by
  have hin : (a, b) ∈ m.toList := Std.ExtTreeMap.mem_toList_iff_getElem?_eq_some.mpr h
  cases hp : predecessor m b with
  | some x => rw [hinj x a b (mem_of_predecessor hp) h]
  | none =>
    have hnone := List.find?_eq_none.mp (Option.map_eq_none_iff.mp hp) _ hin
    simp at hnone

theorem predecessors_le (m : StrMap String) :
    ∃ K : Finset String, K.card ≤ m.size ∧ ∀ c, (predecessor m c).isSome = true → c ∈ K := by
  refine ⟨(m.toList.map Prod.snd).toFinset, ?_, fun c hc => ?_⟩
  · calc (m.toList.map Prod.snd).toFinset.card ≤ (m.toList.map Prod.snd).length := List.toFinset_card_le _
      _ = m.size := by rw [List.length_map, Std.ExtTreeMap.length_toList]
  · obtain ⟨a, ha⟩ := Option.isSome_iff_exists.mp hc
    have hin : (a, c) ∈ m.toList := Std.ExtTreeMap.mem_toList_iff_getElem?_eq_some.mpr (mem_of_predecessor ha)
    exact List.mem_toFinset.mpr (List.mem_map.mpr ⟨_, hin, rfl⟩)

/-- the walk back of the compiler is the one that stops before a place come to before -/
theorem lineageRootFrom_eq (frontier : Frontier) (fuel : ℕ) (seen : List String) (id : String) :
    lineageRootFrom frontier fuel seen id = retrace (predecessor frontier.superseded) fuel seen id := by
  induction fuel generalizing seen id with
  | zero => rfl
  | succ fuel ih =>
    rw [lineageRootFrom, retrace, predecessor]
    cases frontier.superseded.toList.find? fun p => p.2 = id with
    | none => rfl
    | some p => simp only [Option.map_some, ih]

end

/-! ## What an edit moves -/

/-- what a command does to a graph's ids, and the supersessions it asks for -/
inductive Moves (graph : Graph) (frontier : Frontier) : Command → List String → List (String × String) → Prop
  | added (node : Node) (new : node.id ∉ graph.ids) : Moves graph frontier (.add node) (graph.ids ++ [node.id]) []
  | retried (old : String) (node : Node) (present : old ∈ graph.ids) (new : node.id ∉ graph.ids) :
      Moves graph frontier (.retry old node) ((graph.ids ++ [node.id]).filter fun k => k ≠ old) [(old, node.id)]
  | reworked (old new reason instruction : String) (comments : List ReworkComment) (title replacement : Option String)
      (present : old ∈ graph.ids) (unused : used graph frontier new = false) :
      Moves graph frontier (.rework old reason instruction comments title replacement)
        ((graph.ids ++ [new]).filter fun k => k ≠ old) [(old, new)]
  | stays (command : Command) (ids : List String) (quiet : introduces command = false) (keeps : ids ⊆ graph.ids) :
      Moves graph frontier command ids []

section

variable {host : Host} {graph graph' : Graph} {frontier : Frontier} {author : Author} {ops : List Operation}

theorem unused_ids {id : String} (h : used graph frontier id = false) : id ∉ graph.ids := by
  simp only [used, Bool.or_eq_false_iff] at h
  exact Graph.contains_eq_false.mp h.1.1.1

theorem not_mem_of_unused {id : String} (h : used graph frontier id = false) :
    frontier.superseded[id]? = none ∧ ∀ x : String, frontier.superseded[x]? ≠ some id := by
  simp only [used, Bool.or_eq_false_iff, decide_eq_false_iff_not] at h
  refine ⟨Maps.not_mem_iff.mp h.1.2, fun x hx => ?_⟩
  simpa using List.any_eq_false.mp h.2 id (Maps.mem_values.mpr ⟨x, hx⟩)

theorem ids_supersede {id : String} {replacement : Node} {request : Operation} (hnew : replacement.id ∉ graph.ids)
    (hrequest : ∀ g, apply host.serde g request = g) :
    (applyAll host.serde graph (supersede graph id replacement request).2).ids =
      (graph.ids ++ [replacement.id]).filter fun k => k ≠ id := by
  rw [applyAll_supersede id replacement hrequest, Graph.ids_modifyAll, Graph.ids_remove, Graph.ids_foldl_modify,
    Graph.ids_insert_new hnew]

theorem requests_supersede {id : String} {replacement : Node} {request : Operation} {p : String × String}
    (hrequest : RunState.requestOf request = some p) :
    (supersede graph id replacement request).2.filterMap RunState.requestOf = [p] := by
  obtain ⟨rest, hops, hrest, -⟩ := supersede_ops graph id replacement request
  have hnone : rest.filterMap RunState.requestOf = [] := by
    refine List.filterMap_eq_nil_iff.mpr fun op hop => ?_
    have hrewires := hrest op hop
    cases op <;> first | rfl | cases hrewires
  rw [hops, List.filterMap_cons, hrequest, List.filterMap_cons, hnone]
  rfl

theorem ids_apply {serde : NodeSerde} {op : Operation} (h : op.keepsNodes = true) (g : Graph) :
    (apply serde g op).ids ⊆ g.ids := by
  intro k hk
  cases op with
  | nodeDropped node mode =>
    rw [apply, Graph.ids_modifyAll] at hk
    exact (Graph.mem_ids_remove.mp hk).1
  | contextAdded node note delivery => cases delivery <;> simpa [apply] using hk
  | noteWithdrawn node envelope index «from» text alikeAfter => cases «from» <;> simpa [apply] using hk
  | noteDelivered node addressee text criterion reached envelope index => cases reached <;> simpa [apply] using hk
  | _ =>
    first
    | exact absurd h Bool.false_ne_true
    | simpa [apply] using hk

theorem ids_applyAll {serde : NodeSerde} (h : ∀ op ∈ ops, op.keepsNodes = true) (g : Graph) :
    (applyAll serde g ops).ids ⊆ g.ids := by
  induction ops generalizing g with
  | nil => exact List.Subset.refl _
  | cons op ops ih =>
    rw [applyAll_cons]
    have hrest := ih (fun o ho => h o (List.mem_cons_of_mem _ ho)) (apply serde g op)
    exact List.Subset.trans hrest (ids_apply (h op List.mem_cons_self) g)

theorem ids_apply_requeued {serde : NodeSerde} {node : String} {amend : Option Fields} (same : amends amend "id" = false)
    (g : Graph) : (apply serde g (.nodeRequeued node amend)).ids = g.ids := by
  rw [apply]
  cases hget : g.get node with
  | none => rfl
  | some existing =>
    rw [Option.bind_some]
    cases hread : requeued serde existing amend with
    | none => rfl
    | some amended =>
      refine Graph.ids_insert_mem ?_
      rw [id_of_requeued same hread]
      exact Graph.id_of_get hget ▸ Graph.mem_ids_of_get hget

/-- operations that bring no node in take ids out alone, and supersede none -/
theorem stays_of_shape (host : Host) (h : Shape graph ops) (hnone : ¬∃ n retryOf, .nodeAdded n retryOf ∈ ops) :
    (applyAll host.serde graph ops).ids ⊆ graph.ids ∧ ops.filterMap RunState.requestOf = [] := by
  cases h with
  | added n new => exact absurd ⟨n, none, List.mem_cons_self⟩ hnone
  | superseded old n request rest present new asked quiet dropped =>
    exact absurd ⟨n, some old, List.mem_cons_of_mem _ List.mem_cons_self⟩ hnone
  | requeued node amend same => 
    have hids : (applyAll host.serde graph [.nodeRequeued node amend]).ids = graph.ids := ids_apply_requeued same graph
    exact ⟨hids ▸ List.Subset.refl _, rfl⟩
  | attested reference => exact ⟨List.Subset.refl _, rfl⟩
  | quiet ops hops =>
    refine ⟨ids_applyAll hops graph, List.filterMap_eq_nil_iff.mpr fun op hop => ?_⟩
    have hkeeps := hops op hop
    cases op <;> first | rfl | cases hkeeps

theorem moves_of_compileInto {command : Command}
    (h : compileInto host graph frontier author command = .ok (graph', ops)) :
    Moves graph frontier command (applyAll host.serde graph ops).ids (ops.filterMap RunState.requestOf) := by
  obtain ⟨hshape, hbrings⟩ := compileInto_shape h
  by_cases hintro : introduces command = true
  · cases command with
    | add node =>
      obtain ⟨hnew, -, -, rfl⟩ := compileAdd_ok h
      have hnone : (edgesInto node).filterMap RunState.requestOf = [] := by
        refine List.filterMap_eq_nil_iff.mpr fun op hop => ?_
        obtain ⟨d, -, rfl⟩ := List.mem_map.mp hop
        rfl
      rw [applyAll_added, Graph.ids_insert_new hnew, List.filterMap_cons, hnone]
      exact .added node hnew
    | retry id node =>
      obtain ⟨target, replacement, hget, -, -, hnew, hrep, heq⟩ := compileRetry_ok h
      obtain ⟨rfl, rfl⟩ := Prod.ext_iff.mp heq
      obtain ⟨hid, -⟩ := retryReplacement_ok hrep
      rw [ids_supersede (hid ▸ hnew) fun _ => rfl, requests_supersede rfl, hid]
      exact .retried id node (Graph.mem_ids_of_get hget) hnew
    | rework id reason instruction comments title replacement =>
      obtain ⟨target, new, branch, hget, -, -, -, hid, heq⟩ := compileRework_ok h
      obtain ⟨rfl, rfl⟩ := Prod.ext_iff.mp heq
      have hunused := reworkId_ok hid
      have hnew : (reworked target ⟨id, reason, instruction, comments, title, replacement⟩ new branch).id ∉ graph.ids :=
        unused_ids hunused
      rw [ids_supersede hnew fun _ => rfl, requests_supersede rfl]
      exact .reworked id new reason instruction comments title replacement (Graph.mem_ids_of_get hget) hunused
    | _ => cases hintro
  · obtain ⟨hids, hnone⟩ := stays_of_shape host hshape fun hin => hintro (hbrings.mpr hin)
    exact hnone ▸ .stays _ _ (Bool.eq_false_iff.mpr hintro) hids

theorem Moves.of_resolves {command resolved : Command} {ids : List String} {requests : List (String × String)}
    (hr : Resolves command resolved) (h : Moves graph frontier resolved ids requests) :
    Moves graph frontier command ids requests := by
  cases h with
  | stays _ _ quiet keeps => exact .stays _ _ ((introduces_resolves hr).symm.trans quiet) keeps
  | added node new =>
    cases hr with
    | same => exact .added node new
    | add node agentGraph steps => exact .added node new
  | retried old node present new =>
    cases hr with
    | same => exact .retried old node present new
    | retry id node agentGraph steps => exact .retried old node present new
  | reworked old new reason instruction comments title replacement present unused =>
    cases hr with
    | same => exact .reworked old new reason instruction comments title replacement present unused

/-- **What an edit moves.** An accepted command brings one id in, or one in for another, or none. -/
theorem moves_of_compiled {command : Command} (h : compile host graph frontier author command = .ok (graph', ops)) :
    Moves graph frontier command (applyAll host.serde graph ops).ids (ops.filterMap RunState.requestOf) := by
  obtain ⟨resolved, haccepted⟩ := compile_ok h
  exact (moves_of_compileInto haccepted.compiles).of_resolves (resolves_of_ok haccepted.resolves)

/-- a rework supersedes by the id it is answered -/
theorem request_of_rework {id reason instruction : String} {comments : List ReworkComment} {title replacement : Option String}
    (h : compile host graph frontier author (.rework id reason instruction comments title replacement) = .ok (graph', ops)) :
    ∃ new, reworkId graph frontier { id, reason, instruction, comments, title, replacement } = .ok new ∧
      ops.filterMap RunState.requestOf = [(id, new)] := by
  obtain ⟨resolved, haccepted⟩ := compile_ok h
  have hresolved : resolved = .rework id reason instruction comments title replacement := by
    cases resolves_of_ok haccepted.resolves
    rfl
  have hinto := haccepted.compiles
  rw [hresolved] at hinto
  obtain ⟨target, new, branch, -, -, -, -, hid, heq⟩ := compileRework_ok hinto
  obtain ⟨-, rfl⟩ := Prod.ext_iff.mp heq
  exact ⟨new, hid, requests_supersede rfl⟩

end

/-! ## A forest -/

/-- a lineage map with no cycle, no id the replacement of two, and no superseded id live -/
structure Forest (superseded : StrMap String) (live : List String) : Prop where
  acyclic : ∀ id, ¬Relation.TransGen (fun a b : String => superseded[a]? = some b) id id
  injective : ∀ x y c : String, superseded[x]? = some c → superseded[y]? = some c → x = y
  retired : ∀ id ∈ live, superseded[id]? = none

namespace Forest

variable {m : StrMap String} {ids : List String}

theorem empty : Forest ∅ ids := by
  have hnone (a : String) : (∅ : StrMap String)[a]? = none := by simp
  refine ⟨fun id hcycle => ?_, fun x y c hx => ?_, fun id _ => hnone id⟩
  · obtain ⟨b, hlink, -⟩ := Relation.TransGen.head'_iff.mp hcycle
    rw [hnone] at hlink
    cases hlink
  · rw [hnone] at hx
    cases hx

theorem stopped (h : Forest m ids) : Stopped (links m) := by
  have hkeys (c : String) (hc : (links m c).isSome = true) : c ∈ m.keys.toFinset := by
    obtain ⟨v, hv⟩ := Option.isSome_iff_exists.mp hc
    exact List.mem_toFinset.mpr (Std.ExtTreeMap.mem_keys.mpr (Maps.mem_iff.mpr ⟨v, hv⟩))
  exact stopped_of_acyclic hkeys h.acyclic

/-- a node coming in -/
theorem append_iff (h : Forest m ids) {new : String} : Forest m (ids ++ [new]) ↔ m[new]? = none := by
  constructor
  · intro hnew
    exact hnew.retired new (List.mem_append_right _ List.mem_cons_self)
  · intro hnew
    refine { h with retired := fun id hid => ?_ }
    rcases List.mem_append.mp hid with hid | hid
    · exact h.retired id hid
    · rw [List.mem_singleton.mp hid]
      exact hnew

theorem links_insert (m : StrMap String) (old new : String) :
    links (m.insert old new) = Function.update (links m) old (some new) := by
  funext a
  rw [links, Maps.get_insert, Function.update_apply]
  rfl

/-- **A node coming in for another.** The map stays a forest exactly where no lineage has used its id. -/
theorem insert_iff (h : Forest m ids) {old new : String} (present : old ∈ ids) (hnew : new ∉ ids) :
    Forest (m.insert old new) ((ids ++ [new]).filter fun k => k ≠ old) ↔
      m[new]? = none ∧ ∀ x : String, m[x]? ≠ some new := by
  have hne : new ≠ old := fun heq => hnew (heq ▸ present)
  have hold : m[old]? = none := h.retired old present
  constructor
  · intro hafter
    have hlive : new ∈ (ids ++ [new]).filter fun k => k ≠ old := by simp [hne]
    have hfree := hafter.retired new hlive
    rw [Maps.get_insert, if_neg hne] at hfree
    refine ⟨hfree, fun x hx => ?_⟩
    have hxold : x ≠ old := by
      rintro rfl
      rw [hold] at hx
      cases hx
    refine hxold (hafter.injective x old new ?_ ?_)
    · rw [Maps.get_insert, if_neg hxold, hx]
    · rw [Maps.get_insert, if_pos rfl]
  · rintro ⟨hfree, hvalue⟩
    have hstopped : Stopped (links (m.insert old new)) := by
      rw [links_insert]
      exact h.stopped.extend hfree hne
    refine ⟨hstopped.acyclic, fun x y c hx hy => ?_, fun id hid => ?_⟩
    · rw [Maps.get_insert] at hx hy
      split_ifs at hx hy with hxo hyo hyo
      · exact hxo.trans hyo.symm
      · cases hx
        exact absurd hy (hvalue y)
      · cases hy
        exact absurd hx (hvalue x)
      · exact h.injective x y c hx hy
    · obtain ⟨hin, hid⟩ := List.mem_filter.mp hid
      rw [Maps.get_insert, if_neg (of_decide_eq_true hid)]
      rcases List.mem_append.mp hin with hin | hin
      · exact h.retired id hin
      · rw [List.mem_singleton.mp hin]
        exact hfree

end Forest

namespace RunState

/-- the id every walk along a lineage ends at, and the one every walk back from there does -/
structure Meets (s : RunState) (id first last : String) : Prop where
  lineage : Relation.ReflTransGen (fun a b : String => s.superseded[a]? = some b) id last
  carrier : s.superseded[last]? = none
  head : s.headOf id = last
  newest : s.newestOf id = last
  edge : latest s.superseded (s.superseded.size + 1) [] id = last
  origin : Relation.ReflTransGen (fun a b : String => s.superseded[a]? = some b) first id
  launched : ∀ x : String, s.superseded[x]? ≠ some first
  root : lineageRoot s.frontier last = first
  launchedAs : Boundary.lineageRoot last s.superseded = first

variable {host : Host} {s : RunState} {e : Envelope} {plan : Plan} {journal : List Envelope}

/-- **Every walk meets.** Over a forest the walks along a lineage end at one id, no guard met, and the walks back from it
end at the lineage's first. -/
theorem meets_of_forest (h : Forest s.superseded s.graph.ids) (id : String) : ∃ first last, s.Meets id first last := by
  have hback (x y : String) : links s.superseded x = some y ↔ predecessor s.superseded y = some x :=
    ⟨predecessor_of_mem h.injective, mem_of_predecessor⟩
  obtain ⟨K, hcard, hK⟩ := predecessors_le s.superseded
  obtain ⟨last, l, ht⟩ := h.stopped id
  obtain ⟨first, m, hr⟩ := h.stopped.undone hK hback id
  obtain ⟨m', hwhole⟩ := ht.back (fun x y hxy => (hback x y).mp hxy) hr
  have hfuel : m'.length ≤ s.superseded.size + 1 + 1 := (hwhole.length_le hK).trans (by omega)
  refine ⟨first, last, ht.reaches ht.last_mem, ht.ends, headOf_eq ht, newestOf_eq ht, latest_eq ht, ?_, fun x hx => ?_, ?_, ?_⟩
  · rw [← Relation.reflTransGen_swap]
    exact (hr.reaches hr.last_mem).lift (fun x => x) fun a b hab => mem_of_predecessor hab
  · have hends := hr.ends
    rw [(hback x first).mp hx] at hends
    cases hends
  · exact (lineageRootFrom_eq ..).trans (hwhole.retrace hfuel fun c _ hin => by cases hin)
  · exact hwhole.follow hfuel fun c _ hin => by cases hin

/-- a forest of lineages, read one way by every walk -/
structure Lineages (s : RunState) : Prop where
  forest : Forest s.superseded s.graph.ids
  meet : ∀ id, ∃ first last, s.Meets id first last

theorem lineages_iff : s.Lineages ↔ Forest s.superseded s.graph.ids := ⟨Lineages.forest, fun h => ⟨h, meets_of_forest h⟩⟩

/-! ## Whole runs -/

/-- a command that brings an id in that a lineage has used: an `add` of a superseded one, or a `retry` into one superseded
or into one that superseded another -/
def reuses (s : RunState) : Command → Prop
  | .add node => node.id ∈ s.superseded
  | .retry _ node => node.id ∈ s.superseded ∨ ∃ old : String, s.superseded[old]? = some node.id
  | _ => False

/-- a record that is no edit, or one whose command brings in no id a lineage has used -/
def KeepsLineages (host : Host) (s : RunState) (e : Envelope) : Prop :=
  writtenAtAKnownVersion e = true → ∀ operations live author command graph', e.body = .editCommitted (some operations) →
    compile host s.graph (s.judged live) author command = .ok (graph', operations) → ¬s.reuses command

/-- what an accepted command leaves of a forest -/
theorem forest_moved_iff {command : Command} {ids : List String} {requests : List (String × String)} {live : Live}
    (h : Forest s.superseded s.graph.ids) (hmoves : Moves s.graph (s.judged live) command ids requests) :
    Forest (Maps.insertAll s.superseded requests) ids ↔ ¬s.reuses command := by
  cases hmoves with
  | added node new => exact h.append_iff.trans Maps.not_mem_iff.symm
  | retried old node present new =>
    refine (h.insert_iff present new).trans ?_
    rw [reuses, not_or, not_exists, Maps.not_mem_iff]
  | reworked old new reason instruction comments title replacement present unused =>
    refine (h.insert_iff present (unused_ids unused)).trans ?_
    exact ⟨fun _ hr => hr, fun _ => not_mem_of_unused unused⟩
  | stays _ _ quiet keeps =>
    refine ⟨fun _ hr => ?_, fun _ => { h with retired := fun id hid => h.retired id (keeps hid) }⟩
    cases command <;> first | exact hr | cases quiet

theorem forest_of_wired {t : RunState} (h : t.wired = s.wired) :
    Forest t.superseded t.graph.ids ↔ Forest s.superseded s.graph.ids := by
  have hm : t.superseded = s.superseded := congrArg Wired.superseded h
  have hi : t.graph.ids = s.graph.ids := congrArg Wired.ids h
  rw [hm, hi]

/-- **One record.** It leaves a forest a forest exactly where its command brings in no id a lineage has used. -/
theorem lineages_foldRecord_iff (h : s.Lineages) (ha : Appends host s e) :
    (foldRecord host s e).Lineages ↔ KeepsLineages host s e := by
  rw [lineages_iff] at h ⊢
  by_cases hbody : ∃ operations, e.body = .editCommitted operations
  · obtain ⟨operations, hbody⟩ := hbody
    cases hv : writtenAtAKnownVersion e with
    | false =>
      refine (forest_of_wired (wired_foldRecord_unread hbody hv)).trans ⟨fun _ hknown => ?_, fun _ => h⟩
      rw [hv] at hknown
      cases hknown
    | true =>
      have hcompiled : ∃ ops, operations = some ops ∧ s.Compiled host ops := by
        unfold Appends at ha
        rw [hbody] at ha
        cases operations with
        | none => cases ha
        | some ops => exact ⟨ops, rfl, ha⟩
      obtain ⟨ops, rfl, live, author, command, graph', hc⟩ := hcompiled
      obtain ⟨hgraph, hsuperseded, -⟩ := foldRecord_edit hbody hv
      rw [hgraph, hsuperseded]
      constructor
      · intro hafter _ operations' live' author' command' graph'' hbody' hc'
        obtain rfl : ops = operations' := by
          rw [hbody] at hbody'
          injection hbody' with hbody'
          exact Option.some.inj hbody'
        exact (forest_moved_iff h (moves_of_compiled hc')).mp hafter
      · intro hkeeps
        exact (forest_moved_iff h (moves_of_compiled hc)).mpr (hkeeps hv ops live author command graph' hbody hc)
  · have hedit (operations : Option (List Operation)) : e.body ≠ .editCommitted operations :=
      fun heq => hbody ⟨operations, heq⟩
    refine (forest_of_wired (wired_foldRecord ha hedit)).trans ⟨fun _ _ ops _ _ _ _ heq => ?_, fun _ => h⟩
    exact absurd heq (hedit _)

/-- **The lineage map over a run.** It is a forest, read one way by every walk, in every state the run comes to exactly
where no accepted edit of it brings in an id a lineage has used. -/
theorem lineages_iff_keeps (h : Admits (foldRecord host) (Appends host) (started plan) journal) :
    (∀ records, records <+: journal → (records.foldl (foldRecord host) (started plan)).Lineages) ↔
      Admits (foldRecord host) (KeepsLineages host) (started plan) journal :=
  h.always_iff (fun _ _ hs ha => lineages_foldRecord_iff hs ha) (lineages_iff.mpr Forest.empty)

/-! ### A retry back, and one on -/

/-- the operations the compiler answers a planner's command with, in a state with nothing in flight -/
def operationsOf (host : Host) (s : RunState) (command : Command) : List Operation :=
  match compile host s.graph (s.judged {}) .planner command with
  | .ok p => p.2
  | .error _ => []

theorem compile_operationsOf {command : Command}
    (h : (compile host s.graph (s.judged {}) .planner command).toOption.any (fun _ => true) = true) :
    ∃ graph', compile host s.graph (s.judged {}) .planner command = .ok (graph', operationsOf host s command) := by
  obtain ⟨⟨graph', ops⟩, hok, -⟩ := exists_ok_of_any h
  rw [operationsOf, hok]
  exact ⟨graph', rfl⟩

theorem compiled_operationsOf (command : Command)
    (h : (compile host s.graph (s.judged {}) .planner command).toOption.any (fun _ => true) = true) :
    s.Compiled host (operationsOf host s command) := by
  obtain ⟨graph', hok⟩ := compile_operationsOf h
  exact ⟨{}, .planner, command, graph', hok⟩

/-- the state a journal of the one-node plan's run folds to -/
def single (journal : List Envelope) : RunState := journal.foldl (foldRecord .lenient) (started .single)

def failed (seq : ℕ) (node : String) : Envelope := .own seq (some node) (.nodeSettled { status := some .failed })

/-- the node failed and retried as another -/
def retriedOn : List Envelope :=
  [failed 1 "a", .own 2 none (.editCommitted (some (operationsOf .lenient (single [failed 1 "a"])
    (.retry "a" (.direct "a2" [])))))]

/-- the other failed too, and retried as the first -/
def retriedBack : List Envelope :=
  retriedOn ++ [failed 3 "a2", .own 4 none (.editCommitted (some (operationsOf .lenient (single (retriedOn ++ [failed 3 "a2"]))
    (.retry "a2" (.direct "a" [])))))]

theorem retriedOn_appends : Admits (foldRecord .lenient) (Appends .lenient) (started .single) retriedOn := by
  have hc : (single [failed 1 "a"]).Compiled .lenient _ :=
    compiled_operationsOf (.retry "a" (.direct "a2" [])) (by decide)
  exact ⟨trivial, hc, trivial⟩

theorem retriedBack_appends : Admits (foldRecord .lenient) (Appends .lenient) (started .single) retriedBack := by
  have hc : (single (retriedOn ++ [failed 3 "a2"])).Compiled .lenient _ :=
    compiled_operationsOf (.retry "a2" (.direct "a" [])) (by decide)
  have hback : Admits (foldRecord .lenient) (Appends .lenient) (single retriedOn) (retriedBack.drop 2) := ⟨trivial, hc, trivial⟩
  exact Admits.append.mpr ⟨retriedOn_appends, hback⟩

/-- a node retried into an id its lineage has used closes the lineage on itself, over a live node -/
theorem retriedBack_closes :
    check Host.lenient.toSiblings .single = .ok () ∧
      Admits (foldRecord .lenient) (Appends .lenient) (started .single) retriedBack ∧
      ¬Lineages (retriedBack.foldl (foldRecord .lenient) (started .single)) := by
  refine ⟨by decide, retriedBack_appends, fun h => ?_⟩
  have hlive : "a" ∈ (single retriedBack).graph.ids := by decide
  have hkey : (single retriedBack).superseded["a"]? = some "a2" := by decide
  have hretired := h.forest.retired "a" hlive
  rw [show retriedBack.foldl (foldRecord .lenient) (started .single) = single retriedBack from rfl, hkey] at hretired
  cases hretired

/-- a node retried into an id of its own -/
theorem retriedOn_keeps :
    (∀ records, records <+: retriedOn → (records.foldl (foldRecord .lenient) (started .single)).Lineages) ↔
      Admits (foldRecord .lenient) (KeepsLineages .lenient) (started .single) retriedOn :=
  lineages_iff_keeps retriedOn_appends

end RunState

end OnePipeline
