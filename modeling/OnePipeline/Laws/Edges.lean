/-
The export edges of a run: what an edit is validated with, and what the fold states afterwards.

Results:
- `edgesNow_insert`: edges followed through one more supersession;
- `Standing.foldRecord`: what an edit that reuses no superseded id keeps, and what it is accepted as;
- `edges_as_accepted`: over a run of such edits, the edges and the plan the fold states are the accepted ones.
-/
import Mathlib.Tactic
import OnePipeline.Laws.Boundary
import OnePipeline.Laws.Forest

namespace OnePipeline

open Chase Checks Runs RunState

/-! ## One more supersession -/

section

variable {m : StrMap String} {old new : String}

theorem links_single (old new : String) :
    links ((∅ : StrMap String).insert old new) = Function.update (fun _ => none) old (some new) := by
  rw [Forest.links_insert]
  congr 1

theorem latest_single (hne : new ≠ old) (id : String) :
    latest ((∅ : StrMap String).insert old new) (((∅ : StrMap String).insert old new).size + 1) [] id =
      if id = old then new else id := by
  have hnew : links ((∅ : StrMap String).insert old new) new = none := by
    rw [links_single, Function.update_of_ne hne]
  split_ifs with hid
  · subst hid
    refine latest_eq (.step ?_ (.stop hnew))
    rw [links_single, Function.update_self]
  · refine latest_eq (.stop ?_)
    rw [links_single, Function.update_of_ne hid]

/-- a lineage that runs out, through one more supersession that meets no other on it -/
theorem trail_insert {id last : String} {l : List String} (ht : Trail (links m) id last l)
    (hfree : old ∈ l → m[old]? = none ∧ m[new]? = none) (hne : new ≠ old) :
    ∃ l, Trail (links (m.insert old new)) id (if last = old then new else last) l := by
  rw [Forest.links_insert]
  induction ht with
  | @stop a ends =>
    split_ifs with ha
    · subst ha
      have hend : Function.update (links m) a (some new) new = none := by
        rw [Function.update_of_ne hne]
        exact (hfree List.mem_cons_self).2
      exact ⟨_, .step (Function.update_self _ _ _) (.stop hend)⟩
    · exact ⟨_, .stop (by rw [Function.update_of_ne ha]; exact ends)⟩
  | @step a b c l link _ ih =>
    have ha : a ≠ old := by
      rintro rfl
      rw [links, (hfree List.mem_cons_self).1] at link
      cases link
    obtain ⟨l, hl⟩ := ih fun hin => hfree (List.mem_cons_of_mem a hin)
    exact ⟨_, .step (by rw [Function.update_of_ne ha]; exact link) hl⟩

theorem edgesNow_empty (edges : List ExportEdge) : edgesNow edges ∅ = edges := by
  have hlatest (id : String) : latest ∅ ((∅ : StrMap String).size + 1) [] id = id := latest_eq (.stop (by simp [links]))
  calc edgesNow edges ∅ = edges.map (fun edge => edge) := by
        rw [edgesNow]
        refine List.map_congr_left fun edge _ => ?_
        rw [hlatest, hlatest]
    _ = edges := List.map_id' edges

/-- edges with neither end at a superseded id stay -/
theorem edgesNow_single (edges : List ExportEdge) (hne : new ≠ old)
    (hends : ∀ edge ∈ edges, edge.from ≠ old ∧ edge.to ≠ old) :
    edgesNow edges ((∅ : StrMap String).insert old new) = edges := by
  have hsame (edge : ExportEdge) (he : edge ∈ edges) :
      { edge with
        «from» := if edge.from = old then new else edge.from
        «to» := if edge.to = old then new else edge.to } = edge := by
    rw [if_neg (hends edge he).1, if_neg (hends edge he).2]
  calc edgesNow edges ((∅ : StrMap String).insert old new) = edges.map (fun edge => edge) := by
        rw [edgesNow]
        refine List.map_congr_left fun edge he => ?_
        rw [latest_single hne, latest_single hne]
        exact hsame edge he
    _ = edges := List.map_id' edges

/-- the ends of edges, whose lineages run out -/
def RunsOut (m : StrMap String) (edges : List ExportEdge) : Prop :=
  ∀ edge ∈ edges, ∀ id ∈ [edge.from, edge.to], ∃ last l, Trail (links m) id last l

/-- whether a lineage of an edge's end comes to an id -/
def EndsReach (m : StrMap String) (edges : List ExportEdge) (id : String) : Prop :=
  ∃ edge ∈ edges, ∃ x ∈ [edge.from, edge.to], Relation.ReflTransGen (fun a b : String => m[a]? = some b) x id

/-- **One more supersession.** Edges followed through a history and one supersession more are those followed through the
history, re-pointed by it, where no lineage of an end meets a supersession twice. -/
theorem edgesNow_insert {edges : List ExportEdge} (hout : RunsOut m edges)
    (hfree : EndsReach m edges old → m[old]? = none ∧ m[new]? = none) (hne : new ≠ old) :
    RunsOut (m.insert old new) edges ∧
      edgesNow edges (m.insert old new) = edgesNow (edgesNow edges m) ((∅ : StrMap String).insert old new) := by
  have hend (edge : ExportEdge) (he : edge ∈ edges) (id : String) (hid : id ∈ [edge.from, edge.to]) :
      ∃ last l, Trail (links m) id last l ∧
        ∃ l', Trail (links (m.insert old new)) id (if last = old then new else last) l' := by
    obtain ⟨last, l, ht⟩ := hout edge he id hid
    exact ⟨last, l, ht, trail_insert ht (fun hin => hfree ⟨edge, he, id, hid, ht.reaches hin⟩) hne⟩
  have hlatest (edge : ExportEdge) (he : edge ∈ edges) (id : String) (hid : id ∈ [edge.from, edge.to]) :
      latest (m.insert old new) ((m.insert old new).size + 1) [] id =
        latest ((∅ : StrMap String).insert old new) (((∅ : StrMap String).insert old new).size + 1) []
          (latest m (m.size + 1) [] id) := by
    obtain ⟨last, l, ht, l', ht'⟩ := hend edge he id hid
    rw [latest_eq ht, latest_eq ht', latest_single hne]
  constructor
  · intro edge he id hid
    obtain ⟨last, -, -, l', ht'⟩ := hend edge he id hid
    exact ⟨_, l', ht'⟩
  · rw [edgesNow, edgesNow, edgesNow, List.map_map]
    refine List.map_congr_left fun edge he => ?_
    rw [hlatest edge he edge.from (by simp), hlatest edge he edge.to (by simp)]
    rfl

end

/-! ## What an edit is accepted as -/

/-- two plans alike but for what a launch states of itself and the order of each node's dependencies -/
structure Plan.Alike (p q : Plan) : Prop where
  concurrency : p.concurrency = q.concurrency
  tasks : List.Forall₂ Node.Alike p.tasks q.tasks
  exportEdges : p.exportEdges = q.exportEdges

theorem Graph.Agree.iter {g h : Graph} (ha : g.Agree h) : List.Forall₂ Node.Alike g.iter h.iter := by
  have hmaps : List.Forall₂ (Option.Rel Node.Alike) (g.iter.map some) (h.iter.map some) := by
    have hg : g.iter.map some = g.ids.map g.get := Keyed.items_map_some g.nodes
    have hh : h.iter.map some = g.ids.map h.get := ha.ids ▸ Keyed.items_map_some h.nodes
    rw [hg, hh, List.forall₂_map_left_iff, List.forall₂_map_right_iff]
    exact List.forall₂_same.mpr fun k _ => ha.nodes k
  rw [List.forall₂_map_left_iff, List.forall₂_map_right_iff] at hmaps
  refine hmaps.imp fun a b hab => ?_
  cases hab with
  | some h => exact h

theorem Graph.Sound.of_wires {g h : Graph} (hw : wiresOf g = wiresOf h) (hs : h.Sound) : g.Sound := by
  have hnode (k : String) (n : Node) (hn : g.get k = some n) :
      ∃ m, h.get k = some m ∧ m.deps = n.deps ∧ m.consumes = n.consumes := by
    have hk := congrFun hw k
    rw [wiresOf, wiresOf, hn, Option.map_some, eq_comm, Option.map_eq_some_iff] at hk
    obtain ⟨m, hm, heq⟩ := hk
    exact ⟨m, hm, congrArg Prod.fst heq, congrArg Prod.snd heq⟩
  refine ⟨fun k n hn d hd => ?_, fun k n hn => ?_⟩
  · obtain ⟨m, hm, hdeps, hcons⟩ := hnode k n hn
    exact hdeps ▸ hs.consumes k m hm d (hcons ▸ hd)
  · obtain ⟨m, hm, hdeps, -⟩ := hnode k n hn
    exact hdeps ▸ hs.notSelf k m hm

theorem Graph.Sound.of_agree {g h : Graph} (ha : g.Agree h) (hs : h.Sound) : g.Sound := by
  have hnode (k : String) (n : Node) (hn : g.get k = some n) : ∃ m, h.get k = some m ∧ n.Alike m := by
    have hk := ha.nodes k
    rw [hn] at hk
    cases hm : h.get k with
    | none => rw [hm] at hk; cases hk
    | some m => exact ⟨m, rfl, ha.get hn hm⟩
  refine ⟨fun k n hn d hd => ?_, fun k n hn hk => ?_⟩
  · obtain ⟨m, hm, halike⟩ := hnode k n hn
    exact (halike.deps d).mpr (hs.consumes k m hm d (halike.consumes ▸ hd))
  · obtain ⟨m, hm, halike⟩ := hnode k n hn
    exact hs.notSelf k m hm ((halike.deps k).mp hk)

section

variable {host : Host} {graph graph' : Graph} {frontier : Frontier} {author : Author} {ops : List Operation}

/-- the commands whose edited graph is not checked move no edge and no id -/
theorem compileInto_leaves {command : Command} (hleaves : leavesTheGraph command = true)
    (h : compileInto host graph frontier author command = .ok (graph', ops)) :
    graph'.ids = graph.ids ∧ wiresOf graph' = wiresOf graph := by
  cases command with
  | complete reason =>
    cases h
    exact ⟨rfl, rfl⟩
  | attest reference =>
    obtain ⟨-, -, rfl, -⟩ := compileAttest_ok h
    exact ⟨rfl, rfl⟩
  | finding message blocking id =>
    obtain ⟨rfl, -⟩ := compileFinding_ok h
    exact ⟨rfl, rfl⟩
  | settle id outcome evidence landing release =>
    simp only [compileInto, bind_eq_ok] at h
    obtain ⟨stated, -, h⟩ := h
    obtain ⟨-, rfl, -⟩ := compileSettle_ok h
    exact ⟨Graph.ids_modify .., wiresOf_modify fun _ => ⟨rfl, rfl⟩⟩
  | _ => cases hleaves

theorem leaves_resolves {command resolved : Command} (h : Resolves command resolved) :
    leavesTheGraph resolved = leavesTheGraph command := by
  cases h <;> rfl

/-- what an accepted command leaves: a sound graph, with the edges it was judged with between its nodes -/
theorem candidate_of_compiled {command : Command} (hs : graph.Sound)
    (hlive : ∀ edge ∈ frontier.exportEdges, edge.from ∈ graph.ids ∧ edge.to ∈ graph.ids)
    (h : compile host graph frontier author command = .ok (graph', ops)) :
    graph'.Sound ∧ ∀ edge ∈ edgesAfter command frontier.exportEdges, edge.from ∈ graph'.ids ∧ edge.to ∈ graph'.ids := by
  obtain ⟨resolved, haccepted⟩ := compile_ok h
  cases hleaves : leavesTheGraph command with
  | true =>
    have hquiet := (leaves_resolves (resolves_of_ok haccepted.resolves)).trans hleaves
    obtain ⟨hids, hwires⟩ := compileInto_leaves hquiet haccepted.compiles
    refine ⟨hs.of_wires hwires, ?_⟩
    have hsame : edgesAfter command frontier.exportEdges = frontier.exportEdges := by
      cases command <;> first | rfl | cases hleaves
    rw [hsame, hids]
    exact hlive
  | false =>
    have hrules := haccepted.edited hleaves
    have hsound : EditedRules host.toSiblings
        (graph'.toPlan (editedPlan graph' (edgesAfter command frontier.exportEdges))) := hrules
    exact ⟨hsound.sound, fun edge he => Boundary.ends_mem hrules.edges he⟩

/-- a retry of a node no other run's names reads back as it left the graph -/
theorem replaysAlike_retry {old : String} {node : Node} (hlocal : isCrossDag old = false)
    (h : compile host graph frontier author (.retry old node) = .ok (graph', ops)) :
    replaysAlike (.retry old node) = true := by
  obtain ⟨resolved, haccepted⟩ := compile_ok h
  have hrules := haccepted.edited rfl
  rw [← replaysAlike_resolves (resolves_of_ok haccepted.resolves)]
  have hretry : ∃ node', resolved = .retry old node' := by
    cases resolves_of_ok haccepted.resolves with
    | same => exact ⟨_, rfl⟩
    | retry _ _ agentGraph steps => exact ⟨_, rfl⟩
  obtain ⟨node', rfl⟩ := hretry
  obtain ⟨target, replacement, hget, -, -, hnew, hrep, heq⟩ := compileRetry_ok haccepted.compiles
  obtain ⟨hid, -, -, hdeps, hcons⟩ := retryReplacement_ok hrep
  have hgraph : graph' = _ := (congrArg Prod.fst heq).trans (supersede_graph old replacement _)
  refine decide_eq_true fun hin => ?_
  -- the replacement would depend on the node it retires
  have hdep : old ∈ replacement.deps := by
    have hd := hcons old hin
    rw [hdeps, if_neg (List.ne_nil_of_mem hd)]
    exact hd
  have hne : replacement.id ≠ old := fun h => hnew (hid ▸ h ▸ Graph.mem_ids_of_get hget)
  have hmem : graph'.get replacement.id = some replacement := by
    rw [hgraph, get_superseding (hid ▸ hnew), if_neg hne, if_pos rfl]
  have hgone : old ∉ graph'.ids := by
    rw [hgraph, Graph.mem_ids_remove]
    exact fun h => h.2 rfl
  rcases hrules.dep_local (Graph.get_eq_some.mp hmem).1 hdep with hcross | hlive
  · rw [hlocal] at hcross
    cases hcross
  · exact hgone hlive

/-- what supersedes a node is a rework, which reads back as it left the graph, or a retry -/
theorem replaysAlike_of_request {command : Command} {ids : List String} {old new : String}
    (h : Moves graph frontier command ids [(old, new)]) :
    replaysAlike command = true ∨ ∃ node, command = .retry old node := by
  cases h with
  | retried _ node => exact .inr ⟨node, rfl⟩
  | reworked => exact .inl rfl

end

/-! ## A run's edges -/

namespace RunState

variable {host : Host} {s : RunState} {e : Envelope} {plan : Plan} {journal : List Envelope}

/-- the export edges a run was launched with -/
def launchEdges (s : RunState) : List ExportEdge := (s.plan.map Plan.exportEdges).getD []

theorem exportEdges_frontier (s : RunState) : s.frontier.exportEdges = edgesNow s.launchEdges s.superseded := by
  rw [frontier, launchEdges]
  cases s.plan <;> rfl

theorem exportEdges_planNow (s : RunState) : (Boundary.planNow s).exportEdges = edgesNow s.launchEdges s.superseded := by
  rw [Boundary.planNow, launchEdges]
  cases s.plan <;> rfl

/-- every end of an export edge names a live node -/
def EndsLive (s : RunState) : Prop :=
  ∀ edge ∈ s.frontier.exportEdges, edge.from ∈ s.graph.ids ∧ edge.to ∈ s.graph.ids

/-- a sound graph, with an export edge's ends live and their lineages running out -/
structure Standing (s : RunState) : Prop where
  sound : s.graph.Sound
  live : s.EndsLive
  runsOut : RunsOut s.superseded s.launchEdges

/-- a command that supersedes, on a lineage of an export edge's end, an id superseded before, or by one superseded before -/
def crosses (s : RunState) : Command → Prop
  | .retry old node => EndsReach s.superseded s.launchEdges old ∧ (old ∈ s.superseded ∨ node.id ∈ s.superseded)
  | .rework old .. => EndsReach s.superseded s.launchEdges old ∧ old ∈ s.superseded
  | _ => False

/-- a record that is no edit, or one whose command crosses no lineage of an export edge's end and reads back as it left the
graph -/
def KeepsEdges (host : Host) (s : RunState) (e : Envelope) : Prop :=
  writtenAtAKnownVersion e = true → ∀ operations live author command graph', e.body = .editCommitted (some operations) →
    compile host s.graph (s.judged live) author command = .ok (graph', operations) →
    ¬s.crosses command ∧ replaysAlike command = true

/-- a record that is no edit, or one after which the fold states the edges and the plan its command was accepted with -/
def Restates (host : Host) (s : RunState) (e : Envelope) : Prop :=
  writtenAtAKnownVersion e = true → ∀ operations live author command graph', e.body = .editCommitted (some operations) →
    compile host s.graph (s.judged live) author command = .ok (graph', operations) →
    (foldRecord host s e).frontier.exportEdges = edgesAfter command s.frontier.exportEdges ∧
      (Boundary.planNow (foldRecord host s e)).Alike (editedPlan graph' (edgesAfter command s.frontier.exportEdges))

/-- what an accepted command leaves of the edges -/
theorem edges_moved {command : Command} {ids : List String} {requests : List (String × String)} {live : Live}
    (hs : s.Standing) (hcross : ¬s.crosses command)
    (hmoves : Moves s.graph (s.judged live) command ids requests)
    (hends : ∀ edge ∈ edgesAfter command s.frontier.exportEdges, edge.from ∈ ids ∧ edge.to ∈ ids) :
    RunsOut (Maps.insertAll s.superseded requests) s.launchEdges ∧
      edgesNow s.launchEdges (Maps.insertAll s.superseded requests) = edgesAfter command s.frontier.exportEdges := by
  rw [exportEdges_frontier] at hends ⊢
  cases hmoves with
  | added node new => exact ⟨hs.runsOut, rfl⟩
  | retried old node present new =>
    refine edgesNow_insert hs.runsOut (fun hreach => ?_) fun (heq : node.id = old) => new (heq ▸ present)
    rw [← Maps.not_mem_iff, ← Maps.not_mem_iff, ← not_or]
    exact fun hin => hcross ⟨hreach, hin⟩
  | reworked old new reason instruction comments title replacement present unused =>
    have hne : new ≠ old := fun heq => unused_ids unused (heq ▸ present)
    obtain ⟨hout, hedges⟩ := edgesNow_insert hs.runsOut
      (fun hreach => ⟨Maps.not_mem_iff.mp fun hin => hcross ⟨hreach, hin⟩, (not_mem_of_unused unused).1⟩) hne
    refine ⟨hout, hedges.trans (edgesNow_single _ hne fun edge he => ?_)⟩
    -- the reworked node is gone from the graph the edges were checked over
    obtain ⟨hfrom, hto⟩ := hends edge he
    exact ⟨of_decide_eq_true (List.mem_filter.mp hfrom).2, of_decide_eq_true (List.mem_filter.mp hto).2⟩
  | stays _ _ quiet keeps =>
    refine ⟨hs.runsOut, ?_⟩
    cases command <;> first | rfl | cases quiet

/-- **One edit.** -/
theorem standing_edit {operations : List Operation} {live : Live} {author : Author} {command : Command} {graph' : Graph}
    (hs : s.Standing) (hbody : e.body = .editCommitted (some operations)) (hv : writtenAtAKnownVersion e = true)
    (hc : compile host s.graph (s.judged live) author command = .ok (graph', operations)) (hcross : ¬s.crosses command)
    (halike : replaysAlike command = true) :
    (foldRecord host s e).Standing ∧
      (foldRecord host s e).frontier.exportEdges = edgesAfter command s.frontier.exportEdges ∧
      (Boundary.planNow (foldRecord host s e)).Alike (editedPlan graph' (edgesAfter command s.frontier.exportEdges)) := by
  obtain ⟨hgraph, hsuperseded, hplan⟩ := @foldRecord_edit host s e operations hbody hv
  have hjudged : (s.judged live).exportEdges = s.frontier.exportEdges := rfl
  obtain ⟨hsound, hlive⟩ := candidate_of_compiled hs.sound (by rw [hjudged]; exact hs.live) hc
  rw [hjudged] at hlive
  have hagree : (foldRecord host s e).graph.Agree graph' := by
    obtain ⟨resolved, haccepted⟩ := compile_ok hc
    rw [hgraph, compileInto_agrees hs.sound haccepted.compiles, replaysAlike_resolves (resolves_of_ok haccepted.resolves)]
    exact halike
  have hids : (applyAll host.serde s.graph operations).ids = graph'.ids := by rw [← hgraph, hagree.ids]
  obtain ⟨hout, hedges⟩ := edges_moved hs hcross (moves_of_compiled hc) (by rw [hids]; exact hlive)
  have hlaunch : (foldRecord host s e).launchEdges = s.launchEdges := by rw [launchEdges, hplan, launchEdges]
  have hafter : (foldRecord host s e).frontier.exportEdges = edgesAfter command s.frontier.exportEdges := by
    rw [exportEdges_frontier, hlaunch, hsuperseded, hedges]
  refine ⟨⟨hsound.of_agree hagree, ?_, ?_⟩, hafter, hagree.concurrency, hagree.iter, ?_⟩
  · rw [EndsLive, hafter, hagree.ids]
    exact hlive
  · rw [hlaunch, hsuperseded]
    exact hout
  · rw [exportEdges_planNow, ← exportEdges_frontier, hafter]
    rfl

theorem standing_of_wired {t : RunState} (h : t.wired = s.wired) (hs : s.Standing) : t.Standing := by
  have hm : t.superseded = s.superseded := congrArg Wired.superseded h
  have hp : t.plan = s.plan := congrArg Wired.plan h
  have hi : t.graph.ids = s.graph.ids := congrArg Wired.ids h
  have hw : wiresOf t.graph = wiresOf s.graph := congrArg Wired.wires h
  have hlaunch : t.launchEdges = s.launchEdges := by rw [launchEdges, hp, launchEdges]
  refine ⟨hs.sound.of_wires hw, ?_, ?_⟩
  · rw [EndsLive, exportEdges_frontier, hlaunch, hm, hi, ← exportEdges_frontier]
    exact hs.live
  · rw [hlaunch, hm]
    exact hs.runsOut

/-- what every record of such a run keeps -/
theorem standing_foldRecord (hs : s.Standing) (ha : Appends host s e) (hkeeps : KeepsEdges host s e) :
    (foldRecord host s e).Standing := by
  by_cases hbody : ∃ operations, e.body = .editCommitted operations
  · obtain ⟨operations, hbody⟩ := hbody
    cases hv : writtenAtAKnownVersion e with
    | false => exact standing_of_wired (wired_foldRecord_unread hbody hv) hs
    | true =>
      unfold Appends at ha
      rw [hbody] at ha
      cases operations with
      | none => cases ha
      | some ops =>
        obtain ⟨live, author, command, graph', hc⟩ := ha
        obtain ⟨hcross, halike⟩ := hkeeps hv ops live author command graph' hbody hc
        exact (standing_edit hs hbody hv hc hcross halike).1
  · exact standing_of_wired (wired_foldRecord ha fun operations heq => hbody ⟨operations, heq⟩) hs

theorem standing_started (hplan : check host.toSiblings plan = .ok ()) : (started plan).Standing := by
  simp only [check, bind_eq_ok, exists_unit] at hplan
  have hrules := checkEdited_eq_ok.mp hplan.2.1
  have hiter := Graph.iter_fromPlan plan hrules.nodup
  have hids : (Graph.fromPlan plan).ids = plan.tasks.map Node.id := congrArg (List.map Node.id) hiter
  have hnodes {k : String} {n : Node} (hn : (Graph.fromPlan plan).get k = some n) : n ∈ plan.tasks ∧ n.id = k :=
    hiter ▸ Graph.get_eq_some.mp hn
  refine ⟨⟨fun k n hn d hd => ?_, fun k n hn => ?_⟩, fun edge he => ?_, fun edge he id hid => ⟨id, _, .stop ?_⟩⟩
  · exact hrules.consumes_dep (hnodes hn).1 hd
  · exact (hnodes hn).2 ▸ hrules.not_self (hnodes hn).1
  · rw [exportEdges_frontier, started, edgesNow_empty] at he
    show edge.from ∈ (Graph.fromPlan plan).ids ∧ edge.to ∈ (Graph.fromPlan plan).ids
    rw [hids]
    exact Boundary.ends_mem hrules.edges he
  · simp [links, started]

/-- **The edges an edit is accepted with.** Over a run from an accepted plan, whose edits cross no lineage of an export
edge's end and read back as they left the graph, the fold states after each edit the edges and the plan it was accepted
with, and an end of an edge always names a live node. -/
theorem edges_as_accepted (hplan : check host.toSiblings plan = .ok ())
    (h : Admits (foldRecord host) (fun s e => Appends host s e ∧ KeepsEdges host s e) (started plan) journal) :
    Admits (foldRecord host) (Restates host) (started plan) journal ∧
      ∀ records, records <+: journal → (records.foldl (foldRecord host) (started plan)).EndsLive := by
  have hstart := standing_started hplan
  constructor
  · refine h.under (fun s e hs ha => standing_foldRecord hs ha.1 ha.2) (fun s e hs ha => ?_) hstart
    intro hv ops live author command graph' hbody hc
    obtain ⟨hcross, halike⟩ := ha.2 hv ops live author command graph' hbody hc
    exact (standing_edit hs hbody hv hc hcross halike).2
  · rintro records ⟨rest, rfl⟩
    exact ((Admits.append.mp h).1.invariant (fun s e hs ha => standing_foldRecord hs ha.1 ha.2) hstart).live

/-! ### An end retried into an id superseded before, and one into an id of its own -/

def producer (id : String) : Node :=
  { Node.direct id [] with repo := some "closed", title := some "feat: keep", publish := .preserve }

/-- private work exported to a public consumer, and a node of no repository -/
def exportPlan : Plan :=
  { Plan.ofNodes [producer "p", { Node.direct "c" ["p"] with repo := some "open", title := some "feat: take" },
      .direct "x" []] with
    exportEdges := [⟨"p", "c", "docs", "docs", []⟩] }

/-- the state a journal of the plan's run folds to -/
def exportState (journal : List Envelope) : RunState := journal.foldl (foldRecord .lenient) (started exportPlan)

/-- the record of a retry accepted after a journal -/
def retried (journal : List Envelope) (seq : ℕ) (old : String) (node : Node) : Envelope :=
  .own seq none (.editCommitted (some (operationsOf .lenient (exportState journal) (.retry old node))))

/-- the node of no repository failed and retried -/
def otherRetried : List Envelope := [failed 1 "x", retried [failed 1 "x"] 2 "x" (.direct "y" [])]

def otherRetriedFailed : List Envelope := otherRetried ++ [failed 3 "p"]

/-- the producer failed after it, and retried into its id -/
def endRetriedInto : List Envelope := otherRetriedFailed ++ [retried otherRetriedFailed 4 "p" (producer "x")]

theorem endRetriedInto_appends : Admits (foldRecord .lenient) (Appends .lenient) (started exportPlan) endRetriedInto := by
  have hother : (exportState [failed 1 "x"]).Compiled .lenient _ :=
    compiled_operationsOf (.retry "x" (.direct "y" [])) (by decide)
  have hend : (exportState otherRetriedFailed).Compiled .lenient _ :=
    compiled_operationsOf (.retry "p" (producer "x")) (by decide)
  have hbefore : Admits (foldRecord .lenient) (Appends .lenient) (started exportPlan) otherRetriedFailed :=
    ⟨trivial, hother, trivial, trivial⟩
  exact Admits.append.mpr ⟨hbefore, hend, trivial⟩

/-- an end retried into an id superseded before is accepted with an edge at it, and folded with one at its successor -/
theorem endRetriedInto_moves_on :
    check Host.lenient.toSiblings exportPlan = .ok () ∧
      Admits (foldRecord .lenient) (Appends .lenient) (started exportPlan) endRetriedInto ∧
      ¬Admits (foldRecord .lenient) (Restates .lenient) (started exportPlan) endRetriedInto := by
  refine ⟨by decide, endRetriedInto_appends, fun h => ?_⟩
  let e := retried otherRetriedFailed 4 "p" (producer "x")
  have hlast : Restates .lenient (exportState otherRetriedFailed) e := ((Admits.append.mp h).2).1
  have hbefore : (edgesAfter (.retry "p" (producer "x")) (exportState otherRetriedFailed).frontier.exportEdges).map
      ExportEdge.from = ["x"] := by decide
  have hafter : ((foldRecord .lenient (exportState otherRetriedFailed) e).frontier.exportEdges).map ExportEdge.from =
      ["y"] := by decide
  obtain ⟨graph', hc⟩ : ∃ graph', compile .lenient (exportState otherRetriedFailed).graph
      ((exportState otherRetriedFailed).judged {}) .planner (.retry "p" (producer "x")) = .ok (graph', _) :=
    compile_operationsOf (by decide)
  obtain ⟨hedges, -⟩ := hlast (by decide) _ {} .planner (.retry "p" (producer "x")) graph' rfl hc
  rw [hedges, hbefore] at hafter
  exact absurd hafter (by decide)

/-- the producer failed and retried into an id of its own -/
def endRetried : List Envelope := [failed 1 "p", retried [failed 1 "p"] 2 "p" (producer "q")]

theorem endRetried_keeps :
    Admits (foldRecord .lenient) (Restates .lenient) (started exportPlan) endRetried ∧
      ∀ records, records <+: endRetried → (records.foldl (foldRecord .lenient) (started exportPlan)).EndsLive := by
  have hretried : (exportState [failed 1 "p"]).Compiled .lenient _ :=
    compiled_operationsOf (.retry "p" (producer "q")) (by decide)
  have hrequest : (operationsOf .lenient (exportState [failed 1 "p"]) (.retry "p" (producer "q"))).filterMap requestOf =
      [("p", "q")] := by decide
  have hnone (k : String) : k ∉ (exportState [failed 1 "p"]).superseded := by
    have hempty : (exportState [failed 1 "p"]).superseded = ∅ := rfl
    rw [hempty]
    simp
  refine edges_as_accepted (by decide) ⟨⟨trivial, fun _ _ _ _ _ _ h => by cases h⟩, ⟨hretried, ?_⟩, trivial⟩
  intro _ operations live author command graph' hbody hc
  obtain rfl := Option.some.inj (Body.editCommitted.inj hbody)
  have hmoves := moves_of_compiled hc
  rw [hrequest] at hmoves
  refine ⟨fun hcross => ?_, ?_⟩
  · cases command <;> first | exact hcross | exact hcross.2.elim (hnone _) (hnone _) | exact hnone _ hcross.2
  · rcases replaysAlike_of_request hmoves with halike | ⟨node, rfl⟩
    · exact halike
    · exact replaysAlike_retry (by decide) hc

end RunState

end OnePipeline
