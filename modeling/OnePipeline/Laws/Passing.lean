/-
A run's graph against the rules each edit of it is judged by.

A note carried to a human node is recorded as a context, which no human node may hold: from there every edit of the run is
refused for it (`noted_wedges`).

Results:
- `checkNode_written`: what is written onto a node between edits breaks no rule of it, but for a human node's context;
- `EditedRules.moved`: nor a rule of its graph;
- `replays_moved`: an accepted command's records fold to the graph it left but for such writes, or to the graph before it;
- `passes_of_keeps`: over a run that carries no note to a human node, supersedes no id twice and takes no id of another run's
  shape, every state's graph passes.
-/
import Mathlib.Tactic
import OnePipeline.Laws.Edges
import OnePipeline.Laws.Renaming

namespace OnePipeline

open Checks Runs

/-! ## What is written between edits -/

/-- a node less what settlements, dispatches, adoptions, requeues and notes write onto it -/
def Node.stated (n : Node) : Node :=
  { n with deps := [], context := none, parked := false, branch := none, resume := none }

/-- two nodes alike but for that and the order of their dependencies, with no note written onto a human one -/
structure Node.Moved (n n' : Node) : Prop where
  deps : ∀ d, d ∈ n'.deps ↔ d ∈ n.deps
  stated : n'.stated = n.stated
  noted : n.kind = .human → n'.context.isSome = true → n.context.isSome = true

namespace Node.Moved

variable {a b c : Node}

@[refl] protected theorem refl (n : Node) : n.Moved n := ⟨fun _ => Iff.rfl, rfl, fun _ h => h⟩

theorem field {β : Type} (h : a.Moved b) (f : Node → β) (hf : ∀ n : Node, f n.stated = f n) : f b = f a := by
  rw [← hf b, ← hf a, h.stated]

theorem trans (h : a.Moved b) (h' : b.Moved c) : a.Moved c := by
  have hkind : b.kind = a.kind := h.field Node.kind fun _ => rfl
  exact ⟨fun d => (h'.deps d).trans (h.deps d), h'.stated.trans h.stated,
    fun hk hc => h.noted hk (h'.noted (hkind.trans hk) hc)⟩

theorem of_alike (h : b.Alike a) : a.Moved b := by
  have hcontext : b.context = a.context := h.field Node.context fun _ => rfl
  refine ⟨h.deps, ?_, fun _ hc => hcontext ▸ hc⟩
  calc b.stated = ({ b with deps := [] } : Node).stated := rfl
    _ = ({ a with deps := [] } : Node).stated := by rw [h.rest]
    _ = a.stated := rfl

theorem eq (h : a.Moved b) :
    b = { a with deps := b.deps, context := b.context, parked := b.parked, branch := b.branch, resume := b.resume } := by
  exact congrArg (fun n : Node =>
    { n with deps := b.deps, context := b.context, parked := b.parked, branch := b.branch, resume := b.resume }) h.stated

end Node.Moved

section

variable {sib : Siblings}

theorem checkHuman_context {n : Node} (h : checkHuman n = .ok ()) : n.context = none := by
  simp only [checkHuman, bind_eq_ok, refuseIf_eq_ok, exists_unit, Bool.not_eq_true, Option.isSome_eq_false_iff,
    Option.isNone_iff_eq_none] at h
  exact h.2.2.2.2

theorem checkStepShapes_congr {n m : Node} (h : n.id = m.id) (earlier : List String) (steps : List Step) :
    checkStepShapes n earlier steps = checkStepShapes m earlier steps := by
  induction steps generalizing earlier with
  | nil => rfl
  | cons step steps ih =>
    have hstep : checkStep n earlier step = checkStep m earlier step := by
      simp only [checkStep, checkStepKind, h]
    rw [checkStepShapes, checkStepShapes, hstep]
    simp only [ih]

/-- a node's check of its steps reads its id alone -/
theorem checkSteps_congr {n m : Node} (h : n.id = m.id) (steps : List Step) : checkSteps n steps = checkSteps m steps := by
  simp only [checkSteps, checkStepShapes_congr h, h]

theorem checkAgent_congr {n m : Node} (hid : n.id = m.id) (hturns : n.maxTurns = m.maxTurns) (hrepo : n.repo = m.repo)
    (hsteps : n.steps = m.steps) (hpersona : n.persona = m.persona) (htask : n.task = m.task) :
    checkAgent n = checkAgent m := by
  simp only [checkAgent, checkSteps_congr hid, hid, hturns, hrepo, hsteps, hpersona, htask]

/-- **What is written onto a node.** It breaks no rule of a node that consumes at its dependencies alone, and is given no
note where it is a human one. -/
theorem checkNode_written {n : Node} {deps : List String} {consumes : StrMap String} {context branch : Option String}
    {parked : Bool} {resume : Option Resume} (h : checkNode sib n = .ok ()) (hconsumes : ∀ k ∈ consumes, k ∈ deps)
    (hnoted : n.kind = .human → context.isSome = true → n.context.isSome = true) :
    checkNode sib { n with deps, consumes, context, parked, branch, resume } = .ok () := by
  rw [checkNode, bind_eq_ok, exists_unit] at h ⊢
  obtain ⟨hfields, hkind⟩ := h
  constructor
  · simp only [checkFields, bind_eq_ok, each_eq_ok, refuseAs_eq_ok, refuseIf_eq_ok, exists_unit, not_not,
      Option.map_eq_none_iff] at hfields ⊢
    obtain ⟨hsets, hdispatch, hauthor, hreply, hpreserve, hdelivers, hat, hamendment, -⟩ := hfields
    exact ⟨hsets, hdispatch, hauthor, hreply, hpreserve, hdelivers, hat, hamendment,
      fun k hk => hconsumes k (Std.ExtTreeMap.mem_keys.mp hk)⟩
  · by_cases hhuman : n.kind = .human
    · rw [if_pos hhuman] at hkind ⊢
      have hnone : context = none := by
        cases context with
        | none => rfl
        | some c =>
          have hsome := hnoted hhuman rfl
          rw [checkHuman_context hkind] at hsome
          cases hsome
      subst hnone
      simp only [checkHuman, bind_eq_ok, refuseIf_eq_ok, exists_unit] at hkind ⊢
      exact ⟨hkind.1, hkind.2.1, hkind.2.2.1, hkind.2.2.2.1, by simp⟩
    · rw [if_neg hhuman] at hkind ⊢
      split_ifs at hkind ⊢
      · exact hkind
      · refine Eq.trans (checkAgent_congr ?_ ?_ ?_ ?_ ?_ ?_) hkind <;> rfl

theorem checkTitle_iff {node : Node} : checkTitle sib node = .ok () ↔
    (node.repo.isSome = true → ∀ title, node.title = some title → validateTitle sib title = .ok ()) := by
  rw [checkTitle]
  cases node.repo with
  | none => simp
  | some repo =>
    cases node.title with
    | none => simp
    | some title => simp [mapError_eq_ok]

/-- a title that a publication takes breaks no rule of a node -/
theorem checkNode_retitled {n : Node} {title : String} (h : checkNode sib n = .ok ())
    (htitle : n.repo.isSome = true → validateTitle sib title = .ok ()) :
    checkNode sib { n with title := some title } = .ok () := by
  rw [checkNode, bind_eq_ok, exists_unit] at h ⊢
  obtain ⟨hfields, hkind⟩ := h
  constructor
  · simp only [checkFields, bind_eq_ok, each_eq_ok, refuseAs_eq_ok, refuseIf_eq_ok, exists_unit, not_not,
      Option.map_eq_none_iff] at hfields ⊢
    obtain ⟨hsets, hdispatch, hauthor, hreply, hpreserve, hdelivers, -, hamendment, hconsumes⟩ := hfields
    refine ⟨hsets, hdispatch, hauthor, hreply, hpreserve, hdelivers, ?_, hamendment, hconsumes⟩
    refine checkTitle_iff.mpr fun hrepo t ht => ?_
    rw [← Option.some.inj ht]
    exact htitle hrepo
  · by_cases hhuman : n.kind = .human
    · rw [if_pos hhuman] at hkind ⊢
      exact hkind
    · rw [if_neg hhuman] at hkind ⊢
      split_ifs at hkind ⊢
      · exact hkind
      · refine Eq.trans (checkAgent_congr ?_ ?_ ?_ ?_ ?_ ?_) hkind <;> rfl

theorem checkNode_moved {n n' : Node} (hm : n.Moved n') (h : checkNode sib n = .ok ()) : checkNode sib n' = .ok () := by
  rw [hm.eq]
  exact checkNode_written h (fun k hk => (hm.deps k).mpr (checkNode_consumes h hk)) hm.noted

end

/-- two graphs of the same ids in one order, with a node moved under each -/
structure Graph.Moved (g g' : Graph) : Prop where
  ids : g'.ids = g.ids
  concurrency : g'.concurrency = g.concurrency
  nodes : ∀ k, Option.Rel Node.Moved (g.get k) (g'.get k)

namespace Graph.Moved

variable {g g' h : Graph}

@[refl] protected theorem refl (g : Graph) : g.Moved g := by
  refine ⟨rfl, rfl, fun k => ?_⟩
  cases g.get k with
  | none => exact .none
  | some n => exact .some (.refl n)

theorem trans (hm : g.Moved g') (hm' : g'.Moved h) : g.Moved h := by
  refine ⟨hm'.ids.trans hm.ids, hm'.concurrency.trans hm.concurrency, fun k => ?_⟩
  have hk := hm.nodes k
  have hk' := hm'.nodes k
  revert hk hk'
  generalize g.get k = a, g'.get k = b, h.get k = c
  intro hk hk'
  cases hk with
  | none => cases hk' with | none => exact .none
  | some hab => cases hk' with | some hbc => exact .some (hab.trans hbc)

theorem of_agree (ha : g'.Agree g) : g.Moved g' := by
  refine ⟨ha.ids, ha.concurrency, fun k => ?_⟩
  have hk := ha.nodes k
  cases hn : g.get k <;> cases hn' : g'.get k <;> rw [hn, hn'] at hk
  · exact .none
  · cases hk
  · cases hk
  · exact .some (.of_alike (ha.get hn' hn))

/-- one node's change -/
theorem modify (g : Graph) (id : String) (f : Node → Node) {keeps : ∀ n : Node, (f n).id = n.id}
    (hf : ∀ n, g.get id = some n → n.Moved (f n)) : g.Moved (g.modify id f keeps) := by
  refine ⟨Graph.ids_modify .., Graph.concurrency_modify .., fun k => ?_⟩
  rw [Graph.get_modify]
  split_ifs with hk
  · subst hk
    cases hn : g.get k with
    | none => exact .none
    | some n => exact .some (hf n hn)
  · exact (Graph.Moved.refl g).nodes k

/-- one node put in in two ways -/
theorem insert (g : Graph) {a b : Node} (hab : a.Moved b) : (g.insert a).Moved (g.insert b) := by
  have hid : b.id = a.id := hab.field Node.id fun _ => rfl
  refine ⟨?_, rfl, fun k => ?_⟩
  · by_cases hin : a.id ∈ g.ids
    · rw [Graph.ids_insert_mem hin, Graph.ids_insert_mem (hid ▸ hin)]
    · rw [Graph.ids_insert_new hin, Graph.ids_insert_new (hid ▸ hin), hid]
  · rw [Graph.get_insert, Graph.get_insert, hid]
    split_ifs
    · exact .some hab
    · exact (Graph.Moved.refl g).nodes k

end Graph.Moved

/-! ## The rules of a graph -/

section

variable {sib : Siblings} {g g' : Graph} {edges : List ExportEdge}

theorem Graph.Moved.renamed (hm : g.Moved g') (hown : OwnIds g) : g.Renamed (fun k => k) g' where
  concurrency := hm.concurrency
  forth k n hn := by
    have hk := hm.nodes k
    rw [hn] at hk
    obtain ⟨n', hn', hnn⟩ : ∃ n', g'.get k = some n' ∧ n.Moved n' := by
      generalize g'.get k = o at hk
      cases hk with
      | some hnn => exact ⟨_, rfl, hnn⟩
    exact ⟨n', hn', hnn.field Node.publish fun _ => rfl, hnn.field Node.repo fun _ => rfl,
      hnn.field Node.baseBranch fun _ => rfl, hnn.field Node.delivers fun _ => rfl, fun d => by simp [hnn.deps d]⟩
  back k hk := ⟨k, hm.ids ▸ hk, rfl⟩
  inj _ _ _ _ h := h
  own := hown
  own' k hk := hown k (hm.ids ▸ hk)
  wellFormed _ _ h := h

/-- **What is written onto a graph.** It breaks no rule of its plan. -/
theorem EditedRules.moved (hm : g.Moved g') (hown : OwnIds g) (hr : EditedRules sib (editedPlan g edges)) :
    EditedRules sib (editedPlan g' edges) := by
  refine hr.renamed (hm.renamed hown) (fun n' hn' => ?_) fun _ _ => ⟨rfl, rfl⟩
  obtain ⟨n, hn, hid, -, hget⟩ := (hm.renamed hown).node_back hn'
  have hmoved : n.Moved n' := by
    have hk := hm.nodes n.id
    rw [Graph.get_of_mem hn, hget] at hk
    cases hk with
    | some hnn => exact hnn
  exact ⟨hid ▸ hr.id_not_blank hn, checkNode_moved hmoved (hr.node hn)⟩

end

/-! ## What records write -/

section

variable {host : Host} {graph graph' : Graph} {frontier : Frontier} {author : Author} {ops : List Operation}

/-- a requeue reads back as it left the graph, but for its park, or leaves the graph as it was -/
theorem requeue_moved {id : String} {amend : Option Fields}
    (h : compileRequeue host graph frontier author id amend = .ok (graph', ops)) :
    applyAll host.serde graph ops = graph ∨ graph'.Moved (applyAll host.serde graph ops) := by
  by_cases hleaves : leavesThePark amend = true
  · exact .inr (.of_agree ((requeue_agrees h).mpr hleaves))
  · obtain ⟨node, amended, hget, -, -, hread, rfl, rfl⟩ := compileRequeue_ok h
    have habsent : (requeueObject host.serde node amend)["parked"]? = none := by
      rw [requeueObject, Maps.get_erase, if_pos rfl]
    rw [applyAll_cons, applyAll_nil, apply, hget, Option.bind_some, requeued, merge_filter, replayed_object,
      ← requeueObject]
    rw [leavesThePark] at hleaves
    cases hv : amend.bind fun a => a["parked"]? with
    | none =>
      rw [hv] at hleaves
      exact absurd rfl hleaves
    | some v =>
      cases v with
      | bool b =>
        right
        have hback := (host.serde.ofObject_parked (b := b) habsent).mpr ⟨amended, hread, rfl⟩
        simp only [hback]
        exact .insert graph ⟨fun _ => Iff.rfl, rfl, fun _ hc => hc⟩
      | _ =>
        left
        cases hback : host.serde.ofObject _ with
        | ok m => exact absurd hback (host.serde.not_ok_of_not_bool (by rintro b ⟨⟩))
        | error e => rfl

/-- **Replay.** An accepted command's records fold to the graph it left but for such writes, or leave the graph as it was. -/
theorem replays_moved {command : Command} (hs : graph.Sound) (hown : OwnIds graph)
    (h : compile host graph frontier author command = .ok (graph', ops)) :
    (∃ id amend, command = .requeue id amend) ∧ applyAll host.serde graph ops = graph ∨
      graph'.Moved (applyAll host.serde graph ops) := by
  obtain ⟨resolved, haccepted⟩ := compile_ok h
  have hresolves := resolves_of_ok haccepted.resolves
  by_cases halike : replaysAlike command = true
  · right
    refine .of_agree ((compileInto_agrees hs haccepted.compiles).mpr ?_)
    rw [replaysAlike_resolves hresolves, halike]
  · cases command with
    | requeue id amend =>
      have hmoved : applyAll host.serde graph ops = graph ∨ graph'.Moved (applyAll host.serde graph ops) := by
        cases hresolves with
        | same => exact requeue_moved haccepted.compiles
        | requeue id amend amend' keeps => exact requeue_moved haccepted.compiles
      exact hmoved.imp_left fun hsame => ⟨⟨id, amend, rfl⟩, hsame⟩
    | retry old node =>
      have hmoves := moves_of_compiled h
      have hpresent : old ∈ graph.ids := by
        generalize (applyAll host.serde graph ops).ids = ids, ops.filterMap RunState.requestOf = requests at hmoves
        cases hmoves with
        | retried _ _ present => exact present
        | stays _ _ quiet => cases quiet
      exact absurd (replaysAlike_retry (hown old hpresent) h) halike
    | _ => exact absurd rfl halike

end

/-! ## A run -/

/-- an id no reference to another run starts like -/
def ownId (id : String) : Bool := !Text.startsWith "run:".toList id.toList

theorem not_crossDag_of_own {id : String} (h : ownId id = true) : isCrossDag id = false := by
  have hnone : Text.stripPrefix "run:".toList id.toList = none := by
    simpa [ownId, Text.startsWith] using h
  rw [isCrossDag, crossDagParse, hnone]
  rfl

theorem stripPrefix_append {p l m : List Char} {c : Char} (hc : c ∉ p) (h : Text.stripPrefix p l = none) :
    Text.stripPrefix p (l ++ c :: m) = none := by
  induction p generalizing l with
  | nil => cases l <;> cases h
  | cons a p ih =>
    rw [List.mem_cons, not_or] at hc
    cases l with
    | nil => rw [List.nil_append, Text.stripPrefix, if_neg fun heq => hc.1 heq.symm]
    | cons b l =>
      rw [List.cons_append, Text.stripPrefix]
      rw [Text.stripPrefix] at h
      split_ifs at h ⊢ with heq
      · exact ih hc.2 h
      · rfl

/-- a name minted from such an id is one -/
theorem own_minted {root : String} (n : ℕ) (h : ownId root = true) : ownId s!"{root}-rework-{n}" = true := by
  have hroot : Text.stripPrefix "run:".toList root.toList = none := by
    simpa [ownId, Text.startsWith] using h
  have hlist : (s!"{root}-rework-{n}").toList = root.toList ++ '-' :: ("rework-".toList ++ (toString n).toList) := by
    simp only [String.toList_append, List.append_assoc]
    rfl
  rw [ownId, Text.startsWith, hlist, stripPrefix_append (by decide) hroot]
  rfl

theorem name_of_freeFrom {isUsed : String → Bool} {root id : String} {fuel n : ℕ}
    (h : freeFrom isUsed root fuel n = some id) : ∃ k : ℕ, id = s!"{root}-rework-{k}" := by
  induction fuel generalizing n with
  | zero => cases h
  | succ fuel ih =>
    rw [freeFrom] at h
    split_ifs at h with hused
    · exact ih h
    · cases h
      exact ⟨n, rfl⟩

/-- the walk back to a lineage's root comes to a superseded id, or stays -/
theorem lineageRoot_mem (frontier : Frontier) (id : String) :
    lineageRoot frontier id = id ∨ lineageRoot frontier id ∈ frontier.superseded := by
  have hwalk (fuel : ℕ) (seen : List String) (id : String) : lineageRootFrom frontier fuel seen id = id ∨
      lineageRootFrom frontier fuel seen id ∈ frontier.superseded := by
    induction fuel generalizing seen id with
    | zero => exact .inl rfl
    | succ fuel ih =>
      rw [lineageRootFrom]
      cases hbefore : frontier.superseded.toList.find? fun p => p.2 = id with
      | none => exact .inl rfl
      | some p =>
        simp only
        split_ifs
        · exact .inl rfl
        · rcases ih (p.1 :: seen) p.1 with hat | hin
          · right
            rw [hat]
            exact Maps.mem_iff.mpr ⟨p.2, Std.ExtTreeMap.mem_toList_iff_getElem?_eq_some.mp (List.mem_of_find?_eq_some hbefore)⟩
          · exact .inr hin
  exact hwalk _ _ _

/-- the note an operation carries to a node's next dispatch -/
def Operation.carriesTo : Operation → Option String
  | .noteDelivered node _ _ _ (.carried _) _ _ => some node
  | _ => none

/-- an operation that delivers a note or takes one back -/
def Operation.isNote : Operation → Bool
  | .noteDelivered .. | .noteWithdrawn .. => true
  | _ => false

section

variable {host : Host}

/-- notes carried to no human node, and notes taken back -/
theorem notes_moved {ops : List Operation} {g : Graph} (hops : ∀ op ∈ ops, op.isNote = true)
    (hhuman : ∀ op ∈ ops, ∀ node n, op.carriesTo = some node → g.get node = some n → n.kind ≠ .human) :
    g.Moved (applyAll host.serde g ops) := by
  induction ops generalizing g with
  | nil => exact .refl g
  | cons op ops ih =>
    rw [applyAll_cons]
    have hone : g.Moved (apply host.serde g op) := by
      have hop := hops op List.mem_cons_self
      have hto := hhuman op List.mem_cons_self
      cases op with
      | noteDelivered node addressee text criterion reached envelope index =>
        cases reached with
        | carried why =>
          exact .modify g node _ fun n hn => ⟨fun _ => Iff.rfl, rfl, fun hk _ => absurd hk (hto node n rfl hn)⟩
        | _ => exact .refl g
      | noteWithdrawn node envelope index «from» text alikeAfter =>
        cases «from» with
        | live => exact .refl g
        | carried =>
          refine .modify g node _ fun n hn => ⟨fun _ => Iff.rfl, rfl, fun _ hc => ?_⟩
          cases hctx : n.context with
          | none => simp [hctx] at hc
          | some c => rfl
      | _ => cases hop
    refine hone.trans (ih (fun o ho => hops o (List.mem_cons_of_mem _ ho)) fun o ho node n hto hn hkind => ?_)
    obtain ⟨m, hm, hmn⟩ : ∃ m, g.get node = some m ∧ m.Moved n := by
      have hk := hone.nodes node
      rw [hn] at hk
      generalize g.get node = x at hk
      cases hk with
      | some hmn => exact ⟨_, rfl, hmn⟩
    have hsame : n.kind = m.kind := hmn.field Node.kind fun _ => rfl
    exact hhuman o (List.mem_cons_of_mem _ ho) node m hto hm (hsame ▸ hkind)

theorem requests_of_notes {ops : List Operation} (hops : ∀ op ∈ ops, op.isNote = true) :
    ops.filterMap RunState.requestOf = [] := by
  refine List.filterMap_eq_nil_iff.mpr fun op hop => ?_
  have hnote := hops op hop
  cases op <;> first | rfl | cases hnote

end

namespace RunState

variable {host : Host} {s t : RunState} {e : Envelope} {plan : Plan} {journal : List Envelope}

/-- a record of notes: where receivers' answers and withdrawals are recorded -/
def Notes (e : Envelope) : Prop :=
  ∃ operations, (e.body = .editCommitted (some operations) ∨ e.body = .commandAccepted (some operations)) ∧
    ∀ op ∈ operations, op.isNote = true

/-- a record of what happened outside the run's own edits and settlements: a change retitled, landed, absorbed or read, a
release told, a node taken back up, a report, a driver's exit -/
def Reports (e : Envelope) : Prop :=
  match e.body with
  | .nodeRequeued | .changeRetitled _ | .nodeLanded _ | .nodeAbsorbed _ | .nodeReadjusted _ | .nodeChecksRead _ => True
  | .releaseAdopted .. | .driverExited | .editRejected _ | .report _ | .relayed .. => True
  | _ => False

/-! ### A record that is no edit -/

theorem moved_foldStatus (node : String) (status : Option NodeStatus) : s.graph.Moved (s.foldStatus node status).graph := by
  cases status with
  | none => exact .refl _
  | some status =>
    simp only [foldStatus, foldSettledStatus]
    split_ifs
    · exact .modify s.graph node _ fun _ _ => ⟨fun _ => Iff.rfl, rfl, fun _ hc => hc⟩
    · exact .refl _

theorem moved_pinSettled (node : String) (status : Option NodeStatus) : s.graph.Moved (s.pinSettled node status).graph := by
  cases status with
  | none => exact .refl _
  | some status =>
    simp only [pinSettled, pinPreservedBranch]
    split_ifs
    · cases s.branches[node]? with
      | none => exact .refl _
      | some preserved => exact .modify s.graph node _ fun _ _ => ⟨fun _ => Iff.rfl, rfl, fun _ hc => hc⟩
    · exact .refl _

theorem moved_foldSettled (node : String) (settled : Settlement) : s.graph.Moved (s.foldSettled node settled).graph := by
  let start := (s.foldStatus node settled.status).foldOutcome node settled.outcome
  let left := (start.retractStated node settled.outcome).foldLeftBehind node settled
  have hstart : s.graph.Moved start.graph := moved_foldStatus node settled.status
  have hleft : left.graph = start.graph := by
    show (start.retractStated node settled.outcome).graph = start.graph
    unfold retractStated
    split_ifs <;> rfl
  have hpin : left.graph.Moved (left.pinSettled node settled.status).graph := moved_pinSettled node settled.status
  rw [hleft] at hpin
  exact hstart.trans hpin

theorem moved_foldAdopted : s.graph.Moved s.foldAdopted.graph := by
  have hfold (l : List (String × DispatchSession)) (t : RunState) : t.graph.Moved (l.foldl abandonOne t).graph := by
    induction l generalizing t with
    | nil => exact .refl _
    | cons p l ih =>
      have hone : t.graph.Moved (t.abandonOne p).graph :=
        .modify t.graph p.1 _ fun _ _ => ⟨fun _ => Iff.rfl, rfl, fun _ hc => hc⟩
      exact hone.trans (ih _)
  exact hfold s.sessionsInFlight s

/-- **A record that is no edit.** It breaks no rule of the graph. -/
theorem moved_foldRecord (h : Appends host s e) (hedit : ∀ operations, e.body ≠ .editCommitted operations) :
    s.graph.Moved (foldRecord host s e).graph := by
  obtain ⟨v, ts, stream, seq, node, body⟩ := e
  have hkept : (s.kept ⟨v, ts, stream, seq, node, body⟩).graph = s.graph := by
    unfold kept
    split_ifs <;> rfl
  have hpipeline (t : RunState) (ht : t.graph = s.graph) :
      s.graph.Moved (t.foldPipeline host ⟨v, ts, stream, seq, node, body⟩).graph := by
    rw [← ht]
    cases body with
    | nodeDispatched composed =>
      cases node with
      | none => exact .refl _
      | some node => exact .modify t.graph node _ fun _ _ => ⟨fun _ => Iff.rfl, rfl, fun _ hc => by cases hc⟩
    | nodeSettled settled =>
      cases node with
      | none => exact .refl _
      | some node => exact moved_foldSettled node settled
    | nodeRestackStarted node => cases node <;> exact .refl _
    | nodeRestacked node => cases node <;> exact .refl _
    | humanAttested reference => cases reference <;> exact .refl _
    | driverAdopted epoch => exact moved_foldAdopted
    | editCommitted operations => exact absurd rfl (hedit operations)
    | _ => cases h
  rw [foldRecord_pipeline]
  · split_ifs
    · exact hpipeline _ hkept
    · exact .refl _
  · cases body <;> first | rfl | cases h
  · intro v ts stream seq node heq
    cases heq
    cases h

/-! ### Ids -/

/-- no id the run has used starts like a reference to another run -/
def OwnLineages (s : RunState) : Prop :=
  ∀ id, id ∈ s.graph.ids ∨ id ∈ s.superseded ∨ (∃ x : String, s.superseded[x]? = some id) → ownId id = true

theorem OwnLineages.ids (h : s.OwnLineages) : OwnIds s.graph := fun id hid => not_crossDag_of_own (h id (.inl hid))

/-- a command that states no id starting like a reference to another run -/
def statesOwnIds : Command → Bool
  | .add node | .retry _ node => ownId node.id
  | .rework _ _ _ _ _ replacement => replacement.all ownId
  | _ => true

/-- the id a rework brings in is the stated one, or minted from its lineage's root -/
theorem own_reworked {live : Live} {author : Author} {id reason instruction : String} {comments : List ReworkComment}
    {title replacement : Option String} {graph' : Graph} {operations : List Operation} (h : s.OwnLineages)
    (hc : compile host s.graph (s.judged live) author (.rework id reason instruction comments title replacement) =
      .ok (graph', operations))
    (hstates : replacement.all ownId = true) : ∀ p ∈ operations.filterMap requestOf, ownId p.2 = true := by
  obtain ⟨new, hid, hrequests⟩ := request_of_rework hc
  have hin : id ∈ s.graph.ids := by
    have hmoves := moves_of_compiled hc
    rw [hrequests] at hmoves
    generalize (applyAll host.serde s.graph operations).ids = ids at hmoves
    cases hmoves with
    | reworked _ _ _ _ _ _ _ present => exact present
  rw [hrequests]
  intro p hp
  rw [List.mem_singleton.mp hp]
  show ownId new = true
  cases replacement with
  | some named =>
    simp only [reworkId, bind_eq_ok, refuseIf_eq_ok, exists_unit, pure_eq_ok] at hid
    rw [← hid.2.2]
    exact hstates
  | none =>
    simp only [reworkId, need_eq_ok] at hid
    obtain ⟨k, rfl⟩ := name_of_freeFrom hid
    refine own_minted k ?_
    rcases lineageRoot_mem (s.judged live) id with hsame | hkey
    · rw [hsame]
      exact h id (.inl hin)
    · exact h _ (.inr (.inl hkey))

theorem own_moved {live : Live} {author : Author} {command : Command} {graph' : Graph} {operations : List Operation}
    (h : s.OwnLineages) (hc : compile host s.graph (s.judged live) author command = .ok (graph', operations))
    (hstates : statesOwnIds command = true) :
    ∀ id, id ∈ (applyAll host.serde s.graph operations).ids ∨
      id ∈ Maps.insertAll s.superseded (operations.filterMap requestOf) ∨
      (∃ x : String, (Maps.insertAll s.superseded (operations.filterMap requestOf))[x]? = some id) → ownId id = true := by
  have hmoves := moves_of_compiled hc
  have hreworked := fun id reason instruction comments title replacement
      (heq : command = .rework id reason instruction comments title replacement) =>
    own_reworked h (heq ▸ hc) (by rw [heq] at hstates; exact hstates)
  generalize (applyAll host.serde s.graph operations).ids = ids, operations.filterMap requestOf = requests at hmoves hreworked
  have hone {old new : String} {rest : List String} (hold : old ∈ s.graph.ids) (hnew : ownId new = true)
      (hids : ∀ id ∈ rest, id ∈ s.graph.ids ∨ id = new) (id : String)
      (hid : id ∈ rest ∨ id ∈ s.superseded.insert old new ∨ (∃ x : String, (s.superseded.insert old new)[x]? = some id)) :
      ownId id = true := by
    rcases hid with hin | hkey | ⟨x, hvalue⟩
    · rcases hids id hin with hin | rfl
      · exact h id (.inl hin)
      · exact hnew
    · obtain ⟨v, hv⟩ := Maps.mem_iff.mp hkey
      rw [Maps.get_insert] at hv
      split_ifs at hv with hat
      · exact hat ▸ h old (.inl hold)
      · exact h id (.inr (.inl (Maps.mem_iff.mpr ⟨v, hv⟩)))
    · rw [Maps.get_insert] at hvalue
      split_ifs at hvalue
      · rw [← Option.some.inj hvalue]
        exact hnew
      · exact h id (.inr (.inr ⟨x, hvalue⟩))
  have hadded {id new : String} {l : List String} (hin : id ∈ l ++ [new]) : id ∈ l ∨ id = new := by
    rcases List.mem_append.mp hin with hin | hin
    · exact .inl hin
    · exact .inr (List.mem_singleton.mp hin)
  intro id hid
  cases hmoves with
  | added node new =>
    rcases hid with hin | hrest
    · rcases hadded hin with hin | rfl
      · exact h id (.inl hin)
      · exact hstates
    · exact h id (.inr hrest)
  | retried old node present new =>
    exact hone present hstates (fun id hin => hadded (List.mem_filter.mp hin).1) id hid
  | reworked old new reason instruction comments title replacement present unused =>
    have hnew := hreworked old reason instruction comments title replacement rfl (old, new) List.mem_cons_self
    exact hone present hnew (fun id hin => hadded (List.mem_filter.mp hin).1) id hid
  | stays _ _ quiet keeps =>
    rcases hid with hin | hrest
    · exact h id (.inl (keeps hin))
    · exact h id (.inr hrest)

/-! ### A run's graph -/

/-- a state whose graph, with the export edges it states, passes the rules its edits are held to -/
structure Passing (host : Host) (s : RunState) : Prop where
  rules : EditedRules host.toSiblings (editedPlan s.graph s.frontier.exportEdges)
  runsOut : RunsOut s.superseded s.launchEdges
  own : s.OwnLineages

theorem Passing.standing (h : s.Passing host) : s.Standing where
  sound := @EditedRules.sound host s.graph (editedPlan s.graph s.frontier.exportEdges) h.rules
  live _ he := Boundary.ends_mem h.rules.edges he
  runsOut := h.runsOut

/-- what a run's records may be: a record a driver appends, one of notes, or one of what happened outside -/
def Records (host : Host) (s : RunState) (e : Envelope) : Prop := Appends host s e ∨ Notes e ∨ Reports e

/-- a record that carries no note to a human node and no title that no publication takes, and whose command supersedes no
id twice on a lineage of an export edge's end and states no id starting like a reference to another run -/
structure KeepsRules (host : Host) (s : RunState) (e : Envelope) : Prop where
  titles : ∀ node title n, e.body = .changeRetitled (some (node, title)) → s.graph.get node = some n →
    n.repo.isSome = true → validateTitle host.toSiblings title = .ok ()
  adopted : ∀ note node n, e.body = .releaseAdopted true (some note) → e.node = some node → s.graph.get node = some n →
    n.kind ≠ .human
  notes : ∀ operations, e.body = .editCommitted (some operations) ∨ e.body = .commandAccepted (some operations) →
    ∀ op ∈ operations, ∀ node n, op.carriesTo = some node → s.graph.get node = some n → n.kind ≠ .human
  edits : ∀ operations live author command graph', e.body = .editCommitted (some operations) →
    compile host s.graph (s.judged live) author command = .ok (graph', operations) →
    ¬s.crosses command ∧ statesOwnIds command = true

/-- a change retitled to a title that a publication takes -/
theorem rules_retitled {sib : Siblings} {g : Graph} {edges : List ExportEdge} {node title : String}
    (hown : OwnIds g) (hr : EditedRules sib (editedPlan g edges))
    (htitle : ∀ n, g.get node = some n → n.repo.isSome = true → validateTitle sib title = .ok ()) :
    EditedRules sib (editedPlan (g.modify node fun n => { n with title := some title }) edges) := by
  have hget (k : String) : (g.modify node fun n => { n with title := some title }).get k =
      if k = node then (g.get k).map fun n => { n with title := some title } else g.get k := Graph.get_modify ..
  have hids : (g.modify node fun n => { n with title := some title }).ids = g.ids := Graph.ids_modify ..
  have hrenamed : g.Renamed (fun k => k) (g.modify node fun n => { n with title := some title }) := by
    refine ⟨rfl, fun k n hn => ?_, fun k hk => ⟨k, hids ▸ hk, rfl⟩, fun _ _ _ _ heq => heq, hown,
      fun k hk => hown k (hids ▸ hk), fun _ _ hformed => hformed⟩
    rw [hget, hn]
    split_ifs
    · exact ⟨_, rfl, rfl, rfl, rfl, rfl, fun d => by simp⟩
    · exact ⟨_, rfl, rfl, rfl, rfl, rfl, fun d => by simp⟩
  refine hr.renamed hrenamed (fun n' hn' => ?_) fun _ _ => ⟨rfl, rfl⟩
  have hn := Graph.get_of_mem hn'
  rw [hget] at hn
  split_ifs at hn with hk
  · obtain ⟨n, hn, rfl⟩ := Option.map_eq_some_iff.mp hn
    have hin := (Graph.get_eq_some.mp hn).1
    have hblank : Text.isBlank n.id = false := hr.id_not_blank hin
    exact ⟨hblank, checkNode_retitled (hr.node hin) (htitle n (hk ▸ hn))⟩
  · have hin := (Graph.get_eq_some.mp hn).1
    exact ⟨hr.id_not_blank hin, hr.node hin⟩

theorem Passing.of_rules (h : s.Passing host) (hr : EditedRules host.toSiblings (editedPlan t.graph s.frontier.exportEdges))
    (hids : t.graph.ids = s.graph.ids) (hs : t.superseded = s.superseded) (hp : t.plan = s.plan) : t.Passing host := by
  have hlaunch : t.launchEdges = s.launchEdges := by rw [launchEdges, hp, launchEdges]
  have hedges : t.frontier.exportEdges = s.frontier.exportEdges := by
    rw [exportEdges_frontier, hlaunch, hs, ← exportEdges_frontier]
  refine ⟨?_, ?_, ?_⟩
  · rw [hedges]
    exact hr
  · rw [hlaunch, hs]
    exact h.runsOut
  · intro id hid
    rw [hids, hs] at hid
    exact h.own id hid

theorem Passing.of_moved (h : s.Passing host) (hm : s.graph.Moved t.graph) (hs : t.superseded = s.superseded)
    (hp : t.plan = s.plan) : t.Passing host := h.of_rules (h.rules.moved hm h.own.ids) hm.ids hs hp

section

variable {live : Live} {author : Author} {command : Command} {graph' : Graph} {operations : List Operation}

/-- a command whose graph is not checked again moves nothing the rules read -/
theorem leaves_moved (hleaves : leavesTheGraph command = true)
    (hc : compile host s.graph (s.judged live) author command = .ok (graph', operations)) : s.graph.Moved graph' := by
  obtain ⟨resolved, haccepted⟩ := compile_ok hc
  have hinto := haccepted.compiles
  have hquiet := (leaves_resolves (resolves_of_ok haccepted.resolves)).trans hleaves
  cases resolved with
  | complete reason =>
    cases hinto
    exact .refl _
  | attest reference =>
    obtain ⟨-, -, rfl, -⟩ := compileAttest_ok hinto
    exact .refl _
  | finding message blocking id =>
    obtain ⟨rfl, -⟩ := compileFinding_ok hinto
    exact .refl _
  | settle id outcome evidence landing release =>
    simp only [compileInto, bind_eq_ok] at hinto
    obtain ⟨stated, -, hinto⟩ := hinto
    obtain ⟨-, rfl, -⟩ := compileSettle_ok hinto
    exact .modify s.graph id _ fun _ _ => ⟨fun _ => Iff.rfl, rfl, fun _ hc => hc⟩
  | _ => cases hquiet

/-- **What is accepted passes.** The graph an accepted command leaves, with the edges it was judged with. -/
theorem Passing.candidate (h : s.Passing host)
    (hc : compile host s.graph (s.judged live) author command = .ok (graph', operations)) :
    EditedRules host.toSiblings (editedPlan graph' (edgesAfter command s.frontier.exportEdges)) := by
  obtain ⟨resolved, haccepted⟩ := compile_ok hc
  cases hleaves : leavesTheGraph command with
  | false => exact haccepted.edited hleaves
  | true =>
    have hsame : edgesAfter command s.frontier.exportEdges = s.frontier.exportEdges := by
      cases command <;> first | rfl | cases hleaves
    rw [hsame]
    exact h.rules.moved (leaves_moved hleaves hc) h.own.ids

/-- **One edit.** -/
theorem Passing.edit (h : s.Passing host) (hbody : e.body = .editCommitted (some operations))
    (hv : writtenAtAKnownVersion e = true)
    (hc : compile host s.graph (s.judged live) author command = .ok (graph', operations)) (hcross : ¬s.crosses command)
    (hstates : statesOwnIds command = true) : (foldRecord host s e).Passing host := by
  obtain ⟨hgraph, hsuperseded, hplan⟩ := @foldRecord_edit host s e operations hbody hv
  have hown := own_moved h.own hc hstates
  have hlaunch : (foldRecord host s e).launchEdges = s.launchEdges := by rw [launchEdges, hplan, launchEdges]
  have hrules := h.candidate hc
  have hids : OwnIds (applyAll host.serde s.graph operations) := fun id hid => not_crossDag_of_own (hown id (.inl hid))
  have hfolded : EditedRules host.toSiblings
      (editedPlan (applyAll host.serde s.graph operations) (edgesAfter command s.frontier.exportEdges)) := by
    rcases replays_moved h.standing.sound h.own.ids hc with ⟨⟨id, amend, rfl⟩, hsame⟩ | hmoved
    · rw [hsame]
      exact h.rules
    · exact hrules.moved hmoved fun id hid => hids id (hmoved.ids ▸ hid)
  obtain ⟨hout, hedges⟩ := edges_moved h.standing hcross (moves_of_compiled hc)
    fun edge he => Boundary.ends_mem hfolded.edges he
  refine ⟨?_, ?_, ?_⟩
  · rw [exportEdges_frontier, hlaunch, hsuperseded, hedges, hgraph]
    exact hfolded
  · rw [hlaunch, hsuperseded]
    exact hout
  · intro id hid
    rw [hgraph, hsuperseded] at hid
    exact hown id hid

end

theorem Passing.of_same (h : s.Passing host) (hg : t.graph = s.graph) (hs : t.superseded = s.superseded)
    (hp : t.plan = s.plan) : t.Passing host := h.of_moved (by rw [hg]) hs hp

/-- a record of what happened outside -/
theorem passing_report (h : s.Passing host) (hr : Reports e) (hkeeps : KeepsRules host s e) :
    (foldRecord host s e).Passing host := by
  obtain ⟨v, ts, stream, seq, node, body⟩ := e
  have hkept : (s.kept ⟨v, ts, stream, seq, node, body⟩).Passing host ∧
      (s.kept ⟨v, ts, stream, seq, node, body⟩).graph = s.graph := by
    unfold kept
    split_ifs <;> exact ⟨h.of_same rfl rfl rfl, rfl⟩
  have hpipeline (t : RunState) (ht : t.Passing host) (hg : t.graph = s.graph) :
      (t.foldPipeline host ⟨v, ts, stream, seq, node, body⟩).Passing host := by
    cases body with
    | changeRetitled retitled =>
      cases retitled with
      | none => exact ht
      | some p =>
        refine ht.of_rules (rules_retitled ht.own.ids ht.rules fun n hn => ?_) (Graph.ids_modify ..) rfl rfl
        exact hkeeps.titles p.1 p.2 n rfl (hg ▸ hn)
    | releaseAdopted next note =>
      cases next with
      | false => exact ht
      | true =>
        cases note with
        | none => exact ht
        | some note =>
          cases node with
          | none => exact ht
          | some node =>
            refine ht.of_moved (.modify t.graph node _ fun n hn => ⟨fun _ => Iff.rfl, rfl, fun hk _ => ?_⟩) rfl rfl
            exact absurd hk (hkeeps.adopted note node n rfl rfl (hg ▸ hn))
    | nodeRequeued => cases node <;> exact ht.of_same rfl rfl rfl
    | nodeLanded id => cases id <;> exact ht.of_same rfl rfl rfl
    | nodeAbsorbed absorbed => cases absorbed <;> exact ht.of_same rfl rfl rfl
    | nodeReadjusted id => cases id <;> exact ht.of_same rfl rfl rfl
    | nodeChecksRead read =>
      cases read with
      | none => exact ht
      | some read =>
        simp only [foldPipeline, foldChecksRead]
        split <;> try split_ifs
        all_goals exact ht.of_same rfl rfl rfl
    | _ => first | exact ht | cases hr
  have hread : (if writtenAtAKnownVersion ⟨v, ts, stream, seq, node, body⟩ then
      (s.kept ⟨v, ts, stream, seq, node, body⟩).foldPipeline host ⟨v, ts, stream, seq, node, body⟩
      else { s with strict := false }).Passing host := by
    split_ifs
    · exact hpipeline _ hkept.1 hkept.2
    · exact h.of_same rfl rfl rfl
  cases body with
  | driverExited => exact h.of_same rfl rfl rfl
  | relayed record closes =>
    have hrelayed : (s.foldRelayed node record).graph = s.graph ∧ (s.foldRelayed node record).superseded = s.superseded ∧
        (s.foldRelayed node record).plan = s.plan := by
      unfold foldRelayed
      split <;> exact ⟨rfl, rfl, rfl⟩
    obtain ⟨hg, hs, hp⟩ := hrelayed
    simp only [foldRecord]
    split_ifs <;> exact h.of_same hg hs hp
  | _ => exact hread

/-- **One record.** -/
theorem passing_foldRecord (h : s.Passing host) (hr : Records host s e) (hkeeps : KeepsRules host s e) :
    (foldRecord host s e).Passing host := by
  rcases hr with ha | ⟨operations, hbody, hnotes⟩ | hreport
  · by_cases hedit : ∃ operations, e.body = .editCommitted operations
    · obtain ⟨operations, hbody⟩ := hedit
      cases hv : writtenAtAKnownVersion e with
      | false =>
        rw [foldRecord_unread (.inl hbody) hv]
        exact h.of_moved (.refl _) rfl rfl
      | true =>
        unfold Appends at ha
        rw [hbody] at ha
        cases operations with
        | none => cases ha
        | some ops =>
          obtain ⟨live, author, command, graph', hc⟩ := ha
          obtain ⟨hcross, hstates⟩ := hkeeps.edits ops live author command graph' hbody hc
          exact h.edit hbody hv hc hcross hstates
    · have hother (operations : Option (List Operation)) : e.body ≠ .editCommitted operations :=
        fun heq => hedit ⟨operations, heq⟩
      have hwired := wired_foldRecord ha hother
      exact h.of_moved (moved_foldRecord ha hother) (congrArg Wired.superseded hwired) (congrArg Wired.plan hwired)
  · cases hv : writtenAtAKnownVersion e with
    | false =>
      rw [foldRecord_unread (hbody.imp id id) hv]
      exact h.of_moved (.refl _) rfl rfl
    | true =>
      obtain ⟨hgraph, hsuperseded, hplan⟩ := @foldRecord_operations host s e operations hbody hv
      rw [requests_of_notes hnotes] at hsuperseded
      refine h.of_moved ?_ hsuperseded hplan
      rw [hgraph]
      exact notes_moved hnotes (hkeeps.notes operations hbody)
  · exact passing_report h hreport hkeeps

theorem passing_started (hplan : checkEdited host.toSiblings plan = .ok ()) (hids : ∀ n ∈ plan.tasks, ownId n.id = true) :
    (started plan).Passing host := by
  have hrules := checkEdited_eq_ok.mp hplan
  have hiter := Graph.iter_fromPlan plan hrules.nodup
  have hedges : (started plan).frontier.exportEdges = plan.exportEdges := by
    rw [exportEdges_frontier]
    exact edgesNow_empty _
  have hconcurrency : (Graph.fromPlan plan).concurrency = plan.concurrency := by
    have hfold (l : List Node) (g : Graph) : (l.foldl Graph.insert g).concurrency = g.concurrency := by
      induction l generalizing g with
      | nil => rfl
      | cons n l ih => exact ih (g.insert n)
    exact hfold plan.tasks _
  refine ⟨?_, fun edge he id hid => ⟨id, _, .stop (by simp [links, started])⟩, fun id hid => ?_⟩
  · rw [hedges]
    exact {
      version := by
        show planSchemaVersion ∈ planSchemaVersionsRead
        decide
      concurrency := by
        show (Graph.fromPlan plan).concurrency ≠ 0
        rw [hconcurrency]
        exact hrules.concurrency
      goal := rfl
      nodes := by
        show checkNodes host.toSiblings {} (Graph.fromPlan plan).iter = .ok ()
        rw [hiter]
        exact hrules.nodes
      edges := by
        have hsame : checkEdges host.toSiblings (editedPlan (Graph.fromPlan plan) plan.exportEdges) =
            checkEdges host.toSiblings plan := by
          simp only [checkEdges, editedPlan, hiter]
        exact hsame.trans hrules.edges
      deps := by
        intro n hn d hd
        have hin : n ∈ plan.tasks := hiter ▸ hn
        have htasks : (editedPlan (started plan).graph plan.exportEdges).tasks = plan.tasks := hiter
        have hdep := checkDep_iff.mp (hrules.deps n hin d hd)
        rw [checkDep_iff, isPreserved, htasks]
        exact hdep
      acyclic := by
        show findCycle (Graph.fromPlan plan).iter = none
        rw [hiter]
        exact hrules.acyclic
      stacking := by
        show ∃ bases, stackingBases host.toSiblings (nodesById (Graph.fromPlan plan).iter) = .ok bases
        rw [hiter]
        exact hrules.stacking }
  · rcases hid with hin | hkey | ⟨x, hx⟩
    · obtain ⟨n, hn, rfl⟩ := Graph.mem_ids.mp hin
      exact hids n (hiter ▸ hn)
    · simp [started] at hkey
    · simp [started] at hx

theorem passing_run (hplan : checkEdited host.toSiblings plan = .ok ()) (hids : ∀ n ∈ plan.tasks, ownId n.id = true)
    (h : Admits (foldRecord host) (fun s e => Records host s e ∧ KeepsRules host s e) (started plan) journal)
    {records : List Envelope} (hin : records <+: journal) : (records.foldl (foldRecord host) (started plan)).Passing host := by
  obtain ⟨rest, rfl⟩ := hin
  exact (Admits.append.mp h).1.invariant (fun s e hs hr => passing_foldRecord hs hr.1 hr.2) (passing_started hplan hids)

/-- **No edit wedges the graph.** Over a run from a plan of ids of its own, that carries no note to a human node and no
title no publication takes, and whose edits cross no lineage of an export edge's end and state no id of another run's
shape, every state's graph, with the edges the state states, is one `check_edited` accepts. -/
theorem passes_of_keeps (hplan : checkEdited host.toSiblings plan = .ok ()) (hids : ∀ n ∈ plan.tasks, ownId n.id = true)
    (h : Admits (foldRecord host) (fun s e => Records host s e ∧ KeepsRules host s e) (started plan) journal)
    {records : List Envelope} (hin : records <+: journal) :
    checkEdited host.toSiblings (editedPlan (records.foldl (foldRecord host) (started plan)).graph
      (records.foldl (foldRecord host) (started plan)).frontier.exportEdges) = .ok () :=
  checkEdited_eq_ok.mpr (passing_run hplan hids h hin).rules

/-! ### A note to a human node, and one to an agent -/

/-- a human node, and an agent's -/
def askedPlan : Plan := .ofNodes [{ id := "h", kind := .human, task := some "sign" }, .direct "a" []]

/-- the record of a note carried to a node's next dispatch -/
def carried (seq : ℕ) (node : String) : Envelope :=
  .own seq none (.commandAccepted (some [.noteDelivered node .worker "soon" none (.carried none) none none]))

theorem carried_records (seq : ℕ) (node : String) : Notes (carried seq node) :=
  ⟨_, .inr rfl, by simp [Operation.isNote]⟩

/-- a note accepted on a human node, carried to it: the graph no longer passes what every later edit is held to -/
theorem noted_wedges :
    checkEdited Host.lenient.toSiblings askedPlan = .ok () ∧
      (compile .lenient (started askedPlan).graph ((started askedPlan).judged {}) .planner
        (.note "h" .worker "soon" none .next true none)).toOption.isSome = true ∧
      Admits (foldRecord .lenient) (Records .lenient) (started askedPlan) [carried 1 "h"] ∧
      checkEdited Host.lenient.toSiblings (editedPlan ([carried 1 "h"].foldl (foldRecord .lenient) (started askedPlan)).graph
        ([carried 1 "h"].foldl (foldRecord .lenient) (started askedPlan)).frontier.exportEdges) ≠ .ok () := by
  exact ⟨by decide, by decide, ⟨.inr (.inl (carried_records 1 "h")), trivial⟩, by decide⟩

/-- a note carried to an agent's node -/
theorem noted_passes :
    checkEdited Host.lenient.toSiblings (editedPlan ([carried 1 "a"].foldl (foldRecord .lenient) (started askedPlan)).graph
      ([carried 1 "a"].foldl (foldRecord .lenient) (started askedPlan)).frontier.exportEdges) = .ok () := by
  refine @passes_of_keeps .lenient askedPlan [carried 1 "a"] (by decide) (by decide)
    ⟨⟨.inr (.inl (carried_records 1 "a")), ⟨fun _ _ _ hbody => Body.noConfusion hbody, fun _ _ _ hbody => Body.noConfusion hbody, ?_, ?_⟩⟩,
      trivial⟩ _ (List.prefix_refl _)
  · intro operations hbody op hop node n hto hn
    obtain rfl : [Operation.noteDelivered "a" .worker "soon" none (.carried none) none none] = operations := by
      rcases hbody with hbody | hbody
      · cases hbody
      · exact Option.some.inj (Body.commandAccepted.inj hbody)
    rw [List.mem_singleton.mp hop] at hto
    cases hto
    have hkind : ((started askedPlan).graph.get "a").map Node.kind = some .agent := by decide
    rw [hn] at hkind
    rw [Option.some.inj hkind]
    decide
  · intro operations live author command graph' hbody
    cases hbody

end RunState

end OnePipeline
