/-
What a node an edit introduces finds recorded under its id, and how the scheduler judges it.

Results:
- `facts_foldOperations`: an accepted introducing edit leaves the facts under the id it introduces as they were;
- `fresh_of_unnamed`: nothing is recorded under an id no record of the run named;
- `derive_ready`: a node nothing seeds is ready, or waiting on its person, once each of its dependencies is done;
- `introduced_fresh_iff`: in every state a run reaches, an introduced node starts fresh exactly when nothing was recorded
  under its id.
-/
import Mathlib.Tactic
import OnePipeline.Laws.Folded
import OnePipeline.Laws.Settled
import OnePipeline.Model.Run

namespace OnePipeline

open Checks Runs

/-! ## A node judged by its dependencies -/

section Derive

variable {graph : Graph} {settled : StrMap Settled} {resolved : String → Option NodeStatus} {n : Node}

/-- a dependency that is done, in this graph or upstream of it -/
def DepDone (graph : Graph) (settled : StrMap Settled) (resolved : String → Option NodeStatus) (dep : String) : Prop :=
  if isCrossDag dep = true then resolved dep = some .done
  else (derive graph settled resolved)[dep]? = some .done

theorem get_passStep_of_ne {p : StrMap NodeStatus × Bool} {k : String} (h : k ≠ n.id) :
    (passStep graph settled resolved p n).1[k]? = p.1[k]? := by
  unfold passStep
  split_ifs
  · rfl
  · cases eligibility graph settled resolved n p.1 with
    | none => rfl
    | some status => simp only [Maps.get_insert, if_neg h]

/-- a pass's turn at a node nothing has derived yet -/
theorem passStep_of_eligible {p : StrMap NodeStatus × Bool} {status : NodeStatus} (h : n.id ∉ p.1)
    (he : eligibility graph settled resolved n p.1 = some status) :
    passStep graph settled resolved p n = (p.1.insert n.id status, true) := by
  rw [passStep, if_neg h, he]

theorem get_foldl_passStep_of_ne {l : List Node} (p : StrMap NodeStatus × Bool) {k : String} (h : k ∉ l.map Node.id) :
    (l.foldl (passStep graph settled resolved) p).1[k]? = p.1[k]? := by
  induction l generalizing p with
  | nil => rfl
  | cons a l ih =>
    rw [List.map_cons, List.mem_cons, not_or] at h
    rw [List.foldl_cons, ih _ h.2, get_passStep_of_ne h.1]

theorem foldl_passStep_keeps (l : List Node) {p : StrMap NodeStatus × Bool} {k : String} {s : NodeStatus}
    (h : p.1[k]? = some s) : (l.foldl (passStep graph settled resolved) p).1[k]? = some s := by
  induction l generalizing p with
  | nil => exact h
  | cons a l ih => exact ih (passStep_keeps h)

/-- a dependency derived done was seeded done -/
theorem seeded_of_done {dep : String} (h : (derive graph settled resolved)[dep]? = some .done) :
    (seeded graph settled)[dep]? = some .done := by
  by_contra hne
  have hloop : (deriveLoop graph settled resolved (graph.iter.length + 1) (seeded graph settled))[dep]? ≠ some .done :=
    deriveLoop_ne_done _ hne
  rw [get_derive] at h
  split_ifs at h
  · rcases Option.or_eq_some_iff.mp h with h | ⟨-, h⟩
    · exact hloop h
    · cases h
  · exact hloop h

/-- a done dependency adds nothing to the gates -/
theorem eligibilityOf_done {m : StrMap NodeStatus} {dep : String} (hd : DepDone graph settled resolved dep)
    (hm : ∀ k : String, (seeded graph settled)[k]? = some .done → m[k]? = some .done) (g : Gates) :
    eligibilityOf graph settled resolved m g dep = g := by
  unfold eligibilityOf
  unfold DepDone at hd
  split_ifs at hd ⊢ with hc hg
  · rw [hd]
    rfl
  · rw [hm dep (seeded_of_done hd)]
    have hreached : reachedBy .done settled[dep]? = .at .done := by
      unfold reachedBy
      split
      · rw [if_neg (by decide)]
      · rw [if_neg (by decide)]
      · rfl
    simp only [hreached]
    rfl
  · rfl

/-- the status a node with its dependencies done is dispatched at -/
def readied (n : Node) : NodeStatus := if n.kind = .human then .waiting else .ready

/-- **A node judged by its dependencies.** Nothing seeded, not parked, with every dependency done: ready, or waiting on
its person. -/
theorem derive_ready (hn : n ∈ graph.iter) (hs : seedOf settled n = none) (hp : n.parked = false)
    (hd : ∀ d ∈ n.deps, DepDone graph settled resolved d) : (derive graph settled resolved)[n.id]? = some (readied n) := by
  have helig {m : StrMap NodeStatus}
      (hm : ∀ k : String, (seeded graph settled)[k]? = some .done → m[k]? = some .done) :
      eligibility graph settled resolved n m = some (readied n) := by
    have hgates : n.deps.foldl (eligibilityOf graph settled resolved m) {} = {} := by
      have hfold (l : List String) (hl : ∀ d ∈ l, DepDone graph settled resolved d) (g : Gates) :
          l.foldl (eligibilityOf graph settled resolved m) g = g := by
        induction l with
        | nil => rfl
        | cons d l ih =>
          rw [List.foldl_cons, eligibilityOf_done (hl d List.mem_cons_self) hm]
          exact ih fun e he => hl e (List.mem_cons_of_mem _ he)
      exact hfold n.deps hd {}
    unfold eligibility readied
    rw [hgates]
    simp [hp]
    split_ifs <;> rfl
  obtain ⟨l, l', hsplit⟩ := List.append_of_mem hn
  have hout : n.id ∉ l.map Node.id := by
    have hnd := graph.nodup_ids
    change (graph.iter.map Node.id).Nodup at hnd
    rw [hsplit, List.map_append, List.map_cons] at hnd
    exact fun hin => (List.nodup_append.mp hnd).2.2 _ hin _ List.mem_cons_self rfl
  -- nothing derives the node before its own turn of the first pass
  have hpass : (pass graph settled resolved (seeded graph settled)).1[n.id]? = some (readied n) := by
    have hseed : (seeded graph settled)[n.id]? = none := by
      rw [seeded, get_foldl_seed (l := graph.iter) graph.nodup_ids _ hn, hs]
      simp
    generalize seeded graph settled = start at hseed helig
    rw [pass, hsplit, List.foldl_append, List.foldl_cons]
    refine foldl_passStep_keeps l' ?_
    have hnone : n.id ∉ (l.foldl (passStep graph settled resolved) (start, false)).1 := by
      rw [Maps.not_mem_iff, get_foldl_passStep_of_ne _ hout]
      exact hseed
    rw [passStep_of_eligible hnone (helig fun k hk => foldl_passStep_keeps l hk), Maps.get_insert, if_pos rfl]
  have hloop : (deriveLoop graph settled resolved (graph.iter.length + 1) (seeded graph settled))[n.id]? =
      some (readied n) := by
    unfold deriveLoop
    simp only
    split_ifs
    · exact deriveLoop_keeps _ hpass
    · exact hpass
  rw [get_derive, hloop]
  split_ifs <;> rfl

end Derive

/-! ## What is recorded under an id -/

/-- everything the run's maps keep of one id that a node of that id is judged by -/
structure Facts where
  recorded : Option Recorded := none
  park : Option Park := none
  outcome : Option String := none
  landing : Option Landing := none
  branch : Option String := none
  supersededBy : Option String := none

/-- the id an operation records something about -/
def Operation.records : Operation → Option String
  | .humanAttested node | .retryRequested node _ _ | .reworkRequested node _ _ _ _ _ | .nodeParked node _ _
  | .nodeRequeued node _ | .reparent node _ _ | .settledFromEvidence node _ _ | .landingFromEvidence node _ => some node
  | _ => none

/-- the ids a record records something about -/
def Envelope.records (e : Envelope) : List String :=
  match e.body with
  | .nodeDispatched _ | .nodeSettled _ => e.node.toList
  | .nodeRestackStarted node => node.toList
  | .humanAttested reference => reference.toList
  | .editCommitted (some operations) => operations.filterMap Operation.records
  | _ => []

namespace RunState

variable {host : Host} {s s' : RunState} {id : String} {op : Operation} {e : Envelope} {«at» : Option ℕ}

def facts (s : RunState) (id : String) : Facts where
  recorded := s.recorded[id]?
  park := s.parks[id]?
  outcome := s.outcomes[id]?
  landing := s.landings[id]?
  branch := s.branches[id]?
  supersededBy := s.superseded[id]?

/-- nothing recorded under an id -/
def Fresh (s : RunState) (id : String) : Prop := s.facts id = {}

@[simp] theorem facts_owe (node : String) (context : Option String) : (s.owe node context).facts id = s.facts id := by
  cases context <;> rfl

/-- **The frame.** An operation changes what is recorded of the id it is about, and of no other. -/
theorem facts_foldOne (h : op.records ≠ some id) : (foldOne host «at» s op).facts id = s.facts id := by
  have hne {node : String} (hn : some node ≠ some id) : id ≠ node := fun heq => hn (by rw [heq])
  cases op with
  | humanAttested node => simp only [foldOne, foldOperation, facts, Maps.get_insert, if_neg (hne h)]
  | retryRequested node replacement reset =>
    simp only [foldOne, foldOperation, facts, Maps.get_insert, if_neg (hne h)]
  | reworkRequested node replacement reason instruction comments title =>
    simp only [foldOne, foldOperation, facts, Maps.get_insert, if_neg (hne h)]
  | nodeParked node «by» reason => simp only [foldOne, foldOperation, facts, Maps.get_insert, if_neg (hne h)]
  | nodeRequeued node amend => simp only [foldOne, foldOperation, facts, Maps.get_erase, if_neg (hne h)]
  | reparent node was deps =>
    simp only [foldOne, foldOperation]
    split_ifs
    · simp only [facts, Maps.get_erase, if_neg (hne h)]
    · rfl
  | settledFromEvidence node outcome evidence =>
    simp only [foldOne, foldOperation, endThePark, facts, Maps.get_insert, Maps.get_erase, if_neg (hne h)]
  | landingFromEvidence node landing =>
    simp only [foldOne, foldOperation]
    cases StatedLanding.parse host.toSiblings landing with
    | none => rfl
    | some stated => simp only [foldStatedLanding, facts, Maps.get_insert, if_neg (hne h)]
  | contextAdded node note delivery => cases delivery <;> rfl
  | noteDelivered node addressee text criterion reached envelope index => cases reached <;> rfl
  | noteWithdrawn node envelope index «from» text alikeAfter =>
    cases «from» with
    | live => rfl
    | carried => exact facts_owe node _
  | _ => rfl

theorem facts_foldl {ops : List Operation} (h : ∀ op ∈ ops, op.records ≠ some id) :
    (ops.foldl (foldOne host «at») s).facts id = s.facts id := by
  induction ops generalizing s with
  | nil => rfl
  | cons op ops ih =>
    rw [List.foldl_cons, ih fun o ho => h o (List.mem_cons_of_mem _ ho), facts_foldOne (h op List.mem_cons_self)]

theorem records_of_rewires (h : op.rewires = true) : op.records = none := by
  cases op <;> first | rfl | cases h

/-- **An introducing edit.** It records nothing about the node it brings in. -/
theorem facts_foldOperations {ops : List Operation} {n : Node} {retryOf : Option String} (hs : Shape s.graph ops)
    (hn : .nodeAdded n retryOf ∈ ops) : (s.foldOperations host ops «at»).facts n.id = s.facts n.id := by
  refine facts_foldl fun op hop => ?_
  cases hs with
  | added m new =>
    rcases List.mem_cons.mp hop with rfl | hop
    · exact nofun
    · rw [records_of_rewires (rewires_edgesInto hop)]
      exact nofun
  | superseded old m request rest present new asked quiet dropped =>
    have hm : n = m := by
      rcases List.mem_cons.mp hn with heq | hn
      · rw [← heq] at asked
        cases asked
      · rcases List.mem_cons.mp hn with heq | hn
        · cases heq
          rfl
        · cases quiet _ hn
    subst hm
    rcases List.mem_cons.mp hop with rfl | hop
    · have hne : old ≠ n.id := fun heq => new (heq ▸ present)
      cases asked with
      | retry => exact fun heq => hne (Option.some.inj heq)
      | rework => exact fun heq => hne (Option.some.inj heq)
    · rcases List.mem_cons.mp hop with rfl | hop
      · exact nofun
      · rw [records_of_rewires (quiet op hop)]
        exact nofun
  | requeued node amend same => cases List.mem_singleton.mp hn
  | attested reference => cases List.mem_singleton.mp hn
  | quiet ops hq => cases hq _ hn

/-! ## An id no record named -/

/-- nothing recorded under an id, and no restack of it under way -/
structure Untouched (s : RunState) (id : String) : Prop where
  fresh : s.Fresh id
  still : id ∉ s.restacking

theorem Untouched.congr (h : s.Untouched id) (hf : s'.facts id = s.facts id) (hr : s'.restacking = s.restacking) :
    s'.Untouched id := ⟨hf.trans h.fresh, hr ▸ h.still⟩

section Settlement

variable {node : String} {settled : Settlement}

theorem get_written_of_ne {V : Type} (m : StrMap V) (v : Option V) (hne : id ≠ node) : (written m node v)[id]? = m[id]? := by
  cases v with
  | none => rfl
  | some v => rw [written, Maps.get_insert, if_neg hne]

theorem facts_foldStatus (status : Option NodeStatus) (hne : id ≠ node) : (s.foldStatus node status).facts id = s.facts id := by
  cases status with
  | none => rfl
  | some status =>
    simp only [foldStatus, foldSettledStatus, endThePark]
    split_ifs
    · simp only [facts, Maps.get_insert, Maps.get_erase, if_neg hne]
    · simp only [facts, Maps.get_insert, if_neg hne]

theorem facts_foldOutcome (outcome : Option String) (hne : id ≠ node) :
    (s.foldOutcome node outcome).facts id = s.facts id := by
  simp only [foldOutcome, facts, get_written_of_ne _ _ hne]

theorem facts_retractStated (outcome : Option String) (hne : id ≠ node) :
    (s.retractStated node outcome).facts id = s.facts id := by
  unfold retractStated
  split_ifs
  · simp only [facts, Maps.get_erase, if_neg hne]
  · rfl

theorem facts_foldLeftBehind (hne : id ≠ node) : (s.foldLeftBehind node settled).facts id = s.facts id := by
  simp only [foldLeftBehind, facts, get_written_of_ne _ _ hne]

theorem facts_pinSettled (node : String) (status : Option NodeStatus) : (s.pinSettled node status).facts id = s.facts id := by
  cases status with
  | none => rfl
  | some status =>
    simp only [pinSettled, pinPreservedBranch]
    split_ifs
    · cases s.branches[node]? <;> rfl
    · rfl

theorem facts_foldSettled (settled : Settlement) (hne : id ≠ node) : (s.foldSettled node settled).facts id = s.facts id :=
  calc (s.foldSettled node settled).facts id
    _ = _ := facts_pinSettled node settled.status
    _ = _ := facts_foldLeftBehind hne
    _ = _ := facts_retractStated settled.outcome hne
    _ = _ := facts_foldOutcome settled.outcome hne
    _ = s.facts id := facts_foldStatus settled.status hne

end Settlement

theorem untouched_foldAdopted (h : s.Untouched id) : s.foldAdopted.Untouched id := by
  have habandon (l : List (String × DispatchSession)) (t : RunState) :
      (l.foldl abandonOne t).facts id = t.facts id ∧ (l.foldl abandonOne t).restacking = t.restacking := by
    induction l generalizing t with
    | nil => exact ⟨rfl, rfl⟩
    | cons p l ih => exact ih (t.abandonOne p)
  obtain ⟨hf, hr⟩ := habandon s.sessionsInFlight s
  change s.abandonTheDispatchInFlight.facts id = s.facts id at hf
  change s.abandonTheDispatchInFlight.restacking = s.restacking at hr
  rw [h.fresh] at hf
  have hrecorded : s.foldAdopted.recorded[id]? = none := by
    have hnone : s.abandonTheDispatchInFlight.restacksAreDone.recorded[id]? = none := by
      have hstill : id ∉ s.abandonTheDispatchInFlight.restacking.toList :=
        fun hin => h.still (hr ▸ Std.ExtTreeSet.mem_toList.mp hin)
      simp only [restacksAreDone, Maps.get_foldl_insert, if_neg hstill]
      exact congrArg Facts.recorded hf
    show (settledByAdoption _)[id]? = none
    rw [settledByAdoption, Std.ExtTreeMap.getElem?_map, Std.ExtTreeMap.getElem?_filter', hnone]
    rfl
  refine ⟨?_, Std.ExtTreeSet.not_mem_empty⟩
  show ({ s.abandonTheDispatchInFlight.facts id with recorded := s.foldAdopted.recorded[id]? } : Facts) = {}
  rw [hrecorded, hf]

theorem untouched_foldPipeline (h : s.Untouched id) (ha : Appends host s e) (hn : id ∉ e.records) :
    (s.foldPipeline host e).Untouched id := by
  obtain ⟨v, ts, stream, seq, node, body⟩ := e
  cases body with
  | nodeDispatched composed =>
    cases node with
    | none => exact h
    | some node =>
      have hne : id ≠ node := fun heq => hn (by simp [Envelope.records, heq])
      exact h.congr (by simp only [foldPipeline, foldDispatched, facts, Maps.get_insert, if_neg hne]) rfl
  | nodeSettled settled =>
    cases node with
    | none => exact h
    | some node =>
      have hne : id ≠ node := fun heq => hn (by simp [Envelope.records, heq])
      refine ⟨(facts_foldSettled settled hne).trans h.fresh, ?_⟩
      have hrestacking : (s.foldSettled node settled).restacking = s.restacking.erase node :=
        congrArg Aside.restacking (aside_foldSettled node settled)
      show id ∉ (s.foldSettled node settled).restacking
      rw [hrestacking]
      exact fun hin => h.still (Std.ExtTreeSet.mem_of_mem_erase hin)
  | nodeRestackStarted started =>
    cases started with
    | none => exact h
    | some started =>
      have hne : id ≠ started := fun heq => hn (by simp [Envelope.records, heq])
      refine ⟨?_, ?_⟩
      · refine Eq.trans ?_ h.fresh
        simp only [foldPipeline, facts, Maps.get_insert, if_neg hne]
      · show id ∉ s.restacking.insert started
        simp [Std.ExtTreeSet.mem_insert, hne.symm, h.still]
  | nodeRestacked restacked =>
    cases restacked with
    | none => exact h
    | some restacked => exact ⟨h.fresh, fun hin => h.still (Std.ExtTreeSet.mem_of_mem_erase hin)⟩
  | humanAttested reference =>
    cases reference with
    | none => exact h
    | some reference =>
      have hne : id ≠ reference := fun heq => hn (by simp [Envelope.records, heq])
      exact h.congr (by simp only [foldPipeline, facts, Maps.get_insert, if_neg hne]) rfl
  | driverAdopted => exact untouched_foldAdopted h
  | editCommitted operations =>
    cases operations with
    | none => cases ha
    | some operations =>
      have hops : ∀ op ∈ operations, op.records ≠ some id :=
        fun op hop heq => hn (List.mem_filterMap.mpr ⟨op, hop, heq⟩)
      exact h.congr (facts_foldl hops) (congrArg Aside.restacking (aside_foldOperations operations))
  | _ => cases ha

/-- **A record.** It leaves an id it records nothing about untouched. -/
theorem untouched_foldRecord (h : s.Untouched id) (ha : Appends host s e) (hn : id ∉ e.records) :
    (foldRecord host s e).Untouched id := by
  obtain ⟨v, ts, stream, seq, node, body⟩ := e
  rw [foldRecord_pipeline]
  · split_ifs
    · unfold kept
      split_ifs
      · exact untouched_foldPipeline (h.congr rfl rfl) ha hn
      · exact untouched_foldPipeline h ha hn
    · exact h.congr rfl rfl
  · cases body <;> first | rfl | cases ha
  · rintro v ts stream seq node heq
    cases heq
    cases ha

/-- **A run.** Nothing is recorded under an id none of its records is about. -/
theorem fresh_of_unnamed {plan : Plan} {records : List Envelope}
    (h : Admits (foldRecord host) (Appends host) (started plan) records) (hn : ∀ e ∈ records, id ∉ e.records) :
    (records.foldl (foldRecord host) (started plan)).Fresh id := by
  have hrun := (h.and_forall hn).invariant (I := fun s => s.Untouched id)
    (fun s e hs he => untouched_foldRecord hs he.1 he.2) ⟨rfl, Std.ExtTreeSet.not_mem_empty⟩
  exact hrun.fresh

/-! ## The node judged -/

/-- no other node of the graph with a status recorded has an id that trims to this one -/
def AloneUnder (s : RunState) (id : String) : Prop :=
  ∀ m ∈ s.graph.iter, m.id ≠ id → Text.trim m.id = id → s.recorded[m.id]? = none

theorem settled_of_fresh (h : s.Fresh id) (ha : s.AloneUnder id) : s.settled[id]? = none := by
  rw [settled_eq, get_foldl_settleOne s.graph.iter ∅ fun m hm => ?_]
  · rfl
  · by_cases hid : m.id = id
    · exact .inr (hid ▸ congrArg Facts.recorded h)
    · by_cases htrim : Text.trim m.id = id
      · exact .inr (ha m hm hid htrim)
      · exact .inl htrim

/-- **A fresh node.** It is judged by its own dependencies: all done, it is ready, or waiting on its person. -/
theorem statuses_of_fresh {m : Node} (h : s.Fresh m.id) (ha : s.AloneUnder m.id) (hget : s.graph.get m.id = some m)
    (hp : m.parked = false)
    (hd : ∀ d ∈ m.deps, DepDone s.graph s.settled (fun dependency => s.crossDag[dependency]?) d) :
    s.statuses[m.id]? = some (readied m) := by
  refine derive_ready (Graph.get_eq_some.mp hget).1 ?_ hp hd
  simp [seedOf, hp, settled_of_fresh h ha]

end RunState

/-- **An introduced node.** In every state a run reaches, an accepted command that introduces a node leaves it fresh
exactly when nothing was recorded under its id before; nothing was, where no record of the run was about that id. A node
left fresh, alone under its id and not parked is dispatched by its own dependencies. -/
theorem introduced_fresh_iff {host : Host} {plan : Plan} {records : List Envelope} {s : RunState} {live : Live}
    {author : Author} {command : Command} {graph' : Graph} {ops : List Operation}
    (hrun : Admits (RunState.foldRecord host) (RunState.Appends host) (RunState.started plan) records)
    (hs : records.foldl (RunState.foldRecord host) (RunState.started plan) = s)
    (hc : compile host s.graph (s.judged live) author command = .ok (graph', ops)) (hi : introduces command = true)
    («at» : Option ℕ) {after : RunState} (hafter : s.foldOperations host ops «at» = after) :
    ∃ n retryOf m, .nodeAdded n retryOf ∈ ops ∧ after.graph.get n.id = some m ∧ AsIntroduced n m ∧
      (after.Fresh n.id ↔ s.Fresh n.id) ∧
      ((∀ e ∈ records, n.id ∉ e.records) → s.Fresh n.id) ∧
      (after.Fresh n.id → after.AloneUnder n.id → n.parked = false →
        (∀ d ∈ n.deps, DepDone after.graph after.settled (fun dependency => after.crossDag[dependency]?) d) →
          after.statuses[n.id]? = some (readied n)) := by
  obtain ⟨n, retryOf, m, hadded, hget, hintro⟩ := get_introduced hc hi
  have hgraph : after.graph = applyAll host.serde s.graph ops := hafter ▸ RunState.graph_foldOperations ops
  rw [← hgraph] at hget
  refine ⟨n, retryOf, m, hadded, hget, hintro, ?_, fun hn => ?_, fun hfresh halone hp hd => ?_⟩
  · rw [RunState.Fresh, RunState.Fresh, ← hafter, RunState.facts_foldOperations (compiled_shape hc).1 hadded]
  · rw [← hs]
    exact RunState.fresh_of_unnamed hrun hn
  · -- what replay takes out of a replacement is a target it consumes: its id, park, dependencies and kind stand
    cases hintro with
    | same => exact RunState.statuses_of_fresh hfresh halone hget hp hd
    | without retired =>
      exact RunState.statuses_of_fresh (m := withoutConsumed retired n) hfresh halone hget hp hd

/-! ### An id used again, and one used first -/

/-- a node settled done and then dropped, in a plan of two -/
def droppedRun : List Envelope :=
  [.own 1 (some "a") (.nodeSettled { status := some .done }),
    .own 2 none (.editCommitted (some [.nodeDropped "a" .detach]))]

def Plan.pair : Plan := .ofNodes [.direct "a" [], .direct "b" []]

/-- the state that run leaves -/
def droppedState : RunState := droppedRun.foldl (RunState.foldRecord .lenient) (RunState.started .pair)

/-- a drop the compiler accepts of a node nothing depends on -/
theorem compiled_drop {host : Host} {s : RunState} {id : String} (halone : s.graph.dependentsOf id = [])
    (h : (compile host s.graph (s.judged {}) .planner (.drop id .detach none)).toOption.any (fun _ => true) = true) :
    s.Compiled host [.nodeDropped id .detach] := by
  obtain ⟨⟨graph', ops⟩, hok, -⟩ := exists_ok_of_any h
  obtain ⟨resolved, haccepted⟩ := compile_ok hok
  have hcommand : resolved = .drop id .detach none := (Except.ok.inj haccepted.resolves).symm
  subst hcommand
  have hc : compileDrop s.graph (s.judged {}) id .detach none = .ok (graph', ops) := haccepted.compiles
  obtain ⟨target, -, hout⟩ := compileDrop_ok hc
  have hops : ops = [.nodeDropped id .detach] := by
    rw [hout.2, halone]
    rfl
  exact ⟨{}, .planner, .drop id .detach none, graph', hops ▸ hok⟩

theorem droppedRun_appends :
    Admits (RunState.foldRecord .lenient) (RunState.Appends .lenient) (RunState.started .pair) droppedRun := by
  refine ⟨trivial, ?_, trivial⟩
  generalize hs : RunState.foldRecord .lenient (RunState.started .pair) (.own 1 (some "a")
    (.nodeSettled { status := some .done })) = s
  exact compiled_drop (by rw [← hs]; decide) (by rw [← hs]; decide)

theorem compile_add_lenient (graph : Graph) (n : Node)
    (h : (compile .lenient graph (droppedState.judged {}) .planner (.add n)).toOption.any (fun _ => true) = true) :
    ∃ graph', compile .lenient graph (droppedState.judged {}) .planner (.add n) =
      .ok (graph', .nodeAdded n none :: edgesInto n) := by
  obtain ⟨⟨graph', ops⟩, hok, -⟩ := exists_ok_of_any h
  obtain ⟨resolved, haccepted⟩ := compile_ok hok
  have hcommand : resolved = .add n := (Except.ok.inj haccepted.resolves).symm
  subst hcommand
  obtain ⟨-, -, -, rfl⟩ := compileAdd_ok haccepted.compiles
  exact ⟨graph', hok⟩

/-- a node added at the id of one settled and dropped: it reads done before it was ever dispatched -/
theorem added_again_is_not_fresh :
    Admits (RunState.foldRecord .lenient) (RunState.Appends .lenient) (RunState.started .pair) droppedRun ∧
      (∃ graph', compile .lenient droppedState.graph (droppedState.judged {}) .planner (.add (.direct "a" [])) =
        .ok (graph', [.nodeAdded (.direct "a" []) none])) ∧
      ¬(droppedState.foldOperations .lenient [.nodeAdded (.direct "a" []) none] none).Fresh "a" ∧
      (droppedState.foldOperations .lenient [.nodeAdded (.direct "a" []) none] none).statuses["a"]? = some .done := by
  refine ⟨droppedRun_appends, compile_add_lenient _ _ (by decide), fun hfresh => ?_, by decide⟩
  have hrecorded := congrArg Facts.recorded hfresh
  exact absurd hrecorded (by decide)

/-- a node added at an id of its own in the same state: nothing is recorded under it -/
theorem added_first_is_fresh :
    (droppedState.foldOperations .lenient [.nodeAdded (.direct "c" []) none] none).Fresh "c" := by
  obtain ⟨graph', hok⟩ := compile_add_lenient droppedState.graph (.direct "c" []) (by decide)
  obtain ⟨n, retryOf, m, hadded, -, -, hiff, hunnamed, -⟩ := introduced_fresh_iff droppedRun_appends rfl hok rfl none rfl
  have hn : n = .direct "c" [] := by
    cases List.mem_singleton.mp hadded
    rfl
  subst hn
  exact hiff.mpr (hunnamed (by decide))

end OnePipeline
