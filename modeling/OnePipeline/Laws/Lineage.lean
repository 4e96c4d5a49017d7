/-
The walks over a run's lineages.

Results:
- `trail_length`: a trail of a map's links is no longer than the map has entries, and one;
- `headOf_eq`, `latest_eq`: a walk whose links run out ends where they do, its guard never met;
- `wired_foldRecord`: what lineages and dependencies are read off, through a record that is no edit;
- `foldRecord_edit`: an edit's record, onto the graph and the lineage map.
-/
import Mathlib.Tactic
import OnePipeline.Core.Maps
import OnePipeline.Laws.Folded
import OnePipeline.Model.Lineage
import OnePipeline.Model.Run

namespace OnePipeline

open Chase

/-- the links of a map -/
def links (m : StrMap String) (id : String) : Option String := m[id]?

theorem trail_length {m : StrMap String} {a b : String} {l : List String} (h : Trail (links m) a b l) :
    l.length ≤ m.size + 1 := by
  have hkeys (c : String) (hc : (links m c).isSome = true) : c ∈ m.keys.toFinset := by
    obtain ⟨v, hv⟩ := Option.isSome_iff_exists.mp hc
    exact List.mem_toFinset.mpr (Std.ExtTreeMap.mem_keys.mpr (Maps.mem_iff.mpr ⟨v, hv⟩))
  calc l.length ≤ m.keys.toFinset.card + 1 := h.length_le hkeys
    _ ≤ m.keys.length + 1 := Nat.succ_le_succ (List.toFinset_card_le _)
    _ = m.size + 1 := by rw [Std.ExtTreeMap.length_keys]

/-- the walk of an export edge's end is the walk that follows links -/
theorem latest_eq_follow (m : StrMap String) (fuel : ℕ) (seen : List String) (id : String) :
    latest m fuel seen id = follow (links m) fuel seen id := by
  induction fuel generalizing seen id with
  | zero => rfl
  | succ fuel ih =>
    rw [latest, follow, links]
    cases m[id]? with
    | none => rfl
    | some next => simp only [ih]

section

variable {s : RunState} {m : StrMap String} {id last : String} {l : List String}

theorem latest_eq (h : Trail (links m) id last l) : latest m (m.size + 1) [] id = last := by
  rw [latest_eq_follow]
  exact h.follow (by have := trail_length h; omega) fun c _ hin => by cases hin

theorem headOf_eq (h : Trail (links s.superseded) id last l) : s.headOf id = last :=
  h.follow (by have := trail_length h; omega) fun c _ hin => by cases hin

theorem newestOf_eq (h : Trail (links s.superseded) id last l) : s.newestOf id = last := headOf_eq h

end

namespace RunState

variable {host : Host} {s : RunState} {e : Envelope} {«at» : Option ℕ}

/-! ## A record that is no edit -/

/-- what each node of a graph depends on and consumes -/
def wiresOf (g : Graph) (k : String) : Option (List String × StrMap String) := (g.get k).map fun n => (n.deps, n.consumes)

/-- what lineages and dependencies are read off -/
structure Wired where
  superseded : StrMap String
  plan : Option Plan
  ids : List String
  wires : String → Option (List String × StrMap String)
  added : StrMap Node

def wired (s : RunState) : Wired := ⟨s.superseded, s.plan, s.graph.ids, wiresOf s.graph, s.nodesAdded⟩

theorem wiresOf_modify {g : Graph} {id : String} {f : Node → Node} {keeps : ∀ n, (f n).id = n.id}
    (hf : ∀ n, (f n).deps = n.deps ∧ (f n).consumes = n.consumes) : wiresOf (g.modify id f keeps) = wiresOf g := by
  funext k
  rw [wiresOf, wiresOf, Graph.get_modify]
  split_ifs
  · rw [Option.map_map]
    refine congrArg (fun h => Option.map h (g.get k)) (funext fun n => ?_)
    exact Prod.ext (hf n).1 (hf n).2
  · rfl

/-- a change of one node's fields but its dependencies and what it consumes -/
theorem wired_modify {s t : RunState} (id : String) (f : Node → Node) {keeps : ∀ n, (f n).id = n.id}
    (hf : ∀ n, (f n).deps = n.deps ∧ (f n).consumes = n.consumes) (hg : t.graph = s.graph.modify id f keeps)
    (hs : t.superseded = s.superseded) (hp : t.plan = s.plan) (ha : t.nodesAdded = s.nodesAdded) : t.wired = s.wired := by
  rw [wired, wired, hg, hs, hp, ha, Graph.ids_modify, wiresOf_modify hf]

theorem wired_foldStatus (node : String) (status : Option NodeStatus) : (s.foldStatus node status).wired = s.wired := by
  cases status with
  | none => rfl
  | some status =>
    simp only [foldStatus, foldSettledStatus]
    split_ifs
    · exact wired_modify node (fun n => { n with parked := false }) (fun _ => ⟨rfl, rfl⟩) rfl rfl rfl rfl
    · rfl

theorem wired_retractStated (node : String) (outcome : Option String) : (s.retractStated node outcome).wired = s.wired := by
  unfold retractStated
  split_ifs <;> rfl

theorem wired_pinSettled (node : String) (status : Option NodeStatus) : (s.pinSettled node status).wired = s.wired := by
  cases status with
  | none => rfl
  | some status =>
    simp only [pinSettled, pinPreservedBranch]
    split_ifs
    · cases s.branches[node]? with
      | none => rfl
      | some preserved =>
        exact wired_modify node (pinnedTo preserved (s.completedSteps[node]?.getD [])) (fun _ => ⟨rfl, rfl⟩)
          rfl rfl rfl rfl
    · rfl

theorem wired_foldSettled (node : String) (settled : Settlement) : (s.foldSettled node settled).wired = s.wired := by
  let start := (s.foldStatus node settled.status).foldOutcome node settled.outcome
  let left := (start.retractStated node settled.outcome).foldLeftBehind node settled
  have hstart : start.wired = s.wired := wired_foldStatus node settled.status
  have hleft : left.wired = start.wired := wired_retractStated node settled.outcome
  have hpin : (left.pinSettled node settled.status).wired = left.wired := wired_pinSettled node settled.status
  calc (s.foldSettled node settled).wired = (left.pinSettled node settled.status).wired := rfl
    _ = left.wired := hpin
    _ = start.wired := hleft
    _ = s.wired := hstart

theorem wired_foldAdopted : s.foldAdopted.wired = s.wired := by
  have hfold (l : List (String × DispatchSession)) (t : RunState) : (l.foldl abandonOne t).wired = t.wired := by
    induction l generalizing t with
    | nil => rfl
    | cons p l ih =>
      refine (ih _).trans ?_
      exact wired_modify p.1 (fun n => { n with branch := some p.2.branch }) (fun _ => ⟨rfl, rfl⟩) rfl rfl rfl rfl
  calc s.foldAdopted.wired = s.abandonTheDispatchInFlight.wired := rfl
    _ = s.wired := hfold s.sessionsInFlight s

/-- **A record that is no edit.** It leaves lineages and dependencies as they were. -/
theorem wired_foldRecord (h : Appends host s e) (hedit : ∀ operations, e.body ≠ .editCommitted operations) :
    (foldRecord host s e).wired = s.wired := by
  obtain ⟨v, ts, stream, seq, node, body⟩ := e
  have hkept : (s.kept ⟨v, ts, stream, seq, node, body⟩).wired = s.wired := by
    unfold kept
    split_ifs <;> rfl
  have hpipeline (t : RunState) (ht : t.wired = s.wired) :
      (t.foldPipeline host ⟨v, ts, stream, seq, node, body⟩).wired = s.wired := by
    rw [← ht]
    cases body with
    | nodeDispatched composed =>
      cases node with
      | none => rfl
      | some node => exact wired_modify node (fun n => { n with context := none }) (fun _ => ⟨rfl, rfl⟩) rfl rfl rfl rfl
    | nodeSettled settled =>
      cases node with
      | none => rfl
      | some node => exact wired_foldSettled node settled
    | nodeRestackStarted node => cases node <;> rfl
    | nodeRestacked node => cases node <;> rfl
    | humanAttested reference => cases reference <;> rfl
    | driverAdopted epoch => exact wired_foldAdopted
    | editCommitted operations => exact absurd rfl (hedit operations)
    | _ => cases h
  rw [foldRecord_pipeline]
  · split_ifs
    · exact hpipeline _ hkept
    · rfl
  · cases body <;> first | rfl | cases h
  · intro v ts stream seq node heq
    cases heq
    cases h

/-! ## An edit -/

/-- the supersession an operation asks for -/
def requestOf : Operation → Option (String × String)
  | .retryRequested node replacement _ | .reworkRequested node replacement _ _ _ _ => some (node, replacement)
  | _ => none

theorem superseded_foldOne (op : Operation) :
    (foldOne host «at» s op).superseded =
      (match requestOf op with
      | some p => s.superseded.insert p.1 p.2
      | none => s.superseded) ∧ (foldOne host «at» s op).plan = s.plan := by
  cases op with
  | reparent node was deps =>
    simp only [foldOne, foldOperation]
    split_ifs <;> exact ⟨rfl, rfl⟩
  | landingFromEvidence node landing =>
    simp only [foldOne, foldOperation]
    cases StatedLanding.parse host.toSiblings landing <;> exact ⟨rfl, rfl⟩
  | contextAdded node note delivery => cases delivery <;> exact ⟨rfl, rfl⟩
  | noteDelivered node addressee text criterion reached envelope index => cases reached <;> exact ⟨rfl, rfl⟩
  | noteWithdrawn node envelope index «from» text alikeAfter =>
    cases «from» with
    | live => exact ⟨rfl, rfl⟩
    | carried =>
      simp only [foldOne, foldOperation, owe]
      split <;> exact ⟨rfl, rfl⟩
  | _ => exact ⟨rfl, rfl⟩

theorem superseded_foldOperations (ops : List Operation) :
    (s.foldOperations host ops «at»).superseded = Maps.insertAll s.superseded (ops.filterMap requestOf) ∧
      (s.foldOperations host ops «at»).plan = s.plan := by
  unfold foldOperations
  induction ops generalizing s with
  | nil => exact ⟨rfl, rfl⟩
  | cons op ops ih =>
    obtain ⟨hs, hp⟩ := @superseded_foldOne host s «at» op
    rw [List.foldl_cons]
    refine ⟨(ih.1).trans ?_, ih.2.trans hp⟩
    rw [hs, List.filterMap_cons]
    cases requestOf op <;> rfl

/-- **Operations recorded.** They go onto the graph and the lineage map. -/
theorem foldRecord_operations {operations : List Operation}
    (hb : e.body = .editCommitted (some operations) ∨ e.body = .commandAccepted (some operations))
    (hv : writtenAtAKnownVersion e = true) :
    (foldRecord host s e).graph = applyAll host.serde s.graph operations ∧
      (foldRecord host s e).superseded = Maps.insertAll s.superseded (operations.filterMap requestOf) ∧
      (foldRecord host s e).plan = s.plan := by
  let start := (s.kept e).foldCommit e (some operations)
  have hfold : foldRecord host s e = start.foldOperations host operations (millisOf e.ts) := by
    obtain ⟨v, ts, stream, seq, node, body⟩ := e
    rcases hb with rfl | rfl
    all_goals
      show (if writtenAtAKnownVersion _ then _ else _) = _
      rw [if_pos hv]
      rfl
  have hstart : start.graph = s.graph ∧ start.superseded = s.superseded ∧ start.plan = s.plan := by
    simp only [start, foldCommit, kept]
    split_ifs <;> exact ⟨rfl, rfl, rfl⟩
  obtain ⟨hgraph, hsuperseded, hplan⟩ := hstart
  rw [hfold, graph_foldOperations, (superseded_foldOperations operations).1, (superseded_foldOperations operations).2,
    hgraph, hsuperseded, hplan]
  exact ⟨rfl, rfl, rfl⟩

/-- **An edit.** -/
theorem foldRecord_edit {operations : List Operation} (hb : e.body = .editCommitted (some operations))
    (hv : writtenAtAKnownVersion e = true) :
    (foldRecord host s e).graph = applyAll host.serde s.graph operations ∧
      (foldRecord host s e).superseded = Maps.insertAll s.superseded (operations.filterMap requestOf) ∧
      (foldRecord host s e).plan = s.plan := foldRecord_operations (.inl hb) hv

/-- operations at a version this build does not read go onto nothing -/
theorem foldRecord_unread {operations : Option (List Operation)}
    (hb : e.body = .editCommitted operations ∨ e.body = .commandAccepted operations)
    (hv : writtenAtAKnownVersion e = false) : foldRecord host s e = { s with strict := false } := by
  obtain ⟨v, ts, stream, seq, node, body⟩ := e
  rcases hb with rfl | rfl
  all_goals
    show (if writtenAtAKnownVersion _ then _ else _) = _
    rw [if_neg (by simpa using hv)]

theorem wired_foldRecord_unread {operations : Option (List Operation)} (hb : e.body = .editCommitted operations)
    (hv : writtenAtAKnownVersion e = false) : (foldRecord host s e).wired = s.wired := by
  rw [foldRecord_unread (.inl hb) hv]
  rfl

end RunState

end OnePipeline
