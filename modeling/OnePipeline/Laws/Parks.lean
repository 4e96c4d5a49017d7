/-
A park beside an outcome: the flag on the graph, the entry in `parks` and the recorded status of each node, over a run.

Each id has a `ParkView` of the three. The view is sound when a parked node is recorded neither `done` nor `failed` and
an id with an entry in `parks` is parked while the graph holds it.

Results:
- `sound_foldOne`, `sound_foldOperations`: an accepted edit keeps every view sound unless it attests a parked node or
  brings one in over facts an earlier node of its id left;
- `sound_foldRecord`: a record does, unless it attests a parked node or adopts a run restacking one;
- `parks_sound_of_run`: so does a run of records none of which does either.
-/
import Mathlib.Tactic
import OnePipeline.Core.Maps
import OnePipeline.Laws.ReplayAgrees
import OnePipeline.Laws.Shapes
import OnePipeline.Laws.Settled
import OnePipeline.Model.Run

namespace OnePipeline

open Checks Runs

/-! ## The view of one id -/

/-- the flag of the node under an id, where there is one, the status recorded for it, and whether `parks` holds it -/
structure ParkView where
  parked : Option Bool
  status : Option NodeStatus
  held : Bool
deriving DecidableEq, Repr

structure ParkView.Sound (v : ParkView) : Prop where
  outcome : v.parked = some true → v.status ≠ some .done ∧ v.status ≠ some .failed
  held : v.parked = some false → v.held = false

namespace RunState

variable {host : Host} {s s' : RunState} {id : String} {e : Envelope}

def parkView (s : RunState) (id : String) : ParkView where
  parked := (s.graph.get id).map Node.parked
  status := s.recorded[id]?.map Recorded.status
  held := decide (id ∈ s.parks)

/-- no node parked under an outcome, and no entry in `parks` for a node of the graph that is not parked -/
def ParksSound (s : RunState) : Prop := ∀ id, (s.parkView id).Sound

/-- whether the graph holds a parked node under an id -/
def isParked (s : RunState) (id : String) : Bool := (s.graph.get id).any Node.parked

theorem parkView_congr (hg : (s'.graph.get id).map Node.parked = (s.graph.get id).map Node.parked)
    (hr : s'.recorded[id]? = s.recorded[id]?) (hp : s'.parks[id]? = s.parks[id]?) : s'.parkView id = s.parkView id := by
  have hmem : id ∈ s'.parks ↔ id ∈ s.parks := by rw [Maps.mem_iff, Maps.mem_iff, hp]
  simp only [parkView, hg, hr, hmem]

theorem sound_of_view (h : ParksSound s) (hv : s'.parkView id = s.parkView id) : (s'.parkView id).Sound := hv ▸ h id

/-- an id the graph holds no node under, or one neither parked nor held -/
theorem sound_of_absent (h : s'.graph.get id = none) : (s'.parkView id).Sound :=
  ⟨fun hp => by simp [parkView, h] at hp, fun hp => by simp [parkView, h] at hp⟩

/-- a status that is no outcome recorded under an id -/
theorem sound_of_status (h : ParksSound s) (hg : (s'.graph.get id).map Node.parked = (s.graph.get id).map Node.parked)
    (hp : s'.parks[id]? = s.parks[id]?)
    (hr : ∀ r, s'.recorded[id]? = some r → r.status ≠ .done ∧ r.status ≠ .failed) : (s'.parkView id).Sound := by
  constructor
  · intro _
    cases hrec : s'.recorded[id]? with
    | none => simp [parkView, hrec]
    | some r => simpa [parkView, hrec] using hr r hrec
  · intro hfalse
    have hmem : id ∈ s'.parks ↔ id ∈ s.parks := by rw [Maps.mem_iff, Maps.mem_iff, hp]
    have hheld := (h id).held (hg.symm.trans hfalse)
    simp only [parkView, hmem] at hheld ⊢
    exact hheld

/-- an outcome recorded under an id the graph holds no parked node under -/
theorem sound_of_unparked (h : ParksSound s) (hg : (s'.graph.get id).map Node.parked = (s.graph.get id).map Node.parked)
    (hp : s'.parks[id]? = s.parks[id]?) (hu : s.isParked id = false) : (s'.parkView id).Sound := by
  constructor
  · intro htrue
    have hpark : (s.graph.get id).map Node.parked = some true := hg.symm.trans htrue
    obtain ⟨n, hn, hnp⟩ := Option.map_eq_some_iff.mp hpark
    simp [isParked, hn, hnp] at hu
  · intro hfalse
    have hmem : id ∈ s'.parks ↔ id ∈ s.parks := by rw [Maps.mem_iff, Maps.mem_iff, hp]
    have hheld := (h id).held (hg.symm.trans hfalse)
    simp only [parkView, hmem] at hheld ⊢
    exact hheld

/-- a node taken out of its park, with nothing in `parks` under its id -/
theorem sound_of_released (hg : ∀ n, s'.graph.get id = some n → n.parked = false) (hp : id ∉ s'.parks) :
    (s'.parkView id).Sound := by
  constructor
  · intro htrue
    obtain ⟨n, hn, hnp⟩ := Option.map_eq_some_iff.mp htrue
    rw [hg n hn] at hnp
    cases hnp
  · exact fun _ => decide_eq_false hp

end RunState

/-! ## Changes of the graph that move no park -/

section

variable {g : Graph} {f : Node → Node} {keeps : ∀ n, (f n).id = n.id}

theorem parked_modify (hf : ∀ n, (f n).parked = n.parked) (x id : String) :
    ((g.modify x f keeps).get id).map Node.parked = (g.get id).map Node.parked := by
  rw [Graph.get_modify]
  split_ifs
  · cases g.get id <;> simp [hf]
  · rfl

theorem parked_modifyAll (hf : ∀ n, (f n).parked = n.parked) (id : String) :
    ((g.modifyAll f keeps).get id).map Node.parked = (g.get id).map Node.parked := by
  rw [Graph.get_modifyAll]
  cases g.get id <;> simp [hf]

end

/-! ## One operation -/

namespace RunState

variable {host : Host} {s s' : RunState} {id : String} {e : Envelope} {op : Operation} {«at» : Option ℕ}

/-- what a node coming in must find under its id: no park it does not state, and no outcome under one it does -/
def findsNoPark (s : RunState) (n : Node) : Bool :=
  if n.parked then (s.parkView n.id).status ≠ some .done ∧ (s.parkView n.id).status ≠ some .failed
  else !(s.parkView n.id).held

/-- an operation that leaves parks and outcomes apart: it attests no parked node and brings none in over a park -/
def opKeepsParks (s : RunState) : Operation → Bool
  | .humanAttested node => !s.isParked node
  | .nodeAdded node _ => s.findsNoPark node
  | _ => true

/-- a requeue that states no id -/
def opKeepsIds : Operation → Bool
  | .nodeRequeued _ amend => !amends amend "id"
  | _ => true

/-- an operation that moves no park, no entry in `parks` and no recorded status -/
theorem parkView_foldOne_of_plain (h : op.rewires = true) : (foldOne host «at» s op).parkView id = s.parkView id ∨
    (foldOne host «at» s op).graph.get id = none := by
  cases op with
  | edgeAdded «from» dest target =>
    exact Or.inl (parkView_congr (parked_modify (by intro n; rfl) _ _) rfl rfl)
  | edgeRemoved «from» dest => exact Or.inl (parkView_congr (parked_modify (by intro n; rfl) _ _) rfl rfl)
  | nodeDropped node dependents =>
    by_cases hk : id = node
    · right
      show (((s.graph.remove node).modifyAll (withoutConsumed node)).get id) = none
      rw [Graph.get_modifyAll, Graph.get_remove, if_pos hk]
      rfl
    · left
      refine parkView_congr ?_ rfl rfl
      show ((((s.graph.remove node).modifyAll (withoutConsumed node)).get id).map Node.parked) = _
      rw [parked_modifyAll (f := withoutConsumed node) (fun n => rfl), Graph.get_remove, if_neg hk]
  | _ => cases h

/-- **One operation.** -/
theorem sound_foldOne (h : ParksSound s) (hk : s.opKeepsParks op = true) (hi : opKeepsIds op = true) :
    ParksSound (foldOne host «at» s op) := by
  intro id
  cases op with
  | edgeAdded «from» dest target =>
    exact sound_of_view h (parkView_congr (parked_modify (by intro n; rfl) _ _) rfl rfl)
  | edgeRemoved «from» dest => exact sound_of_view h (parkView_congr (parked_modify (by intro n; rfl) _ _) rfl rfl)
  | nodeDropped node dependents =>
    have hplain : (foldOne host «at» s (.nodeDropped node dependents)).parkView id = s.parkView id ∨
        (foldOne host «at» s (.nodeDropped node dependents)).graph.get id = none := parkView_foldOne_of_plain rfl
    rcases hplain with hv | hnone
    · exact sound_of_view h hv
    · exact sound_of_absent hnone
  | nodeSetsReplaced node sets => exact sound_of_view h (parkView_congr (parked_modify (by intro n; rfl) _ _) rfl rfl)
  | runNodeSetsReplaced sets => exact sound_of_view h rfl
  | taskAmended node text => exact sound_of_view h (parkView_congr (parked_modify (by intro n; rfl) _ _) rfl rfl)
  | retitled node was title reason => exact sound_of_view h (parkView_congr (parked_modify (by intro n; rfl) _ _) rfl rfl)
  | completionRequested reason => exact sound_of_view h rfl
  | findingRaised node message blocking => exact sound_of_view h rfl
  | declineApplied node comments reason replies => exact sound_of_view h rfl
  | reworkRequested node replacement reason instruction comments title => exact sound_of_view h rfl
  | contextAdded node note delivery =>
    cases delivery with
    | live => exact sound_of_view h rfl
    | deferred => exact sound_of_view h (parkView_congr (parked_modify (by intro n; rfl) _ _) rfl rfl)
  | noteDelivered node addressee text criterion reached envelope index =>
    cases reached with
    | carried reason => exact sound_of_view h (parkView_congr (parked_modify (by intro n; rfl) _ _) rfl rfl)
    | _ => exact sound_of_view h rfl
  | noteWithdrawn node envelope index «from» text alikeAfter =>
    cases «from» with
    | live => exact sound_of_view h rfl
    | carried =>
      refine sound_of_view h (parkView_congr ?_ ?_ ?_)
      · simp only [foldOne, foldOperation, owe_graph]
        exact parked_modify (by intro n; rfl) _ _
      · simp only [foldOne, foldOperation, owe_recorded]
      · simp only [foldOne, foldOperation, owe_parks]
  | landingFromEvidence node landing =>
    refine sound_of_view h (parkView_congr ?_ ?_ ?_)
    all_goals
      simp only [foldOne, foldOperation, apply]
      cases StatedLanding.parse host.toSiblings landing <;> rfl
  | nodeAdded n retryOf =>
    by_cases hid : id = n.id
    · subst hid
      have hget : (foldOne host «at» s (.nodeAdded n retryOf)).graph.get n.id = some n := by
        show (s.graph.insert n).get n.id = some n
        rw [Graph.get_insert, if_pos rfl]
      have hfinds : s.findsNoPark n = true := hk
      unfold findsNoPark at hfinds
      constructor
      · intro hp
        have hpark : n.parked = true := by simpa [parkView, hget] using hp
        rw [if_pos hpark] at hfinds
        exact of_decide_eq_true hfinds
      · intro hp
        have hpark : n.parked = false := by simpa [parkView, hget] using hp
        rw [if_neg (by simp [hpark])] at hfinds
        have hheld : (s.parkView n.id).held = false := by simpa using hfinds
        exact hheld
    · refine sound_of_view h (parkView_congr ?_ rfl rfl)
      show ((s.graph.insert n).get id).map Node.parked = _
      rw [Graph.get_insert, if_neg hid]
  | nodeParked node «by» reason =>
    by_cases hid : id = node
    · subst hid
      have hget : ∀ n, (foldOne host «at» s (.nodeParked id «by» reason)).graph.get id = some n → n.parked = true := by
        intro n hn
        change (s.graph.modify id fun n => { n with parked := true }).get id = some n at hn
        rw [Graph.get_modify, if_pos rfl] at hn
        obtain ⟨m, -, rfl⟩ := Option.map_eq_some_iff.mp hn
        rfl
      constructor
      · intro _
        have hstatus : ((foldOne host «at» s (.nodeParked id «by» reason)).parkView id).status = some .parked := by
          show (s.recorded.insert id (parkedAs _ «at»))[id]?.map Recorded.status = _
          rw [Maps.get_insert, if_pos rfl, Option.map_some]
          unfold parkedAs
          split <;> rfl
        rw [hstatus]
        simp
      · intro hp
        obtain ⟨n, hn, hnp⟩ := Option.map_eq_some_iff.mp hp
        rw [hget n hn] at hnp
        cases hnp
    · refine sound_of_view h (parkView_congr ?_ ?_ ?_)
      · show ((s.graph.modify node fun n => { n with parked := true }).get id).map Node.parked = _
        rw [Graph.get_modify, if_neg hid]
      · show (s.recorded.insert node _)[id]? = _
        rw [Maps.get_insert, if_neg hid]
      · show (s.parks.insert node _)[id]? = _
        rw [Maps.get_insert, if_neg hid]
  | nodeRequeued node amend =>
    have hamend : amends amend "id" = false := by simpa [opKeepsIds] using hi
    by_cases hid : id = node
    · subst hid
      have hrec : (foldOne host «at» s (.nodeRequeued id amend)).recorded[id]? = none := by
        show (s.recorded.erase id)[id]? = none
        rw [Maps.get_erase, if_pos rfl]
      have hpark : id ∉ (foldOne host «at» s (.nodeRequeued id amend)).parks := by
        show id ∉ s.parks.erase id
        rw [Maps.not_mem_iff, Maps.get_erase, if_pos rfl]
      exact ⟨fun _ => by simp [parkView, hrec], fun _ => decide_eq_false hpark⟩
    · refine sound_of_view h (parkView_congr ?_ ?_ ?_)
      · show ((apply host.serde s.graph (.nodeRequeued node amend)).get id).map Node.parked = _
        rw [get_apply_requeued hamend hid]
      · show (s.recorded.erase node)[id]? = _
        rw [Maps.get_erase, if_neg hid]
      · show (s.parks.erase node)[id]? = _
        rw [Maps.get_erase, if_neg hid]
  | humanAttested node =>
    by_cases hid : id = node
    · subst hid
      exact sound_of_unparked h rfl rfl (by simpa [opKeepsParks] using hk)
    · refine sound_of_view h (parkView_congr rfl ?_ rfl)
      show (s.recorded.insert node _)[id]? = _
      rw [Maps.get_insert, if_neg hid]
  | retryRequested node replacement reset =>
    by_cases hid : id = node
    · subst hid
      refine sound_of_status h rfl rfl fun r hr => ?_
      change (s.recorded.insert id (.at .cancelled))[id]? = some r at hr
      rw [Maps.get_insert, if_pos rfl] at hr
      cases hr
      simp
    · refine sound_of_view h (parkView_congr rfl ?_ rfl)
      show (s.recorded.insert node _)[id]? = _
      rw [Maps.get_insert, if_neg hid]
  | reparent node was deps =>
    have hg : ((foldOne host «at» s (.reparent node was deps)).graph.get id).map Node.parked =
        (s.graph.get id).map Node.parked := by
      simp only [foldOne, foldOperation]
      split_ifs
      · exact parked_modify (f := reparented deps) (fun n => rfl) node id
      · exact parked_modify (f := reparented deps) (fun n => rfl) node id
    have hp : (foldOne host «at» s (.reparent node was deps)).parks = s.parks := by
      simp only [foldOne, foldOperation]
      split_ifs <;> rfl
    by_cases hwait : id = node ∧ s.recorded[node]?.map Recorded.status = some .waiting
    · obtain ⟨rfl, hwait⟩ := hwait
      refine sound_of_status h hg (by rw [hp]) fun r hr => ?_
      simp only [foldOne, foldOperation, hwait, if_true] at hr
      rw [Maps.get_erase, if_pos rfl] at hr
      cases hr
    · refine sound_of_view h (parkView_congr hg ?_ (by rw [hp]))
      simp only [foldOne, foldOperation]
      split_ifs with hw
      · rw [Maps.get_erase, if_neg fun hid => hwait ⟨hid, hw⟩]
      · rfl
  | settledFromEvidence node outcome evidence =>
    by_cases hid : id = node
    · subst hid
      refine sound_of_released (fun n hn => ?_) ?_
      · change ((s.graph.modify id fun n => { n with parked := false }).modify id fun n => { n with parked := false }).get id =
          some n at hn
        rw [Graph.get_modify, if_pos rfl] at hn
        obtain ⟨m, -, rfl⟩ := Option.map_eq_some_iff.mp hn
        rfl
      · show id ∉ s.parks.erase id
        rw [Maps.not_mem_iff, Maps.get_erase, if_pos rfl]
    · refine sound_of_view h (parkView_congr ?_ ?_ ?_)
      · show (((s.graph.modify node fun n => { n with parked := false }).modify node
          fun n => { n with parked := false }).get id).map Node.parked = _
        rw [Graph.get_modify, if_neg hid, Graph.get_modify, if_neg hid]
      · show (s.recorded.insert node _)[id]? = _
        rw [Maps.get_insert, if_neg hid]
      · show (s.parks.erase node)[id]? = _
        rw [Maps.get_erase, if_neg hid]

/-! ## A committed edit -/

theorem keepsParks_of_keepsNodes (h : op.keepsNodes = true) : s.opKeepsParks op = true ∧ opKeepsIds op = true := by
  cases op <;> first | exact ⟨rfl, rfl⟩ | cases h

theorem sound_foldl_quiet {ops : List Operation} (h : ParksSound s) (hq : ∀ op ∈ ops, op.keepsNodes = true) :
    ParksSound (ops.foldl (foldOne host «at») s) := by
  induction ops generalizing s with
  | nil => exact h
  | cons op ops ih =>
    obtain ⟨hk, hi⟩ := keepsParks_of_keepsNodes (s := s) (hq op List.mem_cons_self)
    exact ih (sound_foldOne h hk hi) fun o ho => hq o (List.mem_cons_of_mem _ ho)

/-- the request of a supersession moves nothing of another id -/
theorem parkView_foldOne_request {old new : String} (h : Supersedes old new op) (hne : id ≠ old) :
    (foldOne host «at» s op).parkView id = s.parkView id := by
  cases h with
  | retry reset =>
    refine parkView_congr rfl ?_ rfl
    show (s.recorded.insert old _)[id]? = _
    rw [Maps.get_insert, if_neg hne]
  | rework => rfl

/-- **An accepted edit.** -/
theorem sound_foldOperations {ops : List Operation} (h : ParksSound s) (hs : Shape s.graph ops)
    (hk : ∀ op ∈ ops, s.opKeepsParks op = true) : ParksSound (s.foldOperations host ops «at») := by
  cases hs with
  | added n new =>
    rw [foldOperations, List.foldl_cons]
    refine sound_foldl_quiet (sound_foldOne h (hk _ List.mem_cons_self) rfl) fun op hop => ?_
    exact Operation.keepsNodes_of_rewires (rewires_edgesInto hop)
  | superseded old n request rest present new asked quiet dropped =>
    have hne : n.id ≠ old := fun heq => new (heq ▸ present)
    have hrequest : ParksSound (foldOne host «at» s request) := by
      cases asked with
      | retry => exact sound_foldOne h rfl rfl
      | rework => exact sound_foldOne h rfl rfl
    have hadded : (foldOne host «at» s request).opKeepsParks (.nodeAdded n (some old)) = true := by
      have hn := hk (.nodeAdded n (some old)) (List.mem_cons_of_mem _ List.mem_cons_self)
      simp only [opKeepsParks, findsNoPark, parkView_foldOne_request asked hne] at hn ⊢
      exact hn
    rw [foldOperations, List.foldl_cons, List.foldl_cons]
    refine sound_foldl_quiet (sound_foldOne hrequest hadded rfl) fun op hop => ?_
    exact Operation.keepsNodes_of_rewires (quiet op hop)
  | requeued node amend same =>
    show ParksSound (foldOne host «at» s (.nodeRequeued node amend))
    exact sound_foldOne h rfl (by simp [opKeepsIds, same])
  | attested reference =>
    show ParksSound (foldOne host «at» s (.humanAttested reference))
    exact sound_foldOne h (hk _ List.mem_cons_self) rfl
  | quiet ops hq => exact sound_foldl_quiet h hq

/-! ## A record -/

/-- a record that leaves parks and outcomes apart: it attests no parked node, adopts no run restacking one, and brings no
node in over a park -/
def keepsParks (s : RunState) (e : Envelope) : Bool :=
  match e.body with
  | .humanAttested (some reference) => !s.isParked reference
  | .driverAdopted _ => s.restacking.toList.all fun node => !s.isParked node
  | .editCommitted (some operations) => operations.all s.opKeepsParks
  | _ => true

theorem sound_foldDispatched (h : ParksSound s) (node : String) : ParksSound (s.foldDispatched node) := by
  intro id
  have hg : (((s.foldDispatched node).graph).get id).map Node.parked = (s.graph.get id).map Node.parked :=
    parked_modify (by intro n; rfl) _ _
  by_cases hid : id = node
  · subst hid
    refine sound_of_status h hg rfl fun r hr => ?_
    change (s.recorded.insert id (.at .running))[id]? = some r at hr
    rw [Maps.get_insert, if_pos rfl] at hr
    cases hr
    simp
  · refine sound_of_view h (parkView_congr hg ?_ rfl)
    show (s.recorded.insert node _)[id]? = _
    rw [Maps.get_insert, if_neg hid]

theorem sound_foldSettledStatus (h : ParksSound s) (node : String) (status : NodeStatus) :
    ParksSound (s.foldSettledStatus node status) := by
  intro id
  unfold foldSettledStatus
  by_cases hid : id = node
  · subst hid
    split_ifs with hends
    · refine sound_of_released (fun n hn => ?_) ?_
      · change (s.graph.modify id fun n => { n with parked := false }).get id = some n at hn
        rw [Graph.get_modify, if_pos rfl] at hn
        obtain ⟨m, -, rfl⟩ := Option.map_eq_some_iff.mp hn
        rfl
      · show id ∉ s.parks.erase id
        rw [Maps.not_mem_iff, Maps.get_erase, if_pos rfl]
    · refine sound_of_status h rfl rfl fun r hr => ?_
      change (s.recorded.insert id (.at status))[id]? = some r at hr
      rw [Maps.get_insert, if_pos rfl] at hr
      cases hr
      constructor
      · rintro rfl
        exact hends rfl
      · rintro rfl
        exact hends rfl
  · have hrec : (s.recorded.insert node (.at status))[id]? = s.recorded[id]? := by rw [Maps.get_insert, if_neg hid]
    split_ifs
    · refine sound_of_view h (parkView_congr ?_ hrec ?_)
      · show ((s.graph.modify node fun n => { n with parked := false }).get id).map Node.parked = _
        rw [Graph.get_modify, if_neg hid]
      · show (s.parks.erase node)[id]? = _
        rw [Maps.get_erase, if_neg hid]
    · exact sound_of_view h (parkView_congr rfl hrec rfl)

/-- the rest of a settlement moves no park and records no status -/
theorem parkView_foldSettled (node : String) (settled : Settlement) :
    (s.foldSettled node settled).parkView id = (s.foldStatus node settled.status).parkView id := by
  have hretract (t : RunState) (outcome : Option String) : (t.retractStated node outcome).parkView id = t.parkView id := by
    unfold retractStated
    split_ifs <;> rfl
  have hpin (t : RunState) : (t.pinSettled node settled.status).parkView id = t.parkView id := by
    unfold pinSettled pinPreservedBranch
    cases settled.status with
    | none => rfl
    | some status =>
      simp only
      split_ifs
      · cases t.branches[node]? with
        | none => rfl
        | some preserved => exact parkView_congr (parked_modify (f := pinnedTo preserved _) (fun n => rfl) _ _) rfl rfl
      · rfl
  exact (hpin _).trans (hretract (s.foldStatus node settled.status |>.foldOutcome node settled.outcome) settled.outcome)

/-! ### An adoption -/

/-- naming and pinning the dispatches in flight moves no park and records no status -/
theorem abandon_frame (s : RunState) :
    s.abandonTheDispatchInFlight.recorded = s.recorded ∧ s.abandonTheDispatchInFlight.parks = s.parks ∧
      s.abandonTheDispatchInFlight.restacking = s.restacking ∧
      ∀ id, (s.abandonTheDispatchInFlight.graph.get id).map Node.parked = (s.graph.get id).map Node.parked := by
  have hfold (l : List (String × DispatchSession)) (t : RunState) :
      (l.foldl abandonOne t).recorded = t.recorded ∧ (l.foldl abandonOne t).parks = t.parks ∧
        (l.foldl abandonOne t).restacking = t.restacking ∧
        ∀ id, ((l.foldl abandonOne t).graph.get id).map Node.parked = (t.graph.get id).map Node.parked := by
    induction l generalizing t with
    | nil => exact ⟨rfl, rfl, rfl, fun _ => rfl⟩
    | cons p l ih =>
      obtain ⟨hr, hp, hs, hg⟩ := ih (t.abandonOne p)
      refine ⟨hr, hp, hs, fun id => (hg id).trans ?_⟩
      exact parked_modify (f := fun n => { n with branch := some p.2.branch }) (fun n => rfl) p.1 id
  exact hfold s.sessionsInFlight s

/-- what an adoption records under an id -/
theorem status_settledByAdoption (recorded : StrMap Recorded) (id : String) :
    (settledByAdoption recorded)[id]?.map Recorded.status =
      (recorded[id]?.map Recorded.status).filter fun status => status ≠ .running := by
  unfold settledByAdoption
  rw [Std.ExtTreeMap.getElem?_map, Std.ExtTreeMap.getElem?_filter']
  cases recorded[id]? with
  | none => rfl
  | some r =>
    cases r with
    | cancelling since => rfl
    | «at» status =>
      by_cases hrun : status = .running
      · simp [Option.filter, hrun]
      · simp [Option.filter, hrun]

theorem sound_foldAdopted (h : ParksSound s) (hk : ∀ id ∈ s.restacking, s.isParked id = false) : ParksSound s.foldAdopted := by
  intro id
  obtain ⟨hr, hp, hs, hg⟩ := s.abandon_frame
  have hgraph : (s.foldAdopted.graph.get id).map Node.parked = (s.graph.get id).map Node.parked := hg id
  have hparks : s.foldAdopted.parks[id]? = s.parks[id]? := congrArg (fun m => m[id]?) hp
  have hstatus : s.foldAdopted.recorded[id]?.map Recorded.status =
      ((if id ∈ s.restacking.toList then some (.at .done) else s.recorded[id]?).map Recorded.status).filter
        fun status => status ≠ .running := by
    show (settledByAdoption (s.abandonTheDispatchInFlight.restacksAreDone.recorded))[id]?.map Recorded.status = _
    rw [status_settledByAdoption]
    simp only [restacksAreDone, Maps.get_foldl_insert, hr, hs]
  by_cases hin : id ∈ s.restacking.toList
  · exact sound_of_unparked h hgraph hparks (hk id (Std.ExtTreeSet.mem_toList.mp hin))
  · rw [if_neg hin] at hstatus
    constructor
    · intro htrue
      have hbefore := (h id).outcome (hgraph.symm.trans htrue)
      show s.foldAdopted.recorded[id]?.map Recorded.status ≠ _ ∧ s.foldAdopted.recorded[id]?.map Recorded.status ≠ _
      rw [hstatus]
      constructor
      · exact fun heq => hbefore.1 (Option.filter_eq_some_iff.mp heq).1
      · exact fun heq => hbefore.2 (Option.filter_eq_some_iff.mp heq).1
    · intro hfalse
      have hmem : id ∈ s.foldAdopted.parks ↔ id ∈ s.parks := by rw [Maps.mem_iff, Maps.mem_iff, hparks]
      have hheld := (h id).held (hgraph.symm.trans hfalse)
      simp only [parkView, hmem] at hheld ⊢
      exact hheld

/-- keeping a record whole, or a run's strictness, moves no park -/
theorem sound_of_fields (h : ParksSound s) (hg : s'.graph = s.graph) (hr : s'.recorded = s.recorded)
    (hp : s'.parks = s.parks) : ParksSound s' :=
  fun _ => sound_of_view h (parkView_congr (by rw [hg]) (by rw [hr]) (by rw [hp]))

theorem sound_foldPipeline (h : ParksSound s) (ha : Appends host s e) (hk : s.keepsParks e = true) :
    ParksSound (s.foldPipeline host e) := by
  obtain ⟨v, ts, stream, seq, node, body⟩ := e
  cases body with
  | nodeDispatched composed =>
    cases node with
    | none => exact h
    | some node => exact sound_foldDispatched h node
  | nodeSettled settled =>
    cases node with
    | none => exact h
    | some node =>
      intro id
      show ((s.foldSettled node settled).parkView id).Sound
      rw [parkView_foldSettled]
      cases settled.status with
      | none => exact h id
      | some status => exact sound_foldSettledStatus h node status id
  | nodeRestackStarted started =>
    cases started with
    | none => exact h
    | some started =>
      intro id
      by_cases hid : id = started
      · subst hid
        refine sound_of_status h rfl rfl fun r hr => ?_
        change (s.recorded.insert id (.at .running))[id]? = some r at hr
        rw [Maps.get_insert, if_pos rfl] at hr
        cases hr
        simp
      · refine sound_of_view h (parkView_congr rfl ?_ rfl)
        show (s.recorded.insert started _)[id]? = _
        rw [Maps.get_insert, if_neg hid]
  | nodeRestacked restacked =>
    cases restacked with
    | none => exact h
    | some restacked => exact sound_of_fields h rfl rfl rfl
  | humanAttested reference =>
    cases reference with
    | none => exact h
    | some reference =>
      intro id
      by_cases hid : id = reference
      · subst hid
        exact sound_of_unparked h rfl rfl (by simpa [keepsParks] using hk)
      · refine sound_of_view h (parkView_congr rfl ?_ rfl)
        show (s.recorded.insert reference _)[id]? = _
        rw [Maps.get_insert, if_neg hid]
  | driverAdopted =>
    refine sound_foldAdopted h fun id hid => ?_
    have hall : s.restacking.toList.all (fun node => !s.isParked node) = true := hk
    simpa using List.all_eq_true.mp hall id (Std.ExtTreeSet.mem_toList.mpr hid)
  | editCommitted operations =>
    cases operations with
    | none => cases ha
    | some operations =>
      obtain ⟨live, author, command, graph', hc⟩ := ha
      have hall : operations.all s.opKeepsParks = true := hk
      exact sound_foldOperations (s := s.foldCommit _ (some operations)) (sound_of_fields h rfl rfl rfl) (compiled_shape hc).1
        (List.all_eq_true.mp hall)
  | _ => cases ha

/-- **A record.** -/
theorem sound_foldRecord (h : ParksSound s) (ha : Appends host s e) (hk : s.keepsParks e = true) :
    ParksSound (foldRecord host s e) := by
  obtain ⟨v, ts, stream, seq, node, body⟩ := e
  rw [foldRecord_pipeline]
  · split_ifs
    · unfold kept
      split_ifs
      · exact sound_foldPipeline (sound_of_fields h rfl rfl rfl) ha hk
      · exact sound_foldPipeline h ha hk
    · exact sound_of_fields h rfl rfl rfl
  · cases body <;> first | rfl | cases ha
  · rintro v ts stream seq node heq
    cases heq
    cases ha

/-! ## A run -/

theorem sound_started {plan : Plan} (hp : ∀ n ∈ plan.tasks, n.parked = false) (hids : (plan.tasks.map Node.id).Nodup) :
    ParksSound (started plan) := by
  intro id
  refine sound_of_released (fun n hn => hp n ?_) (by simp [started])
  have hn := (Graph.get_eq_some.mp hn).1
  rwa [started, Graph.iter_fromPlan plan hids] at hn

end RunState

example : (RunState.fold .lenient [.own 0 none (.runStarted (some .single)),
    .own 1 none (.editCommitted (some [.nodeParked "a" .planner none]))]).isParked "a" = true := by decide +kernel

/-! ### A run that parks a finished node, and one that does not -/

/-- a node settled done, its restack started, the node cancelled while it restacks, and the run adopted -/
def restackedRun : List Envelope :=
  [.own 1 (some "a") (.nodeSettled { status := some .done }), .own 2 none (.nodeRestackStarted (some "a")),
    .own 3 none (.editCommitted (some [.nodeParked "a" .planner none])), .own 4 none .driverAdopted]

/-- the cancel of the node under restack is one the compiler accepts -/
theorem restackedRun_appends :
    Admits (RunState.foldRecord .lenient) (RunState.Appends .lenient) (RunState.started .single) restackedRun := by
  refine ⟨trivial, trivial, ?_, trivial, trivial⟩
  generalize hs : List.foldl (RunState.foldRecord .lenient) (RunState.started .single) (restackedRun.take 2) = s
  obtain ⟨⟨graph', ops⟩, hok, -⟩ := exists_ok_of_any (p := fun _ => true)
    (x := compile .lenient s.graph (s.judged {}) .planner (.cancel "a" none)) (by rw [← hs]; decide)
  obtain ⟨resolved, haccepted⟩ := compile_ok hok
  have hcommand : resolved = .cancel "a" none := (Except.ok.inj haccepted.resolves).symm
  subst hcommand
  obtain ⟨node, -, -, -, -, rfl⟩ := compileCancel_ok haccepted.compiles
  have hcompiled : s.Compiled .lenient [.nodeParked "a" .planner none] := ⟨{}, .planner, .cancel "a" none, graph', hok⟩
  rw [← hs] at hcompiled
  exact hcompiled

end OnePipeline
