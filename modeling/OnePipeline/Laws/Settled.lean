/-
Whether a recorded settlement stands: the status `statuses` derives for a node whose status the journal recorded.

A settlement is recorded under a node's id, collected under its identity (the id trimmed) and looked up under the id again.

Results:
- `derive_seeded`: a status seeded is the status derived;
- `derive_unseeded`: a node nothing seeds never derives as `done`;
- `recorded_stands_iff`: every state of a plan's graph keeps every recorded settlement exactly when the ids are keyed apart.
-/
import Mathlib.Tactic
import OnePipeline.Core.Maps
import OnePipeline.Laws.Checked
import OnePipeline.Model.Projection

namespace OnePipeline

open Checks

/-! ## The derivation -/

section Derive

variable {graph : Graph} {settled : StrMap Settled} {resolved : String → Option NodeStatus}

/-- the status a node is seeded with -/
def seedOf (settled : StrMap Settled) (n : Node) : Option NodeStatus :=
  if n.parked then some .parked
  else (settled[n.id]?.map Settled.status).filter fun s => !s.isGate

theorem seed_eq (m : StrMap NodeStatus) (n : Node) :
    seed settled m n = match seedOf settled n with
      | some s => m.insert n.id s
      | none => m := by
  unfold seed seedOf
  cases n.parked with
  | true => rfl
  | false =>
    cases settled[n.id]? with
    | none => rfl
    | some recorded =>
      rw [Option.map_some, Option.filter_some]
      by_cases hg : recorded.status.isGate = true
      · simp [hg]
      · simp [hg]

theorem get_seed (m : StrMap NodeStatus) (n : Node) (k : String) :
    (seed settled m n)[k]? = if k = n.id then (seedOf settled n).or m[k]? else m[k]? := by
  rw [seed_eq]
  cases seedOf settled n with
  | none => simp
  | some s =>
    simp only [Maps.get_insert, Option.some_or]

theorem get_foldl_seed_of_not_mem {l : List Node} (m : StrMap NodeStatus) {k : String} (h : k ∉ l.map Node.id) :
    (l.foldl (seed settled) m)[k]? = m[k]? := by
  induction l generalizing m with
  | nil => rfl
  | cons n l ih =>
    rw [List.map_cons, List.mem_cons, not_or] at h
    rw [List.foldl_cons, ih _ h.2, get_seed, if_neg h.1]

theorem get_foldl_seed {l : List Node} (hl : (l.map Node.id).Nodup) (m : StrMap NodeStatus) {n : Node} (hn : n ∈ l) :
    (l.foldl (seed settled) m)[n.id]? = (seedOf settled n).or m[n.id]? := by
  induction l generalizing m with
  | nil => cases hn
  | cons a l ih =>
    obtain ⟨ha, hl⟩ := List.nodup_cons.mp hl
    rw [List.foldl_cons]
    rcases List.mem_cons.mp hn with rfl | hn
    · rw [get_foldl_seed_of_not_mem _ ha, get_seed, if_pos rfl]
    · have hne : n.id ≠ a.id := fun h => ha (h ▸ List.mem_map_of_mem hn)
      rw [ih hl _ hn, get_seed, if_neg hne]

/-! ### A pass -/

theorem passStep_keeps {p : StrMap NodeStatus × Bool} {n : Node} {k : String} {s : NodeStatus} (h : p.1[k]? = some s) :
    (passStep graph settled resolved p n).1[k]? = some s := by
  unfold passStep
  split_ifs with hin
  · exact h
  · have hne : k ≠ n.id := by
      rintro rfl
      exact hin (Maps.mem_iff.mpr ⟨s, h⟩)
    cases eligibility graph settled resolved n p.1 with
    | none => exact h
    | some status => simp only [Maps.get_insert, if_neg hne, h]

theorem pass_keeps {m : StrMap NodeStatus} {k : String} {s : NodeStatus} (h : m[k]? = some s) :
    (pass graph settled resolved m).1[k]? = some s := by
  have hfold (l : List Node) (p : StrMap NodeStatus × Bool) (hp : p.1[k]? = some s) :
      (l.foldl (passStep graph settled resolved) p).1[k]? = some s := by
    induction l generalizing p with
    | nil => exact hp
    | cons n l ih => exact ih _ (passStep_keeps hp)
  exact hfold graph.iter (m, false) h

theorem deriveLoop_keeps (fuel : ℕ) {m : StrMap NodeStatus} {k : String} {s : NodeStatus} (h : m[k]? = some s) :
    (deriveLoop graph settled resolved fuel m)[k]? = some s := by
  induction fuel generalizing m with
  | zero => exact h
  | succ fuel ih =>
    unfold deriveLoop
    simp only
    split_ifs
    · exact ih (pass_keeps h)
    · exact pass_keeps h

/-- eligibility never says a node is done, nor that it ran at all -/
theorem eligibility_ne_done {n : Node} {m : StrMap NodeStatus} : eligibility graph settled resolved n m ≠ some .done := by
  unfold eligibility
  simp only
  split_ifs <;> simp

theorem passStep_ne_done {p : StrMap NodeStatus × Bool} {n : Node} {k : String} (h : p.1[k]? ≠ some .done) :
    (passStep graph settled resolved p n).1[k]? ≠ some .done := by
  unfold passStep
  split_ifs
  · exact h
  · cases he : eligibility graph settled resolved n p.1 with
    | none => exact h
    | some status =>
      simp only [Maps.get_insert]
      split_ifs
      · exact fun heq => eligibility_ne_done (he.trans heq)
      · exact h

theorem deriveLoop_ne_done (fuel : ℕ) {m : StrMap NodeStatus} {k : String} (h : m[k]? ≠ some .done) :
    (deriveLoop graph settled resolved fuel m)[k]? ≠ some .done := by
  have hpass {m : StrMap NodeStatus} (hm : m[k]? ≠ some .done) : (pass graph settled resolved m).1[k]? ≠ some .done := by
    have hfold (l : List Node) (p : StrMap NodeStatus × Bool) (hp : p.1[k]? ≠ some .done) :
        (l.foldl (passStep graph settled resolved) p).1[k]? ≠ some .done := by
      induction l generalizing p with
      | nil => exact hp
      | cons n l ih => exact ih _ (passStep_ne_done hp)
    exact hfold graph.iter (m, false) hm
  induction fuel generalizing m with
  | zero => exact h
  | succ fuel ih =>
    unfold deriveLoop
    simp only
    split_ifs
    · exact ih (hpass h)
    · exact hpass h

/-! ### The whole -/

/-- the last step: what nothing derived is pending -/
def fillPending (m : StrMap NodeStatus) (n : Node) : StrMap NodeStatus := if n.id ∈ m then m else m.insert n.id .pending

theorem get_fillPending (m : StrMap NodeStatus) (n : Node) (k : String) :
    (fillPending m n)[k]? = if k = n.id then m[k]?.or (some .pending) else m[k]? := by
  unfold fillPending
  split_ifs with hin hk hk
  · subst hk
    obtain ⟨s, hs⟩ := Maps.mem_iff.mp hin
    rw [hs]
    rfl
  · rfl
  · subst hk
    rw [Maps.get_insert, if_pos rfl, Maps.not_mem_iff.mp hin]
    rfl
  · rw [Maps.get_insert, if_neg hk]

theorem get_foldl_fillPending (l : List Node) (m : StrMap NodeStatus) (k : String) :
    (l.foldl fillPending m)[k]? = if k ∈ l.map Node.id then m[k]?.or (some .pending) else m[k]? := by
  induction l generalizing m with
  | nil => rfl
  | cons n l ih =>
    rw [List.foldl_cons, ih, get_fillPending, List.map_cons]
    by_cases hk : k = n.id
    · simp [hk]
    · simp [hk]

/-- what is derived is what the passes left, with the rest pending -/
theorem get_derive (k : String) :
    (derive graph settled resolved)[k]? =
      if k ∈ graph.ids then
        (deriveLoop graph settled resolved (graph.iter.length + 1) (seeded graph settled))[k]?.or
          (some .pending)
      else (deriveLoop graph settled resolved (graph.iter.length + 1) (seeded graph settled))[k]? :=
  get_foldl_fillPending graph.iter _ k

/-- **A seed stands.** -/
theorem derive_seeded {n : Node} (hn : n ∈ graph.iter) {s : NodeStatus} (hs : seedOf settled n = some s) :
    (derive graph settled resolved)[n.id]? = some s := by
  have hseed : (seeded graph settled)[n.id]? = some s := by
    rw [seeded, get_foldl_seed (l := graph.iter) graph.nodup_ids _ hn, hs]
    rfl
  rw [get_derive, deriveLoop_keeps _ hseed]
  split_ifs <;> rfl

/-- a node nothing seeds is not derived done -/
theorem derive_unseeded {n : Node} (hn : n ∈ graph.iter) (hs : seedOf settled n = none) :
    (derive graph settled resolved)[n.id]? ≠ some .done := by
  have hseed : (seeded graph settled)[n.id]? = none := by
    rw [seeded, get_foldl_seed (l := graph.iter) graph.nodup_ids _ hn, hs]
    simp
  have hloop : (deriveLoop graph settled resolved (graph.iter.length + 1) (seeded graph settled))[n.id]? ≠
      some .done := by
    refine deriveLoop_ne_done _ ?_
    rw [hseed]
    simp
  rw [get_derive]
  split_ifs
  · intro h
    rcases Option.or_eq_some_iff.mp h with h | ⟨-, h⟩
    · exact hloop h
    · cases h
  · exact hloop

end Derive

/-! ## What a state settled -/

theorem NodeRef.of_eq_some {n : Node} (h : Text.isBlank n.id = false) :
    ∃ ref, NodeRef.of n = some ref ∧ ref.asStr = Text.trim n.id := by
  have hne : Text.trim n.id ≠ "" := by simpa [Text.isBlank] using h
  exact ⟨⟨Text.trim n.id, hne⟩, dif_pos hne, rfl⟩

namespace RunState

variable {s : RunState}

/-- a node's settlement collected under its identity -/
def settleOne (s : RunState) (m : StrMap Settled) (node : Node) : StrMap Settled :=
  match s.recorded[node.id]?, NodeRef.of node with
  | some recorded, some ref => m.insert ref.asStr (Settled.of recorded.status s.outcomes[node.id]? s.landings[node.id]?)
  | _, _ => m

theorem settled_eq (s : RunState) : s.settled = s.graph.iter.foldl s.settleOne ∅ := rfl

theorem get_settleOne_of_ne (m : StrMap Settled) {n : Node} {k : String} (h : Text.trim n.id ≠ k ∨ s.recorded[n.id]? = none) :
    (s.settleOne m n)[k]? = m[k]? := by
  unfold settleOne
  split
  · rename_i recorded ref hrec href
    rcases h with h | h
    · have hk : k ≠ ref.asStr := by
        unfold NodeRef.of at href
        split_ifs at href
        cases href
        exact h.symm
      rw [Maps.get_insert, if_neg hk]
    · rw [h] at hrec
      cases hrec
  · rfl

theorem get_foldl_settleOne (l : List Node) (m : StrMap Settled) {k : String}
    (h : ∀ n ∈ l, Text.trim n.id ≠ k ∨ s.recorded[n.id]? = none) : (l.foldl s.settleOne m)[k]? = m[k]? := by
  induction l generalizing m with
  | nil => rfl
  | cons n l ih =>
    rw [List.foldl_cons, ih _ fun a ha => h a (List.mem_cons_of_mem _ ha), get_settleOne_of_ne m (h n List.mem_cons_self)]

/-- the last node of an identity, of those recorded, decides what is settled under it -/
theorem get_settled {l l' : List Node} {n : Node} (hiter : s.graph.iter = l ++ n :: l') {k : String}
    (hblank : Text.isBlank n.id = false) (hk : Text.trim n.id = k) {r : Recorded} (hr : s.recorded[n.id]? = some r)
    (hlater : ∀ a ∈ l', Text.trim a.id ≠ k ∨ s.recorded[a.id]? = none) :
    s.settled[k]? = some (Settled.of r.status s.outcomes[n.id]? s.landings[n.id]?) := by
  obtain ⟨ref, href, hstr⟩ := NodeRef.of_eq_some hblank
  rw [settled_eq, hiter, List.foldl_append, List.foldl_cons, get_foldl_settleOne l' _ hlater]
  simp only [settleOne, hr, href, hstr, hk]
  rw [Maps.get_insert, if_pos rfl]

end RunState

/-! ## Whether a settlement stands -/

/-- every node that is not parked, recorded at neither derived gate, has its recorded status -/
def RunState.Stands (s : RunState) : Prop :=
  ∀ n ∈ s.graph.iter, n.parked = false → ∀ r, s.recorded[n.id]? = some r → r.status.isGate = false →
    s.statuses[n.id]? = some r.status

/-- every node that is not parked names its own identity, and no later node's id trims to it -/
structure KeyedApart (nodes : List Node) : Prop where
  plain : ∀ n ∈ nodes, n.parked = false → Text.trim n.id = n.id
  apart : nodes.Pairwise fun n m => n.parked = false → Text.trim m.id ≠ n.id

theorem stands_of_keyedApart {plan : Plan} (hids : (plan.tasks.map Node.id).Nodup)
    (hblank : ∀ n ∈ plan.tasks, Text.isBlank n.id = false) (h : KeyedApart plan.tasks) {s : RunState}
    (hs : s.graph = Graph.fromPlan plan) : s.Stands := by
  have hiter : s.graph.iter = plan.tasks := by rw [hs, Graph.iter_fromPlan plan hids]
  intro n hn hp r hr hgate
  rw [hiter] at hn
  obtain ⟨l, l', hsplit⟩ := List.append_of_mem hn
  have hapart := h.apart
  rw [hsplit, List.pairwise_append] at hapart
  have hlater := (List.pairwise_cons.mp hapart.2.1).1
  have hsettled := RunState.get_settled (hiter.trans hsplit) (hblank n hn) (h.plain n hn hp) hr
    fun a ha => Or.inl (hlater a ha hp)
  refine derive_seeded (hiter ▸ hn) ?_
  simp [seedOf, hp, hsettled, hgate]

/-- a state of a plan's graph that recorded only what it is given -/
def RunState.recording (plan : Plan) (recorded : StrMap Recorded) : RunState :=
  { graph := Graph.fromPlan plan, recorded }

theorem keyedApart_of_stands {plan : Plan} (hids : (plan.tasks.map Node.id).Nodup)
    (hblank : ∀ n ∈ plan.tasks, Text.isBlank n.id = false)
    (h : ∀ s : RunState, s.graph = Graph.fromPlan plan → s.Stands) : KeyedApart plan.tasks := by
  have hiter (recorded : StrMap Recorded) : (RunState.recording plan recorded).graph.iter = plan.tasks :=
    Graph.iter_fromPlan plan hids
  have hplain : ∀ n ∈ plan.tasks, n.parked = false → Text.trim n.id = n.id := by
    intro n hn hp
    by_contra htrim
    -- with this node alone recorded, nothing is settled under its id, and it is derived afresh
    let s := RunState.recording plan ((∅ : StrMap Recorded).insert n.id (.at .done))
    have hrec (a : Node) : Text.trim a.id ≠ n.id ∨ s.recorded[a.id]? = none := by
      by_cases ha : a.id = n.id
      · left
        rw [ha]
        exact htrim
      · right
        show ((∅ : StrMap Recorded).insert n.id (.at .done))[a.id]? = none
        rw [Maps.get_insert, if_neg ha]
        rfl
    have hsettled : s.settled[n.id]? = none := by
      rw [RunState.settled_eq, RunState.get_foldl_settleOne _ _ fun a _ => hrec a]
      rfl
    have hstands := h s rfl n (by rw [hiter]; exact hn) hp (.at .done)
      (by show ((∅ : StrMap Recorded).insert n.id (.at .done))[n.id]? = _; rw [Maps.get_insert, if_pos rfl]) rfl
    exact derive_unseeded (by rw [hiter]; exact hn) (by simp [seedOf, hp, hsettled]) hstands
  refine ⟨hplain, ?_⟩
  rw [List.pairwise_iff_forall_sublist]
  intro n m hsub hp htrim
  obtain ⟨front, back, htasks, hn, hm⟩ := List.cons_sublist_iff.mp hsub
  obtain ⟨l, l', hback⟩ := List.append_of_mem (List.singleton_sublist.mp hm)
  have hne {a b : Node} (ha : a ∈ front ++ l) (hb : b ∈ m :: l') : a.id ≠ b.id := by
    rw [htasks, hback, ← List.append_assoc, List.map_append] at hids
    exact fun heq => (List.nodup_append.mp hids).2.2 _ (List.mem_map_of_mem ha) _ (List.mem_map_of_mem hb) heq
  have hlast {a : Node} (ha : a ∈ l') : a.id ≠ m.id := by
    rw [htasks, hback, ← List.append_assoc, List.map_append, List.map_cons] at hids
    have hcons := (List.nodup_cons.mp (List.nodup_append.mp hids).2.1).1
    exact fun heq => hcons (heq ▸ List.mem_map_of_mem ha)
  have hnm : n.id ≠ m.id := hne (List.mem_append_left _ hn) List.mem_cons_self
  -- with both recorded, the later one's settlement is the one read under the earlier one's id
  let s := RunState.recording plan (((∅ : StrMap Recorded).insert n.id (.at .done)).insert m.id (.at .failed))
  have hrec (k : String) : s.recorded[k]? = if k = m.id then some (.at .failed) else if k = n.id then some (.at .done) else none := by
    show (((∅ : StrMap Recorded).insert n.id (.at .done)).insert m.id (.at .failed))[k]? = _
    rw [Maps.get_insert, Maps.get_insert]
    rfl
  have hmem : n ∈ plan.tasks := htasks ▸ List.mem_append_left _ hn
  have hsplit : s.graph.iter = (front ++ l) ++ m :: l' := by rw [hiter, htasks, hback, List.append_assoc]
  have hm' : m ∈ plan.tasks := by
    rw [htasks, hback]
    simp
  have hsettled := RunState.get_settled (r := .at .failed) hsplit (hblank m hm') htrim (by rw [hrec, if_pos rfl]) fun a ha => by
    right
    rw [hrec, if_neg (hlast ha), if_neg (hne (List.mem_append_left _ hn) (List.mem_cons_of_mem _ ha)).symm]
  have hstands := h s rfl n (by rw [hiter]; exact hmem) hp (.at .done) (by rw [hrec, if_neg hnm, if_pos rfl]) rfl
  have hderived : s.statuses[n.id]? = some .failed := by
    refine derive_seeded (by rw [hiter]; exact hmem) ?_
    simp [seedOf, hp, hsettled, NodeStatus.isGate]
  rw [hderived] at hstands
  cases hstands

/-- **A recorded settlement.** Every state of an accepted plan's graph keeps every settlement it recorded exactly when
the plan's ids are keyed apart. -/
theorem recorded_stands_iff {sib : Siblings} {plan : Plan} (h : check sib plan = .ok ()) :
    (∀ s : RunState, s.graph = Graph.fromPlan plan → s.Stands) ↔ KeyedApart plan.tasks := by
  simp only [check, bind_eq_ok, exists_unit] at h
  have hrules := checkEdited_eq_ok.mp h.2.1
  have hblank : ∀ n ∈ plan.tasks, Text.isBlank n.id = false := fun n hn => hrules.id_not_blank hn
  constructor
  · exact keyedApart_of_stands hrules.nodup hblank
  · exact fun hk s hs => stands_of_keyedApart hrules.nodup hblank hk hs

/-- a plan accepted with a space before its node's id, in a state that recorded the node done: it is ready again -/
theorem spaced_id_does_not_stand :
    check Host.lenient.toSiblings (Plan.ofNodes [.direct " a" []]) = .ok () ∧
      ¬∀ s : RunState, s.graph = Graph.fromPlan (Plan.ofNodes [.direct " a" []]) → s.Stands := by
  refine ⟨by decide, fun h => ?_⟩
  have hiter : (Graph.fromPlan (Plan.ofNodes [.direct " a" []])).iter = [.direct " a" []] :=
    Graph.iter_fromPlan _ (by decide)
  have hstands := h (.recording _ ((∅ : StrMap Recorded).insert " a" (.at .done))) rfl (.direct " a" [])
    (by rw [RunState.recording, hiter]; exact List.mem_singleton_self _) rfl (.at .done) (by decide) rfl
  exact absurd hstands (by decide)

/-- a state that recorded done the one node of a plan whose id is its own identity -/
theorem plain_id_stands :
    (RunState.recording (Plan.ofNodes [.direct "a" []]) ((∅ : StrMap Recorded).insert "a" (.at .done))).Stands := by
  have hchecked : check Host.lenient.toSiblings (Plan.ofNodes [.direct "a" []]) = .ok () := by decide
  refine (recorded_stands_iff hchecked).mpr ⟨?_, by simp [Plan.ofNodes]⟩ _ rfl
  intro n hn _
  rw [List.mem_singleton.mp hn]
  decide

end OnePipeline
