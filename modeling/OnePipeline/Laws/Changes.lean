/-
A change's interval, divided exactly.

A node retried into an id its lineage has used closes the lineage on itself: it has no first id any more, and the view
answers no lineage that holds it (`dispatchedThenBack_lost`).

Results:
- `slices_spec`: the division comes to the interval, and its gate segment to the instants a gate run covers;
- `cycle_divides`: so do the segments of every change answered, whatever the records;
- `one_lineage`: over lineages with one first id each, every node dispatched is in exactly one lineage;
- `change_divides`: both, over every run whose edits bring in no id a lineage has used.
-/
import Mathlib.Tactic
import OnePipeline.Laws.Writeback
import OnePipeline.Model.Changes

namespace OnePipeline.Changes

open Chase Checks Runs RunState

/-! ## The division -/

section

variable {gates ws : List (ℕ × ℕ)} {st : Slicing} {w : ℕ × ℕ}

theorem Slicing.total_slice : (st.slice gates w).spent.total = st.spent.total + (w.2 - w.1) := by
  unfold Slicing.slice
  split_ifs
  · exact Segments.total_add _ _ _
  · exact Segments.total_add _ _ _

theorem segmentOf_ne_gate (now : Option State) : segmentOf now ≠ .gate := by
  cases now with
  | none => exact fun h => by cases h
  | some now => cases now <;> exact fun h => by cases h

theorem segmentOf_publication {now : Option State} (h : now ≠ some .publication) : segmentOf now ≠ .publication := by
  cases now with
  | none => exact fun h => by cases h
  | some now => cases now <;> first | exact absurd rfl h | exact fun h => by cases h

theorem Slicing.gate_slice :
    (st.slice gates w).spent.get .gate = st.spent.get .gate + if Cuts.covered gates w = true then w.2 - w.1 else 0 := by
  unfold Slicing.slice
  split_ifs
  · rw [Segments.get_add, if_pos rfl]
    rfl
  · rw [Segments.get_add, if_neg (segmentOf_ne_gate _).symm]
    rfl

theorem Slicing.total_slices : (ws.foldl (Slicing.slice gates) st).spent.total = st.spent.total + Cuts.lengths ws := by
  induction ws generalizing st with
  | nil => rfl
  | cons w ws ih =>
    rw [List.foldl_cons, ih, total_slice, Cuts.lengths_cons]
    omega

theorem Slicing.gate_slices :
    (ws.foldl (Slicing.slice gates) st).spent.get .gate =
      st.spent.get .gate + Cuts.lengths (ws.filter (Cuts.covered gates)) := by
  induction ws generalizing st with
  | nil => rfl
  | cons w ws ih =>
    rw [List.foldl_cons, ih, gate_slice]
    split_ifs with h
    · rw [List.filter_cons_of_pos h, Cuts.lengths_cons]
      omega
    · rw [List.filter_cons_of_neg h]
      omega

/-- no state come to, or to come to, is a publication -/
def Slicing.Unpublished (st : Slicing) : Prop := (∀ p ∈ st.rest, p.2 ≠ .publication) ∧ st.now ≠ some .publication

theorem Slicing.Unpublished.reach {t : ℕ} (h : st.Unpublished) : (st.reach t).Unpublished := by
  refine ⟨fun p hp => h.1 p ((List.dropWhile_sublist _).subset hp), fun hnow => ?_⟩
  rw [Slicing.reach] at hnow
  cases hlast : (st.rest.takeWhile fun p => p.1 ≤ t).getLast? with
  | none =>
    rw [hlast] at hnow
    exact h.2 hnow
  | some p =>
    rw [hlast] at hnow
    have hin : p ∈ st.rest := (List.takeWhile_sublist _).subset (List.mem_of_getLast? hlast)
    exact h.1 p hin (Option.some.inj hnow)

theorem Slicing.Unpublished.slice (h : st.Unpublished) :
    (st.slice gates w).Unpublished ∧ (st.slice gates w).spent.get .publication = st.spent.get .publication := by
  have hreach : (st.reach w.1).Unpublished := h.reach
  unfold Slicing.slice
  split_ifs
  · refine ⟨hreach, ?_⟩
    rw [Segments.get_add, if_neg (by decide)]
    rfl
  · refine ⟨hreach, ?_⟩
    rw [Segments.get_add, if_neg (segmentOf_publication hreach.2).symm]
    rfl

theorem Slicing.publication_slices (h : st.Unpublished) :
    (ws.foldl (Slicing.slice gates) st).spent.get .publication = st.spent.get .publication := by
  induction ws generalizing st with
  | nil => rfl
  | cons w ws ih =>
    obtain ⟨hafter, hspent⟩ : (st.slice gates w).Unpublished ∧ _ := h.slice
    rw [List.foldl_cons, ih hafter, hspent]

end

variable {start stop : ℕ} {transitions : List (ℕ × State)} {gates : List (ℕ × ℕ)}

/-- **The division.** It comes to the interval, and its gate segment to the instants of it a gate covers. -/
theorem slices_spec (h : start ≤ stop) :
    (slices start stop transitions gates).1.total = stop - start ∧
      (slices start stop transitions gates).1.get .gate =
        ((Finset.Ico start stop).filter fun t => ∃ g ∈ gates, g.1 ≤ t ∧ t < g.2).card := by
  unfold slices
  simp only []
  generalize hmarks : (transitions.insertionSort fun a b => a.1 ≤ b.1).map Prod.fst ++ gates.flatMap (fun g => [g.1, g.2]) = marks
  obtain ⟨l, hcuts, hlast⟩ : ∃ l, Cuts.within start stop marks = start :: l ∧ _ := Cuts.within_eq h
  have hsorted : (start :: l).Pairwise (· < ·) := hcuts ▸ Cuts.pairwise_within
  have hends (g : ℕ × ℕ) (hg : g ∈ gates) : g.1 ∈ marks ∧ g.2 ∈ marks := by
    rw [← hmarks]
    exact ⟨List.mem_append_right _ (List.mem_flatMap.mpr ⟨g, hg, List.mem_cons_self⟩),
      List.mem_append_right _ (List.mem_flatMap.mpr ⟨g, hg, List.mem_cons_of_mem _ List.mem_cons_self⟩)⟩
  rw [Slicing.total_slices, Slicing.gate_slices, hcuts]
  constructor
  · rw [Cuts.sum_windows hsorted, hlast]
    exact Nat.zero_add _
  · rw [Cuts.sum_filter (q := fun t => ∃ g ∈ gates, g.1 ≤ t ∧ t < g.2) hsorted, hlast]
    · exact Nat.zero_add _
    · intro w hw t hle hlt
      exact Cuts.covered_iff h hends (hcuts ▸ hw) hle hlt

theorem slices_publication (h : ∀ p ∈ transitions, p.2 ≠ .publication) :
    (slices start stop transitions gates).1.get .publication = 0 := by
  unfold slices
  simp only []
  rw [Slicing.publication_slices ⟨fun p hp => h p ((List.perm_insertionSort _ _).subset hp), fun h => by cases h⟩]
  rfl

theorem total_undecided (gatesRecorded lifecycle : Bool) (spent : Segments) :
    (undecided gatesRecorded lifecycle spent).total = spent.total := by
  unfold undecided
  split_ifs
  · simp only [Segments.total, Segment.all, List.map_cons, List.map_nil, List.sum_cons, List.sum_nil, Segments.get]
    omega
  · rfl

theorem gate_undecided (gatesRecorded lifecycle : Bool) (spent : Segments) :
    (undecided gatesRecorded lifecycle spent).gate = spent.gate := by
  unfold undecided
  split_ifs <;> rfl

/-! ## The records -/

section

variable {lifecycle : Bool} {c : Cycling} {event : Event} {records : List Event}

/-- a record of a dispatch, and when it was -/
def DispatchAt (event : Event) (t : ℕ) : Prop :=
  event.source = .pipeline ∧ event.kind = "node-dispatched" ∧ event.node.isSome = true ∧ millisOf event.ts = some t

/-- when a lineage was dispatched -/
def dispatches (records : List Event) : Set ℕ := { t | ∃ event ∈ records, DispatchAt event t }

/-- the earliest of a set of instants, where there is any -/
def Earliest (times : Set ℕ) : Option ℕ → Prop
  | none => times = ∅
  | some t => IsLeast times t

theorem Earliest.congr {times times' : Set ℕ} {o : Option ℕ} (h : Earliest times o) (heq : times' = times) :
    Earliest times' o := heq ▸ h

/-- one instant more -/
theorem Earliest.another {times : Set ℕ} {o : Option ℕ} {t : ℕ} (h : Earliest times o) :
    Earliest (insert t times) (some (Cycling.firstOf o t)) := by
  cases o with
  | none =>
    obtain rfl : times = ∅ := h
    exact ⟨Set.mem_insert t ∅, fun x hx => (Set.mem_insert_iff.mp hx).elim (fun h => h.ge) fun h => h.elim⟩
  | some first =>
    have hboth : IsLeast (insert t times) (min t first) := IsLeast.insert t h
    rwa [min_comm] at hboth

theorem moved_dispatchedAt (ms : Option ℕ) (to' : Option State) : (c.moved event ms to').dispatchedAt = c.dispatchedAt := by
  cases to' <;> rfl

theorem dispatches_append {e : Event} :
    dispatches (records ++ [e]) = dispatches records ∪ { t | DispatchAt e t } := by
  ext t
  simp only [dispatches, Set.mem_ofPred_eq, List.mem_append, List.mem_singleton, Set.mem_union]
  constructor
  · rintro ⟨event, hin | rfl, hat⟩
    · exact .inl ⟨event, hin, hat⟩
    · exact .inr hat
  · rintro (⟨event, hin, hat⟩ | hat)
    · exact ⟨event, .inl hin, hat⟩
    · exact ⟨e, .inr rfl, hat⟩

/-- what no dispatch is leaves the first dispatch what it was -/
theorem record_dispatchedAt_of_not (h : ¬(event.source = .pipeline ∧ event.kind = "node-dispatched" ∧ event.node.isSome = true)) :
    (c.record lifecycle event).dispatchedAt = c.dispatchedAt := by
  unfold Cycling.record
  cases hnode : event.node with
  | none => rfl
  | some node =>
    have hkind : event.source = .pipeline → event.kind ≠ "node-dispatched" := fun hs hk => h ⟨hs, hk, by rw [hnode]; rfl⟩
    simp only [moved_dispatchedAt]
    cases hsource : event.source with
    | pipeline =>
      simp only [Cycling.pipeline]
      split
      · rename_i heq
        exact absurd heq (hkind hsource)
      all_goals rfl
    | agentgraph =>
      simp only [Cycling.agentgraph]
      split <;> rfl
    | vcs => rfl

/-- **The first dispatch.** It is the earliest of the dispatches recorded. -/
theorem records_dispatchedAt (lifecycle : Bool) (records : List Event) :
    Earliest (dispatches records) (records.foldl (Cycling.record lifecycle) {}).dispatchedAt := by
  induction records using List.reverseRecOn with
  | nil => exact Set.eq_empty_iff_forall_notMem.mpr fun t ht => by obtain ⟨e, he, -⟩ := ht; cases he
  | append_singleton records e ih =>
    rw [List.foldl_append, List.foldl_cons, List.foldl_nil, dispatches_append]
    generalize records.foldl (Cycling.record lifecycle) {} = c at ih ⊢
    by_cases hd : e.source = .pipeline ∧ e.kind = "node-dispatched" ∧ e.node.isSome = true
    · obtain ⟨hsource, hkind, hnode⟩ := hd
      obtain ⟨node, hnode⟩ := Option.isSome_iff_exists.mp hnode
      have hstep : (c.record lifecycle e).dispatchedAt = (c.dispatched node (millisOf e.ts)).dispatchedAt := by
        simp only [Cycling.record, hnode, hsource, moved_dispatchedAt, Cycling.pipeline, hkind]
      rw [hstep]
      cases hms : millisOf e.ts with
      | none =>
        refine ih.congr ?_
        rw [Set.union_eq_left]
        rintro t ⟨-, -, -, ht⟩
        rw [hms] at ht
        cases ht
      | some ms =>
        refine Earliest.congr (show Earliest (insert ms (dispatches records)) _ from ih.another) ?_
        ext t
        simp [DispatchAt, hsource, hkind, hnode, hms, eq_comm]
    · rw [record_dispatchedAt_of_not hd]
      refine ih.congr ?_
      rw [Set.union_eq_left]
      rintro t ⟨hsource, hkind, hnode, -⟩
      exact absurd ⟨hsource, hkind, hnode⟩ hd

/-- nothing published so far, and nothing held for a publication -/
def Cycling.Unpublished (c : Cycling) : Prop :=
  (∀ p ∈ c.transitions, p.2 ≠ .publication) ∧ c.heldFor ≠ some .publication

theorem keptForReview_mem {transitions : List (ℕ × State)} {p : ℕ × State} (hp : p ∈ Cycling.keptForReview transitions) :
    p ∈ transitions ∨ p.2 = .reviewWait := by
  unfold Cycling.keptForReview at hp
  split at hp
  · rcases List.mem_append.mp hp with hp | hp
    · exact .inl (List.dropLast_subset _ hp)
    · exact .inr (by rw [List.mem_singleton.mp hp])
  · exact .inl hp

theorem Cycling.Unpublished.moved (h : c.Unpublished) {ms : Option ℕ} {to' : Option State} (hto : to' ≠ some .publication) :
    (c.moved event ms to').Unpublished := by
  have hkept : ∀ p ∈ (if event.kind = "draft-kept-for-review" then Cycling.keptForReview c.transitions else c.transitions),
      p.2 ≠ .publication := by
    intro p hp
    split_ifs at hp
    · rcases keptForReview_mem hp with hp | hp
      · exact h.1 p hp
      · rw [hp]
        exact fun h => by cases h
    · exact h.1 p hp
  cases to' with
  | none => exact ⟨hkept, h.2⟩
  | some state =>
    refine ⟨?_, h.2⟩
    cases ms with
    | none => exact hkept
    | some ms =>
      intro p hp
      rcases List.mem_append.mp hp with hp | hp
      · exact hkept p hp
      · rw [List.mem_singleton.mp hp]
        exact fun heq => hto (congrArg some heq)

theorem Cycling.Unpublished.settledTo (h : c.Unpublished) : c.settledTo event ≠ .publication := by
  unfold Cycling.settledTo
  split
  · exact fun h => by cases h
  · cases hheld : c.heldFor with
    | none => exact fun h => by cases h
    | some held =>
      intro heq
      rw [Option.getD_some] at heq
      exact h.2 (by rw [hheld, heq])
  · exact fun h => by cases h
  · exact fun h => by cases h
  · exact fun h => by cases h
  · split_ifs
    · exact fun h => by cases h
    · exact fun h => by cases h

theorem Cycling.Unpublished.pipeline (h : c.Unpublished) (node : String) (ms : Option ℕ) :
    (c.pipeline event node ms).1.Unpublished ∧ (c.pipeline event node ms).2 ≠ some .publication := by
  unfold Cycling.pipeline
  split
  · exact ⟨h, by simp⟩
  · exact ⟨h, fun heq => h.settledTo (Option.some.inj heq)⟩
  all_goals exact ⟨h, by simp⟩

theorem Cycling.Unpublished.agentgraph (h : c.Unpublished) :
    (c.agentgraph false event).1.Unpublished ∧ (c.agentgraph false event).2 ≠ some .publication := by
  unfold Cycling.agentgraph
  split <;> exact ⟨h, by simp⟩

/-- a record of no session leaves a lineage that publishes nothing unpublished -/
theorem Cycling.Unpublished.record (h : c.Unpublished) (hsource : event.source ≠ .vcs) :
    (c.record false event).Unpublished := by
  unfold Cycling.record
  cases event.node with
  | none => exact h
  | some node =>
    cases hs : event.source with
    | vcs => exact absurd hs hsource
    | pipeline =>
      exact (h.pipeline node (millisOf event.ts)).1.moved (h.pipeline node (millisOf event.ts)).2
    | agentgraph =>
      exact h.agentgraph.1.moved h.agentgraph.2

theorem records_unpublished (h : ∀ event ∈ records, event.source ≠ .vcs) :
    (records.foldl (Cycling.record false) {}).Unpublished := by
  induction records using List.reverseRecOn with
  | nil => exact ⟨fun p hp => (by cases hp), fun h => by cases h⟩
  | append_singleton records e ih =>
    rw [List.foldl_append, List.foldl_cons, List.foldl_nil]
    exact (ih fun event hin => h event (List.mem_append_left _ hin)).record (h e (List.mem_append_right _ List.mem_cons_self))

end

/-! ## A change -/

/-- a change's interval: from its first dispatch to its landing, or to the run's last stamp -/
def ChangeCycle.interval (change : ChangeCycle) (start last : ℕ) : ℕ :=
  (change.landedAt.map Stamp.millis).getD last - start

/-- a change whose segments divide its interval exactly -/
structure Divides (records : List Event) (last : ℕ) (gatesRecorded : Bool) (change : ChangeCycle) (start : ℕ) : Prop where
  first : IsLeast (dispatches records) start
  dispatched : change.dispatchedAt = .at start
  total : change.segments.total = change.interval start last
  gate : change.segments.gate =
    ((Finset.Ico start (start + change.interval start last)).filter fun t =>
      ∃ run ∈ change.gateRuns, run.startedAt.millis ≤ t ∧ t < run.endedAt.millis).card
  publication : gatesRecorded = false → change.segments.publication = 0

/-- a lineage that publishes nothing has no publication among its transitions -/
theorem unpublished_of_not_publishes {s : RunState} {lineage : List String} {records : List Event}
    (h : publishes s lineage records = false) :
    ∀ p ∈ (records.foldl (Cycling.record (publishes s lineage records)) {}).transitions, p.2 ≠ .publication := by
  rw [h]
  rw [publishes, Bool.or_eq_false_iff] at h
  refine (records_unpublished fun event hin hvcs => ?_).1
  have hnot := List.any_eq_false.mp h.2 event hin
  simp [hvcs] at hnot

theorem undecided_publication {gatesRecorded lifecycle : Bool} {spent : Segments} (hgates : gatesRecorded = false)
    (h : lifecycle = false → spent.publication = 0) : (undecided gatesRecorded lifecycle spent).publication = 0 := by
  subst hgates
  cases lifecycle with
  | true => rfl
  | false => exact h rfl

/-- **A change.** Its segments divide its interval exactly, whatever the records. -/
theorem cycle_divides {s : RunState} {lineage : List String} {records : List Event} {last : ℕ} {gatesRecorded : Bool}
    {change : ChangeCycle} (h : cycle s lineage records last gatesRecorded = some change) :
    ∃ start, Divides records last gatesRecorded change start := by
  unfold cycle at h
  simp only [Option.bind_eq_bind, Option.bind_eq_some_iff] at h
  obtain ⟨head, -, start, hstart, h⟩ := h
  rcases hland : (records.foldl (Cycling.record (publishes s lineage records)) {}).landed.getD (none, none) with ⟨at', landing⟩
  simp only [hland, Option.some.injEq] at h
  subst h
  have hfirst : IsLeast (dispatches records) start := by
    have hearliest := records_dispatchedAt (publishes s lineage records) records
    rwa [hstart] at hearliest
  -- a landing is kept only where it is after the first dispatch, so the interval ends at the landing or the last stamp
  generalize at'.filter (fun at' => landing.isSome && start ≤ at'.millis) = landedAt
  have hquiet := @unpublished_of_not_publishes s lineage records
  generalize records.foldl (Cycling.record (publishes s lineage records)) {} = c at hquiet
  have hstop : max ((landedAt.map Stamp.millis).getD last) start = start + ((landedAt.map Stamp.millis).getD last - start) := by
    omega
  obtain ⟨htotal, hgate⟩ := @slices_spec _ _ c.transitions (c.gateRuns.map GateRun.span)
    (le_max_right ((landedAt.map Stamp.millis).getD last) start)
  refine ⟨start, hfirst, rfl, ?_, ?_, fun hgates => ?_⟩
  · rw [total_undecided, htotal, hstop, Nat.add_sub_cancel_left]
    rfl
  · rw [gate_undecided]
    refine hgate.trans ?_
    rw [hstop]
    refine congrArg Finset.card (Finset.filter_congr fun t _ => ?_)
    constructor
    · rintro ⟨g, hg, hle, hlt⟩
      obtain ⟨run, hrun, rfl⟩ := List.mem_map.mp hg
      exact ⟨run, (List.mem_insertionSort _).mpr hrun, hle, hlt⟩
    · rintro ⟨run, hrun, hle, hlt⟩
      exact ⟨run.span, List.mem_map_of_mem ((List.mem_insertionSort _).mp hrun), hle, hlt⟩
  · exact undecided_publication hgates fun hnot => slices_publication (hquiet hnot)

/-! ## Lineages -/

section

variable {s : RunState} {dispatchedAt : StrMap ℕ} {events : List Event}

/-- a node the run dispatched, as its fold or its records say -/
def Dispatched (dispatchedAt : StrMap ℕ) (events : List Event) (id : String) : Prop :=
  id ∈ dispatchedAt ∨ ∃ event ∈ events, event.kind = "node-dispatched" ∧ event.node = some id

theorem mem_lineageNodes {id : String} :
    id ∈ lineageNodes s dispatchedAt events ↔ Dispatched dispatchedAt events id ∨ id ∈ s.superseded := by
  have hfold (l : List String) (m : StrSet) : id ∈ l.foldl (fun m id => m.insert id) m ↔ id ∈ l ∨ id ∈ m := by
    induction l generalizing m with
    | nil => simp
    | cons a l ih =>
      rw [List.foldl_cons, ih, Std.ExtTreeSet.mem_insert, Std.LawfulEqCmp.compare_eq_iff_eq, List.mem_cons, eq_comm,
        or_left_comm, or_assoc]
  have hevents : id ∈ events.filterMap (fun event => if event.kind = "node-dispatched" then event.node else none) ↔
      ∃ event ∈ events, event.kind = "node-dispatched" ∧ event.node = some id := by
    rw [List.mem_filterMap]
    refine exists_congr fun event => and_congr_right fun _ => ?_
    split_ifs with hkind <;> simp [hkind]
  rw [lineageNodes, hfold, List.mem_append, List.mem_append, Std.ExtTreeMap.mem_keys, Std.ExtTreeMap.mem_keys, hevents,
    Dispatched]
  have hnone : id ∈ (∅ : StrSet) ↔ False := by simp
  rw [hnone, or_false]
  exact or_right_comm

/-- one element of a list without duplicates, of all it holds -/
theorem filter_eq_singleton {α : Type*} {p : α → Bool} {l : List α} {a : α} (hl : l.Nodup) (ha : a ∈ l)
    (hp : ∀ x ∈ l, p x = true ↔ x = a) : l.filter p = [a] := by
  have hmem (x : α) : x ∈ l.filter p ↔ x ∈ [a] := by
    rw [List.mem_filter, List.mem_singleton]
    exact ⟨fun hx => (hp x hx.1).mp hx.2, fun hx => hx ▸ ⟨ha, (hp a ha).mpr rfl⟩⟩
  exact List.perm_singleton.mp ((List.perm_ext_iff_of_nodup (hl.filter p) (List.nodup_singleton a)).mpr hmem)

/-- **One lineage.** Where lineages have one first id each, every node dispatched is in exactly one. -/
theorem one_lineage (h : s.Lineages) {id : String} (hid : Dispatched dispatchedAt events id) :
    ∃ lineage, (lineages s dispatchedAt events).filter (fun lineage => id ∈ lineage) = [lineage] := by
  obtain ⟨first, last, hmeets⟩ := h.meet id
  have hfirst : Writeback.IsRoot s.superseded first := hmeets.launched
  -- a walk from a root gathers what the root leads to
  have hgather (root : String) : id ∈ gather (fun id : String => s.superseded[id]?) (s.superseded.size + 1) [root] root ↔
      Relation.ReflTransGen (fun a b : String => s.superseded[a]? = some b) root id := by
    have hkeys (c : String) (hc : (s.superseded[c]?).isSome = true) : c ∈ s.superseded.keys.toFinset := by
      obtain ⟨v, hv⟩ := Option.isSome_iff_exists.mp hc
      exact List.mem_toFinset.mpr (Std.ExtTreeMap.mem_keys.mpr (Maps.mem_iff.mpr ⟨v, hv⟩))
    obtain ⟨stop, l, ht⟩ := stopped_of_acyclic hkeys h.forest.acyclic root
    have hcons : l = root :: l.tail := Writeback.trail_cons ht
    have hnodup := ht.nodup
    rw [hcons, List.nodup_cons] at hnodup
    have hseen (c : String) (hc : c ∈ l.tail) : c ∉ [root] := by
      rw [List.mem_singleton]
      rintro rfl
      exact hnodup.1 hc
    rw [ht.gather (by have := trail_length ht; omega) hseen, List.singleton_append, ← hcons]
    exact ⟨ht.reaches, fun hreach => ht.of_reaches hreach⟩
  have hroot (root : String) : root ∈ ((lineageNodes s dispatchedAt events).toList.filter fun node => node ∉ s.superseded.values) ↔
      root ∈ lineageNodes s dispatchedAt events ∧ Writeback.IsRoot s.superseded root := by
    rw [List.mem_filter, Std.ExtTreeSet.mem_toList, decide_eq_true_eq, Writeback.isRoot_iff]
  have hin : first ∈ lineageNodes s dispatchedAt events := by
    rw [mem_lineageNodes]
    rcases Relation.ReflTransGen.cases_head hmeets.origin with rfl | ⟨next, hnext, -⟩
    · exact .inl hid
    · exact .inr (Maps.mem_iff.mpr ⟨next, hnext⟩)
  have hnodup : (lineageNodes s dispatchedAt events).toList.Nodup :=
    Std.ExtTreeSet.distinct_toList.imp fun hne heq => hne (Std.LawfulEqCmp.compare_eq_iff_eq.mpr heq)
  refine ⟨gather (fun id : String => s.superseded[id]?) (s.superseded.size + 1) [first] first, ?_⟩
  rw [lineages, List.filter_map, filter_eq_singleton (a := first) (hnodup.filter _)]
  · rfl
  · exact (hroot first).mpr ⟨hin, hfirst⟩
  · intro root hrootIn
    rw [Function.comp_apply, decide_eq_true_eq, hgather]
    constructor
    · exact fun hreach => Writeback.root_unique h.forest.injective ((hroot root).mp hrootIn).2 hfirst hreach hmeets.origin
    · rintro rfl
      exact hmeets.origin

/-- every change of a run divides its interval exactly, up to the run's last stamp -/
theorem changes_divide {change : ChangeCycle} (h : change ∈ changes s dispatchedAt events) :
    ∃ records start, Divides records ((events.filterMap fun event => millisOf event.ts).foldl max 0)
      (events.any fun event => event.source = .vcs ∧ event.kind = "gate-run") change start := by
  unfold changes at h
  simp only [List.mem_insertionSort, List.mem_filterMap] at h
  obtain ⟨p, -, hcycle⟩ := h
  obtain ⟨start, hdivides⟩ := cycle_divides hcycle
  exact ⟨_, start, hdivides⟩

/-! ## Whole runs -/

variable {host : Host} {plan : Plan} {journal : List Envelope}

/-- **A change's segments.** They divide its interval exactly, in every state and over any records; and over a run whose
edits bring in no id a lineage has used, in every state it comes to, each node dispatched is in exactly one lineage. -/
theorem change_divides
    (h : Admits (foldRecord host) (fun s e => Appends host s e ∧ KeepsLineages host s e) (started plan) journal) :
    (∀ (s : RunState) (lineage : List String) (records : List Event) (last : ℕ) (gatesRecorded : Bool) (change : ChangeCycle),
      cycle s lineage records last gatesRecorded = some change →
      ∃ start, Divides records last gatesRecorded change start) ∧
    ∀ earlier, earlier <+: journal → ∀ (dispatchedAt : StrMap ℕ) (events : List Event) (id : String),
      Dispatched dispatchedAt events id →
      ∃ lineage, (lineages (earlier.foldl (foldRecord host) (started plan)) dispatchedAt events).filter
        (fun lineage => id ∈ lineage) = [lineage] := by
  have happends : Admits (foldRecord host) (Appends host) (started plan) journal := h.mono fun _ _ hrecord => hrecord.1
  have hkeeps : Admits (foldRecord host) (KeepsLineages host) (started plan) journal := h.mono fun _ _ hrecord => hrecord.2
  refine ⟨fun _ _ _ _ _ _ => cycle_divides, fun earlier hearlier dispatchedAt events id hid => ?_⟩
  exact one_lineage ((lineages_iff_keeps happends).mpr hkeeps earlier hearlier) hid

end

/-! ### A node retried back, and one on, after its dispatch -/

def dispatched (seq : ℕ) (node : String) : Envelope := .own seq (some node) (.nodeDispatched .unstated)

/-- the same record as the view reads it -/
def dispatchOf (node : String) : Event :=
  { ts := "2026-01-01T00:00:00.000Z", source := .pipeline, kind := "node-dispatched", node := some node }

/-- an edit of the one-node run, after the records before it -/
def edited (seq : ℕ) (before : List Envelope) (command : Command) : List Envelope :=
  before ++ [.own seq none (.editCommitted (some (RunState.operationsOf .lenient (single before) command)))]

/-- a node dispatched, failed and retried as another -/
def dispatchedThenOn : List Envelope :=
  edited 3 [dispatched 1 "a", failed 2 "a"] (.retry "a" (.direct "a2" []))

/-- the other dispatched, failed and retried as the first -/
def dispatchedThenBack : List Envelope :=
  edited 6 (dispatchedThenOn ++ [dispatched 4 "a2", failed 5 "a2"]) (.retry "a2" (.direct "a" []))

theorem dispatchedThenOn_appends : Admits (foldRecord .lenient) (Appends .lenient) (started .single) dispatchedThenOn := by
  have hc : (single [dispatched 1 "a", failed 2 "a"]).Compiled .lenient _ :=
    compiled_operationsOf (.retry "a" (.direct "a2" [])) (by decide)
  exact ⟨trivial, trivial, hc, trivial⟩

theorem dispatchedThenBack_appends : Admits (foldRecord .lenient) (Appends .lenient) (started .single) dispatchedThenBack := by
  have hc : (single (dispatchedThenOn ++ [dispatched 4 "a2", failed 5 "a2"])).Compiled .lenient _ :=
    compiled_operationsOf (.retry "a2" (.direct "a" [])) (by decide)
  have hagain : Admits (foldRecord .lenient) (Appends .lenient) (single dispatchedThenOn)
      [dispatched 4 "a2", failed 5 "a2"] := ⟨trivial, trivial, trivial⟩
  exact Admits.append.mpr ⟨Admits.append.mpr ⟨dispatchedThenOn_appends, hagain⟩, hc, trivial⟩

/-- the lineage of a node retried on -/
theorem dispatchedThenOn_lineages : Lineages (single dispatchedThenOn) := by
  have hforest : Forest ((∅ : StrMap String).insert "a" "a2") ((["a"] ++ ["a2"]).filter fun k => k ≠ "a") :=
    (Forest.empty.insert_iff (by decide) (by decide)).mpr ⟨by simp, by simp⟩
  have hmap : (single dispatchedThenOn).superseded = (∅ : StrMap String).insert "a" "a2" := by
    refine Std.ExtTreeMap.ext_getElem? fun k => ?_
    have hlist : (single dispatchedThenOn).superseded.toList = ((∅ : StrMap String).insert "a" "a2").toList := by decide
    exact Option.ext fun v => by
      rw [← Std.ExtTreeMap.mem_toList_iff_getElem?_eq_some, ← Std.ExtTreeMap.mem_toList_iff_getElem?_eq_some, hlist]
  have hids : (single dispatchedThenOn).graph.ids = (["a"] ++ ["a2"]).filter fun k => k ≠ "a" := by decide
  rw [lineages_iff, hmap, hids]
  exact hforest

theorem dispatchedThenOn_keeps :
    Admits (foldRecord .lenient) (fun s e => Appends .lenient s e ∧ KeepsLineages .lenient s e) (started .single)
      dispatchedThenOn := by
  obtain ⟨h₁, h₂, h₃, -⟩ := dispatchedThenOn_appends
  have hstart : Lineages (started .single) := lineages_iff.mpr Forest.empty
  have hkeeps₁ : KeepsLineages .lenient (started .single) (dispatched 1 "a") := fun _ _ _ _ _ _ h => by cases h
  have hdispatched := (lineages_foldRecord_iff hstart h₁).mpr hkeeps₁
  have hkeeps₂ : KeepsLineages .lenient (single [dispatched 1 "a"]) (failed 2 "a") := fun _ _ _ _ _ _ h => by cases h
  have hfailed := (lineages_foldRecord_iff hdispatched h₂).mpr hkeeps₂
  exact ⟨⟨h₁, hkeeps₁⟩, ⟨h₂, hkeeps₂⟩, ⟨h₃, (lineages_foldRecord_iff hfailed h₃).mp dispatchedThenOn_lineages⟩, trivial⟩

/-- a node dispatched and retried on is in one lineage -/
theorem dispatchedThenOn_divides :
    ∃ lineage, (lineages (single dispatchedThenOn) ∅ [dispatchOf "a"]).filter (fun lineage => "a" ∈ lineage) = [lineage] :=
  (change_divides dispatchedThenOn_keeps).2 _ (List.prefix_refl _) ∅ [dispatchOf "a"] "a"
    (.inr ⟨dispatchOf "a", by simp, rfl, rfl⟩)

/-- a node dispatched and retried back to is in no lineage -/
theorem dispatchedThenBack_lost :
    check Host.lenient.toSiblings .single = .ok () ∧
      Admits (foldRecord .lenient) (Appends .lenient) (started .single) dispatchedThenBack ∧
      Dispatched ∅ [dispatchOf "a", dispatchOf "a2"] "a" ∧
      ¬∃ lineage, (lineages (dispatchedThenBack.foldl (foldRecord .lenient) (started .single)) ∅
        [dispatchOf "a", dispatchOf "a2"]).filter (fun lineage => "a" ∈ lineage) = [lineage] := by
  refine ⟨by decide, dispatchedThenBack_appends, .inr ⟨dispatchOf "a", by simp, rfl, rfl⟩, ?_⟩
  have hnone : lineages (single dispatchedThenBack) ∅ [dispatchOf "a", dispatchOf "a2"] = [] := by decide
  rintro ⟨lineage, h⟩
  rw [show dispatchedThenBack.foldl (foldRecord .lenient) (started .single) = single dispatchedThenBack from rfl, hnone] at h
  cases h

end OnePipeline.Changes
