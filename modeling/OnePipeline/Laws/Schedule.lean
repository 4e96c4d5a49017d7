/-
A replacement's session beside the older dispatches of its lineage.

`start_ready` holds a node only while its direct predecessor is in flight. A replacement recorded failed without ever having
been dispatched can be retried, and the retry's own replacement opens its session beside the first dispatch
(`settledFromEvidence_beside`). `KeepsClear` says of a step, on the driver's state before it, that it does not lead there.

Results:
- `dispatched_of_startReady`: what a pass starts, and beside which dispatches;
- `clear_of_newest`: one pass, over a lineage map in which nothing in flight is twice superseded;
- `newest_step`: what one step keeps of it;
- `no_session_beside_its_lineage`: in a run whose steps keep it, no session is ever opened beside its lineage.
-/
import Mathlib.Tactic
import OnePipeline.Laws.Forest
import OnePipeline.Model.Schedule

namespace OnePipeline

open Checks Runs

/-! ## One pass -/

section

variable {s : RunState} {pass : Pass} {inFlight beside : StrMap LiveDispatch} {node placed : Node} {opensSession : Bool}

theorem supersededInFlight_iff {m : StrMap String} {id : String} :
    supersededInFlight m id inFlight = true ↔ ∃ a : String, m[a]? = some id ∧ a ∈ inFlight := by
  simp only [supersededInFlight, List.any_eq_true, Bool.and_eq_true, decide_eq_true_eq]
  constructor
  · rintro ⟨⟨a, b⟩, hin, rfl, ha⟩
    exact ⟨a, Std.ExtTreeMap.mem_toList_iff_getElem?_eq_some.mp hin, ha⟩
  · rintro ⟨a, hlink, ha⟩
    exact ⟨(a, id), Std.ExtTreeMap.mem_toList_iff_getElem?_eq_some.mpr hlink, rfl, ha⟩

theorem id_of_basedOnPreserved (h : s.basedOnPreserved pass node = .ok placed) : placed.id = node.id := by
  unfold RunState.basedOnPreserved at h
  split_ifs at h
  · obtain ⟨dependency, -, h⟩ := bind_eq_ok.mp h
    cases dependency with
    | none =>
      cases h
      rfl
    | some dependency =>
      cases hbranch : s.branches[dependency]? with
      | none => simp [hbranch] at h
      | some branch =>
        simp only [hbranch, pure_eq_ok] at h
        exact h ▸ rfl
  · exact (pure_eq_ok.mp h) ▸ rfl

theorem id_of_placed (h : s.placed pass node = .ok placed) : placed.id = node.id := by
  obtain ⟨based, hbased, h⟩ := bind_eq_ok.mp h
  obtain ⟨_, -, h⟩ := bind_eq_ok.mp h
  obtain ⟨base, -, h⟩ := bind_eq_ok.mp h
  rw [← id_of_basedOnPreserved hbased]
  cases base with
  | none => exact (pure_eq_ok.mp h) ▸ rfl
  | some base => exact (pure_eq_ok.mp h) ▸ rfl

/-- a node a pass starts, and the guard it passed -/
theorem attempt_starts (h : s.attempt pass inFlight node = .starts placed opensSession) :
    placed.id = node.id ∧ (opensSession = true → supersededInFlight s.superseded placed.id inFlight = false) := by
  unfold RunState.attempt at h
  split_ifs at h
  cases hplaced : s.placed pass node with
  | error why => simp [hplaced] at h
  | ok based =>
    simp only [hplaced] at h
    split_ifs at h with hnote hguard
    injection h with hnode hopens
    subst hnode hopens
    refine ⟨id_of_placed hplaced, fun hopens => ?_⟩
    simpa [hopens] using hguard

/-- what a pass started of a list of nodes, each beside what was in flight before it and what the pass started first -/
theorem dispatched_of_startFrom {nodes : List Node} (hnodup : (nodes.map Node.id).Nodup)
    (hfree : ∀ n ∈ nodes, n.id ∉ inFlight) (h : .dispatched placed opensSession beside ∈ s.startFrom pass inFlight nodes) :
    placed.id ∈ nodes.map Node.id ∧ placed.id ∉ beside ∧ (∀ m ∈ beside, m ∈ inFlight ∨ m ∈ nodes.map Node.id) ∧
      (opensSession = true → supersededInFlight s.superseded placed.id beside = false) := by
  induction nodes generalizing inFlight with
  | nil => cases h
  | cons n rest ih =>
    rw [List.map_cons] at hnodup
    obtain ⟨hn, hrest⟩ := List.nodup_cons.mp hnodup
    have hfirst : n.id ∉ inFlight := hfree n List.mem_cons_self
    have hothers (k : Node) (hk : k ∈ rest) : k.id ∉ inFlight := hfree k (List.mem_cons_of_mem _ hk)
    have hwiden : rest.map Node.id ⊆ (n :: rest).map Node.id := by simp
    rw [RunState.startFrom] at h
    cases hattempt : s.attempt pass inFlight n with
    | settles settled =>
      simp only [hattempt, List.mem_cons, reduceCtorEq, false_or] at h
      obtain ⟨hin, hnot, hbeside, hguard⟩ := ih hrest hothers h
      exact ⟨hwiden hin, hnot, fun m hm => (hbeside m hm).imp_right fun hm => hwiden hm, hguard⟩
    | skips =>
      simp only [hattempt] at h
      obtain ⟨hin, hnot, hbeside, hguard⟩ := ih hrest hothers h
      exact ⟨hwiden hin, hnot, fun m hm => (hbeside m hm).imp_right fun hm => hwiden hm, hguard⟩
    | stops => simp [hattempt] at h
    | starts first opens =>
      obtain ⟨hid, hguard⟩ := attempt_starts hattempt
      simp only [hattempt, List.mem_cons, Started.dispatched.injEq] at h
      rcases h with ⟨rfl, rfl, rfl⟩ | h
      · exact ⟨by simp [hid], hid ▸ hfirst, fun m hm => .inl hm, hguard⟩
      · have hjoined (k : Node) (hk : k ∈ rest) : k.id ∉ inFlight.insert n.id RunState.justStarted := by
          rw [Maps.mem_insert_iff, not_or]
          exact ⟨fun heq => hn (List.mem_map.mpr ⟨k, hk, heq⟩), hothers k hk⟩
        obtain ⟨hin, hnot, hbeside, hguard⟩ := ih hrest hjoined h
        refine ⟨hwiden hin, hnot, fun m hm => ?_, hguard⟩
        rcases hbeside m hm with hm | hm
        · rw [Maps.mem_insert_iff] at hm
          rcases hm with rfl | hm
          · exact .inr (by simp)
          · exact .inl hm
        · exact .inr (hwiden hm)

/-- **What a pass starts.** A node of the graph with no dispatch in flight, beside what was in flight before the pass and
nodes of the graph; where it opens a session, its direct predecessor is none of them. -/
theorem dispatched_of_startReady (h : .dispatched placed opensSession beside ∈ s.startReady pass inFlight) :
    placed.id ∈ s.graph.ids ∧ placed.id ∉ beside ∧ (∀ m ∈ beside, m ∈ inFlight ∨ m ∈ s.graph.ids) ∧
      (opensSession = true → supersededInFlight s.superseded placed.id beside = false) := by
  unfold RunState.startReady at h
  split_ifs at h
  · cases h
  · have hsub : ((s.graph.iter.filter (s.isActionable s.statuses pass inFlight)).map Node.id).Sublist s.graph.ids :=
      List.filter_sublist.map Node.id
    have hfree (n : Node) (hn : n ∈ s.graph.iter.filter (s.isActionable s.statuses pass inFlight)) : n.id ∉ inFlight := by
      have hact := (List.mem_filter.mp hn).2
      simp only [RunState.isActionable, Bool.and_eq_true, decide_eq_true_eq] at hact
      exact hact.1.2
    obtain ⟨hin, hnot, hbeside, hguard⟩ := dispatched_of_startFrom (s.graph.nodup_ids.sublist hsub) hfree h
    exact ⟨hsub.subset hin, hnot, fun m hm => (hbeside m hm).imp_right fun hm => hsub.subset hm, hguard⟩

end

/-! ## Nothing in flight twice superseded -/

/-- no dispatch in flight of a node or of any it replaces -/
def RunState.Clear (s : RunState) (inFlight : StrMap LiveDispatch) (node : String) : Prop :=
  ∀ m, Relation.ReflTransGen (fun a b : String => s.superseded[a]? = some b) m node → m ∉ inFlight

namespace Driver

/-- the lineages of a run, with nothing in flight twice superseded -/
structure Newest (d : Driver) : Prop where
  forest : Forest d.state.superseded d.state.graph.ids
  once : ∀ m ∈ d.inFlight, ∀ p : String, d.state.superseded[m]? = some p → d.state.superseded[p]? = none

variable {host : Host} {d : Driver} {plan : Plan} {events : List DriverEvent} {stamp : Stamp} {pass : Pass}

/-- whether a driver's pass opens a session beside an older dispatch of the same lineage -/
def OpensBesideItsLineage (d : Driver) (pass : Pass) : Prop :=
  ∃ node beside, .dispatched node true beside ∈ d.state.startReady pass d.inFlight ∧ ¬d.state.Clear beside node.id

/-- **One pass.** It opens no session beside its lineage where nothing in flight is twice superseded. -/
theorem clear_of_newest (h : d.Newest) (pass : Pass) : ¬d.OpensBesideItsLineage pass := by
  rintro ⟨node, beside, hstart, hnot⟩
  obtain ⟨hin, hself, hbeside, hguard⟩ := dispatched_of_startReady hstart
  refine hnot fun m hreach hm => ?_
  rcases hreach.cases_head with rfl | ⟨p, hlink, hrest⟩
  · exact hself hm
  · rcases hbeside m hm with hold | hlive
    · -- nothing replaced `p`, so `p` is the node itself and the guard saw its predecessor
      have hlast : d.state.superseded[p]? = none := h.once m hold p hlink
      have hp : p = node.id := by
        rcases hrest.cases_head with heq | ⟨q, hq, -⟩
        · exact heq
        · rw [hlast] at hq
          cases hq
      have hseen : supersededInFlight d.state.superseded node.id beside = true :=
        supersededInFlight_iff.mpr ⟨m, hp ▸ hlink, hm⟩
      rw [hguard rfl] at hseen
      cases hseen
    · rw [h.forest.retired m hlive] at hlink
      cases hlink

/-! ## What one step keeps -/

/-- the node a command supersedes -/
def supersedes : Command → Option String
  | .retry id _ | .rework id .. => some id
  | _ => none

/-- a step that is no accepted edit, or one that brings in no id a lineage has used and supersedes no node whose direct
predecessor has a dispatch in flight -/
def KeepsClear (host : Host) (d : Driver) : DriverEvent → Prop
  | .edit _ author command nodeValidator graphValidation =>
    ∀ p, compile host d.state.graph (d.state.judged (d.live nodeValidator graphValidation)) author command = .ok p →
      ¬d.state.reuses command ∧
        ∀ id, supersedes command = some id → supersededInFlight d.state.superseded id d.inFlight = false
  | _ => True

theorem newest_of_wired {t : Driver} (h : d.Newest) (hw : t.state.wired = d.state.wired)
    (hin : ∀ m ∈ t.inFlight, m ∈ d.inFlight ∨ m ∈ d.state.graph.ids) : t.Newest := by
  have hm : t.state.superseded = d.state.superseded := congrArg RunState.Wired.superseded hw
  refine ⟨(RunState.forest_of_wired hw).mpr h.forest, fun m hmem p hlink => ?_⟩
  rw [hm] at hlink ⊢
  rcases hin m hmem with hold | hlive
  · exact h.once m hold p hlink
  · rw [h.forest.retired m hlive] at hlink
    cases hlink

theorem newest_pass (h : d.Newest) : (step host d (.pass stamp pass)).Newest := by
  have hwired (l : List Started) (s : RunState) :
      (l.foldl (fun s start => RunState.foldRecord host s (start.record stamp pass)) s).wired = s.wired := by
    induction l generalizing s with
    | nil => rfl
    | cons start l ih =>
      refine (ih _).trans (RunState.wired_foldRecord ?_ ?_)
      · cases start <;> trivial
      · cases start <;> exact fun _ hbody => Body.noConfusion hbody
  have hjoined (l : List Started) (inFlight : StrMap LiveDispatch) (m : String) (hm : m ∈ l.foldl Started.join inFlight) :
      m ∈ inFlight ∨ ∃ node opens beside, .dispatched node opens beside ∈ l ∧ node.id = m := by
    induction l generalizing inFlight with
    | nil => exact .inl hm
    | cons start l ih =>
      rcases ih _ hm with hin | ⟨node, opens, beside, hstart, hid⟩
      · cases start with
        | settled node outcome => exact .inl hin
        | dispatched node opens beside =>
          rw [Started.join, Maps.mem_insert_iff] at hin
          rcases hin with hid | hin
          · exact .inr ⟨node, opens, beside, List.mem_cons_self, hid.symm⟩
          · exact .inl hin
      · exact .inr ⟨node, opens, beside, List.mem_cons_of_mem _ hstart, hid⟩
  refine newest_of_wired h (hwired _ _) fun m hm => ?_
  rcases hjoined _ _ m hm with hin | ⟨node, opens, beside, hstart, rfl⟩
  · exact .inl hin
  · exact .inr (dispatched_of_startReady hstart).1

theorem mem_of_mem_erase {m : StrMap LiveDispatch} {node k : String} (h : k ∈ m.erase node) : k ∈ m :=
  (Std.ExtTreeMap.mem_erase.mp h).2

/-- an accepted edit, from what it moves -/
theorem newest_moved {t : Driver} {command : Command} {requests : List (String × String)} {live : Live} (h : d.Newest)
    (hmoves : Moves d.state.graph (d.state.judged live) command t.state.graph.ids requests)
    (hsuperseded : t.state.superseded = Maps.insertAll d.state.superseded requests) (hin : t.inFlight = d.inFlight)
    (hfresh : ¬d.state.reuses command)
    (hguard : ∀ id, supersedes command = some id → supersededInFlight d.state.superseded id d.inFlight = false) :
    t.Newest := by
  have hforest : Forest t.state.superseded t.state.graph.ids := by
    rw [hsuperseded]
    exact (RunState.forest_moved_iff h.forest hmoves).mpr hfresh
  have hold (hnone : requests = []) : t.Newest := by
    refine ⟨hforest, fun m hm p hlink => ?_⟩
    rw [hsuperseded, hnone] at hlink ⊢
    exact h.once m (hin ▸ hm) p hlink
  -- a node superseded once more is at the end of its lineage, so what replaces it has not been
  have hlinked (old new : String) (hrequests : requests = [(old, new)]) (hnew : d.state.superseded[new]? = none)
      (hne : new ≠ old) (hclear : supersededInFlight d.state.superseded old d.inFlight = false) : t.Newest := by
    have hafter : t.state.superseded = d.state.superseded.insert old new := by rw [hsuperseded, hrequests]; rfl
    refine ⟨hforest, fun m hm p hlink => ?_⟩
    rw [hafter, Maps.get_insert] at hlink ⊢
    split_ifs at hlink with hmold
    · cases hlink
      rw [if_neg hne, hnew]
    · have hp : p ≠ old := by
        rintro rfl
        have hseen := supersededInFlight_iff.mpr ⟨m, hlink, hin ▸ hm⟩
        rw [hclear] at hseen
        cases hseen
      rw [if_neg hp]
      exact h.once m (hin ▸ hm) p hlink
  generalize hids : t.state.graph.ids = ids at hmoves
  cases hmoves with
  | added node new => exact hold rfl
  | stays _ _ quiet keeps => exact hold rfl
  | retried old node present new =>
    rw [RunState.reuses, not_or, Maps.not_mem_iff] at hfresh
    exact hlinked old node.id rfl hfresh.1 (fun heq => new (heq ▸ present)) (hguard old rfl)
  | reworked old new reason instruction comments title replacement present unused =>
    refine hlinked old new rfl (not_mem_of_unused unused).1 (fun heq => ?_) (hguard old rfl)
    exact unused_ids unused (heq ▸ present)

/-- **One step.** It keeps everything in flight from being twice superseded. -/
theorem newest_step (h : d.Newest) {event : DriverEvent} (hkeeps : d.KeepsClear host event) : (step host d event).Newest := by
  cases event with
  | pass stamp pass => exact newest_pass h
  | settled stamp node settled =>
    rw [step]
    split_ifs
    · have hrecord : RunState.Appends host d.state (stamp.envelope (some node) (.nodeSettled settled)) := trivial
      exact newest_of_wired h (RunState.wired_foldRecord hrecord fun _ hbody => Body.noConfusion hbody) fun m hm =>
        .inl (mem_of_mem_erase hm)
    · exact h
  | exhausted stamp node =>
    rw [step]
    split_ifs
    · exact newest_of_wired h rfl fun m hm => .inl (mem_of_mem_erase hm)
    · exact h
  | edit stamp author command nodeValidator graphValidation =>
    rw [step]
    cases hcompile : compile host d.state.graph (d.state.judged (d.live nodeValidator graphValidation)) author command with
    | error why => exact h
    | ok p =>
      obtain ⟨hfresh, hguard⟩ := hkeeps p hcompile
      have hfold := @RunState.foldRecord_edit host d.state (stamp.envelope none (.editCommitted (some p.2))) p.2 rfl rfl
      refine @newest_moved d _ command _ (d.live nodeValidator graphValidation) h ?_ hfold.2.1 rfl hfresh hguard
      rw [hfold.1]
      exact moves_of_compiled hcompile

theorem newest_launched (plan : Plan) : (launched plan).Newest := by
  refine ⟨Forest.empty, fun m hm => ?_⟩
  simp [launched] at hm

/-- **A replacement's session, over a run.** Where no accepted edit of a run brings in an id a lineage has used, nor
supersedes a node whose direct predecessor has a dispatch in flight, no pass opens a session beside an older dispatch of
the same lineage. -/
theorem no_session_beside_its_lineage (h : Admits (step host) (KeepsClear host) (launched plan) events) (pass : Pass) :
    ¬(events.foldl (step host) (launched plan)).OpensBesideItsLineage pass :=
  clear_of_newest (h.invariant (fun _ _ hd hk => newest_step hd hk) (newest_launched plan)) pass

/-! ### A replacement settled from evidence -/

/-- a node that opens a session -/
def sessioned (id : String) : Node := { Node.direct id [] with repo := some "r", title := some "feat: it" }

/-- one such node, with room beside it -/
def roomy : Plan := { Plan.ofNodes [sessioned "a"] with concurrency := 2 }

/-- the node dispatched, and retried while its dispatch runs -/
def retriedRunning : List DriverEvent := [.pass {} {}, .edit {} .planner (.retry "a" (sessioned "b")) none none]

/-- its replacement, held for it, recorded failed and retried too -/
def settledFromEvidence : List DriverEvent :=
  retriedRunning ++ [.edit {} .planner (.settle "b" .failed "it cannot work" none none) none none,
    .edit {} .planner (.retry "b" (sessioned "c")) none none]

example : (step .lenient (launched roomy) (.pass {} {})).inFlight.keys = ["a"] := by decide +kernel

/-- the second replacement opens its session beside the first dispatch -/
theorem settledFromEvidence_beside :
    check Host.lenient.toSiblings roomy = .ok () ∧
      (settledFromEvidence.foldl (step .lenient) (launched roomy)).OpensBesideItsLineage {} := by
  refine ⟨by decide, ?_⟩
  let d := settledFromEvidence.foldl (step .lenient) (launched roomy)
  have hstarts : (d.state.startReady {} d.inFlight).any (fun start =>
      match start with
      | .dispatched node opens beside => node.id = "c" && opens && "a" ∈ beside
      | .settled .. => false) = true := by
    decide
  have hfirst : d.state.superseded["a"]? = some "b" := by decide
  have hsecond : d.state.superseded["b"]? = some "c" := by decide
  obtain ⟨start, hin, hstart⟩ := List.any_eq_true.mp hstarts
  cases start with
  | settled => cases hstart
  | dispatched node opens beside =>
    simp only [Bool.and_eq_true, decide_eq_true_eq] at hstart
    obtain ⟨⟨hid, rfl⟩, hbeside⟩ := hstart
    refine ⟨node, beside, hin, fun hclear => hclear "a" ?_ hbeside⟩
    rw [hid]
    exact .head hfirst (.single hsecond)

/-- a replacement waits for the dispatch it superseded -/
theorem retriedRunning_clear : ¬(retriedRunning.foldl (step .lenient) (launched roomy)).OpensBesideItsLineage {} := by
  have hlaunched : (step .lenient (launched roomy) (.pass {} {})).state.superseded = ∅ := by decide
  have hkeeps : KeepsClear .lenient (step .lenient (launched roomy) (.pass {} {}))
      (.edit {} .planner (.retry "a" (sessioned "b")) none none) := by
    refine fun _ _ => ⟨?_, fun id hid => ?_⟩
    · simp [RunState.reuses, hlaunched]
    · rw [hlaunched]
      rfl
  have hrun : Admits (step .lenient) (KeepsClear .lenient) (launched roomy) retriedRunning := ⟨trivial, hkeeps, trivial⟩
  exact no_session_beside_its_lineage hrun {}

end Driver

end OnePipeline
