/-
What the plan's concurrency bounds of a pass (`src/engine.rs`: `start_ready`, `start_restacks`).

The dispatches in flight stay within it. But the pass leaves at the first node of an agent it meets with no slot left, before it looks at
what that node is declared, so a node that needs no dispatch is not settled there nor at any node after it (`full_run_settles_nothing`).

Results:
- `size_joinAll_startFrom`, `size_joinAll_restackFrom`: the dispatches in flight after either half of a pass;
- `mem_startFrom_iff`: what a pass settles without a dispatch;
- `start_ready_settles`: the whole pass.
-/
import OnePipeline.Laws.Restacks
import OnePipeline.Laws.Schedule
import OnePipeline.Model.Restacks

namespace OnePipeline

/-! ## The bound -/

theorem Started.joinAll_cons (start : Started) (started : List Started) (inFlight : StrMap LiveDispatch) :
    Started.joinAll (start :: started) inFlight = Started.joinAll started (start.join inFlight) := rfl

theorem size_insert_le (inFlight : StrMap LiveDispatch) (id : String) :
    (inFlight.insert id RunState.justStarted).size ≤ inFlight.size + 1 := by
  rw [Std.ExtTreeMap.size_insert]
  split_ifs <;> omega

section

variable {s : RunState} {pass : Pass} {inFlight : StrMap LiveDispatch} {node placed : Node} {opensSession : Bool}

theorem below_of_starts (h : s.attempt pass inFlight node = .starts placed opensSession) : inFlight.size < s.graph.concurrency := by
  unfold RunState.attempt at h
  split_ifs at h with hfull _ hhuman
  by_contra hle
  exact hfull ⟨hhuman, Nat.le_of_not_lt hle⟩

/-- no more dispatches are in flight after a pass than its concurrency, or than before it -/
theorem size_joinAll_startFrom (nodes : List Node) :
    (Started.joinAll (s.startFrom pass inFlight nodes) inFlight).size ≤ max s.graph.concurrency inFlight.size := by
  induction nodes generalizing inFlight with
  | nil => exact le_max_right _ _
  | cons node rest ih =>
    rw [RunState.startFrom]
    cases hattempt : s.attempt pass inFlight node with
    | settles settled => exact ih
    | skips => exact ih
    | stops => exact le_max_right _ _
    | starts placed opensSession =>
      have hbelow := below_of_starts hattempt
      have hjoined := size_insert_le inFlight placed.id
      have hid : placed.id = node.id := (attempt_starts hattempt).1
      rw [Started.joinAll_cons, Started.join, hid]
      refine (@ih (inFlight.insert node.id RunState.justStarted)).trans ?_
      rw [hid] at hjoined
      omega

/-- what a pass puts on the record is of the nodes it was given -/
theorem node_mem {nodes : List Node} {start : Started} (h : start ∈ s.startFrom pass inFlight nodes) : start.node ∈ nodes.map Node.id := by
  induction nodes generalizing inFlight with
  | nil => cases h
  | cons node rest ih =>
    rw [RunState.startFrom] at h
    cases hattempt : s.attempt pass inFlight node with
    | settles settled =>
      rw [hattempt] at h
      rcases List.mem_cons.mp h with rfl | h
      · exact List.mem_cons_self
      · exact List.mem_cons_of_mem _ (ih h)
    | skips =>
      rw [hattempt] at h
      exact List.mem_cons_of_mem _ (ih h)
    | stops =>
      rw [hattempt] at h
      cases h
    | starts placed opens =>
      rw [hattempt] at h
      rcases List.mem_cons.mp h with rfl | h
      · rw [Started.node, (attempt_starts hattempt).1]
        exact List.mem_cons_self
      · exact List.mem_cons_of_mem _ (ih h)

end

section

variable {s : StackedRun} {pass : Pass} {inFlight : StrMap LiveDispatch} {owed : StackedRun.Owed} {node : Node} {opensSession : Bool}

theorem restack_starts (h : s.restack pass inFlight owed = .starts node opensSession) :
    inFlight.size < s.graph.concurrency ∧ node.id = owed.node := by
  unfold StackedRun.restack at h
  split_ifs at h with hfull
  cases hget : s.graph.get owed.node with
  | none => simp [hget] at h
  | some found =>
    simp only [hget] at h
    cases hboundary : pass.boundary (owed.pinned found) with
    | error why => simp [hboundary] at h
    | ok _ =>
      simp only [hboundary] at h
      split_ifs at h
      injection h with hnode
      subst hnode
      have hid : found.id = owed.node := Graph.id_of_get hget
      exact ⟨Nat.lt_of_not_le hfull, hid⟩

theorem restack_node_mem {owed : List StackedRun.Owed} {start : Started} (h : start ∈ s.restackFrom pass inFlight owed) :
    start.node ∈ owed.map StackedRun.Owed.node := by
  induction owed generalizing inFlight with
  | nil => cases h
  | cons first rest ih =>
    rw [StackedRun.restackFrom] at h
    cases hrestack : s.restack pass inFlight first with
    | settles settled =>
      rw [hrestack] at h
      rcases List.mem_cons.mp h with rfl | h
      · exact List.mem_cons_self
      · exact List.mem_cons_of_mem _ (ih h)
    | skips =>
      rw [hrestack] at h
      exact List.mem_cons_of_mem _ (ih h)
    | stops =>
      rw [hrestack] at h
      cases h
    | starts node opens =>
      rw [hrestack] at h
      rcases List.mem_cons.mp h with rfl | h
      · rw [Started.node, (restack_starts hrestack).2]
        exact List.mem_cons_self
      · exact List.mem_cons_of_mem _ (ih h)

theorem size_joinAll_restackFrom (owed : List StackedRun.Owed) :
    (Started.joinAll (s.restackFrom pass inFlight owed) inFlight).size ≤ max s.graph.concurrency inFlight.size := by
  induction owed generalizing inFlight with
  | nil => exact le_max_right _ _
  | cons owed rest ih =>
    rw [StackedRun.restackFrom]
    cases hrestack : s.restack pass inFlight owed with
    | settles settled => exact ih
    | skips => exact ih
    | stops => exact le_max_right _ _
    | starts node opensSession =>
      obtain ⟨hbelow, -⟩ := restack_starts hrestack
      have hjoined := size_insert_le inFlight node.id
      rw [Started.joinAll_cons, Started.join]
      refine (@ih (inFlight.insert node.id RunState.justStarted)).trans ?_
      omega

end

/-! ## What is settled without a dispatch -/

section

variable (s : RunState) (pass : Pass)

/-- a node that takes a slot, where there is one, beside some dispatches -/
def RunState.takesSlot (inFlight : StrMap LiveDispatch) (node : Node) : Bool :=
  decide (node.kind ≠ .human) && !node.expectsNoDiff &&
    match s.placed pass node with
    | .error _ => false
    | .ok placed =>
      let opens := (pass.resuming placed.id).getD placed
      !pass.outstanding placed.id &&
        !(requestsSession opens && (supersededInFlight s.superseded placed.id inFlight || pass.held opens))

/-- the dispatches in flight once every node of a list that takes a slot has taken one, however many there are -/
def RunState.joined (inFlight : StrMap LiveDispatch) (nodes : List Node) : StrMap LiveDispatch :=
  nodes.foldl (fun m node => if s.takesSlot pass m node then m.insert node.id RunState.justStarted else m) inFlight

end

/-- what a pass settles a node to without dispatching it -/
def Node.settledAs (node : Node) : Option Settlement :=
  if node.expectsNoDiff then some (.plain .done (some noChanges)) else if node.kind = .human then some (.plain .waiting none) else none

section

variable {s : RunState} {pass : Pass} {inFlight : StrMap LiveDispatch} {node : Node} {settled : Settlement}

/-- a node met with a slot left, or a human action: settled, or passed over, or started where it takes a slot -/
inductive Met (s : RunState) (pass : Pass) (inFlight : StrMap LiveDispatch) (node : Node) : Attempt → Prop
  | settles (settled : Settlement) (h : s.takesSlot pass inFlight node = false) (as : ∀ x ∈ node.settledAs, settled = x) :
      Met s pass inFlight node (.settles settled)
  | skips (h : s.takesSlot pass inFlight node = false) (as : node.settledAs = none) : Met s pass inFlight node .skips
  | starts (placed : Node) (opensSession : Bool) (h : s.takesSlot pass inFlight node = true) (id : placed.id = node.id)
      (as : node.settledAs = none) : Met s pass inFlight node (.starts placed opensSession)

theorem met_attempt (hadmitted : ∀ id, pass.admitted id = true) (hslot : node.kind ≠ .human → inFlight.size < s.graph.concurrency) :
    Met s pass inFlight node (s.attempt pass inFlight node) := by
  unfold RunState.attempt
  have hfull : ¬(node.kind ≠ .human ∧ s.graph.concurrency ≤ inFlight.size) := by
    rintro ⟨hagent, hle⟩
    exact absurd (hslot hagent) (Nat.not_lt.mpr hle)
  rw [if_neg hfull]
  by_cases hdiff : node.expectsNoDiff
  · rw [if_pos hdiff]
    refine .settles _ (by simp [RunState.takesSlot, hdiff]) fun x hx => ?_
    simp only [Node.settledAs, if_pos hdiff, Option.mem_def, Option.some.injEq] at hx
    exact hx
  · rw [if_neg hdiff]
    by_cases hhuman : node.kind = .human
    · rw [if_pos hhuman]
      refine .settles _ (by simp [RunState.takesSlot, hhuman]) fun x hx => ?_
      simp only [Node.settledAs, if_neg hdiff, if_pos hhuman, Option.mem_def, Option.some.injEq] at hx
      exact hx
    · have has : node.settledAs = none := by simp [Node.settledAs, hdiff, hhuman]
      rw [if_neg hhuman]
      cases hplaced : s.placed pass node with
      | error why => exact .settles _ (by simp [RunState.takesSlot, hplaced]) (by simp [has])
      | ok placed =>
        have hid := id_of_placed hplaced
        simp only []
        generalize hopens : (pass.resuming placed.id).getD placed = opens
        have htakes : s.takesSlot pass inFlight node = (!pass.outstanding placed.id &&
            !(requestsSession opens && (supersededInFlight s.superseded placed.id inFlight || pass.held opens))) := by
          simp [RunState.takesSlot, hdiff, hhuman, hplaced, hopens]
        rw [if_pos (hadmitted placed.id)]
        split_ifs with hnote hsuperseded hheld
        · exact .skips (by simp [htakes, hnote]) has
        · simp only [Bool.and_eq_true] at hsuperseded
          exact .skips (by simp [htakes, hsuperseded]) has
        · simp only [Bool.and_eq_true] at hheld
          exact .skips (by simp [htakes, hheld]) has
        · refine .starts placed _ ?_ hid has
          simp only [Bool.and_eq_true, not_and, Bool.not_eq_true] at hnote hsuperseded hheld
          rw [htakes]
          cases hrequests : requestsSession opens with
          | false => simp [hnote]
          | true => simp [hnote, hsuperseded hrequests, hheld hrequests]

theorem attempt_stops (hfull : ¬(node.kind ≠ .human → inFlight.size < s.graph.concurrency)) : s.attempt pass inFlight node = .stops := by
  rw [Classical.not_imp] at hfull
  exact if_pos ⟨hfull.1, Nat.le_of_not_lt hfull.2⟩

/-- what a pass settles a node to is what it is declared to settle as, where it is -/
theorem settled_of_startFrom {nodes : List Node} {id : String} (hadmitted : ∀ id, pass.admitted id = true)
    (h : .settled id settled ∈ s.startFrom pass inFlight nodes) : ∃ n ∈ nodes, n.id = id ∧ ∀ x ∈ n.settledAs, settled = x := by
  induction nodes generalizing inFlight with
  | nil => cases h
  | cons node rest ih =>
    have hrest {m : StrMap LiveDispatch} (h : .settled id settled ∈ s.startFrom pass m rest) :
        ∃ n ∈ node :: rest, n.id = id ∧ ∀ x ∈ n.settledAs, settled = x := by
      obtain ⟨n, hn, hid, has⟩ := ih h
      exact ⟨n, List.mem_cons_of_mem _ hn, hid, has⟩
    rw [RunState.startFrom] at h
    by_cases hslot : node.kind ≠ .human → inFlight.size < s.graph.concurrency
    · have hmet := @met_attempt s pass inFlight node hadmitted hslot
      generalize s.attempt pass inFlight node = met at hmet h
      cases hmet with
      | settles first _ has =>
        rcases List.mem_cons.mp h with heq | h
        · injection heq with hid hsettled
          exact ⟨node, List.mem_cons_self, hid.symm, hsettled ▸ has⟩
        · exact hrest h
      | skips => exact hrest h
      | starts placed opensSession =>
        rcases List.mem_cons.mp h with heq | h
        · cases heq
        · exact hrest h
    · rw [attempt_stops hslot] at h
      cases h

/-- **Settled without a dispatch.** A node declared to need none is settled exactly where every agent's node before it, and it if it is
one, meets a slot left by those before. -/
theorem mem_startFrom_iff {nodes : List Node} (hadmitted : ∀ id, pass.admitted id = true) (hnodup : (nodes.map Node.id).Nodup)
    (hn : node ∈ nodes) (has : node.settledAs = some settled) :
    .settled node.id settled ∈ s.startFrom pass inFlight nodes ↔
      ∀ before m after, nodes = before ++ m :: after → m.kind ≠ .human → node ∈ m :: after →
        (s.joined pass inFlight before).size < s.graph.concurrency := by
  induction nodes generalizing inFlight with
  | nil => cases hn
  | cons first rest ih =>
    rw [List.map_cons] at hnodup
    obtain ⟨hfirst, hrest⟩ := List.nodup_cons.mp hnodup
    rw [RunState.startFrom]
    by_cases hslot : first.kind ≠ .human → inFlight.size < s.graph.concurrency
    · -- what is met at the head is the head, or lies in the rest
      have hcut {m : StrMap LiveDispatch} (hm : m = s.joined pass inFlight [first]) :
          (∀ before k after, first :: rest = before ++ k :: after → k.kind ≠ .human → node ∈ k :: after →
              (s.joined pass inFlight before).size < s.graph.concurrency) ↔
            ∀ before k after, rest = before ++ k :: after → k.kind ≠ .human → node ∈ k :: after →
              (s.joined pass m before).size < s.graph.concurrency := by
        constructor
        · intro h before k after hsplit hkind hin
          rw [hm]
          exact h (first :: before) k after (by rw [hsplit]; rfl) hkind hin
        · intro h before k after hsplit hkind hin
          cases before with
          | nil =>
            injection hsplit with hhead
            exact hslot (hhead ▸ hkind)
          | cons b before =>
            injection hsplit with hhead hsplit
            have := h before k after hsplit hkind hin
            rw [hm] at this
            exact hhead ▸ this
      have hmet := @met_attempt s pass inFlight first hadmitted hslot
      generalize s.attempt pass inFlight first = met at hmet
      have hjoined (b : Bool) (htakes : s.takesSlot pass inFlight first = b) :
          s.joined pass inFlight [first] = if b then inFlight.insert first.id RunState.justStarted else inFlight := by
        simp [RunState.joined, htakes]
      by_cases hsame : node = first
      · subst hsame
        have hnot : node ∉ rest := fun hin => hfirst (List.mem_map_of_mem hin)
        cases hmet with
        | settles first htakes hfirst =>
          refine iff_of_true ?_ ((hcut (hjoined _ htakes).symm).mpr fun before k after hsplit _ hin => ?_)
          · rw [hfirst settled has]
            exact List.mem_cons_self
          · exact absurd (hsplit ▸ List.mem_append_right _ hin) hnot
        | skips htakes hnone =>
          rw [hnone] at has
          cases has
        | starts placed opensSession htakes hid hnone =>
          rw [hnone] at has
          cases has
      · have hin : node ∈ rest := (List.mem_cons.mp hn).resolve_left hsame
        have hne : node.id ≠ first.id := fun heq => hfirst (List.mem_map.mpr ⟨node, hin, heq⟩)
        cases hmet with
        | settles other htakes hother =>
          refine Iff.trans ?_ ((ih hrest hin).trans (hcut (hjoined _ htakes).symm).symm)
          rw [List.mem_cons]
          refine or_iff_right fun heq => ?_
          injection heq with hid
          exact hne hid
        | skips htakes hnone => exact (ih hrest hin).trans (hcut (hjoined _ htakes).symm).symm
        | starts placed opensSession htakes hid hnone =>
          refine Iff.trans ?_ ((ih hrest hin).trans (hcut (hjoined _ htakes).symm).symm)
          rw [List.mem_cons]
          exact or_iff_right fun heq => Started.noConfusion heq
    · rw [attempt_stops hslot]
      refine iff_of_false List.not_mem_nil fun h => hslot fun hkind => ?_
      exact h [] first rest rfl hkind hn

end

/-! ## A pass -/

section

variable (s : RunState) (statuses : StrMap NodeStatus) (pass : Pass) (inFlight : StrMap LiveDispatch)

/-- a node a pass may settle without a dispatch: a ready one declared to change nothing, or a human action that has just become waiting,
held by no decision point -/
def RunState.Needs (node : Node) : Prop :=
  node ∈ s.graph.iter ∧ pass.paused node.id = false ∧
    ((statuses[node.id]? = some .ready ∧ node.expectsNoDiff = true) ∨
      (node.kind = .human ∧ statuses[node.id]? = some .waiting ∧ node.id ∉ s.recorded))

/-- every such node is settled, to what it is declared to be -/
structure RunState.SettlesAll (started : List Started) : Prop where
  unchanged : ∀ n ∈ s.graph.iter, statuses[n.id]? = some .ready → n.expectsNoDiff = true → pass.paused n.id = false →
    .settled n.id (.plain .done (some noChanges)) ∈ started
  waiting : ∀ n ∈ s.graph.iter, n.kind = .human → statuses[n.id]? = some .waiting → n.id ∉ s.recorded → pass.paused n.id = false →
    .settled n.id (.plain .waiting none) ∈ started

/-- the nodes a pass goes over -/
def RunState.actionable : List Node := s.graph.iter.filter (s.isActionable statuses pass inFlight)

/-- each such node is out of flight, no human action is declared to change nothing, and no agent's node at or before one of them, in plan
order, meets every slot taken -/
structure RunState.LeavesSlots : Prop where
  idle : ∀ n, s.Needs statuses pass n → n.id ∉ inFlight
  plain : ∀ n, s.Needs statuses pass n → statuses[n.id]? = some .waiting → n.expectsNoDiff = false
  slots : ∀ before m after, s.actionable statuses pass inFlight = before ++ m :: after → m.kind ≠ .human →
    (∃ n ∈ m :: after, s.Needs statuses pass n) → (s.joined pass inFlight before).size < s.graph.concurrency

end

section

variable {s : RunState} {statuses : StrMap NodeStatus} {pass : Pass} {inFlight : StrMap LiveDispatch} {node : Node}

theorem nodup_actionable : ((s.actionable statuses pass inFlight).map Node.id).Nodup :=
  s.graph.nodup_ids.sublist (List.filter_sublist.map Node.id)

theorem mem_actionable (h : s.Needs statuses pass node) (hidle : node.id ∉ inFlight) : node ∈ s.actionable statuses pass inFlight := by
  obtain ⟨hin, hpaused, hstatus⟩ := h
  refine List.mem_filter.mpr ⟨hin, ?_⟩
  simp only [RunState.isActionable, hpaused, Bool.not_false, Bool.and_true, Bool.and_eq_true, decide_eq_true_eq]
  refine ⟨?_, hidle⟩
  rcases hstatus with ⟨hready, -⟩ | ⟨-, hwaiting, hrecorded⟩
  · rw [hready]
  · rw [hwaiting]
    exact decide_eq_true hrecorded

theorem idle_of_actionable {id : String} (h : id ∈ (s.actionable statuses pass inFlight).map Node.id) :
    id ∉ inFlight ∧ pass.paused id = false := by
  obtain ⟨n, hn, rfl⟩ := List.mem_map.mp h
  have hact := (List.mem_filter.mp hn).2
  simp only [RunState.isActionable, Bool.and_eq_true, decide_eq_true_eq, Bool.not_eq_true'] at hact
  exact ⟨hact.1.2, hact.2⟩

/-- what a node that needs no dispatch is settled as -/
theorem settledAs_of_needs (h : s.Needs statuses pass node) : ∃ settled, node.settledAs = some settled := by
  obtain ⟨-, -, ⟨-, hdiff⟩ | ⟨hhuman, -⟩⟩ := h
  · exact ⟨_, if_pos hdiff⟩
  · unfold Node.settledAs
    split_ifs
    · exact ⟨_, rfl⟩
    · exact ⟨_, rfl⟩

theorem settlesAll_iff (hadmitted : ∀ id, pass.admitted id = true) :
    s.SettlesAll statuses pass (s.startFrom pass inFlight (s.actionable statuses pass inFlight)) ↔ s.LeavesSlots statuses pass inFlight := by
  constructor
  · intro h
    -- a node that needs none is settled to what it is declared to be
    have hsettled (n : Node) (hn : s.Needs statuses pass n) : ∃ settled,
        .settled n.id settled ∈ s.startFrom pass inFlight (s.actionable statuses pass inFlight) ∧ n.settledAs = some settled ∧
          (statuses[n.id]? = some .waiting → settled = .plain .waiting none) := by
      have hrecorded : ∃ settled, .settled n.id settled ∈ s.startFrom pass inFlight (s.actionable statuses pass inFlight) ∧
          (statuses[n.id]? = some .waiting → settled = .plain .waiting none) := by
        obtain ⟨hin, hpaused, ⟨hready, hdiff⟩ | ⟨hhuman, hwaiting, hunrecorded⟩⟩ := hn
        · refine ⟨_, h.unchanged n hin hready hdiff hpaused, fun hwaiting => ?_⟩
          rw [hready] at hwaiting
          cases hwaiting
        · exact ⟨_, h.waiting n hin hhuman hwaiting hunrecorded hpaused, fun _ => rfl⟩
      obtain ⟨settled, hmem, hwaits⟩ := hrecorded
      obtain ⟨n', hn', hid, has⟩ := settled_of_startFrom hadmitted hmem
      have heq : n' = n := by
        have hget := Graph.get_of_mem (List.mem_filter.mp hn').1
        rw [hid, Graph.get_of_mem hn.1] at hget
        exact (Option.some.inj hget).symm
      obtain ⟨x, hx⟩ := settledAs_of_needs hn
      exact ⟨settled, hmem, has x (heq ▸ hx) ▸ hx, hwaits⟩
    refine ⟨fun n hn => ?_, fun n hn hwaiting => ?_, fun before m after hsplit hkind ⟨n, hin, hn⟩ => ?_⟩
    · obtain ⟨settled, hmem, -⟩ := hsettled n hn
      exact (idle_of_actionable (node_mem hmem)).1
    · obtain ⟨settled, -, has, hwaits⟩ := hsettled n hn
      rw [hwaits hwaiting] at has
      by_contra hdiff
      rw [Node.settledAs, if_pos (Bool.not_eq_false _ ▸ hdiff)] at has
      simp [Settlement.plain] at has
    · obtain ⟨settled, hmem, has, -⟩ := hsettled n hn
      have hact : n ∈ s.actionable statuses pass inFlight := hsplit ▸ List.mem_append_right _ hin
      exact (mem_startFrom_iff hadmitted nodup_actionable hact has).mp hmem before m after hsplit hkind hin
  · intro h
    have hsettled {n : Node} {settled : Settlement} (hn : s.Needs statuses pass n) (has : n.settledAs = some settled) :
        .settled n.id settled ∈ s.startFrom pass inFlight (s.actionable statuses pass inFlight) :=
      (mem_startFrom_iff hadmitted nodup_actionable (mem_actionable hn (h.idle n hn)) has).mpr
        fun before m after hsplit hkind hin => h.slots before m after hsplit hkind ⟨n, hin, hn⟩
    refine ⟨fun n hin hready hdiff hpaused => ?_, fun n hin hhuman hwaiting hrecorded hpaused => ?_⟩
    · exact hsettled ⟨hin, hpaused, .inl ⟨hready, hdiff⟩⟩ (if_pos hdiff)
    · have hn : s.Needs statuses pass n := ⟨hin, hpaused, .inr ⟨hhuman, hwaiting, hrecorded⟩⟩
      have hplain := h.plain n hn hwaiting
      refine hsettled hn ?_
      rw [Node.settledAs, if_neg (by rw [hplain]; exact Bool.false_ne_true), if_pos hhuman]

end

open StackedRun in
/-- **Concurrency.** In a pass with no shutdown begun and every admission granted, over any statuses and any dispatches in flight: every
node that needs no dispatch is settled exactly where none of them is met with every slot taken; no paused node is started or settled; and
after the pass, as after its restacks, no more dispatches are in flight than the concurrency, or than before it. -/
theorem start_ready_settles (s : StackedRun) (statuses : StrMap NodeStatus) (pass : Pass) (inFlight : StrMap LiveDispatch)
    (readjustOwed : String → Bool) (hrunning : pass.shutdown = false) (hadmitted : ∀ id, pass.admitted id = true) :
    (s.SettlesAll statuses pass (s.startReadyBy statuses pass inFlight) ↔ s.LeavesSlots statuses pass inFlight) ∧
      (∀ start ∈ s.startReadyBy statuses pass inFlight, pass.paused start.node = false) ∧
      (Started.joinAll (s.startReadyBy statuses pass inFlight) inFlight).size ≤ max s.graph.concurrency inFlight.size ∧
      (∀ start ∈ s.startRestacks statuses pass readjustOwed inFlight, pass.paused start.node = false) ∧
      (Started.joinAll (s.startRestacks statuses pass readjustOwed inFlight) inFlight).size ≤ max s.graph.concurrency inFlight.size := by
  have hready : s.startReadyBy statuses pass inFlight = s.startFrom pass inFlight (s.actionable statuses pass inFlight) :=
    if_neg (by rw [hrunning]; exact Bool.false_ne_true)
  have hrestacks : s.startRestacks statuses pass readjustOwed inFlight =
      s.restackFrom pass inFlight (s.restacksOwed statuses fun node => node ∈ inFlight || pass.paused node || readjustOwed node) :=
    if_neg (by rw [hrunning]; exact Bool.false_ne_true)
  rw [hready, hrestacks]
  refine ⟨settlesAll_iff hadmitted, fun start hstart => ?_, size_joinAll_startFrom _, fun start hstart => ?_, size_joinAll_restackFrom _⟩
  · exact (idle_of_actionable (node_mem hstart)).2
  · obtain ⟨n, hn, hidle, -⟩ := mem_restacksOwed_iff.mp (restack_node_mem hstart)
    have hid : n.id = start.node := Graph.id_of_get hn
    simp only [isIdleDraft, Bool.and_eq_true, Bool.not_eq_true', Bool.or_eq_false_iff] at hidle
    exact hid ▸ hidle.2.1.2

/-! ## A full run -/

/-- a node declared to change nothing -/
def Node.unchanging (id : String) : Node := { id, task := some "## Acceptance criteria\n\n- nothing to change", expectsNoDiff := true }

/-- a human action -/
def Node.approval (id : String) : Node := { id, kind := .human, task := some "approve it" }

/-- an agent's node before one declared to change nothing and a human action, in a run of one dispatch at a time -/
def oneAtATime : Plan := .ofNodes [.direct "a" [], .unchanging "b", .approval "c"]

def oneAtATimeRun : StackedRun := { toRunState := RunState.started oneAtATime }

/-- the first pass starts the agent's node, and leaves both others -/
theorem full_run_settles_nothing :
    check Host.lenient.toSiblings oneAtATime = .ok () ∧
      ¬oneAtATimeRun.SettlesAll oneAtATimeRun.statuses {} (oneAtATimeRun.startReadyBy oneAtATimeRun.statuses {} ∅) := by
  have hchecked : check Host.lenient.toSiblings oneAtATime = .ok () := by decide
  have hready : oneAtATimeRun.statuses["b"]? = some .ready := by decide
  have hnode : ((oneAtATimeRun.graph.get "b").map Node.expectsNoDiff) = some true := by decide
  have hstarted : (oneAtATimeRun.startReadyBy oneAtATimeRun.statuses {} ∅).map Started.node = ["a"] := by decide
  refine ⟨hchecked, fun h => ?_⟩
  obtain ⟨n, hn, hdiff⟩ := Option.map_eq_some_iff.mp hnode
  obtain ⟨hin, hid⟩ := Graph.get_eq_some.mp hn
  have hmem := List.mem_map_of_mem (f := Started.node) (h.unchanged n hin (hid ▸ hready) hdiff rfl)
  rw [hstarted, List.mem_singleton, Started.node, hid] at hmem
  exact absurd hmem (by decide)

/-- with the agent's node last, both are settled -/
def approvalFirst : StackedRun := { toRunState := RunState.started (.ofNodes [.unchanging "b", .approval "c", .direct "a" []]) }

theorem start_ready_settles_first :
    approvalFirst.SettlesAll approvalFirst.statuses {} (approvalFirst.startReadyBy approvalFirst.statuses {} ∅) := by
  obtain ⟨hsettles, -⟩ := start_ready_settles approvalFirst approvalFirst.statuses {} ∅ (fun _ => false) rfl fun _ => rfl
  have hwaiting : ∀ n ∈ approvalFirst.graph.iter, approvalFirst.statuses[n.id]? = some .waiting → n.expectsNoDiff = false := by
    decide
  have hroom : approvalFirst.graph.concurrency = 1 := by decide
  have hactionable : (approvalFirst.actionable approvalFirst.statuses {} ∅).map Node.id = ["b", "c", "a"] := by decide
  have hjoined : ∀ k < 3, (approvalFirst.joined {} ∅ ((approvalFirst.actionable approvalFirst.statuses {} ∅).take k)).size = 0 := by
    decide
  refine hsettles.mpr ⟨fun n _ => by simp, fun n hn => hwaiting n hn.1, fun before m after hsplit _ _ => ?_⟩
  have hlength : before.length < 3 := by
    have hall := congrArg List.length (congrArg (List.map Node.id) hsplit)
    rw [hactionable] at hall
    simp at hall
    omega
  have hbefore := hjoined before.length hlength
  rw [hsplit, List.take_left] at hbefore
  have hzero : (approvalFirst.joined {} ∅ before).size = 0 := hbefore
  have hone : approvalFirst.toRunState.graph.concurrency = 1 := hroom
  omega

end OnePipeline
