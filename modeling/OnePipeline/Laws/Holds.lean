/-
What an item is shown to block is what it keeps from dispatch, but for a hold on a step that is done.

A driver and a view walk the dependents of a step in two places, over the run's graph and over its cached DAG. A driver
lets a work hold go once its step is done; a view does not ask.

Results:
- `mem_held`: a driver holds exactly the steps an open block binds;
- `lists_iff`: a view lists exactly the undispatched steps an open block spans, a done step's as well;
- `listed_iff_held`: the two agree exactly where every undispatched step that depends on a done step a work hold names is
  also bound by another block;
- `done_step_still_blocks`: an item on a done step lists the ready step after it, which the driver dispatches.
-/
import Mathlib.Tactic
import OnePipeline.Core.Maps
import OnePipeline.Model.Holds

namespace OnePipeline.HumanItems

open Flood

section

variable {run plan : String} {graph : Graph} {statuses : StrMap NodeStatus} {items : List HumanItem} {n : String}

/-! ## What a block binds -/

/-- a step a work hold reaches: its own agent step, or one that depends on it -/
def Reaches (graph : Graph) (node n : String) : Prop :=
  (n = node ∧ ∃ found, graph.get n = some found ∧ found.kind ≠ .human) ∨ Leads graph.dependentsOf node n

variable (run plan graph statuses) in
/-- a step of the run an open block keeps from dispatch -/
def Binds (n : String) : HumanItemBlock → Prop
  | .host => n ∈ graph.ids
  | .plan p => p = plan ∧ n ∈ graph.ids
  | .work r node => r = run ∧ statuses[node]? ≠ some .done ∧ Reaches graph node n
  | .nothing => False

variable (run plan graph) in
/-- a step of the run an open block is shown over -/
def Spans (n : String) : HumanItemBlock → Prop
  | .host => n ∈ graph.ids
  | .plan p => p = plan ∧ n ∈ graph.ids
  | .work r node => r = run ∧ Reaches graph node n
  | .nothing => False

theorem mem_ids_of_leads {node : String} (h : Leads graph.dependentsOf node n) : n ∈ graph.ids := by
  have hlast : ∀ {a b : String}, b ∈ graph.dependentsOf a → b ∈ graph.ids := by
    intro a b hb
    obtain ⟨found, hfound, -⟩ := Graph.mem_dependentsOf.mp hb
    exact Graph.mem_ids_of_get hfound
  cases h with
  | single h => exact hlast h
  | tail _ h => exact hlast h

theorem mem_ids_of_spans {block : HumanItemBlock} (h : Spans run plan graph n block) : n ∈ graph.ids := by
  cases block with
  | nothing => exact h.elim
  | host => exact h
  | plan p => exact h.2
  | work r node =>
    rcases h.2 with ⟨-, found, hfound, -⟩ | hlead
    · exact Graph.mem_ids_of_get hfound
    · exact mem_ids_of_leads hlead

/-- a block binds what it spans, but for a work hold on a step that is done -/
theorem binds_iff {block : HumanItemBlock} :
    Binds run plan graph statuses n block ↔
      Spans run plan graph n block ∧ ∀ node, block = .work run node → statuses[node]? ≠ some .done := by
  cases block with
  | nothing => simp [Binds, Spans]
  | host => simp [Binds, Spans]
  | plan p => simp [Binds, Spans]
  | work r node =>
    constructor
    · rintro ⟨rfl, hopen, hreach⟩
      refine ⟨⟨rfl, hreach⟩, fun node' heq => ?_⟩
      cases heq
      exact hopen
    · rintro ⟨⟨rfl, hreach⟩, hopen⟩
      exact ⟨rfl, hopen node rfl, hreach⟩

/-! ## A driver's holds -/

theorem mem_insertNew {held : List String} {id : String} : n ∈ insertNew held id ↔ n = id ∨ n ∈ held := by
  unfold insertNew
  split_ifs with h
  · constructor
    · exact .inr
    · rintro (rfl | hn)
      · exact h
      · exact hn
  · rw [List.mem_append, List.mem_singleton, or_comm]

theorem mem_extend {held ids : List String} : n ∈ extend held ids ↔ n ∈ held ∨ n ∈ ids := by
  unfold extend
  induction ids generalizing held with
  | nil => simp
  | cons id ids ih => rw [List.foldl_cons, ih, mem_insertNew, List.mem_cons, or_comm (a := n = id), or_assoc]

/-- steps held with everything that depends on them -/
def Downstream (graph : Graph) (held : List String) : Prop := ∀ u ∈ held, ∀ w ∈ graph.dependentsOf u, w ∈ held

theorem mem_flood_dependents {held : List String} {node : String} (hheld : ∀ u ∈ held, ∀ w ∈ graph.dependentsOf u, w ∈ held ∨ u = node) :
    n ∈ flood graph.dependentsOf (traversal graph.ids.length) [node] held ↔ n ∈ held ∨ Leads graph.dependentsOf node n := by
  have hnext : ∀ v, ∀ w ∈ graph.dependentsOf v, w ∈ graph.ids := by
    intro v w hw
    obtain ⟨found, hfound, -⟩ := Graph.mem_dependentsOf.mp hw
    exact Graph.mem_ids_of_get hfound
  exact mem_flood hnext (Nat.lt_succ_self _) hheld

/-- the steps one block adds -/
theorem mem_holdFor {held : List String} (hheld : Downstream graph held) (block : HumanItemBlock) :
    n ∈ holdFor run plan graph statuses held block ↔ n ∈ held ∨ Binds run plan graph statuses n block := by
  cases block with
  | nothing => simp [holdFor, Binds]
  | host => exact mem_extend
  | plan p =>
    simp only [holdFor, Binds]
    split_ifs with hp
    · rw [mem_extend]
      simp [hp]
    · simp [hp]
  | work r node =>
    simp only [holdFor, Binds]
    by_cases hbinds : r = run ∧ statuses[node]? ≠ some .done
    · rw [if_pos hbinds]
      have hown : (graph.get node).any (·.kind ≠ .human) = true ↔ ∃ found, graph.get node = some found ∧ found.kind ≠ .human := by
        cases graph.get node with
        | none => simp
        | some found => simp
      by_cases hagent : (graph.get node).any (·.kind ≠ .human) = true
      · rw [if_pos hagent, mem_flood_dependents, mem_insertNew]
        · constructor
          · rintro ((rfl | hn) | hlead)
            · exact .inr ⟨hbinds.1, hbinds.2, .inl ⟨rfl, hown.mp hagent⟩⟩
            · exact .inl hn
            · exact .inr ⟨hbinds.1, hbinds.2, .inr hlead⟩
          · rintro (hn | ⟨-, -, ⟨rfl, -⟩ | hlead⟩)
            · exact .inl (.inr hn)
            · exact .inl (.inl rfl)
            · exact .inr hlead
        · intro u hu w hw
          rcases mem_insertNew.mp hu with rfl | hu
          · exact .inr rfl
          · exact .inl (mem_insertNew.mpr (.inr (hheld u hu w hw)))
      · rw [if_neg hagent, mem_flood_dependents fun u hu w hw => .inl (hheld u hu w hw)]
        constructor
        · rintro (hn | hlead)
          · exact .inl hn
          · exact .inr ⟨hbinds.1, hbinds.2, .inr hlead⟩
        · rintro (hn | ⟨-, -, ⟨rfl, hown'⟩ | hlead⟩)
          · exact .inl hn
          · exact absurd (hown.mpr hown') hagent
          · exact .inr hlead
    · rw [if_neg hbinds]
      constructor
      · exact .inl
      · rintro (hn | ⟨hr, hopen, -⟩)
        · exact hn
        · exact absurd ⟨hr, hopen⟩ hbinds

/-- what depends on a step a block binds is bound by it -/
theorem Binds.downstream {block : HumanItemBlock} (h : Binds run plan graph statuses n block) {w : String}
    (hw : w ∈ graph.dependentsOf n) : Binds run plan graph statuses w block := by
  have hids : w ∈ graph.ids := mem_ids_of_leads (.single hw)
  cases block with
  | nothing => exact h.elim
  | host => exact hids
  | plan p => exact ⟨h.1, hids⟩
  | work r node =>
    obtain ⟨hr, hopen, hreach⟩ := h
    refine ⟨hr, hopen, .inr ?_⟩
    rcases hreach with ⟨rfl, -⟩ | hlead
    · exact .single hw
    · exact .tail hlead hw

theorem downstream_holdFor {held : List String} (hheld : Downstream graph held) (block : HumanItemBlock) :
    Downstream graph (holdFor run plan graph statuses held block) := by
  intro u hu w hw
  rw [mem_holdFor hheld] at hu ⊢
  rcases hu with hu | hu
  · exact .inl (hheld u hu w hw)
  · exact .inr (hu.downstream hw)

/-- **A driver's holds.** -/
theorem mem_held : n ∈ held run plan graph statuses items ↔
    ∃ item ∈ items, item.isBlocking = true ∧ Binds run plan graph statuses n item.block := by
  have hfold (l : List HumanItem) {start : List String} (hstart : Downstream graph start) :
      n ∈ l.foldl (fun held item => holdFor run plan graph statuses held item.block) start ↔
        n ∈ start ∨ ∃ item ∈ l, Binds run plan graph statuses n item.block := by
    induction l generalizing start with
    | nil => simp
    | cons item l ih =>
      rw [List.foldl_cons, ih (downstream_holdFor hstart item.block), mem_holdFor hstart]
      simp only [List.mem_cons, exists_eq_or_imp, or_assoc]
  unfold held
  rw [hfold _ fun u hu => (by cases hu)]
  simp only [List.not_mem_nil, false_or, List.mem_filter, and_assoc]

/-! ## A view's lists -/

/-- a view lists a step of the run under the item -/
def Lists (runs : StrMap RunDag) (item : HumanItem) (run n : String) : Prop :=
  ∃ group ∈ blockedNodes runs item, ∃ entry ∈ group.2, entry.run = run ∧ entry.node = n

/-- a step of a run is in a group -/
def Grouped (groups : List (String × List HumanItemNode)) (run n : String) : Prop :=
  ∃ group ∈ groups, ∃ entry ∈ group.2, entry.run = run ∧ entry.node = n

theorem grouped_push {groups : List (String × List HumanItemNode)} {plan r : String} {node : DagNode} :
    Grouped (push groups plan r node) run n ↔ Grouped groups run n ∨ r = run ∧ node.id = n := by
  unfold push
  simp only
  split_ifs with hany
  · constructor
    · rintro ⟨group, hgroup, entry, hentry, hat⟩
      obtain ⟨old, hold, rfl⟩ := List.mem_map.mp hgroup
      split_ifs at hentry with hplan
      · rcases List.mem_append.mp hentry with hentry | hentry
        · exact .inl ⟨old, hold, entry, hentry, hat⟩
        · rw [List.mem_singleton.mp hentry] at hat
          exact .inr hat
      · exact .inl ⟨old, hold, entry, hentry, hat⟩
    · rintro (⟨group, hgroup, entry, hentry, hat⟩ | hat)
      · refine ⟨_, List.mem_map_of_mem hgroup, entry, ?_, hat⟩
        split_ifs
        · exact List.mem_append_left _ hentry
        · exact hentry
      · obtain ⟨group, hgroup, hplan⟩ := List.any_eq_true.mp hany
        refine ⟨_, List.mem_map_of_mem hgroup, ⟨r, node.id, node.title⟩, ?_, hat⟩
        rw [if_pos (of_decide_eq_true hplan)]
        exact List.mem_append_right _ (List.mem_singleton_self _)
  · constructor
    · rintro ⟨group, hgroup, entry, hentry, hat⟩
      rcases List.mem_append.mp hgroup with hgroup | hgroup
      · exact .inl ⟨group, hgroup, entry, hentry, hat⟩
      · rw [List.mem_singleton.mp hgroup] at hentry
        rw [List.mem_singleton.mp hentry] at hat
        exact .inr hat
    · rintro (⟨group, hgroup, entry, hentry, hat⟩ | hat)
      · exact ⟨group, List.mem_append_left _ hgroup, entry, hentry, hat⟩
      · exact ⟨_, List.mem_append_right _ (List.mem_singleton_self _), ⟨r, node.id, node.title⟩, List.mem_singleton_self _, hat⟩

theorem grouped_pushAll {groups : List (String × List HumanItemNode)} {plan r : String} {nodes : List DagNode} :
    Grouped (pushAll groups plan r nodes) run n ↔ Grouped groups run n ∨ r = run ∧ ∃ node ∈ nodes, node.id = n := by
  unfold pushAll
  induction nodes generalizing groups with
  | nil => simp
  | cons node nodes ih =>
    rw [List.foldl_cons, ih, grouped_push]
    simp only [List.mem_cons, exists_eq_or_imp, or_assoc, ← and_or_left]

/-- the undispatched steps of every run of a list, grouped -/
theorem grouped_runs (planOf : String × RunDag → String) {l : List (String × RunDag)} {groups : List (String × List HumanItemNode)} :
    Grouped (l.foldl (fun groups r => pushAll groups (planOf r) r.1 (r.2.nodes.filter DagNode.undispatched)) groups) run n ↔
      Grouped groups run n ∨ ∃ r ∈ l, r.1 = run ∧ ∃ node ∈ r.2.nodes, node.undispatched = true ∧ node.id = n := by
  induction l generalizing groups with
  | nil => simp
  | cons r l ih =>
    rw [List.foldl_cons, ih, grouped_pushAll]
    simp only [List.mem_cons, exists_eq_or_imp, or_assoc, List.mem_filter, and_assoc]

/-! ### The DAG of the run's state -/

theorem length_deriveDag : (deriveDag plan graph statuses).nodes.length = graph.ids.length := by
  simp only [deriveDag, List.length_map, Graph.ids, Keyed.keys]
  rfl

theorem dependents_deriveDag (id : String) : (deriveDag plan graph statuses).dependents id = graph.dependentsOf id := by
  unfold RunDag.dependents deriveDag Graph.dependentsOf
  rw [List.filter_map, List.map_map]
  rfl

variable (plan graph statuses n) in
/-- a step of the run's DAG that no dispatch was made of -/
theorem exists_deriveDag (p : Bool → Prop) :
    (∃ node ∈ (deriveDag plan graph statuses).nodes, (node.undispatched = true ∧ p node.human) ∧ node.id = n) ↔
      undispatched (statusOf statuses n) = true ∧ ∃ found, graph.get n = some found ∧ p (found.kind = .human) := by
  constructor
  · rintro ⟨node, hnode, ⟨hopen, hp⟩, rfl⟩
    obtain ⟨found, hfound, rfl⟩ := List.mem_map.mp hnode
    exact ⟨hopen, found, Graph.get_of_mem hfound, hp⟩
  · rintro ⟨hopen, found, hfound, hp⟩
    obtain ⟨hmem, rfl⟩ := Graph.get_eq_some.mp hfound
    exact ⟨_, List.mem_map_of_mem hmem, ⟨hopen, hp⟩, rfl⟩

theorem exists_undispatched :
    (∃ node ∈ (deriveDag plan graph statuses).nodes, node.undispatched = true ∧ node.id = n) ↔
      undispatched (statusOf statuses n) = true ∧ n ∈ graph.ids := by
  have hall := exists_deriveDag plan graph statuses n fun _ => True
  simp only [and_true] at hall
  rw [hall, ← Graph.isSome_get, Option.isSome_iff_exists]

/-- the undispatched steps a work hold is shown over -/
theorem exists_blockedByWork {node : String} :
    (∃ dagNode ∈ blockedByWork (deriveDag plan graph statuses) node, dagNode.id = n) ↔
      undispatched (statusOf statuses n) = true ∧ Reaches graph node n := by
  have hreached : n ∈ flood (deriveDag plan graph statuses).dependents (traversal (deriveDag plan graph statuses).nodes.length)
      [node] [] ↔ Leads graph.dependentsOf node n := by
    rw [length_deriveDag, funext dependents_deriveDag, mem_flood_dependents fun u hu => (by cases hu)]
    simp
  have hall := exists_deriveDag plan graph statuses n fun human => Leads graph.dependentsOf node n ∨ n = node ∧ human = false
  constructor
  · rintro ⟨dagNode, hin, rfl⟩
    obtain ⟨hmem, hkept⟩ := List.mem_filter.mp hin
    simp only [Bool.and_eq_true, Bool.or_eq_true, decide_eq_true_eq, Bool.not_eq_true'] at hkept
    obtain ⟨hopen, found, hfound, hp⟩ := hall.mp ⟨dagNode, hmem, ⟨hkept.1, hkept.2.imp_left hreached.mp⟩, rfl⟩
    refine ⟨hopen, ?_⟩
    rcases hp with hlead | ⟨heq, hkind⟩
    · exact .inr hlead
    · exact .inl ⟨heq, found, hfound, of_decide_eq_false hkind⟩
  · rintro ⟨hopen, hreach⟩
    have hp : ∃ found, graph.get n = some found ∧
        (Leads graph.dependentsOf node n ∨ n = node ∧ decide (found.kind = .human) = false) := by
      rcases hreach with ⟨heq, found, hfound, hkind⟩ | hlead
      · exact ⟨found, hfound, .inr ⟨heq, decide_eq_false hkind⟩⟩
      · obtain ⟨found, hfound⟩ := Option.isSome_iff_exists.mp (Graph.isSome_get.mpr (mem_ids_of_leads hlead))
        exact ⟨found, hfound, .inl hlead⟩
    obtain ⟨dagNode, hmem, ⟨hundispatched, hkept⟩, rfl⟩ := hall.mpr ⟨hopen, hp⟩
    refine ⟨dagNode, List.mem_filter.mpr ⟨hmem, ?_⟩, rfl⟩
    simp only [Bool.and_eq_true, Bool.or_eq_true, decide_eq_true_eq, Bool.not_eq_true']
    exact ⟨hundispatched, hkept.imp_left hreached.mpr⟩

/-- the host's runs, this one at its state -/
def runsWith (others : StrMap RunDag) (run plan : String) (graph : Graph) (statuses : StrMap NodeStatus) : StrMap RunDag :=
  others.insert run (deriveDag plan graph statuses)

theorem mem_runsWith {others : StrMap RunDag} {r : String × RunDag} (hr : r.1 = run) :
    r ∈ (runsWith others run plan graph statuses).toList ↔ r.2 = deriveDag plan graph statuses := by
  obtain ⟨key, dag⟩ := r
  cases hr
  rw [Std.ExtTreeMap.mem_toList_iff_getElem?_eq_some, runsWith, Maps.get_insert, if_pos rfl, Option.some.injEq, eq_comm]

/-- **A view's lists.** -/
theorem lists_iff {others : StrMap RunDag} {item : HumanItem} :
    Lists (runsWith others run plan graph statuses) item run n ↔
      item.isBlocking = true ∧ undispatched (statusOf statuses n) = true ∧ Spans run plan graph n item.block := by
  show Grouped (blockedNodes (runsWith others run plan graph statuses) item) run n ↔ _
  have hnone : ¬Grouped [] run n := by
    rintro ⟨group, hgroup, -⟩
    cases hgroup
  unfold blockedNodes
  cases hblocking : item.isBlocking with
  | false => simp [hnone]
  | true =>
    simp only [Bool.true_eq_false, if_false, true_and]
    cases item.block with
    | nothing => simp [hnone, Spans]
    | host =>
      rw [grouped_runs fun r => r.2.plan]
      simp only [hnone, false_or, Spans]
      constructor
      · rintro ⟨r, hr, hrun, node, hnode, hopen, hid⟩
        rw [(mem_runsWith hrun).mp hr] at hnode
        exact exists_undispatched.mp ⟨node, hnode, hopen, hid⟩
      · intro h
        obtain ⟨node, hnode, hopen, hid⟩ := exists_undispatched.mpr h
        exact ⟨(run, deriveDag plan graph statuses), (mem_runsWith rfl).mpr rfl, rfl, node, hnode, hopen, hid⟩
    | plan p =>
      simp only
      rw [grouped_runs fun _ => p]
      simp only [hnone, false_or, Spans]
      constructor
      · rintro ⟨r, hr, hrun, node, hnode, hopen, hid⟩
        obtain ⟨hr, hplan⟩ := List.mem_filter.mp hr
        rw [(mem_runsWith hrun).mp hr] at hnode hplan
        obtain ⟨hopen, hids⟩ := exists_undispatched.mp ⟨node, hnode, hopen, hid⟩
        exact ⟨hopen, (of_decide_eq_true hplan).symm, hids⟩
      · rintro ⟨hopen, rfl, hids⟩
        obtain ⟨node, hnode, hopen, hid⟩ := exists_undispatched.mpr ⟨hopen, hids⟩
        refine ⟨(run, deriveDag p graph statuses), List.mem_filter.mpr ⟨(mem_runsWith rfl).mpr rfl, decide_eq_true rfl⟩, rfl,
          node, hnode, hopen, hid⟩
    | work r node =>
      simp only [Spans]
      by_cases hr : r = run
      · subst hr
        rw [show (runsWith others r plan graph statuses)[r]? = some (deriveDag plan graph statuses) by
          rw [runsWith, Maps.get_insert, if_pos rfl]]
        simp only
        rw [grouped_pushAll, exists_blockedByWork]
        simp [hnone]
      · constructor
        · intro h
          cases hdag : (runsWith others run plan graph statuses)[r]? with
          | none =>
            rw [hdag] at h
            exact (hnone h).elim
          | some dag =>
            rw [hdag] at h
            rcases grouped_pushAll.mp h with h | ⟨h, -⟩
            · exact (hnone h).elim
            · exact absurd h hr
        · rintro ⟨-, h, -⟩
          exact absurd h hr

/-! ## The two together -/

/-- every undispatched step that depends on a done step a work hold names is bound by another block -/
def CoveredElsewhere (run plan : String) (graph : Graph) (statuses : StrMap NodeStatus) (items : List HumanItem) : Prop :=
  ∀ item ∈ items, item.isBlocking = true → ∀ node, item.block = .work run node → statuses[node]? = some .done →
    ∀ n, undispatched (statusOf statuses n) = true → Leads graph.dependentsOf node n →
      ∃ other ∈ items, other.isBlocking = true ∧ Binds run plan graph statuses n other.block

/-- **Shown and held.** The undispatched steps a driver holds are the steps a view lists exactly where those that depend on
a done step a work hold names are held by another item. -/
theorem listed_iff_held (run plan : String) (graph : Graph) (statuses : StrMap NodeStatus) (items : List HumanItem)
    (others : StrMap RunDag) :
    (∀ n, (∃ item ∈ items, Lists (runsWith others run plan graph statuses) item run n) ↔
        n ∈ held run plan graph statuses items ∧ undispatched (statusOf statuses n) = true) ↔
      CoveredElsewhere run plan graph statuses items := by
  constructor
  · intro hagree item hitem hblocking node hblock _ n hopen hlead
    have hlists : ∃ item ∈ items, Lists (runsWith others run plan graph statuses) item run n := by
      refine ⟨item, hitem, lists_iff.mpr ⟨hblocking, hopen, ?_⟩⟩
      rw [hblock]
      exact ⟨rfl, .inr hlead⟩
    exact mem_held.mp ((hagree n).mp hlists).1
  · intro hcovered n
    constructor
    · rintro ⟨item, hitem, hlists⟩
      obtain ⟨hblocking, hopen, hspans⟩ := lists_iff.mp hlists
      refine ⟨mem_held.mpr ?_, hopen⟩
      by_cases hdone : ∃ node, item.block = .work run node ∧ statuses[node]? = some .done
      · obtain ⟨node, hblock, hstatus⟩ := hdone
        rw [hblock] at hspans
        rcases hspans.2 with ⟨rfl, -⟩ | hlead
        · -- a done step is not undispatched
          rw [statusOf, hstatus] at hopen
          cases hopen
        · exact hcovered item hitem hblocking node hblock hstatus n hopen hlead
      · refine ⟨item, hitem, hblocking, binds_iff.mpr ⟨hspans, fun node hblock hstatus => hdone ⟨node, hblock, hstatus⟩⟩⟩
    · rintro ⟨hheld, hopen⟩
      obtain ⟨item, hitem, hblocking, hbinds⟩ := mem_held.mp hheld
      exact ⟨item, hitem, lists_iff.mpr ⟨hblocking, hopen, (binds_iff.mp hbinds).1⟩⟩

end

/-! ## A hold on a done step -/

/-- a step and the one after it -/
def pair : Graph := (Graph.empty.insert { id := "a" }).insert { id := "b", deps := ["a"] }

def firstDone : StrMap NodeStatus := Std.ExtTreeMap.ofList [("a", .done), ("b", .ready)] compare

/-- an open item on the first step -/
def onFirst : HumanItem :=
  { id := "hi-1", dedupKey := "ask", kind := .task, title := "t", body := "b", priority := .low
    owner := { session := "s", run := none, plan := none }, block := .work "r" "a", createdAt := "1", updatedAt := "1" }

/-- **Shown, and dispatched.** -/
theorem done_step_still_blocks :
    ¬∀ n, (∃ item ∈ [onFirst], Lists (runsWith ∅ "r" "p" pair firstDone) item "r" n) ↔
      n ∈ held "r" "p" pair firstDone [onFirst] ∧ undispatched (statusOf firstDone n) = true := by
  intro hagree
  have hlead : Leads pair.dependentsOf "a" "b" := .single (by decide)
  have hlists : ∃ item ∈ [onFirst], Lists (runsWith ∅ "r" "p" pair firstDone) item "r" "b" :=
    ⟨onFirst, List.mem_singleton_self _, lists_iff.mpr ⟨by decide, by decide, rfl, .inr hlead⟩⟩
  have hnot : "b" ∉ held "r" "p" pair firstDone [onFirst] := by decide
  exact hnot ((hagree "b").mp hlists).1

end OnePipeline.HumanItems
