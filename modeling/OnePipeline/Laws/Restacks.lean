/-
The restacks a run owes (`src/stack.rs`: `restacks_owed`).

- `mem_restacksOwed_iff`: which drafts are named, and that none is named twice (`nodup_restacksOwed`).
- `not_owed_of_recorded`: a draft whose recorded stack stands where its parents' branches do is not named.
- `restacks_converge`: a named draft that settles on the stack it was named with is named no more while no head moves.
-/
import OnePipeline.Laws.Placement

namespace OnePipeline

namespace StackedRun

variable {s : StackedRun} {statuses : StrMap NodeStatus} {busy : String → Bool} {node : Node} {id : String}

/-! ## What is named -/

/-- a recorded parent whose branch stands at another head than the stack recorded -/
def Moved (s : StackedRun) (parent : SettledParent) : Prop := ∃ now, s.branchHeads[parent.branch]? = some now ∧ now ≠ parent.head

/-- whether a recorded stack says what to restack on: one parent and no base, or several and a base whose root the record names -/
def Restackable (s : StackedRun) (node : Node) (recorded : SettledStack) : Prop :=
  (recorded.stackBase = none ∧ recorded.parents.length = 1) ∨
    (recorded.stackBase.isSome ∧ 2 ≤ recorded.parents.length ∧
      (node.baseBranch.or (recorded.parents.head?.bind fun first => s.rootOf (s.newestOf first.node))).isSome)

theorem isSome_movedTo {parent : SettledParent} : (s.movedTo parent).isSome ↔ s.Moved parent := by
  simp [movedTo, Moved, Option.any_eq_true]

theorem isSome_firstMoved {recorded : SettledStack} : (s.firstMoved recorded).isSome ↔ ∃ p ∈ recorded.parents, s.Moved p := by
  simp only [firstMoved, Option.isSome_map, List.find?_isSome, isSome_movedTo]

theorem isSome_restackedOn {recorded : SettledStack} : (s.restackedOn node recorded).isSome ↔ s.Restackable node recorded := by
  have hlen : (recorded.parents.map s.standing).length = recorded.parents.length := List.length_map ..
  have hhead : (recorded.parents.map s.standing).head? = recorded.parents.head?.map s.standing := List.head?_map ..
  unfold restackedOn Restackable
  simp only []
  by_cases hmany : 2 ≤ recorded.parents.length
  · have hof : Several.of (recorded.parents.map s.standing) = some ⟨_, hlen ▸ hmany⟩ := by
      rw [Several.of, dif_pos]
    rw [hof]
    cases recorded.stackBase with
    | none => simpa using fun hone : recorded.parents.length = 1 => by omega
    | some base => simp [hmany, hhead, Option.bind_map, Function.comp_def, standing]
  · have hof : Several.of (recorded.parents.map s.standing) = none := by
      rw [Several.of, dif_neg]
      omega
    rw [hof]
    cases recorded.stackBase with
    | some base => simp [hmany]
    | none =>
      by_cases hone : recorded.parents.length = 1
      · obtain ⟨p, hp⟩ := List.length_eq_one_iff.mp hone
        simp [hp]
      · simp [hone]

theorem node_of_owedTo {owed : Owed} (h : s.owedTo statuses busy node = some owed) : owed.node = node.id := by
  unfold owedTo at h
  split_ifs at h
  simp only [Option.bind_eq_bind, Option.bind_eq_some_iff, Option.pure_def, Option.some.injEq] at h
  obtain ⟨branch, -, recorded, -, moved, -, stack, -, rfl⟩ := h
  rfl

theorem isSome_owedTo : (s.owedTo statuses busy node).isSome ↔
    s.isIdleDraft statuses busy node ∧ node.id ∈ s.branches ∧
      ∃ recorded, s.settledStacks[node.id]? = some recorded ∧ (∃ p ∈ recorded.parents, s.Moved p) ∧ s.Restackable node recorded := by
  unfold owedTo
  by_cases hidle : s.isIdleDraft statuses busy node
  · rw [if_pos hidle]
    cases hb : s.branches[node.id]? with
    | none => simp [Maps.mem_iff, hb]
    | some branch =>
      cases hs : s.settledStacks[node.id]? with
      | none => simp
      | some recorded =>
        have hm := @isSome_firstMoved s recorded
        have hr := @isSome_restackedOn s node recorded
        simp only [Option.some.injEq, exists_eq_left', ← hm, ← hr]
        cases hfirst : s.firstMoved recorded <;> cases hstack : s.restackedOn node recorded <;>
          simp [hidle, Maps.mem_iff, hb, hfirst, hstack]
  · simp [hidle]

/-- **What is named.** An idle draft with its branch and its stack on record, a parent of which moved, on a stack that says what to
restack on. -/
theorem mem_restacksOwed_iff : id ∈ (s.restacksOwed statuses busy).map Owed.node ↔
    ∃ n, s.graph.get id = some n ∧ s.isIdleDraft statuses busy n ∧ id ∈ s.branches ∧
      ∃ recorded, s.settledStacks[id]? = some recorded ∧ (∃ p ∈ recorded.parents, s.Moved p) ∧ s.Restackable n recorded := by
  simp only [restacksOwed, List.mem_map, List.mem_filterMap]
  constructor
  · rintro ⟨owed, ⟨n, hn, howed⟩, rfl⟩
    have hid := node_of_owedTo howed
    rw [hid]
    exact ⟨n, Graph.get_of_mem hn, isSome_owedTo.mp (Option.isSome_of_eq_some howed)⟩
  · rintro ⟨n, hn, hrest⟩
    obtain ⟨hmem, rfl⟩ := Graph.get_eq_some.mp hn
    obtain ⟨owed, howed⟩ := Option.isSome_iff_exists.mp (isSome_owedTo.mpr hrest)
    exact ⟨owed, ⟨n, hmem, howed⟩, node_of_owedTo howed⟩

/-- no draft is named twice -/
theorem nodup_restacksOwed : ((s.restacksOwed statuses busy).map Owed.node).Nodup := by
  have hsub : ((s.restacksOwed statuses busy).map Owed.node).Sublist s.graph.ids := by
    show List.Sublist _ (s.graph.iter.map Node.id)
    rw [restacksOwed]
    induction s.graph.iter with
    | nil => simp
    | cons n l ih =>
      cases howed : s.owedTo statuses busy n with
      | none =>
        rw [List.filterMap_cons_none howed]
        exact ih.cons _
      | some owed =>
        rw [List.filterMap_cons_some howed, List.map_cons, List.map_cons, node_of_owedTo howed]
        exact ih.cons_cons _
  exact s.graph.nodup_ids.sublist hsub

/-! ## What is named no more -/

/-- a stack each of whose parents stands at a head -/
def Stands (s : StackedRun) (branch head : String) : Prop := ∀ now, s.branchHeads[branch]? = some now → now = head

/-- every parent a draft is named with stands at the head it is named at -/
theorem stands_of_owed {owed : Owed} (h : owed ∈ s.restacksOwed statuses busy) : ∀ p ∈ owed.stack.parents, s.Stands p.branch p.head := by
  have hstanding (q : SettledParent) : s.Stands (s.standing q).branch (s.standing q).head := by
    intro now hnow
    have hq : s.branchHeads[q.branch]? = some now := hnow
    show now = (s.movedTo q).getD q.head
    by_cases hsame : now = q.head <;> simp [movedTo, hq, hsame, Option.filter]
  obtain ⟨n, -, howed⟩ := List.mem_filterMap.mp h
  unfold owedTo at howed
  split_ifs at howed
  simp only [Option.bind_eq_bind, Option.bind_eq_some_iff, Option.pure_def, Option.some.injEq] at howed
  obtain ⟨branch, -, recorded, -, moved, -, stack, hstack, rfl⟩ := howed
  intro p hp
  have hin : p ∈ recorded.parents.map s.standing := by
    unfold restackedOn at hstack
    simp only [] at hstack
    split at hstack
    · next hone =>
      split_ifs at hstack
      obtain ⟨q, hq, rfl⟩ := Option.map_eq_some_iff.mp hstack
      rw [List.mem_singleton.mp hp]
      exact List.mem_of_mem_head? hq
    · next several _ hseveral =>
      obtain ⟨root, -, rfl⟩ := Option.map_eq_some_iff.mp hstack
      rw [Several.of] at hseveral
      split_ifs at hseveral with hmany
      cases hseveral
      exact hp
    · cases hstack
  obtain ⟨q, -, rfl⟩ := List.mem_map.mp hin
  exact hstanding q

/-- a draft whose recorded stack stands where its parents' branches do is not named -/
theorem not_owed_of_recorded (h : ∀ recorded, s.settledStacks[id]? = some recorded → ∀ q ∈ recorded.parents, s.Stands q.branch q.head) :
    id ∉ (s.restacksOwed statuses busy).map Owed.node := by
  rw [mem_restacksOwed_iff]
  rintro ⟨n, -, -, -, recorded, hrecorded, ⟨q, hq, now, hnow, hne⟩, -⟩
  exact hne (h recorded hrecorded q hq now hnow)

/-! ## A run -/

/-- whether a record is a settlement of a node -/
def Settles (node : String) (record : Envelope × StackSays) : Prop := ∃ settled, record.1.body = .nodeSettled settled ∧ record.1.node = some node

variable {host : Host}

/-- the stack recorded for a node is as its last settlement left it -/
theorem settledStacks_foldRecord {record : Envelope × StackSays} (h : ¬Settles id record) :
    (s.foldRecord host record).settledStacks[id]? = s.settledStacks[id]? := by
  have hbeside : (s.foldBeside host.toSiblings record.1 record.2).settledStacks[id]? = s.settledStacks[id]? := by
    unfold foldBeside
    split
    · next settled hbody =>
      split
      · next n hn =>
        have hne : n ≠ id := fun heq => h ⟨settled, hbody, hn.trans (congrArg some heq)⟩
        simp only [foldSettledStack]
        split_ifs
        · split <;> simp [Std.ExtTreeMap.getElem?_insert, Std.ExtTreeMap.getElem?_erase, hne]
        · rfl
      · rfl
    · split_ifs <;> rfl
    all_goals rfl
  simp only [foldRecord]
  split_ifs
  · exact hbeside
  · rfl

theorem settledStacks_foldl {records : List (Envelope × StackSays)} (h : ∀ r ∈ records, ¬Settles id r) :
    (records.foldl (foldRecord host) s).settledStacks[id]? = s.settledStacks[id]? := by
  induction records generalizing s with
  | nil => rfl
  | cons r records ih =>
    rw [List.foldl_cons, ih fun r hr => h r (List.mem_cons_of_mem _ hr)]
    exact settledStacks_foldRecord (h r List.mem_cons_self)

/-- a settlement that states its base leaves the stack it states on record, or none -/
theorem settledStacks_settled {settlement : Envelope} {settled : Settlement} {recorded : SettledStack}
    (hbody : settlement.body = .nodeSettled settled) (hnode : settlement.node = some id) (hbase : settled.base.isSome)
    (hread : settlement.isPipeline → writtenAtAKnownVersion settlement) :
    ∀ stack, (s.foldRecord host (settlement, .settledOn (some recorded))).settledStacks[id]? = some stack → stack = recorded := by
  intro stack hstack
  simp only [foldRecord, if_pos hread, foldBeside, hbody, hnode, foldSettledStack, if_pos hbase] at hstack
  by_cases husable : recorded.isUsable host.toSiblings
  · simpa [Option.filter, husable, eq_comm] using hstack
  · simp [Option.filter, husable] at hstack

/-- the record a settlement on a stack carries names each parent's branch at the head it was settled at -/
theorem parents_settled {stack : Stack} {heads : StrMap String}
    (h : ∀ p ∈ stack.parents, ∀ head, heads[p.branch]? = some head → head = p.head) :
    ∀ q ∈ (stack.settled heads).parents, ∃ p ∈ stack.parents, q.branch = p.branch ∧ q.head = p.head := by
  intro q hq
  obtain ⟨p, hp, rfl⟩ := List.mem_map.mp hq
  refine ⟨p, hp, rfl, ?_⟩
  show heads[p.branch]?.getD p.head = p.head
  cases hhead : heads[p.branch]? with
  | none => rfl
  | some head => exact h p hp head hhead

end StackedRun

open StackedRun

/-- **Restacks.** A draft named with a stack that settles on it, among any records, is named no more while the heads of that stack's
parents stay; and a draft is named, once, exactly where it is idle, its branch and a stack are on record, a parent's branch stands at
another head than the stack recorded, and the stack says what to restack on. -/
theorem restacks_converge (host : Host) (s : StackedRun) (statuses : StrMap NodeStatus) (busy : String → Bool) :
    (∀ owed ∈ s.restacksOwed statuses busy, ∀ (before after : List (Envelope × StackSays)) (settlement : Envelope) (settled : Settlement)
      (heads : StrMap String) (t : StackedRun),
      settlement.body = .nodeSettled settled → settlement.node = some owed.node → settled.base.isSome →
      (settlement.isPipeline → writtenAtAKnownVersion settlement) →
      (∀ p ∈ owed.stack.parents, ∀ head, heads[p.branch]? = some head → head = p.head) →
      (∀ r ∈ after, ¬Settles owed.node r) →
      t = (before ++ (settlement, .settledOn (some (owed.stack.settled heads))) :: after).foldl (foldRecord host) s →
      (∀ p ∈ owed.stack.parents, t.branchHeads[p.branch]? = s.branchHeads[p.branch]?) →
        ∀ statuses' busy', owed.node ∉ (t.restacksOwed statuses' busy').map Owed.node) ∧
    (∀ id, id ∈ (s.restacksOwed statuses busy).map Owed.node ↔
      ∃ n, s.graph.get id = some n ∧ s.isIdleDraft statuses busy n ∧ id ∈ s.branches ∧
        ∃ recorded, s.settledStacks[id]? = some recorded ∧ (∃ p ∈ recorded.parents, s.Moved p) ∧ s.Restackable n recorded) ∧
    ((s.restacksOwed statuses busy).map Owed.node).Nodup := by
  refine ⟨?_, fun id => mem_restacksOwed_iff, nodup_restacksOwed⟩
  intro owed howed before after settlement settled heads t hbody hnode hbase hread hheads hafter ht hstay statuses' busy'
  have hstood := stands_of_owed howed
  refine not_owed_of_recorded fun recorded hrecorded q hq => ?_
  have hlast : recorded = owed.stack.settled heads := by
    rw [ht, List.foldl_append, List.foldl_cons, settledStacks_foldl hafter] at hrecorded
    exact settledStacks_settled hbody hnode hbase hread recorded hrecorded
  subst hlast
  obtain ⟨p, hp, hbranch, hhead⟩ := parents_settled hheads q hq
  intro now hnow
  rw [hbranch, hstay p hp] at hnow
  rw [hhead]
  exact hstood p hp now hnow

/-! ## A draft whose parent moved, and one whose root the record does not name -/

/-- a node's draft settled on a branch, and the stack it was drafted on -/
def stackedDraft (seq : ℕ) (node branch head base : String) (stack : Option SettledStack) : Envelope × StackSays :=
  (.own seq (some node) (.nodeSettled
    { status := some .done, branch := some branch, base := some base, statesHead := true, head := some head,
      landing := some .unlanded }), .settledOn stack)

/-- a draft on another's branch, and the lower one published again -/
def parentMoved : StackedRun :=
  [stackedDraft 1 "a" "br-a" "1a" "main" none, stackedDraft 2 "b" "br-b" "1b" "br-a" (some ⟨[⟨"a", "br-a", "1a"⟩], none⟩),
    stackedDraft 3 "a" "br-a" "2a" "main" none].foldl (StackedRun.foldRecord .lenient) { toRunState := RunState.started stackOfThree }

/-- the draft restacked on the head its parent moved to -/
def restackedOnMoved : Envelope × StackSays :=
  stackedDraft 4 "b" "br-b" "2b" "br-a" (some ((Stack.onParent ⟨"a", "br-a", "2a", none⟩).settled ∅))

/-- a restacked draft named by the pass before its settlement, and by no pass after it -/
theorem restacks_converge_moved :
    (parentMoved.restacksOwed parentMoved.statuses fun _ => false).map Owed.node = ["b"] ∧
      ∀ statuses busy, "b" ∉ ((parentMoved.foldRecord .lenient restackedOnMoved).restacksOwed statuses busy).map Owed.node := by
  let stack : Stack := .onParent ⟨"a", "br-a", "2a", none⟩
  have howed : parentMoved.restacksOwed parentMoved.statuses (fun _ => false) = [⟨"b", "br-b", stack, .rework⟩] := by decide
  have hheads : (parentMoved.foldRecord .lenient restackedOnMoved).branchHeads["br-a"]? = parentMoved.branchHeads["br-a"]? := by
    decide
  have hempty (p : StackParent) (head : String) (h : (∅ : StrMap String)[p.branch]? = some head) : head = p.head := by
    rw [Std.ExtTreeMap.getElem?_empty] at h
    cases h
  have hread : restackedOnMoved.1.isPipeline → writtenAtAKnownVersion restackedOnMoved.1 := by decide
  refine ⟨by rw [howed]; rfl, fun statuses busy => ?_⟩
  obtain ⟨hnamed, -, -⟩ := restacks_converge .lenient parentMoved parentMoved.statuses fun _ => false
  have hin : ⟨"b", "br-b", stack, .rework⟩ ∈ parentMoved.restacksOwed parentMoved.statuses fun _ => false := by
    rw [howed]
    exact List.mem_singleton_self _
  refine hnamed _ hin [] [] restackedOnMoved.1 _ ∅ _ rfl rfl rfl hread (fun p _ => hempty p) (fun _ hr => nomatch hr) rfl ?_ statuses busy
  intro p hp
  rw [List.mem_singleton.mp hp]
  exact hheads

example : (parentMoved.foldRecord .lenient restackedOnMoved).branchHeads.toList = [("br-a", "2a"), ("br-b", "2b")] := by decide +kernel

/-- a draft whose settlement names no base -/
def baselessDraft (seq : ℕ) (node branch head : String) : Envelope × StackSays :=
  (.own seq (some node) (.nodeSettled
    { status := some .done, branch := some branch, base := none, statesHead := true, head := some head,
      landing := some .unlanded }), .nothing)

/-- two drafts whose settlements name no base, a third on a stack base of both, and the first published again -/
def rootUnnamed : StackedRun :=
  [baselessDraft 1 "a" "br-a" "1a", baselessDraft 2 "b" "br-b" "1b",
    stackedDraft 3 "c" "br-c" "1c" "base-c" (some ⟨[⟨"a", "br-a", "1a"⟩, ⟨"b", "br-b", "1b"⟩], some "base-c"⟩),
    baselessDraft 4 "a" "br-a" "2a"].foldl (StackedRun.foldRecord .lenient)
    { toRunState := RunState.started (.ofNodes [.landing "a" [], .landing "b" [], .landing "c" ["a", "b"]]) }

/-- an idle draft on a usable stack, a parent of which moved, and no root to assemble its base from: not named -/
theorem root_unnamed_not_owed :
    ((rootUnnamed.graph.get "c").any (rootUnnamed.isIdleDraft rootUnnamed.statuses fun _ => false)) = true ∧
      "c" ∈ rootUnnamed.branches ∧
      (∃ recorded, rootUnnamed.settledStacks["c"]? = some recorded ∧ recorded.isUsable Host.lenient.toSiblings = true ∧
        ∃ p ∈ recorded.parents, rootUnnamed.Moved p) ∧
      "c" ∉ (rootUnnamed.restacksOwed rootUnnamed.statuses fun _ => false).map Owed.node := by
  have hidle : ((rootUnnamed.graph.get "c").any (rootUnnamed.isIdleDraft rootUnnamed.statuses fun _ => false)) = true := by
    decide
  have hbranch : "c" ∈ rootUnnamed.branches := by decide
  have hstack : rootUnnamed.settledStacks["c"]? =
      some ⟨[⟨"a", "br-a", "1a"⟩, ⟨"b", "br-b", "1b"⟩], some "base-c"⟩ := by
    decide
  have husable : SettledStack.isUsable Host.lenient.toSiblings
      ⟨[⟨"a", "br-a", "1a"⟩, ⟨"b", "br-b", "1b"⟩], some "base-c"⟩ = true := by
    decide
  have hmoved : rootUnnamed.branchHeads["br-a"]? = some "2a" := by decide
  have howed : (rootUnnamed.restacksOwed rootUnnamed.statuses fun _ => false).map Owed.node = [] := by decide
  refine ⟨hidle, hbranch, ⟨_, hstack, husable, _, List.mem_cons_self, "2a", hmoved, by decide⟩, ?_⟩
  rw [howed]
  exact List.not_mem_nil

end OnePipeline
