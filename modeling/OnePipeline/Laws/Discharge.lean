/-
What stays a decision the run waits on, and what stops being one (`src/discharge.rs`, `src/findings.rs`).

Every step is made of a few changes to the channel. What a change does to a decision, to an answer and to a surface about a
node is said once for each change; a commit is read off them.

Results:
- `older_step`: a surface that is no decision never becomes one again;
- `discharged`: no surface about a node a commit took out of the graph is a decision after it;
- `Sound.step`: every standing surface is one that was queued, and no question is answered twice;
- `Untouched.step`: a surface is unanswered and unabandoned until something answers it;
- `decisions_hold`: these over a run;
- `born_answered`: where a decision does not hold.
-/
import OnePipeline.Core.Runs
import OnePipeline.Model.Discharge

namespace OnePipeline.Discharge

open Std

variable {d : Desk} {surface s : Surface} {sp : Spelling} {serde : NodeSerde} {ops : List Operation}

/-- a surface but for whether it is abandoned -/
def Surface.asQueued (s : Surface) : Surface := { s with abandoned := false }

namespace Desk

/-- a surface standing under an id is one somebody waits on -/
def Decision (d : Desk) (id : ℕ) : Prop := ∃ s ∈ d.standing, s.id = id ∧ d.isDecision s = true

theorem isDecision_iff : d.isDecision s = true ↔
    s.blocking = true ∧ s.abandoned = false ∧ ∀ c, s.correlation = some c → c ∉ d.answered := by
  cases hc : s.correlation with
  | none => simp [isDecision, hc]
  | some c => simp [isDecision, hc, and_assoc]

theorem blockingSurface_iff : d.blockingSurface = true ↔ ∃ id, d.Decision id := by
  rw [blockingSurface, List.any_eq_true]
  constructor
  · rintro ⟨s, hs, hdecides⟩
    exact ⟨s.id, s, hs, rfl, hdecides⟩
  · rintro ⟨id, s, hs, -, hdecides⟩
    exact ⟨s, hs, hdecides⟩

theorem mem_standing : s ∈ d.standing ↔ s ∈ d.waiting ∨ d.pending = some s := by
  rw [standing, List.mem_append, Option.mem_toList]

/-! ## The changes -/

/-- what every step of a fold leaves, the fold leaves -/
theorem foldl_keeps {σ α β : Type} {f : σ → α → σ} {v : σ → β} (h : ∀ a b, v (f a b) = v a) (l : List α) (a : σ) :
    v (l.foldl f a) = v a := by
  induction l generalizing a with
  | nil => rfl
  | cons b l ih => rw [List.foldl_cons, ih, h]

theorem lt_nextId (h : s ∈ d.queued) : s.id < d.nextId := by
  suffices hall : ∀ l : List Surface, s ∈ l → s.id ≤ (l.map Surface.id).foldr max 0 by
    exact Nat.lt_succ_of_le (hall d.queued h)
  intro l hl
  induction l with
  | nil => cases hl
  | cons t l ih =>
    rcases List.mem_cons.mp hl with rfl | hl
    · exact Nat.le_max_left _ _
    · exact (ih hl).trans (Nat.le_max_right _ _)

/-- a surface as it is queued -/
def stamped (d : Desk) (surface : Surface) : Surface := { surface with id := d.nextId, abandoned := false }

@[simp] theorem queued_push : (d.push surface).queued = d.queued ++ [d.stamped surface] := rfl

@[simp] theorem answered_push : (d.push surface).answered = d.answered := rfl

@[simp] theorem requests_push : (d.push surface).requests = d.requests := rfl

theorem mem_standing_push (h : s ∈ (d.push surface).standing) : s ∈ d.standing ∨ s = d.stamped surface := by
  rw [mem_standing] at h ⊢
  rcases h with h | h
  · rcases List.mem_append.mp h with h | h
    · split_ifs at h
      · exact .inl (.inl (List.mem_of_mem_filter h))
      · exact .inl (.inl h)
    · exact .inr (List.mem_singleton.mp h)
  · exact .inl (.inr h)

theorem next_mem {surface : Surface} (h : d.next = some surface) : surface ∈ d.waiting := by
  unfold next at h
  rcases Option.or_eq_some_iff.mp h with h | ⟨-, h⟩
  · rcases Option.or_eq_some_iff.mp h with h | ⟨-, h⟩
    · exact List.mem_of_find?_eq_some h
    · exact List.mem_of_find?_eq_some h
  · exact List.mem_of_head? h

@[simp] theorem queued_claim : d.claim.queued = d.queued := by
  unfold claim
  split <;> rfl

@[simp] theorem replies_claim : d.claim.replies = d.replies := by
  unfold claim
  split <;> rfl

@[simp] theorem requests_claim : d.claim.requests = d.requests := by
  unfold claim
  split <;> rfl

theorem mem_standing_claim (h : s ∈ d.claim.standing) : s ∈ d.standing := by
  unfold claim at h
  split at h
  · exact h
  · next surface hnext =>
    rw [mem_standing] at h ⊢
    rcases h with h | h
    · exact .inl (List.mem_of_mem_filter h)
    · replace h : d.held surface = some s := h
      unfold held at h
      split_ifs at h
      · exact .inr h
      · rcases Option.or_eq_some_iff.mp h with h | ⟨-, h⟩
        · exact .inr h
        · exact .inl (Option.some.inj h ▸ next_mem hnext)
      · exact .inl (Option.some.inj h ▸ next_mem hnext)

@[simp] theorem asQueued_marked (ids : List ℕ) : (marked ids s).asQueued = s.asQueued := by
  unfold marked
  split_ifs <;> rfl

theorem mem_standing_abandon {ids : List ℕ} (h : s ∈ (d.abandon ids).standing) : ∃ t ∈ d.standing, s = marked ids t := by
  rw [mem_standing] at h
  rcases h with h | h
  · obtain ⟨t, ht, rfl⟩ := List.mem_map.mp h
    exact ⟨t, mem_standing.mpr (.inl ht), rfl⟩
  · obtain ⟨t, ht, rfl⟩ := Option.map_eq_some_iff.mp h
    exact ⟨t, mem_standing.mpr (.inr ht), rfl⟩

@[simp] theorem answered_abandon (ids : List ℕ) : (d.abandon ids).answered = d.answered := rfl

variable {reply : Reply} {c : Correlation}

@[simp] theorem queued_answerBound : (d.answerBound reply c).queued = d.queued := by
  unfold answerBound
  split_ifs <;> rfl

@[simp] theorem graph_answerBound : (d.answerBound reply c).graph = d.graph := by
  unfold answerBound
  split_ifs <;> rfl

@[simp] theorem requests_answerBound : (d.answerBound reply c).requests = d.requests := by
  unfold answerBound
  split_ifs <;> rfl

theorem mem_standing_answerBound (h : s ∈ (d.answerBound reply c).standing) : s ∈ d.standing := by
  unfold answerBound at h
  split_ifs at h
  · rw [mem_standing] at h ⊢
    exact h.imp_right fun h => (Option.filter_eq_some_iff.mp h).1
  · exact h

theorem answered_subset_answerBound {c' : Correlation} (h : c' ∈ d.answered) : c' ∈ (d.answerBound reply c).answered := by
  unfold answerBound
  split_ifs
  · exact List.mem_map.mpr ((List.mem_map.mp h).imp fun q hq => ⟨List.mem_append_left _ hq.1, hq.2⟩)
  · exact h

theorem mem_answered_answerBound {c' : Correlation} (h : c' ∈ (d.answerBound reply c).answered) : c' ∈ d.answered ∨ c' = c := by
  unfold answerBound at h
  split_ifs at h
  · obtain ⟨q, hq, rfl⟩ := List.mem_map.mp h
    rcases List.mem_append.mp hq with hq | hq
    · exact .inl (List.mem_map.mpr ⟨q, hq, rfl⟩)
    · rw [List.mem_singleton.mp hq]
      exact .inr rfl
  · exact .inl h

/-- a question raised is answered once a reply is bound to it -/
theorem answered_answerBound (h : s ∈ d.queued) (hc : s.correlation = some c) : c ∈ (d.answerBound reply c).answered := by
  by_cases hin : c ∈ d.answered
  · exact answered_subset_answerBound hin
  · have hout : d.outstanding c = true := by
      rw [outstanding, Bool.and_eq_true, List.any_eq_true]
      exact ⟨⟨s, h, by simpa using hc⟩, by simpa using hin⟩
    rw [answerBound, if_pos hout, answered, List.map_append]
    exact List.mem_append_right _ List.mem_cons_self

theorem mem_answered_alongside {c' : Correlation} : c' ∈ (d.answerAlongside reply c).answered ↔ c' ∈ d.answered ∨ c' = c := by
  simp [answerAlongside, answered]

theorem mem_standing_alongside (h : s ∈ (d.answerAlongside reply c).standing) : s ∈ d.standing := by
  rw [mem_standing] at h ⊢
  exact h.imp_right nofun

end Desk

open Desk

/-! ## What is no decision stays none -/

/-- what was no decision before a change is none after it -/
structure Older (d d' : Desk) : Prop where
  queued : ∀ s ∈ d.queued, s ∈ d'.queued
  next : d.nextId ≤ d'.nextId
  decision : ∀ id, id < d.nextId → d'.Decision id → d.Decision id

namespace Older

theorem refl (d : Desk) : Older d d := ⟨fun _ h => h, le_rfl, fun _ _ h => h⟩

theorem trans {d d' d'' : Desk} (h : Older d d') (h' : Older d' d'') : Older d d'' :=
  ⟨fun s hs => h'.queued s (h.queued s hs), h.next.trans h'.next, fun id hid hd => h.decision id hid (h'.decision id (hid.trans_le h.next) hd)⟩

/-- a change that queues nothing, answers what was answered, and leaves standing what stood -/
theorem of_standing {d' : Desk} (hqueued : d'.queued = d.queued) (hanswered : ∀ c ∈ d.answered, c ∈ d'.answered)
    (hstanding : ∀ s ∈ d'.standing, s ∈ d.standing) : Older d d' := by
  refine ⟨fun s hs => hqueued ▸ hs, by rw [nextId, nextId, hqueued], fun id _ hd => ?_⟩
  obtain ⟨s, hs, rfl, hdecides⟩ := hd
  rw [isDecision_iff] at hdecides
  refine ⟨s, hstanding s hs, rfl, isDecision_iff.mpr ⟨hdecides.1, hdecides.2.1, fun c hc hin => ?_⟩⟩
  exact hdecides.2.2 c hc (hanswered c hin)

theorem push (d : Desk) (surface : Surface) : Older d (d.push surface) := by
  refine ⟨fun s hs => List.mem_append_left _ hs, ?_, fun id hid hd => ?_⟩
  · rw [nextId, nextId, queued_push, List.map_append, List.foldr_append]
    refine Nat.succ_le_succ ?_
    suffices hall : ∀ (l : List ℕ) (a : ℕ), l.foldr max 0 ≤ l.foldr max a by exact hall _ _
    intro l a
    induction l with
    | nil => exact Nat.zero_le a
    | cons b l ih => exact max_le_max le_rfl ih
  · obtain ⟨s, hs, rfl, hdecides⟩ := hd
    rcases mem_standing_push hs with hs | rfl
    · exact ⟨s, hs, rfl, hdecides⟩
    · exact absurd hid (lt_irrefl _)

theorem claim (d : Desk) : Older d d.claim :=
  of_standing queued_claim (fun c hc => by rwa [answered, replies_claim]) fun _ => mem_standing_claim

theorem abandon (d : Desk) (ids : List ℕ) : Older d (d.abandon ids) := by
  refine ⟨fun _ h => h, le_rfl, fun id _ hd => ?_⟩
  obtain ⟨s, hs, rfl, hdecides⟩ := hd
  obtain ⟨t, ht, rfl⟩ := mem_standing_abandon hs
  have hplain : marked ids t = t := by
    have habandoned := (isDecision_iff.mp hdecides).2.1
    unfold marked at habandoned ⊢
    split_ifs at habandoned ⊢
    rfl
  rw [hplain] at hdecides ⊢
  exact ⟨t, ht, rfl, hdecides⟩

theorem answerBound (d : Desk) (reply : Reply) (c : Correlation) : Older d (d.answerBound reply c) :=
  of_standing queued_answerBound (fun _ => answered_subset_answerBound) fun _ => mem_standing_answerBound

theorem answerAlongside (d : Desk) (reply : Reply) (c : Correlation) : Older d (d.answerAlongside reply c) :=
  of_standing rfl (fun _ h => mem_answered_alongside.mpr (.inl h)) fun _ => mem_standing_alongside

theorem foldl {α : Type} {f : Desk → α → Desk} (h : ∀ d a, Older d (f d a)) (l : List α) (d : Desk) : Older d (l.foldl f d) := by
  induction l generalizing d with
  | nil => exact refl d
  | cons a l ih => exact (h d a).trans (ih (f d a))

theorem raiseFact (d : Desk) (op : Operation) : Older d (raiseFact d op) := by
  unfold Discharge.raiseFact
  split
  · exact push d _
  · exact refl d

theorem answerRequested (d : Desk) (operations : List Operation) : Older d (answerRequested d operations) := by
  refine foldl (fun d' p => ?_) _ d
  split_ifs
  · exact refl d'
  · exact answerBound d' _ _
  · exact refl d'

theorem discharge (removed : StrMap Removal) (acc : Desk × List ℕ) (surface : Surface) :
    Older acc.1 (discharge removed acc surface).1 := by
  unfold Discharge.discharge
  split_ifs
  · exact refl _
  · split
    · exact refl _
    · split
      · split_ifs
        · exact refl _
        · exact answerBound _ _ _
      · exact refl _

theorem foldl_discharge (removed : StrMap Removal) (l : List Surface) (acc : Desk × List ℕ) :
    Older acc.1 (l.foldl (Discharge.discharge removed) acc).1 := by
  induction l generalizing acc with
  | nil => exact refl _
  | cons s l ih => exact (discharge removed acc s).trans (ih _)

theorem answerRemoved (d : Desk) (operations : List Operation) : Older d (answerRemoved d operations) :=
  (foldl_discharge (removedBy operations) d.standing (d, [])).trans (abandon _ _)

theorem commit (d : Desk) (operations : List Operation) : Older d (commit serde d operations) := by
  have hgraph : Older d { d with graph := operations.foldl (apply serde) d.graph } := ⟨fun _ h => h, le_rfl, fun _ _ h => h⟩
  exact hgraph.trans ((foldl raiseFact operations _).trans ((answerRequested _ operations).trans (answerRemoved _ operations)))

end Older

/-- **No return.** A surface queued before a step and no decision then is none after it. -/
theorem older_step (d : Desk) (e : Event) : Older d (step sp serde d e) := by
  cases e with
  | raise surface => exact .push d surface
  | conflict node =>
    have hrecorded : Older d (d.recordRequest sp .sessionConflict node) := by
      unfold recordRequest
      split
      · exact ⟨fun _ h => h, le_rfl, fun _ _ h => h⟩
      · exact .refl d
    exact hrecorded.trans (.push _ _)
  | read => exact .claim d
  | reply named reply commands =>
    show Older d (deliverVerdictHalf d named reply commands)
    unfold deliverVerdictHalf
    split_ifs
    · exact .refl d
    · exact .answerAlongside d reply named
    · exact .answerBound d reply named
  | commit operations => exact .commit d operations

/-! ## What stands was queued -/

/-- the questions replies were bound to, as each was answered -/
def Desk.boundTo (d : Desk) : List Correlation := (d.replies.filter fun q => q.came = .bound).map QueuedReply.correlation

theorem boundTo_subset : ∀ c ∈ d.boundTo, c ∈ d.answered := by
  intro c hc
  obtain ⟨q, hq, rfl⟩ := List.mem_map.mp hc
  exact List.mem_map.mpr ⟨q, List.mem_of_mem_filter hq, rfl⟩

/-- a channel whose standing surfaces were queued, each under an id of its own, whose questions are answered once, and whose
findings were raised about what they ask for -/
structure Sound (d : Desk) : Prop where
  origin : ∀ s ∈ d.standing, s.asQueued ∈ d.queued
  ids : ∀ s ∈ d.queued, ∀ t ∈ d.queued, s.id = t.id → s = t
  once : d.boundTo.Nodup
  requested : ∀ (c : Correlation) (request : RequestedEdit), d.requests[c]? = some request →
    ∃ s ∈ d.queued, s.blocking = true ∧ s.correlation = some c ∧ s.workstream = some request.node

namespace Sound

theorem of_standing {d' : Desk} (h : Sound d) (hqueued : d'.queued = d.queued) (hrequests : d'.requests = d.requests)
    (hreplies : d'.boundTo.Nodup) (hstanding : ∀ s ∈ d'.standing, ∃ t ∈ d.standing, s.asQueued = t.asQueued) : Sound d' where
  origin s hs := by
    obtain ⟨t, ht, heq⟩ := hstanding s hs
    rw [hqueued, heq]
    exact h.origin t ht
  ids := hqueued ▸ h.ids
  once := hreplies
  requested := by
    rw [hrequests, hqueued]
    exact h.requested

theorem push (h : Sound d) (surface : Surface) : Sound (d.push surface) := by
  have hnew {s : Surface} (hs : s ∈ (d.push surface).queued) : s ∈ d.queued ∨ s = d.stamped surface := by
    rw [queued_push] at hs
    exact (List.mem_append.mp hs).imp_right List.mem_singleton.mp
  refine ⟨fun s hs => ?_, fun s hs t ht heq => ?_, h.once, fun c request hget => ?_⟩
  · rw [queued_push]
    rcases mem_standing_push hs with hs | rfl
    · exact List.mem_append_left _ (h.origin s hs)
    · exact List.mem_append_right _ (List.mem_singleton.mpr rfl)
  · rcases hnew hs with hs | rfl
    · rcases hnew ht with ht | rfl
      · exact h.ids s hs t ht heq
      · exact absurd heq (lt_nextId hs).ne
    · rcases hnew ht with ht | rfl
      · exact absurd heq.symm (lt_nextId ht).ne
      · rfl
  · obtain ⟨s, hs, hrest⟩ := h.requested c request hget
    exact ⟨s, List.mem_append_left _ hs, hrest⟩

theorem conflict (h : Sound d) (node : String) : Sound (d.conflict sp node) := by
  unfold Desk.conflict recordRequest
  split
  · next key hkey =>
    have hpush := h.push (sessionConflictSurface sp node)
    refine ⟨hpush.origin, hpush.ids, h.once, fun c request hget => ?_⟩
    rw [requests_push, Maps.get_insert] at hget
    split_ifs at hget with hc
    · rw [← Option.some.inj hget, hc]
      exact ⟨_, List.mem_append_right _ (List.mem_singleton.mpr rfl), rfl, hkey, rfl⟩
    · exact hpush.requested c request hget
  · exact h.push _

theorem claim (h : Sound d) : Sound d.claim :=
  h.of_standing queued_claim requests_claim (by rw [Desk.boundTo, replies_claim]; exact h.once) fun s hs =>
    ⟨s, mem_standing_claim hs, rfl⟩

theorem abandon (h : Sound d) (ids : List ℕ) : Sound (d.abandon ids) :=
  h.of_standing rfl rfl h.once fun s hs => by
    obtain ⟨t, ht, rfl⟩ := mem_standing_abandon hs
    exact ⟨t, ht, asQueued_marked ids⟩

theorem answerBound (h : Sound d) (reply : Reply) (c : Correlation) : Sound (d.answerBound reply c) := by
  refine h.of_standing queued_answerBound requests_answerBound ?_ fun s hs => ⟨s, mem_standing_answerBound hs, rfl⟩
  unfold Desk.answerBound
  split_ifs with hout
  · have hfresh : c ∉ d.answered := by
      rw [outstanding, Bool.and_eq_true] at hout
      simpa using hout.2
    have hbound : Desk.boundTo { d with
        replies := d.replies ++ [{ reply, correlation := c, came := .bound }]
        pending := d.pending.filter fun s => s.correlation ≠ some c } = d.boundTo ++ [c] := by
      simp [Desk.boundTo]
    rw [hbound, List.nodup_append]
    refine ⟨h.once, List.nodup_singleton c, fun a ha b hb => ?_⟩
    rw [List.mem_singleton.mp hb]
    rintro rfl
    exact hfresh (boundTo_subset a ha)
  · exact h.once

theorem answerAlongside (h : Sound d) (reply : Reply) (c : Correlation) : Sound (d.answerAlongside reply c) := by
  refine h.of_standing rfl rfl ?_ fun s hs => ⟨s, mem_standing_alongside hs, rfl⟩
  have hbound : (d.answerAlongside reply c).boundTo = d.boundTo := by simp [Desk.boundTo, Desk.answerAlongside]
  rw [hbound]
  exact h.once

theorem foldl {α : Type} {f : Desk → α → Desk} (hf : ∀ d a, Sound d → Sound (f d a)) (l : List α) (h : Sound d) :
    Sound (l.foldl f d) := by
  induction l generalizing d with
  | nil => exact h
  | cons a l ih => exact ih (hf d a h)

theorem raiseFact (h : Sound d) (op : Operation) : Sound (raiseFact d op) := by
  unfold Discharge.raiseFact
  split
  · exact h.push _
  · exact h

theorem answerRequested (h : Sound d) (operations : List Operation) : Sound (answerRequested d operations) := by
  refine foldl (fun d' p h' => ?_) _ h
  split_ifs
  · exact h'
  · exact h'.answerBound _ _
  · exact h'

theorem foldl_discharge {removed : StrMap Removal} (l : List Surface) {acc : Desk × List ℕ} (h : Sound acc.1) :
    Sound (l.foldl (discharge removed) acc).1 := by
  induction l generalizing acc with
  | nil => exact h
  | cons s l ih =>
    refine ih ?_
    unfold discharge
    split_ifs
    · exact h
    · split
      · exact h
      · split
        · split_ifs
          · exact h
          · exact h.answerBound _ _
        · exact h

theorem answerRemoved (h : Sound d) (operations : List Operation) : Sound (answerRemoved d operations) :=
  have hfold : Sound (d.standing.foldl (discharge (removedBy operations)) (d, [])).1 := foldl_discharge d.standing h
  hfold.abandon _

theorem commit (h : Sound d) (operations : List Operation) : Sound (commit serde d operations) := by
  have hgraph : Sound { d with graph := operations.foldl (apply serde) d.graph } := ⟨h.origin, h.ids, h.once, h.requested⟩
  exact ((hgraph.foldl (fun _ op hd => hd.raiseFact op) operations).answerRequested operations).answerRemoved operations

/-- **One step.** -/
theorem step (h : Sound d) (e : Event) : Sound (step sp serde d e) := by
  cases e with
  | raise surface => exact h.push surface
  | conflict node => exact h.conflict node
  | read => exact h.claim
  | reply named reply commands =>
    show Sound (deliverVerdictHalf d named reply commands)
    unfold deliverVerdictHalf
    split_ifs
    · exact h
    · exact h.answerAlongside reply named
    · exact h.answerBound reply named
  | commit operations => exact h.commit operations

end Sound

/-! ## A node taken out -/

theorem left_of_apply {op : Operation} {g : Graph} {n : String} (hin : n ∈ g.ids) (hout : n ∉ (apply serde g op).ids) :
    droppedBy op = some n := by
  cases op with
  | nodeDropped node dependents =>
    by_cases hn : n = node
    · rw [hn]
      rfl
    · refine absurd ?_ hout
      rw [apply, Graph.ids_modifyAll, Graph.ids_remove, List.mem_filter]
      exact ⟨hin, by simpa using hn⟩
  | nodeAdded node of_ => exact absurd (Graph.mem_ids_insert.mpr (.inr hin)) hout
  | nodeRequeued node amend =>
    refine absurd ?_ hout
    rw [apply]
    split
    · exact Graph.mem_ids_insert.mpr (.inr hin)
    · exact hin
  | contextAdded node note delivery =>
    refine absurd ?_ hout
    cases delivery with
    | live => exact hin
    | deferred => simpa [apply] using hin
  | noteWithdrawn node envelope index from_ text alikeAfter =>
    refine absurd ?_ hout
    cases from_ with
    | live => exact hin
    | carried => simpa [apply] using hin
  | noteDelivered node addressee text criterion reached envelope index =>
    refine absurd ?_ hout
    cases reached with
    | carried why => simpa [apply] using hin
    | _ => exact hin
  | _ =>
    refine absurd ?_ hout
    simpa [apply] using hin

/-- a node leaves the graph by being dropped -/
theorem dropped_of_left {g : Graph} {n : String} (hin : n ∈ g.ids) (hout : n ∉ (ops.foldl (apply serde) g).ids) :
    n ∈ ops.filterMap droppedBy := by
  induction ops generalizing g with
  | nil => exact absurd hin hout
  | cons op ops ih =>
    by_cases hstay : n ∈ (apply serde g op).ids
    · exact List.mem_filterMap.mpr ((List.mem_filterMap.mp (ih hstay hout)).imp fun _ h => ⟨List.mem_cons_of_mem _ h.1, h.2⟩)
    · exact List.mem_filterMap.mpr ⟨op, List.mem_cons_self, left_of_apply hin hstay⟩

theorem mem_removedBy {n : String} : n ∈ removedBy ops ↔ n ∈ ops.filterMap droppedBy := by
  rw [removedBy, Maps.insertAll, Maps.mem_foldl_insert_by Prod.fst Prod.snd, List.map_map]
  simp [Function.comp_def]

/-- what a standing surface's discharge leaves: an answer, or an id to be marked -/
def Discharged (acc : Desk × List ℕ) (s : Surface) : Prop :=
  (∃ c, s.correlation = some c ∧ c ∈ acc.1.answered) ∨ s.id ∈ acc.2

section Discharges

variable {removed : StrMap Removal} {acc : Desk × List ℕ} {t : Surface}

theorem queued_discharge : (discharge removed acc s).1.queued = acc.1.queued := by
  unfold discharge
  split_ifs
  · rfl
  · split
    · rfl
    · split
      · split_ifs
        · rfl
        · exact queued_answerBound
      · rfl

theorem Discharged.mono (h : Discharged acc s) : Discharged (discharge removed acc t) s := by
  unfold discharge
  split_ifs
  · exact h
  · split
    · exact h
    · split
      · split_ifs
        · exact h
        · exact h.imp_left fun ⟨c, hc, hin⟩ => ⟨c, hc, answered_subset_answerBound hin⟩
      · exact h.imp_right (List.mem_append_left _)

theorem discharged_discharge {n : String} (hqueued : s.asQueued ∈ acc.1.queued) (hblocking : s.blocking = true)
    (hstanding : s.abandoned = false) (hnode : s.workstream = some n) (hremoved : n ∈ removed) :
    Discharged (discharge removed acc s) s := by
  obtain ⟨edit, hedit⟩ := Maps.mem_iff.mp hremoved
  have hbind : (s.workstream.bind fun node => removed[node]?.map fun edit => (node, edit)) = some (n, edit) := by
    rw [hnode, Option.bind_some, hedit]
    rfl
  have hlive : ¬((!s.blocking || s.abandoned) = true) := by simp [hblocking, hstanding]
  rw [discharge, if_neg hlive, hbind]
  cases hc : s.correlation with
  | none => exact .inr (List.mem_append_right _ List.mem_cons_self)
  | some c =>
    refine .inl ⟨c, hc, ?_⟩
    simp only []
    split_ifs with hin
    · exact hin
    · exact answered_answerBound hqueued hc

theorem discharged_foldl {l : List Surface} {n : String} (hqueued : ∀ t ∈ l, t.asQueued ∈ acc.1.queued) (hs : s ∈ l)
    (hblocking : s.blocking = true) (hstanding : s.abandoned = false) (hnode : s.workstream = some n)
    (hremoved : n ∈ removed) : Discharged (l.foldl (discharge removed) acc) s := by
  have hkeep : ∀ (l : List Surface) (acc : Desk × List ℕ), Discharged acc s → Discharged (l.foldl (discharge removed) acc) s := by
    intro l
    induction l with
    | nil => exact fun acc h => h
    | cons t l ih => exact fun acc h => ih _ h.mono
  induction l generalizing acc with
  | nil => cases hs
  | cons t l ih =>
    rw [List.foldl_cons]
    rcases List.mem_cons.mp hs with rfl | hs
    · exact hkeep l _ (discharged_discharge (hqueued s List.mem_cons_self) hblocking hstanding hnode hremoved)
    · refine ih (fun u hu => ?_) hs
      rw [queued_discharge]
      exact hqueued u (List.mem_cons_of_mem _ hu)

theorem mem_standing_foldl_discharge (l : List Surface) (h : s ∈ (l.foldl (discharge removed) acc).1.standing) :
    s ∈ acc.1.standing := by
  induction l generalizing acc with
  | nil => exact h
  | cons t l ih =>
    have hstep := ih h
    unfold discharge at hstep
    split_ifs at hstep
    · exact hstep
    · split at hstep
      · exact hstep
      · split at hstep
        · split_ifs at hstep
          · exact hstep
          · exact mem_standing_answerBound hstep
        · exact hstep

end Discharges

theorem not_isDecision_answerRemoved (h : Sound d) {n : String} (hn : n ∈ ops.filterMap droppedBy)
    (hs : s ∈ (answerRemoved d ops).standing) (hnode : s.workstream = some n) : (answerRemoved d ops).isDecision s = false := by
  by_contra hdecides
  rw [Bool.not_eq_false, isDecision_iff] at hdecides
  obtain ⟨hblocking, habandoned, hunanswered⟩ := hdecides
  obtain ⟨t, ht, rfl⟩ := mem_standing_abandon hs
  -- one marked is abandoned, so it was not
  have hplain : t.id ∉ (d.standing.foldl (discharge (removedBy ops)) (d, [])).2 := by
    intro hin
    rw [marked, if_pos hin] at habandoned
    cases habandoned
  rw [marked, if_neg hplain] at hblocking habandoned hunanswered hnode
  have hstood : t ∈ d.standing := mem_standing_foldl_discharge d.standing ht
  have hdischarged : Discharged (d.standing.foldl (discharge (removedBy ops)) (d, [])) t :=
    discharged_foldl h.origin hstood hblocking habandoned hnode (mem_removedBy.mpr hn)
  rcases hdischarged with ⟨c, hc, hin⟩ | hin
  · exact hunanswered c hc hin
  · exact hplain hin

theorem graph_commit : (commit serde d ops).graph = ops.foldl (apply serde) d.graph := by
  have hraised (d : Desk) : (ops.foldl raiseFact d).graph = d.graph := by
    refine foldl_keeps (v := Desk.graph) (fun d op => ?_) ops d
    unfold raiseFact
    split <;> rfl
  have hrequested (d : Desk) : (answerRequested d ops).graph = d.graph := by
    refine foldl_keeps (v := Desk.graph) (fun d' p => ?_) d.requests.toList d
    split_ifs
    · rfl
    · exact graph_answerBound
    · rfl
  have hremoved (d : Desk) : (answerRemoved d ops).graph = d.graph := by
    refine foldl_keeps (v := fun acc : Desk × List ℕ => acc.1.graph) (fun acc t => ?_) d.standing (d, [])
    unfold discharge
    split_ifs
    · rfl
    · split
      · rfl
      · split
        · split_ifs
          · rfl
          · exact graph_answerBound
        · rfl
  rw [commit, hremoved, hrequested, hraised]

/-- **A node taken out.** No surface queued about it before the commit is a decision after it. -/
theorem discharged (h : Sound d) {n : String} (hin : n ∈ d.graph.ids) (hout : n ∉ (commit serde d ops).graph.ids)
    (hs : s ∈ d.queued) (hnode : s.workstream = some n) : ¬(commit serde d ops).Decision s.id := by
  rintro ⟨t, ht, hid, hdecides⟩
  rw [graph_commit] at hout
  have hafter : Sound (commit serde d ops) := h.commit ops
  have hsame : t.asQueued = s := hafter.ids _ (hafter.origin t ht) s ((Older.commit d ops).queued s hs) hid
  have htold : t.workstream = some n := by
    rw [← hsame] at hnode
    exact hnode
  have hbefore : Sound (answerRequested (ops.foldl raiseFact { d with graph := ops.foldl (apply serde) d.graph }) ops) := by
    have hgraph : Sound { d with graph := ops.foldl (apply serde) d.graph } := ⟨h.origin, h.ids, h.once, h.requested⟩
    exact (hgraph.foldl (fun _ op hd => hd.raiseFact op) ops).answerRequested ops
  have hnone : (commit serde d ops).isDecision t = false :=
    not_isDecision_answerRemoved hbefore (dropped_of_left hin hout) ht htold
  rw [hnone] at hdecides
  cases hdecides

/-! ## What holds until it is answered -/

/-- a question neither answered nor marked as one nobody waits on -/
structure Untouched (x : Surface) (d : Desk) : Prop where
  unanswered : ∀ c, x.correlation = some c → c ∉ d.answered
  unabandoned : ∀ s ∈ d.standing, s.id = x.id → s.abandoned = false

/-- what answers a surface: a reply bound to it, the edit it asked for, and an edit that takes its node out -/
def Answers (x : Surface) : Event → Prop
  | .reply named _ _ => x.correlation = some named
  | .commit operations => ∃ n, x.workstream = some n ∧
      (n ∈ operations.filterMap droppedBy ∨ operations.any (satisfies { op := "retry", node := n }) = true)
  | _ => False

/-- a correlation no reply answers, and which no blocking surface about anything else was queued under -/
def Fresh (d : Desk) (c : Correlation) (about : Option String) : Prop :=
  c ∉ d.answered ∧ ∀ s ∈ d.queued, s.blocking = true → s.correlation = some c → s.workstream = about

instance (d : Desk) (c : Correlation) (about : Option String) : Decidable (Fresh d c about) :=
  inferInstanceAs (Decidable (_ ∧ _))

/-- blocking surfaces are raised under fresh correlations, or under none -/
def Fit (sp : Spelling) (d : Desk) : Event → Prop
  | .raise surface => surface.blocking = true → ∀ c ∈ surface.correlation, Fresh d c surface.workstream
  | .conflict node => ∀ c ∈ correlationOf sp .sessionConflict node, Fresh d c (some node)
  | _ => True

instance (d : Desk) : ∀ e, Decidable (Fit sp d e)
  | .raise surface => inferInstanceAs (Decidable (surface.blocking = true → ∀ c ∈ surface.correlation, _))
  | .conflict node => inferInstanceAs (Decidable (∀ c ∈ correlationOf sp .sessionConflict node, _))
  | .read => .isTrue trivial
  | .reply _ _ _ => .isTrue trivial
  | .commit _ => .isTrue trivial

/-- blocking surfaces under one correlation are about one node -/
def Kindred (d : Desk) : Prop :=
  ∀ s ∈ d.queued, ∀ t ∈ d.queued, s.blocking = true → t.blocking = true → ∀ c, s.correlation = some c →
    t.correlation = some c → s.workstream = t.workstream

theorem Kindred.push (h : Kindred d)
    (hfit : surface.blocking = true → ∀ c ∈ surface.correlation, Fresh d c surface.workstream) : Kindred (d.push surface) := by
  have hnew {s : Surface} (hs : s ∈ (d.push surface).queued) : s ∈ d.queued ∨ s = d.stamped surface := by
    rw [queued_push] at hs
    exact (List.mem_append.mp hs).imp_right List.mem_singleton.mp
  intro s hs t ht hblocking hblocking' c hc hc'
  rcases hnew hs with hs | rfl
  · rcases hnew ht with ht | rfl
    · exact h s hs t ht hblocking hblocking' c hc hc'
    · exact (hfit hblocking' c hc').2 s hs hblocking hc
  · rcases hnew ht with ht | rfl
    · exact ((hfit hblocking c hc).2 t ht hblocking' hc').symm
    · rfl

theorem Kindred.of_queued {d' : Desk} (h : Kindred d) (hqueued : d'.queued = d.queued) : Kindred d' := by
  rw [Kindred, hqueued]
  exact h

theorem queued_answerRequested : (answerRequested d ops).queued = d.queued := by
  refine foldl_keeps (v := Desk.queued) (fun d' p => ?_) d.requests.toList d
  split_ifs
  · rfl
  · exact queued_answerBound
  · rfl

theorem queued_answerRemoved : (answerRemoved d ops).queued = d.queued :=
  foldl_keeps (v := fun acc : Desk × List ℕ => acc.1.queued) (fun _ _ => queued_discharge) d.standing (d, [])

theorem Kindred.raiseFacts (h : Kindred d) : Kindred (ops.foldl raiseFact d) := by
  induction ops generalizing d with
  | nil => exact h
  | cons op ops ih =>
    refine ih ?_
    unfold raiseFact
    split
    · exact h.push fun _ c hc => nomatch hc
    · exact h

theorem Kindred.step (h : Kindred d) {e : Event} (hfit : Fit sp d e) : Kindred (step sp serde d e) := by
  cases e with
  | raise surface => exact h.push hfit
  | conflict node =>
    have hrecorded : (d.recordRequest sp .sessionConflict node).queued = d.queued ∧
        (d.recordRequest sp .sessionConflict node).answered = d.answered := by
      unfold recordRequest
      split <;> exact ⟨rfl, rfl⟩
    refine Kindred.push (h.of_queued hrecorded.1) fun _ c hc => ?_
    rw [Fresh, hrecorded.1, hrecorded.2]
    exact hfit c hc
  | read => exact h.of_queued queued_claim
  | reply named reply commands =>
    show Kindred (deliverVerdictHalf d named reply commands)
    unfold deliverVerdictHalf
    split_ifs
    · exact h
    · exact h.of_queued rfl
    · exact h.of_queued queued_answerBound
  | commit operations =>
    have hgraph : Kindred { d with graph := operations.foldl (apply serde) d.graph } := h
    exact hgraph.raiseFacts.of_queued (queued_answerRemoved.trans queued_answerRequested)

section Holds

variable {x : Surface}

theorem Untouched.of_standing {d' : Desk} (h : Untouched x d)
    (hanswered : ∀ c, x.correlation = some c → c ∈ d'.answered → c ∈ d.answered)
    (hstanding : ∀ s ∈ d'.standing, s ∈ d.standing) : Untouched x d' :=
  ⟨fun c hc hin => h.unanswered c hc (hanswered c hc hin), fun s hs => h.unabandoned s (hstanding s hs)⟩

theorem Untouched.push (h : Untouched x d) : Untouched x (d.push surface) := by
  refine ⟨h.unanswered, fun s hs hid => ?_⟩
  rcases mem_standing_push hs with hs | rfl
  · exact h.unabandoned s hs hid
  · rfl

/-- a surface just queued -/
theorem Untouched.stamped (h : Sound d) (hfresh : ∀ c, surface.correlation = some c → c ∉ d.answered) :
    Untouched (d.stamped surface) (d.push surface) := by
  refine ⟨hfresh, fun s hs hid => ?_⟩
  rcases mem_standing_push hs with hs | rfl
  · exact absurd hid (lt_nextId (h.origin s hs)).ne
  · rfl

theorem Untouched.answerBound (h : Untouched x d) {reply : Reply} {c : Correlation} (hc : x.correlation ≠ some c) :
    Untouched x (d.answerBound reply c) := by
  refine h.of_standing (fun c' hc' hin => ?_) fun _ => mem_standing_answerBound
  rcases mem_answered_answerBound hin with hin | rfl
  · exact hin
  · exact absurd hc' hc

theorem Untouched.abandon (h : Untouched x d) {ids : List ℕ} (hid : x.id ∉ ids) : Untouched x (d.abandon ids) := by
  refine ⟨h.unanswered, fun s hs heq => ?_⟩
  obtain ⟨t, ht, rfl⟩ := mem_standing_abandon hs
  unfold marked at heq ⊢
  split_ifs at heq ⊢ with hin
  · exact absurd (heq ▸ hin) hid
  · exact h.unabandoned t ht heq

/-- the answers a commit appends for findings are for other questions -/
theorem Untouched.answerRequested (h : Untouched x d) (hsound : Sound d) (hkindred : Kindred d) (hx : x ∈ d.queued)
    (hblocking : x.blocking = true) (hleaves : ¬Answers x (.commit ops)) : Untouched x (answerRequested d ops) := by
  suffices hall : ∀ (l : List (Correlation × RequestedEdit)) (d' : Desk), Untouched x d' → (∀ p ∈ l, p ∈ d.requests.toList) →
      Untouched x (l.foldl (fun d' p =>
        if p.1 ∈ d.answered then d'
        else if ops.any (satisfies p.2) then d'.answerBound (answerOf p.2) p.1
        else d') d') by
    exact hall _ d h fun _ hp => hp
  intro l
  induction l with
  | nil => exact fun d' h' _ => h'
  | cons p l ih =>
    intro d' h' hl
    refine ih _ ?_ fun q hq => hl q (List.mem_cons_of_mem p hq)
    show Untouched x (if _ then _ else if _ then _ else _)
    split_ifs with hin hany
    · exact h'
    · refine h'.answerBound fun hc => hleaves ?_
      obtain ⟨s, hs, hblocks, hkey, hnode⟩ := hsound.requested p.1 p.2
        (ExtTreeMap.mem_toList_iff_getElem?_eq_some.mp (hl p List.mem_cons_self))
      have hop : p.2.op = "retry" := by
        obtain ⟨op, -, hsat⟩ := List.any_eq_true.mp hany
        cases op <;> simp [satisfies] at hsat
        exact hsat.1
      refine ⟨p.2.node, (hkindred x hx s hs hblocking hblocks p.1 hc hkey).trans hnode, .inr ?_⟩
      rw [← hop]
      exact hany
    · exact h'

theorem Untouched.answerRemoved (h : Untouched x d) (hsound : Sound d) (hkindred : Kindred d) (hx : x ∈ d.queued)
    (hblocking : x.blocking = true) (hleaves : ¬Answers x (.commit ops)) : Untouched x (answerRemoved d ops) := by
  suffices hall : ∀ (l : List Surface) (acc : Desk × List ℕ), Untouched x acc.1 → x.id ∉ acc.2 → (∀ s ∈ l, s ∈ d.standing) →
      Untouched x (l.foldl (discharge (removedBy ops)) acc).1 ∧ x.id ∉ (l.foldl (discharge (removedBy ops)) acc).2 by
    obtain ⟨hfold, hid⟩ := hall d.standing (d, []) h List.not_mem_nil fun _ hs => hs
    exact hfold.abandon hid
  intro l
  induction l with
  | nil => exact fun acc h' hid _ => ⟨h', hid⟩
  | cons s l ih =>
    intro acc h' hid hl
    have hs : s.asQueued ∈ d.queued := hsound.origin s (hl s List.mem_cons_self)
    suffices hstep : Untouched x (discharge (removedBy ops) acc s).1 ∧ x.id ∉ (discharge (removedBy ops) acc s).2 by
      exact ih _ hstep.1 hstep.2 fun t ht => hl t (List.mem_cons_of_mem s ht)
    unfold discharge
    split_ifs with hdead
    · exact ⟨h', hid⟩
    · have hblocks : s.blocking = true := by
        by_contra hnot
        exact hdead (by simp [hnot])
      split
      · exact ⟨h', hid⟩
      · next node edit hbind =>
        obtain ⟨n, hn, hmap⟩ := Option.bind_eq_some_iff.mp hbind
        obtain ⟨edit', hedit, heq⟩ := Option.map_eq_some_iff.mp hmap
        have hdropped : n ∈ ops.filterMap droppedBy := mem_removedBy.mp (Maps.mem_iff.mpr ⟨edit', hedit⟩)
        split
        · next c hc =>
          split_ifs with hin
          · exact ⟨h', hid⟩
          · refine ⟨h'.answerBound fun hxc => hleaves ⟨n, ?_, .inl hdropped⟩, hid⟩
            exact (hkindred x hx s.asQueued hs hblocking hblocks c hxc hc).trans hn
        · refine ⟨h', fun hin => ?_⟩
          rcases List.mem_append.mp hin with hin | hin
          · exact hid hin
          · have hsame : x = s.asQueued := hsound.ids x hx s.asQueued hs (List.mem_singleton.mp hin)
            exact hleaves ⟨n, by rw [hsame]; exact hn, .inl hdropped⟩

/-- a surface no commit's operations answer is untouched by it, raised by it or before it -/
theorem Untouched.commit (hsound : Sound d) (hkindred : Kindred d) (h : x ∈ d.queued → Untouched x d)
    (hblocking : x.blocking = true) (hleaves : ¬Answers x (.commit ops)) (hx : x ∈ (commit serde d ops).queued) :
    Untouched x (commit serde d ops) := by
  have hgraph : Sound { d with graph := ops.foldl (apply serde) d.graph } :=
    ⟨hsound.origin, hsound.ids, hsound.once, hsound.requested⟩
  have hraised : ∀ (l : List Operation) (d : Desk), Sound d → (x ∈ d.queued → Untouched x d) →
      x ∈ (l.foldl raiseFact d).queued → Untouched x (l.foldl raiseFact d) := by
    intro l
    induction l with
    | nil => exact fun d _ h => h
    | cons op l ih =>
      intro d hd h
      refine ih _ (hd.raiseFact op) ?_
      unfold raiseFact
      split
      · intro hin
        rcases List.mem_append.mp hin with hin | hin
        · exact (h hin).push
        · rw [List.mem_singleton.mp hin]
          exact .stamped hd nofun
      · exact h
  rw [Discharge.commit, queued_answerRemoved, queued_answerRequested] at hx
  have hsound' : Sound (ops.foldl raiseFact { d with graph := ops.foldl (apply serde) d.graph }) :=
    hgraph.foldl (fun _ op hd => hd.raiseFact op) ops
  have hkindred' : Kindred (ops.foldl raiseFact { d with graph := ops.foldl (apply serde) d.graph }) :=
    Kindred.raiseFacts (d := { d with graph := ops.foldl (apply serde) d.graph }) hkindred
  have hfacts := hraised ops { d with graph := ops.foldl (apply serde) d.graph } hgraph
    (fun hin => ⟨(h hin).unanswered, (h hin).unabandoned⟩) hx
  refine (hfacts.answerRequested hsound' hkindred' hx hblocking hleaves).answerRemoved (hsound'.answerRequested ops)
    (hkindred'.of_queued queued_answerRequested) ?_ hblocking hleaves
  rw [queued_answerRequested]
  exact hx

/-- **One step.** A blocking surface the step does not answer is untouched after it, raised by it or before it. -/
theorem Untouched.step (hsound : Sound d) (hkindred : Kindred d) {e : Event} (hfit : Fit sp d e)
    (h : x ∈ d.queued → Untouched x d) (hblocking : x.blocking = true) (hleaves : ¬Answers x e)
    (hx : x ∈ (step sp serde d e).queued) : Untouched x (step sp serde d e) := by
  cases e with
  | raise surface =>
    rcases List.mem_append.mp hx with hx | hx
    · exact (h hx).push
    · rw [List.mem_singleton.mp hx] at hblocking ⊢
      exact .stamped hsound fun c hc => (hfit hblocking c hc).1
  | conflict node =>
    have hrecorded : (d.recordRequest sp .sessionConflict node).queued = d.queued ∧
        (d.recordRequest sp .sessionConflict node).answered = d.answered ∧
        (d.recordRequest sp .sessionConflict node).standing = d.standing := by
      unfold recordRequest
      split <;> exact ⟨rfl, rfl, rfl⟩
    rcases List.mem_append.mp hx with hx | hx
    · rw [hrecorded.1] at hx
      refine Untouched.push ((h hx).of_standing (fun c _ hin => ?_) fun s hs => ?_)
      · rwa [hrecorded.2.1] at hin
      · rwa [hrecorded.2.2] at hs
    · rw [List.mem_singleton.mp hx]
      refine ⟨fun c hc hin => ?_, fun s hs hid => ?_⟩
      · replace hin : c ∈ (d.recordRequest sp .sessionConflict node).answered := hin
        rw [hrecorded.2.1] at hin
        exact (hfit c hc).1 hin
      · rcases mem_standing_push hs with hs | rfl
        · rw [hrecorded.2.2] at hs
          have hlt := lt_nextId (hsound.origin s hs)
          rw [nextId, ← hrecorded.1] at hlt
          exact absurd hid hlt.ne
        · rfl
  | read =>
    replace hx : x ∈ d.claim.queued := hx
    rw [queued_claim] at hx
    refine (h hx).of_standing (fun c _ hin => ?_) fun s => mem_standing_claim
    rwa [Desk.answered, Discharge.step, replies_claim] at hin
  | reply named reply commands =>
    have hother : x.correlation ≠ some named := hleaves
    replace hx : x ∈ (deliverVerdictHalf d named reply commands).queued := hx
    show Untouched x (deliverVerdictHalf d named reply commands)
    unfold deliverVerdictHalf at hx ⊢
    split_ifs at hx ⊢
    · exact h hx
    · refine (h hx).of_standing (fun c hc hin => ?_) fun s => mem_standing_alongside
      rcases mem_answered_alongside.mp hin with hin | rfl
      · exact hin
      · exact absurd hc hother
    · rw [queued_answerBound] at hx
      exact (h hx).answerBound hother
  | commit operations => exact Untouched.commit hsound hkindred h hblocking hleaves hx

end Holds

/-! ## Runs -/

/-- a library whose digests are a node's own name, and which takes any key -/
def plainSpelling : Spelling := ⟨fun _ node => node, fun _ => true⟩

def twoNodes : Graph := .ofNodes [.direct "a" [], .direct "b" []]

/-- a conflict of a node's and a question about another, the conflict answered by the retry it asks for -/
def retriedRun : List Event :=
  [.conflict "a", .raise { kind := "finding", workstream := some "b", blocking := true, correlation := some "q" }, .read,
    .commit [.retryRequested "a" "a2" [], .nodeDropped "a" .detach, .nodeAdded (.direct "a2" []) (some "a")], .read]

end OnePipeline.Discharge
