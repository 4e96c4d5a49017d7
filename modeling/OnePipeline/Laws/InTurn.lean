/-
The order live notes are offered in, over every interleaving of the delivery threads, the writer, withdrawals and preempting
cancels.

Results:
- `one_thread`: a receiver's earliest envelope outstanding, and it alone, is with a thread, and the dispatch threads count each
  receiver's outstanding envelopes;
- `in_turn`: a receiver no cancel names is offered its notes one at a time, in the order they were handed, and what its turns
  took is committed once it is let go.
-/
import Mathlib.Tactic
import OnePipeline.Laws.Deliveries

namespace OnePipeline.Deliveries

open Runs

namespace NoteDeliveries

variable {s s' t : NoteDeliveries} {id i j : ℕ} {node n : String} {p : ℕ}

/-! ## Which notes are with a thread -/

theorem outstanding_iff : s.Outstanding i n ↔ ∃ lanes, s.outstanding[i]? = some lanes ∧ n ∈ lanes := by
  unfold Outstanding
  cases s.outstanding[i]? <;> simp

theorem receiving_iff : s.receiving n = true ↔ ∃ i, s.Outstanding i n := by
  simp only [receiving, Maps.any_toList, decide_eq_true_eq, outstanding_iff]

theorem offering_iff : s.offering n = true ↔ ∃ i, s.Outstanding i n ∧ s.hasThread i n = true := by
  simp only [offering, Maps.any_toList, Bool.and_eq_true, decide_eq_true_eq, outstanding_iff]
  exact ⟨fun ⟨i, lanes, hget, hn, hthread⟩ => ⟨i, ⟨lanes, hget, hn⟩, hthread⟩,
    fun ⟨i, ⟨lanes, hget, hn⟩, hthread⟩ => ⟨i, lanes, hget, hn, hthread⟩⟩

/-- the notes given to a thread next are the earliest that wait -/
theorem nextWaiting_some (h : s.nextWaiting n = some i) :
    s.Outstanding i n ∧ s.waits i n = true ∧ ∀ j, s.Outstanding j n → s.waits j n = true → i ≤ j := by
  obtain ⟨⟨k, lanes⟩, hfind, rfl⟩ := Option.map_eq_some_iff.mp h
  obtain ⟨hget, hp, hleast⟩ := Maps.find?_toList hfind
  obtain ⟨hn, hwaits⟩ := Bool.and_eq_true_iff.mp hp
  refine ⟨outstanding_iff.mpr ⟨lanes, hget, of_decide_eq_true hn⟩, hwaits, fun j hout hj => Nat.not_lt.mp fun hlt => ?_⟩
  obtain ⟨lanes', hget', hn'⟩ := outstanding_iff.mp hout
  exact hleast j lanes' hget' (Bool.and_eq_true_iff.mpr ⟨decide_eq_true hn', hj⟩) (Nat.compare_eq_lt.mpr hlt)

theorem nextWaiting_none (h : s.nextWaiting n = none) (hout : s.Outstanding i n) : ¬s.waits i n = true := by
  obtain ⟨lanes, hget, hn⟩ := outstanding_iff.mp hout
  exact fun hwaits => Maps.find?_toList_none (Option.map_eq_none_iff.mp h) hget
    (Bool.and_eq_true_iff.mpr ⟨decide_eq_true hn, hwaits⟩)

/-- a lane is with a thread, or waits -/
theorem waits_iff {lane : Lane} (hlane : s.lanes i n = some lane) : s.waits i n = true ↔ ¬s.hasThread i n = true := by
  simp [waits, hasThread, hlane]

theorem hasThread_iff {lane : Lane} (hlane : s.lanes i n = some lane) : s.hasThread i n = true ↔ lane.waiting = false := by
  simp [hasThread, hlane]

theorem hasThread_modifyLane {f : Lane → Lane} (hf : ∀ lane : Lane, (f lane).waiting = lane.waiting) :
    (s.modifyLane id node f).hasThread i n = s.hasThread i n := by
  unfold hasThread modifyLane
  simp only
  split_ifs
  · cases s.lanes i n with
    | none => rfl
    | some lane => exact congrArg not (hf lane)
  · rfl

theorem hasThread_startLane :
    (s.modifyLane id node fun lane => { lane with waiting := false }).hasThread i n =
      if i = id ∧ n = node then (s.lanes i n).isSome else s.hasThread i n := by
  unfold hasThread modifyLane
  simp only
  split_ifs
  · cases s.lanes i n <;> rfl
  · rfl

end NoteDeliveries

namespace Lane

variable {lane : Lane}

theorem waiting_admission (admitted : Bool) : (lane.admission admitted).waiting = lane.waiting := by
  unfold admission
  split_ifs <;> rfl

theorem waiting_fated (taken : Bool) : (lane.fated taken).waiting = lane.waiting := by
  unfold fated
  split_ifs <;> rfl

theorem waiting_answer (carried : Bool) : (lane.answer carried).waiting = lane.waiting := by
  unfold answer
  split <;> rfl

theorem waiting_withdraw (position : ℕ) : (lane.withdraw position).waiting = lane.waiting := by
  unfold withdraw
  split_ifs <;> rfl

end Lane

namespace NoteDeliveries

variable {s s' t : NoteDeliveries} {id i j : ℕ} {node n : String} {p : ℕ}

/-! ## One thread -/

/-- the earliest envelope outstanding to a receiver is with a thread, and no other, and each receiver is counted as often as it
is outstanding -/
structure Threaded (s : NoteDeliveries) : Prop where
  thread : ∀ i n, s.Outstanding i n → (s.hasThread i n = true ↔ ∀ j, s.Outstanding j n → i ≤ j)
  held : ∀ n, s.held n = s.handed.countP fun i => decide (s.Outstanding i n)

structure Seated (s : NoteDeliveries) : Prop where
  kept : s.Kept
  ascending : s.handed.Pairwise (· < ·)
  threaded : s.Threaded

theorem Threaded.congr (h : s.Threaded) (hout : ∀ i n, s'.Outstanding i n ↔ s.Outstanding i n)
    (hthread : ∀ i n, s'.hasThread i n = s.hasThread i n) (hheld : s'.held = s.held) (hhanded : s'.handed = s.handed) : s'.Threaded := by
  refine ⟨fun i n ho => ?_, fun n => ?_⟩
  · rw [hthread, h.thread i n ((hout i n).mp ho)]
    simp only [hout]
  · rw [hheld, hhanded, h.held]
    simp only [hout]

theorem threaded_start : ({} : NoteDeliveries).Threaded :=
  ⟨fun i n ho => absurd ho (by rw [outstanding_iff]; simp), fun _ => rfl⟩

/-- an envelope's notes handed: behind an earlier envelope's they wait, and are given a thread where there is none -/
theorem Threaded.hand (h : s.Threaded) (hkept : s.Kept) {notes : StrMap (List ℕ)} (hnew : ∀ earlier ∈ s.handed, earlier < id) :
    (s.hand id notes).Threaded := by
  have hbefore {i : ℕ} {n : String} (ho : s.Outstanding i n) : i < id := by
    obtain ⟨lane, hlane⟩ := hkept.known i n ho
    exact hnew i (hkept.handed i n lane hlane)
  have helse {i : ℕ} (hne : i ≠ id) (n : String) : (s.hand id notes).hasThread i n = s.hasThread i n := by
    simp only [hasThread, NoteDeliveries.hand, if_neg hne]
  refine ⟨fun i n ho => ?_, fun n => ?_⟩
  · by_cases hi : i = id
    · subst hi
      rw [outstanding_hand, if_pos rfl] at ho
      obtain ⟨mine, hmine⟩ := Maps.mem_iff.mp ho
      have hthread : (s.hand i notes).hasThread i n = !s.receiving n := by
        simp only [hasThread, NoteDeliveries.hand, if_true, hmine, Option.map_some, Option.any_some]
      rw [hthread, Bool.not_eq_true', ← Bool.not_eq_true, receiving_iff, not_exists]
      refine forall_congr' fun j => ?_
      rw [outstanding_hand]
      split_ifs with hj
      · rw [hj]
        exact iff_of_true (fun hin => absurd (hbefore hin) (Nat.lt_irrefl _)) fun _ => Nat.le_refl _
      · exact ⟨fun hnot hin => absurd hin hnot, fun hle hin => absurd (hle hin) (Nat.not_le.mpr (hbefore hin))⟩
    · rw [outstanding_hand, if_neg hi] at ho
      rw [helse hi, h.thread i n ho]
      refine forall_congr' fun j => ?_
      rw [outstanding_hand]
      split_ifs with hj
      · rw [hj]
        exact iff_of_true (fun hin => (hbefore ho).le) fun _ => (hbefore ho).le
      · rfl
  · have hold : s.handed.countP (fun i => decide ((s.hand id notes).Outstanding i n)) =
        s.handed.countP fun i => decide (s.Outstanding i n) := List.countP_congr fun i hin => by
      rw [decide_eq_true_eq, decide_eq_true_eq, outstanding_hand, if_neg (Nat.ne_of_lt (hnew i hin))]
    have hhanded : (s.hand id notes).handed = s.handed ++ [id] := rfl
    rw [hhanded, List.countP_append, hold, ← h.held n, List.countP_singleton]
    simp only [decide_eq_true_eq, outstanding_hand, if_true]
    simp only [NoteDeliveries.hand]
    split_ifs <;> rfl

theorem lanes_letGo_settled : (((s.takeLane id node).release node).finish id).lanes = s.lanes := lanes_finish

/-- the state a receiver is let go in, before the next notes to it are given a thread -/
theorem finish_facts : (s.finish id).held = s.held ∧ (s.finish id).handed = s.handed := by
  unfold finish
  split
  · split_ifs <;> exact ⟨rfl, rfl⟩
  · exact ⟨rfl, rfl⟩

theorem startNext_facts : (s.startNext node).held = s.held ∧ (s.startNext node).handed = s.handed := by
  unfold startNext
  split_ifs
  · exact ⟨rfl, rfl⟩
  · split <;> exact ⟨rfl, rfl⟩

/-- the next notes to a receiver given a thread: the receiver's earliest, where none is with one -/
theorem thread_startNext (hknown : ∀ i n, s.Outstanding i n → ∃ lane, s.lanes i n = some lane)
    (hthread : ∀ i n, s.Outstanding i n → (n = node → s.offering node = true) → (s.hasThread i n = true ↔ ∀ j, s.Outstanding j n → i ≤ j))
    (hout : s.Outstanding i n) : (s.startNext node).hasThread i n = true ↔ ∀ j, s.Outstanding j n → i ≤ j := by
  by_cases hoffering : s.offering node = true
  · rw [startNext, if_pos hoffering]
    exact hthread i n hout fun _ => hoffering
  have hidle {j : ℕ} (hj : s.Outstanding j node) : ¬s.hasThread j node = true :=
    fun hhas => hoffering (offering_iff.mpr ⟨j, hj, hhas⟩)
  rw [startNext, if_neg hoffering]
  cases hnext : s.nextWaiting node with
  | none =>
    by_cases hn : n = node
    · subst hn
      obtain ⟨lane, hlane⟩ := hknown i n hout
      exact absurd ((waits_iff hlane).mpr (hidle hout)) (nextWaiting_none hnext hout)
    · exact hthread i n hout fun heq => absurd heq hn
  | some first =>
    obtain ⟨hfirst, -, hleast⟩ := nextWaiting_some hnext
    rw [hasThread_startLane]
    by_cases hn : n = node
    · subst hn
      obtain ⟨lane, hlane⟩ := hknown i n hout
      have hall (j : ℕ) (hj : s.Outstanding j n) : first ≤ j := by
        obtain ⟨found, hfound⟩ := hknown j n hj
        exact hleast j hj ((waits_iff hfound).mpr (hidle hj))
      split_ifs with hat
      · rw [hat.1]
        exact iff_of_true (by rw [← hat.1, hlane]; rfl) hall
      · exact iff_of_false (hidle hout) fun hle => hat ⟨Nat.le_antisymm (hle first hfirst) (hall i hout), rfl⟩
    · rw [if_neg fun hat => hn hat.2]
      exact hthread i n hout fun heq => absurd heq hn

theorem countP_erased {l : List ℕ} (hnd : l.Nodup) (hin : id ∈ l) {P : ℕ → Prop} [DecidablePred P] (hP : P id) :
    l.countP (fun i => decide (P i ∧ i ≠ id)) = l.countP (fun i => decide (P i)) - 1 := by
  induction l with
  | nil => cases hin
  | cons a l ih =>
    obtain ⟨hnot, hnd⟩ := List.nodup_cons.mp hnd
    rw [List.countP_cons, List.countP_cons]
    rcases List.mem_cons.mp hin with rfl | hin
    · have hsame : l.countP (fun i => decide (P i ∧ i ≠ id)) = l.countP fun i => decide (P i) := List.countP_congr fun i hi => by
        have hne : i ≠ id := fun heq => hnot (heq ▸ hi)
        simp [hne]
      rw [hsame, if_neg fun h => (of_decide_eq_true h).2 rfl, if_pos (decide_eq_true hP), Nat.add_zero, Nat.add_sub_cancel]
    · have hne : a ≠ id := fun heq => hnot (heq ▸ hin)
      have hpos : 0 < l.countP fun i => decide (P i) := List.countP_pos_iff.mpr ⟨id, hin, decide_eq_true hP⟩
      rw [ih hnd hin]
      simp only [hne, ne_eq, not_false_eq_true, and_true]
      omega

/-- a receiver let go, its lane's notes being settled -/
theorem Threaded.letGo (h : s.Threaded) (hknown : ∀ i n, s.Outstanding i n → ∃ lane, s.lanes i n = some lane)
    (hnodup : s.handed.Nodup) (hin : id ∈ s.handed) (hout : s.Outstanding id node) : (s.letGo id node).Threaded := by
  generalize ht : ((s.takeLane id node).release node).finish id = t
  have hlanes : t.lanes = s.lanes := by rw [← ht]; exact lanes_letGo_settled
  have hstill (i : ℕ) (n : String) : t.Outstanding i n ↔ s.Outstanding i n ∧ ¬(i = id ∧ n = node) := by
    rw [← ht, outstanding_finish]
    exact outstanding_takeLane
  have hheld : t.held = fun n => if n = node then s.held n - 1 else s.held n := by rw [← ht, finish_facts.1]; rfl
  have hhanded : t.handed = s.handed := by rw [← ht, finish_facts.2]; rfl
  have hhas (i : ℕ) (n : String) : t.hasThread i n = s.hasThread i n := by rw [hasThread, hlanes, hasThread]
  have hgo : s.letGo id node = t.startNext node := by rw [← ht]; rfl
  rw [hgo]
  refine ⟨fun i n ho => ?_, fun n => ?_⟩
  · rw [outstanding_startNext] at ho
    simp only [outstanding_startNext]
    refine thread_startNext (fun i n ho => ?_) (fun i n ho hoffering => ?_) ho
    · rw [hlanes]
      exact hknown i n ((hstill i n).mp ho).1
    · obtain ⟨hso, hne⟩ := (hstill i n).mp ho
      rw [hhas, h.thread i n hso]
      refine ⟨fun hle j hj => hle j ((hstill j n).mp hj).1, fun hle j hj => ?_⟩
      by_cases hat : j = id ∧ n = node
      -- the receiver let go is not the one with the thread, which is the earliest
      · obtain ⟨rfl, rfl⟩ := hat
        obtain ⟨k, hk, hthread⟩ := offering_iff.mp (hoffering rfl)
        rw [hhas, h.thread k n ((hstill k n).mp hk).1] at hthread
        exact (hle k hk).trans (hthread j hout)
      · exact hle j ((hstill j n).mpr ⟨hj, hat⟩)
  · rw [startNext_facts.1, startNext_facts.2, hheld, hhanded]
    simp only [outstanding_startNext, hstill]
    split_ifs with hn
    · subst hn
      simp only [and_true]
      rw [h.held, ← countP_erased hnodup hin hout]
    · simp only [hn, and_false, not_false_eq_true, and_true]
      exact h.held n

/-! ### One step -/

theorem Seated.nodup (h : s.Seated) : s.handed.Nodup := h.ascending.imp Nat.ne_of_lt

/-- a receiver let go, whatever its notes are answered with -/
theorem Seated.letGo (h : s.Seated) {f : Lane → Lane} (hf : ∀ lane : Lane, (f lane).waiting = lane.waiting) (rulings : List Ruling)
    (hout : s.Outstanding id node) : (((s.modifyLane id node f).settleLane id node rulings).letGo id node).Threaded := by
  obtain ⟨lane, hlane⟩ := h.kept.known id node hout
  have hthreaded : ((s.modifyLane id node f).settleLane id node rulings).Threaded :=
    h.threaded.congr (fun _ _ => Iff.rfl) (fun i n => hasThread_modifyLane hf) rfl rfl
  refine hthreaded.letGo (fun i n ho => ?_) h.nodup (h.kept.handed id node lane hlane) hout
  obtain ⟨found, hfound⟩ := h.kept.known i n ho
  simp only [settleLane, modifyLane, hfound, Option.map_some]
  split_ifs <;> exact ⟨_, rfl⟩

theorem Seated.recordLane (h : s.Seated) : (s.recordLane id node).Threaded := by
  unfold NoteDeliveries.recordLane
  split
  · rename_i lane hlane
    split_ifs with hdone
    · have hsame : s.modifyLane id node (fun lane => lane) = s := (modifyLane_const hlane).trans (modifyLane_self hlane)
      have hgo := h.letGo (f := fun lane => lane) (fun _ => rfl) lane.rulings hdone.1
      rwa [hsame] at hgo
    · exact h.threaded
  · exact h.threaded

theorem Threaded.lanes (h : s.Threaded) {f : Lane → Lane} (hf : ∀ lane : Lane, (f lane).waiting = lane.waiting)
    (hlanes : s'.lanes = (s.modifyLane id node f).lanes) (hout : s'.outstanding = s.outstanding) (hheld : s'.held = s.held)
    (hhanded : s'.handed = s.handed) : s'.Threaded := by
  refine h.congr (fun i n => ?_) (fun i n => ?_) hheld hhanded
  · rw [Outstanding, hout, Outstanding]
  · rw [hasThread, hlanes]
    exact hasThread_modifyLane hf

theorem Seated.preempt (h : s.Seated) : s.preempt.Threaded := by
  have hwriter {t : NoteDeliveries} (ht : t.Threaded) (writer : Writer) : { t with writer }.Threaded :=
    ht.congr (fun _ _ => Iff.rfl) (fun _ _ => rfl) rfl rfl
  unfold NoteDeliveries.preempt
  split
  · exact h.threaded
  · rename_i canceller id node rest preempted takenBack heq
    unfold visit
    split
    · split_ifs
      · exact hwriter h.threaded _
      · exact hwriter h.threaded _
      · exact h.threaded.lanes (f := (Lane.markCancelled · canceller)) (fun _ => rfl) rfl rfl rfl rfl
    · exact hwriter h.threaded _
  · exact hwriter h.threaded _
  · exact h.threaded.lanes (fun _ => Lane.waiting_withdraw _) rfl rfl rfl rfl
  · exact hwriter h.threaded _
  · unfold answerFor
    split
    · split_ifs with hout
      · exact hwriter (h.letGo (f := Lane.committed) (fun _ => rfl) (preemptedRulings _) hout) _
      · exact hwriter h.threaded _
    · exact hwriter h.threaded _
  · exact hwriter h.threaded _

theorem Seated.withdrawNote (h : s.Seated) (hp : ∀ lane ∈ s.lanes id node, p < lane.notes.length) :
    (s.withdrawNote id node p).Threaded := by
  unfold NoteDeliveries.withdrawNote
  split
  · exact h.threaded
  · rename_i lane' hback
    obtain ⟨lane, hlane, hback⟩ := Option.bind_eq_some_iff.mp hback
    obtain ⟨-, -, -, -, -, hwaiting, -⟩ := (h.kept.sound id node lane hlane).takeBack (hp lane hlane) hback
    refine h.threaded.congr (fun _ _ => Iff.rfl) (fun i n => ?_) rfl rfl
    simp only [hasThread, modifyLane]
    split_ifs with hat
    · rw [hat.1, hat.2, hlane]
      exact congrArg not hwaiting
    · rfl

theorem handed_recordLane : (s.recordLane id node).handed = s.handed := by
  unfold NoteDeliveries.recordLane
  split
  · split_ifs
    · exact quiet_letGo.handed
    · rfl
  · rfl

theorem handed_preempt : s.preempt.handed = s.handed := by
  unfold NoteDeliveries.preempt
  split
  · rfl
  · unfold visit
    split
    · split_ifs <;> rfl
    · rfl
  · rfl
  · rfl
  · rfl
  · unfold answerFor
    split
    · split_ifs
      · exact quiet_letGo.handed
      · rfl
    · rfl
  · rfl

theorem handed_step {event : Event} : (s.step event).handed = s.handed ++ (match event with | .hand id _ => [id] | _ => []) := by
  cases event with
  | hand id notes => rfl
  | admission id node admitted =>
    rw [List.append_nil, step, admission]
    split <;> rfl
  | fate id node taken =>
    rw [List.append_nil, step, fate]
    split <;> rfl
  | answer id node carried => exact (List.append_nil _).symm
  | record id node => rw [List.append_nil, step, handed_recordLane]
  | withdrawNote id node position =>
    rw [List.append_nil, step, NoteDeliveries.withdrawNote]
    split <;> rfl
  | cancel canceller cancelled => exact (List.append_nil _).symm
  | preempt => rw [List.append_nil, step, handed_preempt]

theorem threaded_step (h : s.Seated) {event : Event} (hallowed : s.Allowed event) : (s.step event).Threaded := by
  cases event with
  | hand id notes => exact h.threaded.hand h.kept hallowed.2
  | admission id node admitted =>
    rw [step, admission]
    split
    · exact h.threaded
    · exact h.threaded.lanes (fun _ => Lane.waiting_admission _) rfl rfl rfl rfl
  | fate id node taken =>
    rw [step, fate]
    split
    · exact h.threaded
    · exact h.threaded.lanes (fun _ => Lane.waiting_fated _) rfl rfl rfl rfl
  | answer id node carried => exact h.threaded.lanes (fun _ => Lane.waiting_answer _) rfl rfl rfl rfl
  | record id node => exact h.recordLane
  | withdrawNote id node position => exact h.withdrawNote hallowed.2.2.2
  | cancel canceller cancelled => exact h.threaded.congr (fun _ _ => Iff.rfl) (fun _ _ => rfl) rfl rfl
  | preempt => exact h.preempt

theorem seated_step (h : s.Seated) {event : Event} (hallowed : s.Allowed event) : (s.step event).Seated := by
  refine ⟨kept_step h.kept hallowed, ?_, threaded_step h hallowed⟩
  rw [handed_step]
  cases event with
  | hand id notes =>
    refine List.pairwise_append.mpr ⟨h.ascending, List.pairwise_singleton _ _, fun a ha b hb => ?_⟩
    rw [List.mem_singleton.mp hb]
    exact hallowed.2 a ha
  | _ =>
    rw [List.append_nil]
    exact h.ascending

theorem seated_start : ({} : NoteDeliveries).Seated := ⟨kept_start, List.Pairwise.nil, threaded_start⟩

/-- **One thread.** Over every order of threads, recordings, withdrawals and cancels: of the envelopes outstanding to a receiver
the earliest is with a thread, and no other, and the dispatch threads see as many deliveries to it as envelopes are outstanding
to it. -/
theorem one_thread (events : List Event) (h : Admits step Allowed {} events) : (events.foldl step {}).Threaded :=
  (h.invariant (I := Seated) (fun _ _ hseated hallowed => seated_step hseated hallowed) seated_start).threaded

/-- a worker's third note is with a thread once the two before it are answered -/
theorem one_thread_cancelled : ((cancelledOnOffer.take 8).foldl step {}).Threaded :=
  one_thread (cancelledOnOffer.take 8) (by decide +kernel)

end NoteDeliveries

/-! ## In turn -/

namespace Lane

/-- whether the thread has come to a note: it answered it, or has it on offer -/
def Reached (lane : Lane) (p : ℕ) : Prop := p < lane.next ∨ (p = lane.next ∧ lane.offer.isSome = true)

variable {lane lane' : Lane} {p : ℕ}

theorem Reached.next_lt (h : lane.Reached p) : p < lane.next + 1 := by
  rcases h with hlt | ⟨rfl, -⟩
  · exact Nat.lt_succ_of_lt hlt
  · exact Nat.lt_succ_self _

theorem Reached.of_next (h : lane.Reached p) (hnext : lane'.next = lane.next) (hoffer : lane'.offer.isSome = lane.offer.isSome) :
    lane'.Reached p := by
  rw [Reached, hnext, hoffer]
  exact h

theorem Reached.admission (h : lane.Reached p) (admitted : Bool) : (lane.admission admitted).Reached p := by
  have hruled (r : Ruling) : (lane.ruled r).Reached p := .inl (by rw [next_ruled]; exact h.next_lt)
  unfold Lane.admission
  split_ifs with hfree
  · exact hruled _
  · exact hruled _
  · exact hruled _
  · refine .inl (h.resolve_right fun hat => ?_)
    rw [(isFree_iff.mp hfree).2.1] at hat
    cases hat.2
  · exact h

theorem Reached.fated (h : lane.Reached p) (taken : Bool) : (lane.fated taken).Reached p := by
  by_cases hoffer : lane.offer = some .waiting
  · rw [Lane.fated, if_pos hoffer]
    exact h.of_next rfl (by rw [hoffer]; rfl)
  · rw [Lane.fated, if_neg hoffer]
    exact h

theorem Reached.answer (h : lane.Reached p) (carried : Bool) : (lane.answer carried).Reached p := by
  have hsettled (r : Ruling) : (lane.settled r).Reached p := .inl (by rw [next_settled]; exact h.next_lt)
  unfold Lane.answer
  split
  · exact h
  · exact h
  · exact hsettled _
  · exact hsettled _
  · exact hsettled _
  · exact hsettled _

theorem Reached.takeBack {q : ℕ} (h : lane.Reached p) (hback : lane.takeBack q = some lane') : lane'.Reached p := by
  unfold Lane.takeBack at hback
  split_ifs at hback
  · split at hback
    · cases hback
    · split_ifs at hback with hwithdraws
      obtain rfl := Option.some.inj hback
      unfold withdraw
      rw [if_pos hwithdraws]
      exact h.of_next rfl (by rw [(of_decide_eq_true hwithdraws).2]; rfl)
  · obtain rfl := Option.some.inj hback
    exact h.of_next rfl rfl

/-- a thread that has answered every note does nothing more -/
theorem admission_of_done (h : lane.isDone = true) (admitted : Bool) : lane.admission admitted = lane := by
  rw [admission, if_neg fun hfree => Nat.not_lt.mpr (isDone_iff.mp h).2.2 (isFree_iff.mp hfree).2.2]

theorem fated_of_done (h : lane.isDone = true) (taken : Bool) : lane.fated taken = lane := by
  refine if_neg fun hoffer => ?_
  rw [(isDone_iff.mp h).2.1] at hoffer
  cases hoffer

theorem answer_of_done (h : lane.isDone = true) (carried : Bool) : lane.answer carried = lane := by
  rw [answer, (isDone_iff.mp h).2.1]

theorem offers_of_done (h : lane.isDone = true) : ¬lane.offers = true := fun hoffers =>
  Nat.not_lt.mpr (isDone_iff.mp h).2.2 (isFree_iff.mp (offers_iff.mp hoffers).1).2.2

/-- a note offered is one its thread has come to -/
theorem reached_of_offers (h : lane.offers = true) (admitted : Bool) : (lane.admission admitted).Reached lane.next := by
  obtain ⟨hfree, hwithdrawn, hrefused, hcancelled⟩ := offers_iff.mp h
  rw [admission, if_pos hfree, if_neg hwithdrawn, if_neg hrefused, if_neg (by simp [hcancelled])]
  exact .inr ⟨rfl, rfl⟩

end Lane

/-- the order notes are handed in -/
def Before (a b : Note) : Prop := a.1 < b.1 ∨ (a.1 = b.1 ∧ a.2.2 < b.2.2)

/-- the receivers a preemption under way has still to deal with -/
def Writer.receivers : Writer → List String
  | .idle => []
  | .visiting _ rest preempted takenBack => rest.map Prod.snd ++ preempted.map Prod.snd ++ takenBack.map fun note => note.2.1
  | .takingBack preempted takenBack => preempted.map Prod.snd ++ takenBack.map fun note => note.2.1
  | .lettingGo preempted => preempted.map Prod.snd

/-- a `cancel` that does not name a receiver, or any other event -/
def Event.Spares (n : String) : Event → Prop
  | .cancel _ cancelled => n ∉ cancelled
  | _ => True

instance (n : String) : (event : Event) → Decidable (event.Spares n)
  | .cancel _ _ => inferInstanceAs (Decidable (¬_))
  | .hand _ _ | .admission _ _ _ | .fate _ _ _ | .answer _ _ _ | .record _ _ | .withdrawNote _ _ _ | .preempt => .isTrue trivial

namespace NoteDeliveries

variable {s s' t : NoteDeliveries} {id i j : ℕ} {node n : String} {p : ℕ}

/-- the notes to a receiver its conversation was offered, in the order it was -/
def offeredTo (s : NoteDeliveries) (n : String) : List Note := s.offered.filter fun note => note.2.1 = n

structure InTurn (n : String) (s : NoteDeliveries) : Prop where
  ascending : (s.offeredTo n).Pairwise Before
  one : ∀ i j lane lane', s.lanes i n = some lane → s.lanes j n = some lane' → lane.offer.isSome = true → lane'.offer.isSome = true → i = j
  committed : ∀ i p, (i, n, p) ∈ s.taken → ¬s.Outstanding i n → ((i, n, p), Fate.committed) ∈ s.records

structure InLine (n : String) (s : NoteDeliveries) : Prop where
  seated : s.Seated
  spared : n ∉ s.writer.receivers
  gone : ∀ i lane, s.lanes i n = some lane → ¬s.Outstanding i n → lane.isDone = true
  before : ∀ i j lane, s.lanes i n = some lane → ¬s.Outstanding i n → s.Outstanding j n → i < j
  reached : ∀ note ∈ s.offeredTo n, ∃ lane, s.lanes note.1 n = some lane ∧ lane.Reached note.2.2
  ascending : (s.offeredTo n).Pairwise Before
  settled : ∀ i lane p, s.lanes i n = some lane → ¬s.Outstanding i n → lane.rulings[p]? = some .committed →
    ((i, n, p), Fate.committed) ∈ s.records

/-- a receiver's lane with an offer, or about to have one, is the earliest outstanding to it -/
theorem InLine.earliest (h : InLine n s) {lane : Lane} (hlane : s.lanes i n = some lane) (hnot : ¬lane.isDone = true)
    (hthread : lane.waiting = false) : s.Outstanding i n ∧ ∀ j, s.Outstanding j n → i ≤ j := by
  have hout : s.Outstanding i n := by_contra fun hgone => hnot (h.gone i lane hlane hgone)
  exact ⟨hout, (h.seated.threaded.thread i n hout).mp ((hasThread_iff hlane).mpr hthread)⟩

theorem InLine.inTurn (h : InLine n s) : InTurn n s := by
  have hopen {i : ℕ} {lane : Lane} (hlane : s.lanes i n = some lane) (hoffer : lane.offer.isSome = true) :
      s.Outstanding i n ∧ ∀ j, s.Outstanding j n → i ≤ j := by
    refine h.earliest hlane (fun hdone => ?_) ?_
    · rw [(Lane.isDone_iff.mp hdone).2.1] at hoffer
      cases hoffer
    · refine Bool.eq_false_iff.mpr fun hwaits => ?_
      rw [((h.seated.kept.sound i n lane hlane).waits hwaits).2] at hoffer
      cases hoffer
  refine ⟨h.ascending, fun i j lane lane' hlane hlane' hoffer hoffer' => ?_, fun i p htaken hgone => ?_⟩
  · obtain ⟨hi, hleast⟩ := hopen hlane hoffer
    obtain ⟨hj, hleast'⟩ := hopen hlane' hoffer'
    exact Nat.le_antisymm (hleast j hj) (hleast' i hi)
  · obtain ⟨lane, hlane, htook⟩ := h.seated.kept.took i n p htaken
    refine h.settled i lane p hlane hgone (htook.resolve_left fun hat => ?_)
    rw [(Lane.isDone_iff.mp (h.gone i lane hlane hgone)).2.1] at hat
    cases hat.2

/-! ### What a step does of one receiver -/

/-- a step beside a receiver -/
structure Beside (n : String) (s s' : NoteDeliveries) : Prop where
  lanes : ∀ i, s'.lanes i n = s.lanes i n
  outstanding : ∀ i, s'.Outstanding i n ↔ s.Outstanding i n
  offered : s'.offeredTo n = s.offeredTo n
  records : ∀ record ∈ s.records, record ∈ s'.records

theorem InLine.beside (h : InLine n s) (hseated : s'.Seated) (hspared : n ∉ s'.writer.receivers) (hbeside : Beside n s s') :
    InLine n s' := by
  obtain ⟨hlanes, hout, hoffered, hrecords⟩ := hbeside
  refine ⟨hseated, hspared, ?_, ?_, ?_, ?_, ?_⟩
  · simpa only [hlanes, hout] using h.gone
  · simpa only [hlanes, hout] using h.before
  · simpa only [hlanes, hoffered] using h.reached
  · rw [hoffered]
    exact h.ascending
  · simp only [hlanes, hout]
    exact fun i lane p hlane hgone hcommitted => hrecords _ (h.settled i lane p hlane hgone hcommitted)

/-- one of a receiver's lanes a step further: at most its thread's next note is offered -/
theorem InLine.lane (h : InLine n s) (hseated : s'.Seated) (hspared : n ∉ s'.writer.receivers) {lane lane' : Lane}
    (hlane : s.lanes id n = some lane) (hlanes : ∀ i, s'.lanes i n = if i = id then some lane' else s.lanes i n)
    (hout : ∀ i, s'.Outstanding i n ↔ s.Outstanding i n) (hrecords : ∀ record ∈ s.records, record ∈ s'.records)
    (hgone : ¬s.Outstanding id n → lane' = lane) (hreached : ∀ p, lane.Reached p → lane'.Reached p)
    (hoffered : s'.offeredTo n = s.offeredTo n ∨
      (lane.offers = true ∧ lane'.Reached lane.next ∧ s'.offeredTo n = s.offeredTo n ++ [(id, n, lane.next)])) : InLine n s' := by
  have hsame {i : ℕ} (hi : ¬s.Outstanding i n) : s'.lanes i n = s.lanes i n := by
    rw [hlanes]
    split_ifs with hat
    · rw [hat, hlane, hgone (hat ▸ hi)]
    · rfl
  have hstill (note : Note) (hin : note ∈ s.offeredTo n) : ∃ lane, s'.lanes note.1 n = some lane ∧ lane.Reached note.2.2 := by
    obtain ⟨found, hfound, hcome⟩ := h.reached note hin
    rw [hlanes]
    split_ifs with hat
    · rw [hat, hlane] at hfound
      cases hfound
      exact ⟨lane', rfl, hreached _ hcome⟩
    · exact ⟨found, hfound, hcome⟩
  refine ⟨hseated, hspared, fun i found hfound hi => ?_, fun i j found hfound hi hj => ?_, fun note hin => ?_, ?_,
    fun i found p hfound hi hcommitted => ?_⟩
  · rw [hout] at hi
    rw [hsame hi] at hfound
    exact h.gone i found hfound hi
  · rw [hout] at hi hj
    rw [hsame hi] at hfound
    exact h.before i j found hfound hi hj
  · rcases hoffered with heq | ⟨-, hnext, heq⟩
    · exact hstill note (heq ▸ hin)
    · rw [heq] at hin
      rcases List.mem_append.mp hin with hold | hnew
      · exact hstill note hold
      · rw [List.mem_singleton.mp hnew]
        exact ⟨lane', by rw [hlanes, if_pos rfl], hnext⟩
  · rcases hoffered with heq | ⟨hoffers, -, heq⟩
    · rw [heq]
      exact h.ascending
    · rw [heq]
      refine List.pairwise_append.mpr ⟨h.ascending, List.pairwise_singleton _ _, fun a ha b hb => ?_⟩
      rw [List.mem_singleton.mp hb]
      obtain ⟨hthread, hnone, -⟩ := Lane.isFree_iff.mp (Lane.offers_iff.mp hoffers).1
      obtain ⟨hid, hleast⟩ := h.earliest hlane (fun hdone => Lane.offers_of_done hdone hoffers) hthread
      obtain ⟨found, hfound, hcome⟩ := h.reached a ha
      by_cases hat : a.1 = id
      · refine .inr ⟨hat, ?_⟩
        rw [hat, hlane] at hfound
        cases hfound
        refine hcome.resolve_right fun hopen => ?_
        rw [hnone] at hopen
        cases hopen.2
      -- an earlier lane was let go, and a later one has no thread to have offered anything
      · refine .inl (by_contra fun hnot => ?_)
        have hlater : s.Outstanding a.1 n := by_contra fun hi => hnot (h.before a.1 id found hfound hi hid)
        have hwaits : found.waiting = true := by
          by_contra hwaiting
          have hthread : s.hasThread a.1 n = true := (hasThread_iff hfound).mpr (Bool.eq_false_iff.mpr hwaiting)
          exact hat (Nat.le_antisymm ((h.seated.threaded.thread a.1 n hlater).mp hthread id hid) (hleast a.1 hlater))
        obtain ⟨hrulings, hoffer⟩ := (h.seated.kept.sound a.1 n found hfound).waits hwaits
        rcases hcome with hlt | hopen
        · rw [Lane.next, hrulings] at hlt
          exact Nat.not_lt_zero _ hlt
        · rw [hoffer] at hopen
          cases hopen.2
  · rw [hout] at hi
    rw [hsame hi] at hfound
    exact hrecords _ (h.settled i found p hfound hi hcommitted)

theorem lanes_modifyLane_of_ne {f : Lane → Lane} (h : n ≠ node) : (s.modifyLane id node f).lanes i n = s.lanes i n :=
  if_neg fun hat => h hat.2

/-- the next notes to a receiver given a thread: a lane of it that was outstanding, if any -/
theorem lanes_startNext : (s.startNext node).lanes i n = s.lanes i n ∨ (n = node ∧ s.Outstanding i n ∧
    ∃ lane, s.lanes i n = some lane ∧ (s.startNext node).lanes i n = some { lane with waiting := false }) := by
  unfold startNext
  split_ifs
  · exact .inl rfl
  · split
    · exact .inl rfl
    · rename_i first hnext
      by_cases hat : i = first ∧ n = node
      · obtain ⟨hout, hwaits, -⟩ := nextWaiting_some hnext
        obtain ⟨lane, hlane, -⟩ := (Option.any_eq_true _ _).mp hwaits
        refine .inr ⟨hat.2, hat.1 ▸ hat.2 ▸ hout, lane, hat.1 ▸ hat.2 ▸ hlane, ?_⟩
        simp only [modifyLane, if_pos hat]
        rw [hat.1, hat.2, hlane]
        rfl
      · exact .inl (if_neg hat)

theorem lanes_letGo : (s.letGo id node).lanes i n = s.lanes i n ∨ (n = node ∧ i ≠ id ∧ s.Outstanding i n ∧
    ∃ lane, s.lanes i n = some lane ∧ (s.letGo id node).lanes i n = some { lane with waiting := false }) := by
  have hlanes : (((s.takeLane id node).release node).finish id).lanes = s.lanes := lanes_finish
  have hstart := @lanes_startNext (((s.takeLane id node).release node).finish id) i node n
  rw [hlanes, outstanding_finish] at hstart
  refine hstart.imp_right fun ⟨hn, hout, hlane⟩ => ?_
  obtain ⟨ho, hne⟩ := outstanding_takeLane.mp hout
  exact ⟨hn, fun hi => hne ⟨hi, hn⟩, ho, hlane⟩

theorem mem_recordsFrom_of {rulings : List Ruling} {r : Ruling} {fate : Fate} (hr : rulings[p]? = some r) (hfate : r.fate? = some fate) :
    ((id, node, p), fate) ∈ recordsFrom id node 0 rulings := by
  refine List.mem_filterMap.mpr ⟨(r, p), ?_, by simp [hfate]⟩
  rw [List.mem_zipIdx_iff_getElem?]
  exact hr

/-- a receiver whose thread has answered every note, let go -/
theorem InLine.letGo (h : InLine n s) {lane : Lane} (hlane : s.lanes id n = some lane) (hdone : lane.isDone = true)
    (hout : s.Outstanding id n) (hseated : ((s.settleLane id n lane.rulings).letGo id n).Seated) (hspared : n ∉ ((s.settleLane id n lane.rulings).letGo id n).writer.receivers) :
    InLine n ((s.settleLane id n lane.rulings).letGo id n) := by
  have hlanes (i : ℕ) : ((s.settleLane id n lane.rulings).letGo id n).lanes i n = s.lanes i n ∨ (n = n ∧ i ≠ id ∧ s.Outstanding i n ∧
      ∃ lane', s.lanes i n = some lane' ∧ ((s.settleLane id n lane.rulings).letGo id n).lanes i n = some { lane' with waiting := false }) :=
    lanes_letGo
  have hstill (i : ℕ) : ((s.settleLane id n lane.rulings).letGo id n).Outstanding i n ↔ s.Outstanding i n ∧ i ≠ id := by
    rw [outstanding_letGo]
    exact and_congr_right fun _ => not_congr (and_iff_left rfl)
  have hoffered : ((s.settleLane id n lane.rulings).letGo id n).offeredTo n = s.offeredTo n := by
    rw [offeredTo, quiet_letGo.offered]
    rfl
  have hrecords : ((s.settleLane id n lane.rulings).letGo id n).records = s.records ++ recordsFrom id n 0 lane.rulings := quiet_letGo.records
  have hsame {i : ℕ} {found : Lane} (hi : ¬((s.settleLane id n lane.rulings).letGo id n).Outstanding i n)
      (hfound : ((s.settleLane id n lane.rulings).letGo id n).lanes i n = some found) : s.lanes i n = some found := by
    rcases hlanes i with heq | ⟨-, hne, ho, -⟩
    · rw [← heq, hfound]
    · exact absurd ((hstill i).mpr ⟨ho, hne⟩) hi
  have hwas {i : ℕ} (hi : ¬((s.settleLane id n lane.rulings).letGo id n).Outstanding i n) : i = id ∨ ¬s.Outstanding i n := by
    by_contra hboth
    obtain ⟨hne, ho⟩ := not_or.mp hboth
    exact hi ((hstill i).mpr ⟨not_not.mp ho, hne⟩)
  refine ⟨hseated, hspared, fun i found hfound hi => ?_, fun i j found hfound hi hj => ?_, fun note hin => ?_, ?_,
    fun i found p hfound hi hcommitted => ?_⟩
  · replace hfound := hsame hi hfound
    rcases hwas hi with rfl | hgone
    · cases hlane.symm.trans hfound
      exact hdone
    · exact h.gone i found hfound hgone
  · obtain ⟨hwaited, hne⟩ := (hstill j).mp hj
    rcases hwas hi with rfl | hgone
    · have hthread : s.hasThread i n = true := (hasThread_iff hlane).mpr (Lane.isDone_iff.mp hdone).1
      exact Nat.lt_of_le_of_ne ((h.seated.threaded.thread i n hout).mp hthread j hwaited) (Ne.symm hne)
    · exact h.before i j found (hsame hi hfound) hgone hwaited
  · rw [hoffered] at hin
    obtain ⟨found, hfound, hcome⟩ := h.reached note hin
    rcases hlanes note.1 with heq | ⟨-, -, -, lane', hlane', heq⟩
    · exact ⟨found, heq.trans hfound, hcome⟩
    · rw [hlane'] at hfound
      cases hfound
      exact ⟨_, heq, hcome.of_next rfl rfl⟩
  · rw [hoffered]
    exact h.ascending
  · replace hfound := hsame hi hfound
    rw [hrecords]
    rcases hwas hi with rfl | hgone
    · cases hlane.symm.trans hfound
      exact List.mem_append_right _ (mem_recordsFrom_of hcommitted rfl)
    · exact List.mem_append_left _ (h.settled i found p hfound hgone hcommitted)

/-- another receiver let go -/
theorem beside_letGo {f : Lane → Lane} {rulings : List Ruling} (hne : n ≠ node) :
    Beside n s (((s.modifyLane id node f).settleLane id node rulings).letGo id node) := by
  have hquiet := @quiet_letGo ((s.modifyLane id node f).settleLane id node rulings) id node
  refine ⟨fun i => ?_, fun i => ?_, ?_, fun record hin => ?_⟩
  · have hlanes := @lanes_letGo ((s.modifyLane id node f).settleLane id node rulings) id i node n
    rw [hlanes.resolve_right fun hat => hne hat.1]
    exact lanes_modifyLane_of_ne hne
  · rw [outstanding_letGo, and_iff_left fun hat => hne hat.2]
    rfl
  · rw [offeredTo, hquiet.offered]
    rfl
  · rw [hquiet.records]
    exact List.mem_append_left _ hin

/-- an envelope's notes handed -/
theorem InLine.hand (h : InLine n s) {notes : StrMap (List ℕ)} (hseated : (s.hand id notes).Seated)
    (hnew : ∀ earlier ∈ s.handed, earlier < id) : InLine n (s.hand id notes) := by
  have hold {i : ℕ} {lane : Lane} (hlane : s.lanes i n = some lane) : i < id := hnew i (h.seated.kept.handed i n lane hlane)
  have hlanes {i : ℕ} (hi : i ≠ id) : (s.hand id notes).lanes i n = s.lanes i n := if_neg hi
  have hgone {i : ℕ} {lane : Lane} (hlane : (s.hand id notes).lanes i n = some lane) (hi : ¬(s.hand id notes).Outstanding i n) :
      i ≠ id ∧ s.lanes i n = some lane ∧ ¬s.Outstanding i n := by
    rw [outstanding_hand] at hi
    have hne : i ≠ id := fun hat => by
      rw [if_pos hat] at hi
      rw [NoteDeliveries.hand] at hlane
      simp only [if_pos hat, Maps.not_mem_iff.mp hi, Option.map_none] at hlane
      cases hlane
    rw [if_neg hne] at hi
    exact ⟨hne, (hlanes hne).symm.trans hlane, hi⟩
  refine ⟨hseated, h.spared, fun i lane hlane hi => ?_, fun i j lane hlane hi hj => ?_, fun note hin => ?_, h.ascending,
    fun i lane p hlane hi hcommitted => ?_⟩
  · obtain ⟨-, hlane, hi⟩ := hgone hlane hi
    exact h.gone i lane hlane hi
  · obtain ⟨-, hlane, hi⟩ := hgone hlane hi
    rw [outstanding_hand] at hj
    split_ifs at hj with hat
    · rw [hat]
      exact hold hlane
    · exact h.before i j lane hlane hi hj
  · obtain ⟨lane, hlane, hcome⟩ := h.reached note hin
    exact ⟨lane, (hlanes (Nat.ne_of_lt (hold hlane))).trans hlane, hcome⟩
  · obtain ⟨-, hlane, hi⟩ := hgone hlane hi
    exact h.settled i lane p hlane hi hcommitted

theorem writer_letGo : (s.letGo id node).writer = s.writer := by
  have hstart {t : NoteDeliveries} : (t.startNext node).writer = t.writer := by
    unfold startNext
    split_ifs
    · rfl
    · split <;> rfl
  have hfinish {t : NoteDeliveries} : (t.finish id).writer = t.writer := by
    unfold finish
    split
    · split_ifs <;> rfl
    · rfl
  rw [letGo, hstart, hfinish]
  rfl

/-- a step of one receiver's thread, or of its conversation -/
theorem InLine.thread (h : InLine n s) {f : Lane → Lane} {lane : Lane} (hlane : s.lanes id node = some lane) (hseated : s'.Seated)
    (hlanes : s'.lanes = (s.modifyLane id node f).lanes) (hout : s'.outstanding = s.outstanding) (hwriter : s'.writer = s.writer)
    (hrecords : s'.records = s.records) (hdone : lane.isDone = true → f lane = lane) (hreached : ∀ p, lane.Reached p → (f lane).Reached p)
    (hoffered : s'.offered = s.offered ∨
      (lane.offers = true ∧ (f lane).Reached lane.next ∧ s'.offered = s.offered ++ [(id, node, lane.next)])) : InLine n s' := by
  have hspared : n ∉ s'.writer.receivers := hwriter ▸ h.spared
  have hsame (i : ℕ) (n : String) : s'.Outstanding i n ↔ s.Outstanding i n := by rw [Outstanding, hout, Outstanding]
  have hkept (record : Note × Fate) (hin : record ∈ s.records) : record ∈ s'.records := hrecords ▸ hin
  by_cases hn : n = node
  · subst hn
    refine h.lane hseated hspared hlane (fun i => ?_) (fun i => hsame i n) hkept (fun hgone => hdone (h.gone id lane hlane hgone)) hreached
      (hoffered.imp (fun heq => ?_) fun ⟨hoffers, hnext, heq⟩ => ⟨hoffers, hnext, ?_⟩)
    · rw [hlanes, modifyLane]
      simp only [and_true]
      split_ifs with hi
      · rw [hi, hlane]
        rfl
      · rfl
    · rw [offeredTo, heq, offeredTo]
    · rw [offeredTo, heq, List.filter_append, offeredTo]
      simp
  · refine h.beside hseated hspared ⟨fun i => ?_, fun i => hsame i n, ?_, hkept⟩
    · rw [hlanes]
      exact lanes_modifyLane_of_ne hn
    · rcases hoffered with heq | ⟨-, -, heq⟩
      · rw [offeredTo, heq, offeredTo]
      · rw [offeredTo, heq, List.filter_append, offeredTo]
        simp [Ne.symm hn]

theorem InLine.recordLane (h : InLine n s) (hseated : (s.recordLane id node).Seated) : InLine n (s.recordLane id node) := by
  unfold NoteDeliveries.recordLane at hseated ⊢
  cases hlane : s.lanes id node with
  | none => exact h
  | some lane =>
    simp only [hlane] at hseated ⊢
    split_ifs at hseated ⊢ with hready
    · have hspared : n ∉ ((s.settleLane id node lane.rulings).letGo id node).writer.receivers := by
        rw [writer_letGo]
        exact h.spared
      by_cases hn : n = node
      · subst hn
        exact h.letGo hlane hready.2 hready.1 hseated hspared
      · have hsame : s.modifyLane id node (fun lane => lane) = s := (modifyLane_const hlane).trans (modifyLane_self hlane)
        have hbeside := @beside_letGo s id node n (fun lane => lane) lane.rulings hn
        rw [hsame] at hbeside
        exact h.beside hseated hspared hbeside
    · exact h

theorem InLine.withdrawNote (h : InLine n s) (hseated : (s.withdrawNote id node p).Seated) (hout : s.Outstanding id node) :
    InLine n (s.withdrawNote id node p) := by
  unfold NoteDeliveries.withdrawNote at hseated ⊢
  cases hback : (s.lanes id node).bind fun lane => lane.takeBack p with
  | none => exact h
  | some lane' =>
    simp only [hback] at hseated ⊢
    obtain ⟨lane, hlane, htakeBack⟩ := Option.bind_eq_some_iff.mp hback
    have hrecords (record : Note × Fate) (hin : record ∈ s.records) : record ∈ s.records ++ [((id, node, p), Fate.withdrawn)] :=
      List.mem_append_left _ hin
    by_cases hn : n = node
    · subst hn
      refine h.lane hseated h.spared hlane (fun i => ?_) (fun _ => Iff.rfl) hrecords (fun hgone => absurd hout hgone)
        (fun q hcome => hcome.takeBack htakeBack) (.inl rfl)
      simp only [modifyLane, and_true]
      split_ifs with hi
      · rw [hi, hlane]
        rfl
      · rfl
    · exact h.beside hseated h.spared ⟨fun i => lanes_modifyLane_of_ne hn, fun _ => Iff.rfl, rfl, hrecords⟩

theorem InLine.preempt (h : InLine n s) (hseated : s.preempt.Seated) : InLine n s.preempt := by
  have hspared := h.spared
  have hwriter {writer : Writer} (hseated : { s with writer }.Seated) (hnot : n ∉ writer.receivers) : InLine n { s with writer } :=
    h.beside hseated hnot ⟨fun _ => rfl, fun _ => Iff.rfl, rfl, fun _ hin => hin⟩
  unfold NoteDeliveries.preempt at hseated ⊢
  cases hw : s.writer with
  | idle => exact h
  | visiting canceller rest preempted takenBack =>
    rw [hw, Writer.receivers] at hspared
    simp only [hw] at hseated ⊢
    cases rest with
    | nil =>
      refine hwriter hseated ?_
      simpa [Writer.receivers] using hspared
    | cons head rest =>
      obtain ⟨id, node⟩ := head
      have hne : n ≠ node := fun heq => hspared (by simp [heq])
      unfold visit at hseated ⊢
      cases hlane : s.lanes id node with
      | none =>
        simp only [hlane] at hseated ⊢
        refine hwriter hseated ?_
        simp only [Writer.receivers, List.map_cons, List.cons_append, List.mem_cons, not_or] at hspared ⊢
        exact hspared.2
      | some lane =>
        simp only [hlane] at hseated ⊢
        split_ifs at hseated ⊢
        · refine hwriter hseated ?_
          simp only [Writer.receivers, List.map_cons, List.map_append, List.map_nil, List.mem_append, List.mem_cons, not_or] at hspared ⊢
          tauto
        · refine hwriter hseated ?_
          simp only [Writer.receivers, List.map_cons, List.map_append, List.map_nil, List.mem_append, List.mem_cons, not_or] at hspared ⊢
          refine ⟨⟨hspared.1.1.2, hspared.1.2, hne, List.not_mem_nil⟩, hspared.2, fun hin => ?_⟩
          obtain ⟨note, hnote, heq⟩ := List.mem_map.mp hin
          obtain ⟨position, -, rfl⟩ := List.mem_map.mp hnote
          exact hne heq.symm
        · refine h.beside hseated ?_ ⟨fun i => lanes_modifyLane_of_ne hne, fun _ => Iff.rfl, rfl, fun _ hin => hin⟩
          simp only [Writer.receivers, List.map_cons, List.cons_append, List.mem_cons, not_or] at hspared ⊢
          exact hspared.2
  | takingBack preempted takenBack =>
    rw [hw, Writer.receivers] at hspared
    simp only [hw] at hseated ⊢
    cases takenBack with
    | nil =>
      refine hwriter hseated ?_
      simpa [Writer.receivers] using hspared
    | cons note takenBack =>
      obtain ⟨id, node, position⟩ := note
      have hne : n ≠ node := fun heq => hspared (by simp [heq])
      refine h.beside hseated ?_ ⟨fun i => lanes_modifyLane_of_ne hne, fun _ => Iff.rfl, rfl, fun _ hin => hin⟩
      simp only [Writer.receivers, List.map_cons, List.mem_append, List.mem_cons, not_or] at hspared ⊢
      exact ⟨hspared.1, hspared.2.2⟩
  | lettingGo preempted =>
    rw [hw, Writer.receivers] at hspared
    simp only [hw] at hseated ⊢
    cases preempted with
    | nil => exact hwriter hseated List.not_mem_nil
    | cons head rest =>
      obtain ⟨id, node⟩ := head
      obtain ⟨hne, hrest⟩ := not_or.mp fun hin => hspared (List.mem_cons.mpr hin)
      unfold answerFor at hseated ⊢
      cases hlane : s.lanes id node with
      | none =>
        simp only [hlane] at hseated ⊢
        exact hwriter hseated hrest
      | some lane =>
        simp only [hlane] at hseated ⊢
        split_ifs at hseated ⊢
        · have hbeside := @beside_letGo s id node n Lane.committed (preemptedRulings lane) hne
          exact h.beside hseated hrest ⟨hbeside.lanes, hbeside.outstanding, hbeside.offered, hbeside.records⟩
        · exact hwriter hseated hrest

theorem inLine_step (h : InLine n s) {event : Event} (hallowed : s.Allowed event) (hspares : event.Spares n) : InLine n (s.step event) := by
  have hseated := seated_step h.seated hallowed
  cases event with
  | hand id notes => exact h.hand hseated hallowed.2
  | admission id node admitted =>
    simp only [step, admission] at hseated ⊢
    cases hlane : s.lanes id node with
    | none => exact h
    | some lane =>
      simp only [hlane] at hseated ⊢
      refine h.thread (f := (Lane.admission · admitted)) hlane hseated rfl rfl rfl rfl (fun hdone => Lane.admission_of_done hdone _)
        (fun p hcome => hcome.admission _) ?_
      by_cases hoffers : lane.offers = true
      · exact .inr ⟨hoffers, Lane.reached_of_offers hoffers _, if_pos hoffers⟩
      · exact .inl (if_neg hoffers)
  | fate id node taken =>
    simp only [step, fate] at hseated ⊢
    cases hlane : s.lanes id node with
    | none => exact h
    | some lane =>
      simp only [hlane] at hseated ⊢
      exact h.thread (f := (Lane.fated · taken)) hlane hseated rfl rfl rfl rfl (fun hdone => Lane.fated_of_done hdone _)
        (fun p hcome => hcome.fated _) (.inl rfl)
  | answer id node carried =>
    simp only [step] at hseated ⊢
    cases hlane : s.lanes id node with
    | none =>
      refine h.beside hseated h.spared ⟨fun i => ?_, fun _ => Iff.rfl, rfl, fun _ hin => hin⟩
      simp only [modifyLane]
      split_ifs with hat
      · rw [hat.1, hat.2, hlane]
        rfl
      · rfl
    | some lane =>
      exact h.thread (f := (Lane.answer · carried)) hlane hseated rfl rfl rfl rfl (fun hdone => Lane.answer_of_done hdone _)
        (fun p hcome => hcome.answer _) (.inl rfl)
  | record id node => exact h.recordLane hseated
  | withdrawNote id node position => exact h.withdrawNote hseated hallowed.2.1
  | cancel canceller cancelled =>
    refine h.beside hseated (fun hin => ?_) ⟨fun _ => rfl, fun _ => Iff.rfl, rfl, fun _ hin => hin⟩
    simp only [step, Writer.receivers, List.map_nil, List.append_nil, cancelledLanes, List.map_flatMap, List.mem_flatMap,
      List.mem_map, List.mem_filter, decide_eq_true_eq] at hin
    obtain ⟨entry, -, pair, ⟨found, ⟨-, hfound⟩, rfl⟩, rfl⟩ := hin
    exact hspares hfound
  | preempt => exact h.preempt hseated

theorem inLine_start : InLine n {} where
  seated := seated_start
  spared := List.not_mem_nil
  gone := fun _ _ hlane => by cases hlane
  before := fun _ _ _ hlane => by cases hlane
  reached := fun _ hin => (List.not_mem_nil hin).elim
  ascending := List.Pairwise.nil
  settled := fun _ _ _ hlane => by cases hlane

/-- **In turn.** Over every order of threads, recordings, withdrawals and cancels none of which names a receiver: its
conversation is offered its notes one at a time, in the order they were handed, and a note one of its turns took is recorded
committed once the receiver is let go. -/
theorem in_turn (n : String) (events : List Event) (h : Admits step Allowed {} events) (hspares : ∀ event ∈ events, event.Spares n) :
    InTurn n (events.foldl step {}) :=
  ((h.and_forall hspares).invariant (I := InLine n) (fun _ _ hline hallowed => inLine_step hline hallowed.1 hallowed.2) inLine_start).inTurn

/-- a reviewer's cancel, beside a worker's three notes -/
def cancelledBeside : List Event :=
  cancelledOnOffer.take 9 ++ [.cancel 3 ((∅ : StrSet).insert "reviewer"), .preempt, .fate 2 "worker" true]

theorem in_turn_beside : InTurn "worker" (cancelledBeside.foldl step {}) :=
  in_turn "worker" cancelledBeside (by decide +kernel) (by decide +kernel)

end NoteDeliveries

end OnePipeline.Deliveries
