/-
What becomes of a live note handed to its receiver, over every interleaving of the delivery threads, the writer, withdrawals
and preempting cancels.

Results:
- `one_record`: a note handed comes to exactly one record, its commit, its refusal or its withdrawal, once its receiver is let
  go, and one taken back is one no turn takes.
-/
import Mathlib.Tactic
import OnePipeline.Core.Runs
import OnePipeline.Model.Deliveries

namespace OnePipeline.Deliveries

open Runs

/-! ## One lane -/

namespace Lane

/-- what every lane keeps -/
structure Sound (lane : Lane) : Prop where
  answered : lane.progress.answered = lane.next
  within : lane.next ≤ lane.notes.length
  offering : lane.progress.offering = if lane.offer.isSome then some lane.next else none
  waits : lane.waiting = true → lane.rulings = [] ∧ lane.offer = none
  offers : lane.offer.isSome = true → lane.next < lane.notes.length
  ruled : ∀ p < lane.next, lane.rulings[p]? = some .withdrawn ↔ p ∈ lane.progress.withdrawn
  atNext : lane.next ∈ lane.progress.withdrawn → lane.offer = none ∨ lane.offer = some .withdrawn
  finished : ∀ p ∈ lane.progress.finished, lane.rulings[p]? = some .committed
  bound : ∀ p ∈ lane.progress.withdrawn, p < lane.notes.length

/-- whether a turn took the note at a position, or it is committed -/
def Took (lane : Lane) (p : ℕ) : Prop := (p = lane.next ∧ lane.offer = some .taken) ∨ lane.rulings[p]? = some .committed

/-- a step that takes no note back -/
structure Moves (lane lane' : Lane) : Prop where
  sound : lane'.Sound
  notes : lane'.notes = lane.notes
  withdrawn : lane'.progress.withdrawn = lane.progress.withdrawn
  took : ∀ p, lane.Took p → lane'.Took p

variable {lane : Lane} {p : ℕ} {r : Ruling}

@[simp] theorem next_ruled (r : Ruling) : (lane.ruled r).next = lane.next + 1 := List.length_append

@[simp] theorem next_settled (r : Ruling) : (lane.settled r).next = lane.next + 1 := List.length_append

theorem Moves.refl (h : lane.Sound) : lane.Moves lane := ⟨h, rfl, rfl, fun _ ht => ht⟩

theorem sound_handed (notes : List ℕ) (waiting : Bool) : ({ notes, waiting } : Lane).Sound where
  answered := rfl
  within := Nat.zero_le _
  offering := rfl
  waits := fun _ => ⟨rfl, rfl⟩
  offers := fun h => by cases h
  ruled := fun _ hp => absurd hp (Nat.not_lt_zero _)
  atNext := fun h => (List.not_mem_nil h).elim
  finished := fun _ hp => (List.not_mem_nil hp).elim
  bound := fun _ hp => (List.not_mem_nil hp).elim

/-- a ruling put after the ones before it -/
theorem ruling_concat (hruled : ∀ p < lane.next, lane.rulings[p]? = some .withdrawn ↔ p ∈ lane.progress.withdrawn)
    (hr : r = .withdrawn ↔ lane.next ∈ lane.progress.withdrawn) (hp : p < lane.next + 1) :
    (lane.rulings ++ [r])[p]? = some .withdrawn ↔ p ∈ lane.progress.withdrawn := by
  rcases Nat.lt_succ_iff_lt_or_eq.mp hp with hlt | rfl
  · rw [List.getElem?_append_left hlt, hruled p hlt]
  · rw [next, List.getElem?_concat_length, Option.some.injEq, hr, next]

theorem committed_concat (hp : lane.rulings[p]? = some .committed) : (lane.rulings ++ [r])[p]? = some .committed := by
  rw [List.getElem?_append_left (List.getElem?_eq_some_iff.mp hp).1, hp]

/-- a note answered without being offered -/
theorem Sound.ruling (h : lane.Sound) (hnext : lane.next < lane.notes.length) (hwaits : lane.waiting = false)
    (hoffer : lane.offer = none) (hr : r = .withdrawn ↔ lane.next ∈ lane.progress.withdrawn) : lane.Moves (lane.ruled r) := by
  refine ⟨⟨?_, ?_, ?_, fun hw => ?_, fun ho => ?_, fun p hp => ?_, fun _ => .inl hoffer, fun p hp => ?_, h.bound⟩, rfl, rfl,
    fun p ht => ?_⟩
  · rw [next_ruled, ← h.answered]
    rfl
  · rw [next_ruled]
    exact hnext
  · rw [show (lane.ruled r).progress.offering = lane.progress.offering from rfl, h.offering, hoffer,
      show (lane.ruled r).offer = lane.offer from rfl, hoffer]
    rfl
  · rw [show (lane.ruled r).waiting = lane.waiting from rfl, hwaits] at hw
    cases hw
  · rw [show (lane.ruled r).offer = lane.offer from rfl, hoffer] at ho
    cases ho
  · exact ruling_concat h.ruled hr (by simpa using hp)
  · exact committed_concat (h.finished p hp)
  · rcases ht with ⟨-, htaken⟩ | hcommitted
    · rw [hoffer] at htaken
      cases htaken
    · exact .inr (committed_concat hcommitted)

/-- a note offered, answered -/
theorem Sound.settling (h : lane.Sound) (hoffer : lane.offer.isSome = true) (hr : r = .withdrawn ↔ lane.next ∈ lane.progress.withdrawn)
    (htaken : lane.offer = some .taken → r = .committed) : lane.Moves (lane.settled r) := by
  refine ⟨⟨?_, ?_, rfl, fun hw => ?_, fun ho => (by cases ho), fun p hp => ?_, fun _ => .inl rfl, fun p hp => ?_, h.bound⟩, rfl, rfl,
    fun p ht => ?_⟩
  · rw [next_settled, ← h.answered]
    rfl
  · rw [next_settled]
    exact h.offers hoffer
  · rw [(h.waits hw).2] at hoffer
    cases hoffer
  · exact ruling_concat h.ruled hr (by simpa using hp)
  · simp only [settled] at hp ⊢
    split_ifs at hp with hcommitted
    · rcases List.mem_append.mp hp with hold | hnew
      · exact committed_concat (h.finished p hold)
      · rw [List.mem_singleton.mp hnew, next, List.getElem?_concat_length, hcommitted]
    · exact committed_concat (h.finished p hp)
  · rcases ht with ⟨rfl, htook⟩ | hcommitted
    · refine .inr ?_
      rw [show (lane.settled r).rulings = lane.rulings ++ [r] from rfl, htaken htook, next, List.getElem?_concat_length]
    · exact .inr (committed_concat hcommitted)

theorem isFree_iff : lane.isFree = true ↔ lane.waiting = false ∧ lane.offer = none ∧ lane.next < lane.notes.length := by
  simp [isFree, and_assoc]

theorem isDone_iff : lane.isDone = true ↔ lane.waiting = false ∧ lane.offer = none ∧ lane.notes.length ≤ lane.next := by
  simp [isDone, and_assoc]

theorem offers_iff : lane.offers = true ↔ lane.isFree = true ∧ lane.next ∉ lane.progress.withdrawn ∧ Ruling.refused ∉ lane.rulings ∧
    lane.progress.cancelled = none := by
  simp [offers, and_assoc]

/-- a thread's next note -/
theorem Sound.admission (h : lane.Sound) (admitted : Bool) : lane.Moves (lane.admission admitted) := by
  unfold Lane.admission
  split_ifs with hfree hwithdrawn hrefused hcancelled
  · obtain ⟨hwaits, hoffer, hnext⟩ := isFree_iff.mp hfree
    exact h.ruling hnext hwaits hoffer (iff_of_true rfl hwithdrawn)
  · obtain ⟨hwaits, hoffer, hnext⟩ := isFree_iff.mp hfree
    exact h.ruling hnext hwaits hoffer (iff_of_false nofun hwithdrawn)
  · obtain ⟨hwaits, hoffer, hnext⟩ := isFree_iff.mp hfree
    exact h.ruling hnext hwaits hoffer (iff_of_false nofun hwithdrawn)
  · obtain ⟨hwaits, hoffer, hnext⟩ := isFree_iff.mp hfree
    refine ⟨⟨h.answered, h.within, rfl, fun hw => ?_, fun _ => hnext, h.ruled, fun hin => absurd hin hwithdrawn, h.finished, h.bound⟩,
      rfl, rfl, fun p ht => .inr (ht.resolve_left fun htook => ?_)⟩
    · rw [show (lane.offered admitted).waiting = lane.waiting from rfl, hwaits] at hw
      cases hw
    · rw [hoffer] at htook
      cases htook.2
  · exact Moves.refl h

/-- a note on offer whose fate changes, where it is not one a turn took -/
theorem Sound.reoffer (h : lane.Sound) {o o' : Offer} (hoffer : lane.offer = some o) (hnot : o ≠ .taken)
    (hat : lane.next ∈ lane.progress.withdrawn → o' = .withdrawn) : lane.Moves { lane with offer := some o' } := by
  have hsome : lane.offer.isSome = true := by rw [hoffer]; rfl
  refine ⟨⟨h.answered, h.within, ?_, fun hw => ?_, fun _ => h.offers hsome, h.ruled, fun hin => .inr (by rw [hat hin]), h.finished, h.bound⟩,
    rfl, rfl, fun p ht => .inr (ht.resolve_left fun htook => hnot ?_)⟩
  · rw [h.offering, hsome]
    rfl
  · rw [(h.waits hw).2] at hsome
    cases hsome
  · rw [hoffer] at htook
    exact Option.some.inj htook.2

theorem Sound.fated (h : lane.Sound) (taken : Bool) : lane.Moves (lane.fated taken) := by
  by_cases hoffer : lane.offer = some .waiting
  · rw [Lane.fated, if_pos hoffer]
    refine h.reoffer hoffer nofun fun hin => ?_
    rcases h.atNext hin with hnone | hwithdrawn
    · rw [hoffer] at hnone
      cases hnone
    · rw [hoffer] at hwithdrawn
      cases hwithdrawn
  · rw [Lane.fated, if_neg hoffer]
    exact Moves.refl h

theorem Sound.withdraw (h : lane.Sound) (position : ℕ) : lane.Moves (lane.withdraw position) := by
  unfold Lane.withdraw
  split_ifs with hwithdraws
  · exact h.reoffer (of_decide_eq_true hwithdraws).2 nofun fun _ => rfl
  · exact Moves.refl h

theorem Sound.answer (h : lane.Sound) (carried : Bool) : lane.Moves (lane.answer carried) := by
  have hin {o : Offer} (hoffer : lane.offer = some o) (ho : o ≠ .withdrawn) : lane.next ∉ lane.progress.withdrawn := fun hin => by
    rcases h.atNext hin with hnone | hwithdrawn
    · rw [hoffer] at hnone
      cases hnone
    · rw [hoffer] at hwithdrawn
      exact ho (Option.some.inj hwithdrawn)
  unfold Lane.answer
  cases hoffer : lane.offer with
  | none => exact Moves.refl h
  | some offer =>
    have hsome : lane.offer.isSome = true := by rw [hoffer]; rfl
    cases offer with
    | waiting => exact Moves.refl h
    | taken => exact h.settling hsome (iff_of_false nofun (hin hoffer nofun)) fun _ => rfl
    | lapsed | unadmitted =>
      refine h.settling hsome (iff_of_false ?_ (hin hoffer nofun)) fun htaken => ?_
      · split_ifs <;> nofun
      · rw [hoffer] at htaken
        cases htaken
    | withdrawn =>
      refine h.settling hsome ?_ fun htaken => ?_
      · split_ifs with hwas
        · exact iff_of_true rfl hwas
        · exact iff_of_false nofun hwas
      · rw [hoffer] at htaken
        cases htaken

theorem Sound.markCancelled (h : lane.Sound) («by» : ℕ) : lane.Moves (lane.markCancelled «by») :=
  ⟨⟨h.answered, h.within, h.offering, h.waits, h.offers, h.ruled, h.atNext, h.finished, h.bound⟩, rfl, rfl, fun _ ht => ht⟩

theorem Sound.committed (h : lane.Sound) : lane.Moves lane.committed :=
  ⟨⟨h.answered, h.within, h.offering, h.waits, h.offers, h.ruled, h.atNext, fun _ hp => (List.not_mem_nil hp).elim, h.bound⟩, rfl, rfl,
    fun _ ht => ht⟩

theorem Sound.started (h : lane.Sound) : lane.Moves { lane with waiting := false } :=
  ⟨⟨h.answered, h.within, h.offering, fun hw => (by cases hw), h.offers, h.ruled, h.atNext, h.finished, h.bound⟩, rfl, rfl, fun _ ht => ht⟩

/-- a note marked as taken back -/
theorem Sound.markWithdrawn (h : lane.Sound) (hpast : lane.next ≤ p) (hp : p < lane.notes.length)
    (hat : p = lane.next → lane.offer = none ∨ lane.offer = some .withdrawn) : (lane.markWithdrawn p).Sound := by
  refine ⟨h.answered, h.within, h.offering, h.waits, h.offers, fun q hq => ?_, fun hin => ?_, h.finished, fun q hq => ?_⟩
  · rw [show (lane.markWithdrawn p).rulings = lane.rulings from rfl, h.ruled q hq]
    refine ⟨List.mem_append_left _, fun hin => (List.mem_append.mp hin).resolve_right fun hqp => ?_⟩
    rw [List.mem_singleton.mp hqp] at hq
    exact absurd hq (Nat.not_lt.mpr hpast)
  · rcases List.mem_append.mp hin with hold | hnew
    · exact h.atNext hold
    · exact hat (List.mem_singleton.mp hnew).symm
  · rcases List.mem_append.mp hq with hold | hnew
    · exact h.bound q hold
    · rw [List.mem_singleton.mp hnew]
      exact hp

/-- what `TakeBack::apply` leaves: the lane sound, one note more taken back, which no turn had taken -/
theorem Sound.takeBack (h : lane.Sound) {lane' : Lane} (hp : p < lane.notes.length) (hback : lane.takeBack p = some lane') :
    lane'.Sound ∧ lane'.notes = lane.notes ∧ lane'.progress.withdrawn = lane.progress.withdrawn ++ [p] ∧ ¬lane.Took p ∧
      (∀ q, lane.Took q → lane'.Took q) ∧ lane'.waiting = lane.waiting ∧ lane'.rulings = lane.rulings := by
  unfold Lane.takeBack at hback
  split_ifs at hback with hanswered hoffering
  · split at hback
    · cases hback
    · rename_i held hheld
      split_ifs at hback with hwithdraws
      obtain rfl := Option.some.inj hback
      obtain ⟨rfl, hoffer⟩ := of_decide_eq_true hwithdraws
      rw [h.offering, hoffer] at hoffering
      obtain rfl := Option.some.inj hoffering
      have hmoves := h.withdraw lane.next
      have hnew : (lane.withdraw lane.next).offer = some .withdrawn := by
        rw [Lane.withdraw, if_pos hwithdraws]
      have hsame : (lane.withdraw lane.next).rulings = lane.rulings ∧ (lane.withdraw lane.next).waiting = lane.waiting := by
        rw [Lane.withdraw, if_pos hwithdraws]
        exact ⟨rfl, rfl⟩
      have hnext : (lane.withdraw lane.next).next = lane.next := congrArg List.length hsame.1
      refine ⟨hmoves.sound.markWithdrawn (by rw [hnext]) (by rw [hmoves.notes]; exact hp) fun _ => .inr hnew, hmoves.notes, ?_, ?_,
        hmoves.took, hsame.2, hsame.1⟩
      · rw [Lane.markWithdrawn, hmoves.withdrawn]
      · rintro (⟨-, htaken⟩ | hcommitted)
        · rw [hoffer] at htaken
          cases htaken
        · exact absurd (List.getElem?_eq_some_iff.mp hcommitted).1 (Nat.lt_irrefl _)
  · obtain rfl := Option.some.inj hback
    rw [h.answered, Nat.not_lt] at hanswered
    have hat : p = lane.next → lane.offer = none := fun heq => by
      cases hoffer : lane.offer with
      | none => rfl
      | some offer =>
        rw [h.offering, hoffer, heq] at hoffering
        exact absurd rfl hoffering
    refine ⟨h.markWithdrawn hanswered hp fun heq => .inl (hat heq), rfl, rfl, ?_, fun _ ht => ht, rfl, rfl⟩
    rintro (⟨heq, htaken⟩ | hcommitted)
    · rw [hat heq] at htaken
      cases htaken
    · exact absurd (List.getElem?_eq_some_iff.mp hcommitted).1 (Nat.not_lt.mpr hanswered)

end Lane

/-! ## The lanes -/

namespace NoteDeliveries

variable {s s' : NoteDeliveries} {id i : ℕ} {node n : String} {p : ℕ}

theorem outstanding_hand {notes : StrMap (List ℕ)} :
    (s.hand id notes).Outstanding i n ↔ if i = id then n ∈ notes else s.Outstanding i n := by
  unfold Outstanding hand
  rw [Maps.get_insert]
  split_ifs <;> rfl

theorem outstanding_takeLane : (s.takeLane id node).Outstanding i n ↔ s.Outstanding i n ∧ ¬(i = id ∧ n = node) := by
  unfold Outstanding takeLane
  simp only [Std.ExtTreeMap.getElem?_modify, Std.LawfulEqCmp.compare_eq_iff_eq]
  by_cases hi : id = i
  · subst hi
    rw [if_pos rfl]
    cases s.outstanding[id]? with
    | none => simp
    | some lanes =>
      simp only [Option.map_some, Option.getD_some, Std.ExtTreeMap.mem_erase, ne_eq, Std.LawfulEqCmp.compare_eq_iff_eq, true_and]
      exact ⟨fun h => ⟨h.2, fun heq => h.1 heq.symm⟩, fun h => ⟨fun heq => h.2 heq.symm, h.1⟩⟩
  · rw [if_neg hi]
    exact ⟨fun h => ⟨h, fun heq => hi heq.1.symm⟩, And.left⟩

theorem outstanding_finish : (s.finish id).Outstanding i n ↔ s.Outstanding i n := by
  unfold finish
  split
  · rename_i lanes hlanes
    split_ifs with hempty
    · unfold Outstanding
      rw [Maps.get_erase]
      split_ifs with hi
      · rw [hi, hlanes, Std.ExtTreeMap.isEmpty_iff.mp hempty]
        rfl
      · rfl
    · rfl
  · rfl

theorem outstanding_startNext : (s.startNext node).Outstanding i n ↔ s.Outstanding i n := by
  unfold startNext
  split_ifs
  · rfl
  · split <;> rfl

/-- what is outstanding once a receiver is let go -/
theorem outstanding_letGo : (s.letGo id node).Outstanding i n ↔ s.Outstanding i n ∧ ¬(i = id ∧ n = node) := by
  rw [letGo, outstanding_startNext, outstanding_finish]
  exact outstanding_takeLane

/-- a step beside the records and the notes offered -/
structure Quiet (s s' : NoteDeliveries) : Prop where
  offered : s'.offered = s.offered
  taken : s'.taken = s.taken
  records : s'.records = s.records
  handed : s'.handed = s.handed

theorem quiet_letGo : s.Quiet (s.letGo id node) := by
  have hfinish {t : NoteDeliveries} : t.Quiet (t.finish id) := by
    unfold finish
    split
    · split_ifs <;> exact ⟨rfl, rfl, rfl, rfl⟩
    · exact ⟨rfl, rfl, rfl, rfl⟩
  have hstart {t : NoteDeliveries} : t.Quiet (t.startNext node) := by
    unfold startNext
    split_ifs
    · exact ⟨rfl, rfl, rfl, rfl⟩
    · split <;> exact ⟨rfl, rfl, rfl, rfl⟩
  obtain ⟨ho, ht, hr, hh⟩ := @hfinish ((s.takeLane id node).release node)
  obtain ⟨ho', ht', hr', hh'⟩ := @hstart (((s.takeLane id node).release node).finish id)
  exact ⟨ho'.trans ho, ht'.trans ht, hr'.trans hr, hh'.trans hh⟩

/-- every lane a step further, and none more -/
structure Moved (lanes lanes' : ℕ → String → Option Lane) : Prop where
  none : ∀ i n, lanes i n = none → lanes' i n = none
  some : ∀ i n lane, lanes i n = some lane → ∃ lane', lanes' i n = some lane' ∧ (lane.Sound → lane.Moves lane')

theorem Moved.refl (lanes : ℕ → String → Option Lane) : Moved lanes lanes :=
  ⟨fun _ _ hnone => hnone, fun _ _ lane hlane => ⟨lane, hlane, Lane.Moves.refl⟩⟩

theorem moved_modifyLane {f : Lane → Lane} (hf : ∀ lane : Lane, lane.Sound → lane.Moves (f lane)) :
    Moved s.lanes (s.modifyLane id node f).lanes := by
  refine ⟨fun i n hnone => ?_, fun i n lane hlane => ?_⟩
  · simp only [modifyLane, hnone, Option.map_none, ite_self]
  · simp only [modifyLane, hlane, Option.map_some]
    split_ifs
    · exact ⟨f lane, rfl, hf lane⟩
    · exact ⟨lane, rfl, Lane.Moves.refl⟩

theorem lanes_finish : (s.finish id).lanes = s.lanes := by
  unfold finish
  split
  · split_ifs <;> rfl
  · rfl

theorem moved_startNext : Moved s.lanes (s.startNext node).lanes := by
  unfold startNext
  split_ifs
  · exact .refl _
  · split
    · exact .refl _
    · exact moved_modifyLane fun lane hlane => hlane.started

theorem moved_letGo : Moved s.lanes (s.letGo id node).lanes := by
  have hlanes : (((s.takeLane id node).release node).finish id).lanes = s.lanes := lanes_finish
  have hmoved := @moved_startNext (((s.takeLane id node).release node).finish id) node
  rwa [hlanes] at hmoved

/-! ## The account -/

/-- how many records a note has -/
def recordsOf (s : NoteDeliveries) (note : Note) : ℕ := s.records.countP fun record => record.1 = note

/-- what the records come to: a note whose receiver is let go has one, a note of a receiver outstanding has its withdrawal or
none, and a note taken back is one no turn took -/
structure Accounts (s : NoteDeliveries) : Prop where
  settled : ∀ i n lane, s.lanes i n = some lane → ¬s.Outstanding i n → ∀ p < lane.notes.length, s.recordsOf (i, n, p) = 1
  standing : ∀ i n p, s.Outstanding i n → s.recordsOf (i, n, p) = if ((i, n, p), Fate.withdrawn) ∈ s.records then 1 else 0
  unread : ∀ note, (note, Fate.withdrawn) ∈ s.records → note ∉ s.taken

structure Kept (s : NoteDeliveries) : Prop where
  sound : ∀ i n lane, s.lanes i n = some lane → lane.Sound
  known : ∀ i n, s.Outstanding i n → ∃ lane, s.lanes i n = some lane
  handed : ∀ i n lane, s.lanes i n = some lane → i ∈ s.handed
  fresh : ∀ i n p, s.lanes i n = none → s.recordsOf (i, n, p) = 0
  gone : ∀ i n lane, s.lanes i n = some lane → ¬s.Outstanding i n → ∀ p < lane.notes.length, s.recordsOf (i, n, p) = 1
  standing : ∀ i n lane, s.lanes i n = some lane → s.Outstanding i n → ∀ p,
    s.recordsOf (i, n, p) = if p ∈ lane.progress.withdrawn then 1 else 0
  marked : ∀ i n p, ((i, n, p), Fate.withdrawn) ∈ s.records ↔ ∃ lane, s.lanes i n = some lane ∧ p ∈ lane.progress.withdrawn
  took : ∀ i n p, (i, n, p) ∈ s.taken → ∃ lane, s.lanes i n = some lane ∧ lane.Took p

theorem Kept.accounts (h : s.Kept) : s.Accounts := by
  refine ⟨h.gone, fun i n p hout => ?_, fun ⟨i, n, p⟩ hback htaken => ?_⟩
  · obtain ⟨lane, hlane⟩ := h.known i n hout
    rw [h.standing i n lane hlane hout p]
    refine if_congr ?_ rfl rfl
    rw [h.marked]
    exact ⟨fun hin => ⟨lane, hlane, hin⟩, fun ⟨found, hfound, hin⟩ => by
      rw [hlane] at hfound
      cases hfound
      exact hin⟩
  · obtain ⟨lane, hlane, hin⟩ := (h.marked i n p).mp hback
    obtain ⟨found, hfound, htook⟩ := h.took i n p htaken
    rw [hlane] at hfound
    cases hfound
    have hsound := h.sound i n lane hlane
    rcases htook with ⟨rfl, hoffer⟩ | hcommitted
    · rcases hsound.atNext hin with hnone | hwithdrawn
      · rw [hoffer] at hnone
        cases hnone
      · rw [hoffer] at hwithdrawn
        cases hwithdrawn
    · rw [← hsound.ruled p (List.getElem?_eq_some_iff.mp hcommitted).1, hcommitted] at hin
      cases hin

theorem kept_start : ({} : NoteDeliveries).Kept where
  sound := fun _ _ _ h => by cases h
  known := fun i n h => by
    unfold Outstanding at h
    rw [Std.ExtTreeMap.getElem?_empty] at h
    exact absurd h Std.ExtTreeMap.not_mem_empty
  handed := fun _ _ _ h => by cases h
  fresh := fun _ _ _ _ => rfl
  gone := fun _ _ _ h => by cases h
  standing := fun _ _ _ h => by cases h
  marked := fun _ _ _ => iff_of_false List.not_mem_nil (fun ⟨_, h, _⟩ => by cases h)
  took := fun _ _ _ h => (List.not_mem_nil h).elim

/-- lanes a step further, and the notes turns took, beside the records -/
theorem Kept.moves (h : s.Kept) (hmoved : Moved s.lanes s'.lanes) (hout : ∀ i n, s'.Outstanding i n ↔ s.Outstanding i n)
    (hrecords : s'.records = s.records) (hhanded : s'.handed = s.handed)
    (htaken : ∀ i n p, (i, n, p) ∈ s'.taken → (i, n, p) ∈ s.taken ∨ ∃ lane, s'.lanes i n = some lane ∧ lane.Took p) : s'.Kept := by
  have hback {i : ℕ} {n : String} {lane' : Lane} (hlane : s'.lanes i n = some lane') :
      ∃ lane, s.lanes i n = some lane ∧ lane.Moves lane' := by
    cases hwas : s.lanes i n with
    | none =>
      rw [hmoved.none i n hwas] at hlane
      cases hlane
    | some lane =>
      obtain ⟨found, hfound, hmoves⟩ := hmoved.some i n lane hwas
      rw [hlane] at hfound
      cases hfound
      exact ⟨lane, rfl, hmoves (h.sound i n lane hwas)⟩
  have hcount (note : Note) : s'.recordsOf note = s.recordsOf note := by rw [recordsOf, recordsOf, hrecords]
  refine ⟨fun i n lane hlane => ?_, fun i n ho => ?_, fun i n lane hlane => ?_, fun i n p hlane => ?_, fun i n lane hlane hnot p hp => ?_,
    fun i n lane hlane ho p => ?_, fun i n p => ?_, fun i n p hin => ?_⟩
  · obtain ⟨_, -, hmoves⟩ := hback hlane
    exact hmoves.sound
  · obtain ⟨lane, hlane⟩ := h.known i n ((hout i n).mp ho)
    obtain ⟨lane', hlane', -⟩ := hmoved.some i n lane hlane
    exact ⟨lane', hlane'⟩
  · obtain ⟨was, hwas, -⟩ := hback hlane
    rw [hhanded]
    exact h.handed i n was hwas
  · rw [hcount]
    refine h.fresh i n p ?_
    cases hwas : s.lanes i n with
    | none => rfl
    | some lane =>
      obtain ⟨lane', hlane', -⟩ := hmoved.some i n lane hwas
      rw [hlane] at hlane'
      cases hlane'
  · obtain ⟨was, hwas, hmoves⟩ := hback hlane
    rw [hcount]
    exact h.gone i n was hwas (fun ho => hnot ((hout i n).mpr ho)) p (hmoves.notes ▸ hp)
  · obtain ⟨was, hwas, hmoves⟩ := hback hlane
    rw [hcount, hmoves.withdrawn]
    exact h.standing i n was hwas ((hout i n).mp ho) p
  · rw [hrecords, h.marked]
    constructor
    · rintro ⟨lane, hlane, hin⟩
      obtain ⟨lane', hlane', hmoves⟩ := hmoved.some i n lane hlane
      exact ⟨lane', hlane', by rwa [(hmoves (h.sound i n lane hlane)).withdrawn]⟩
    · rintro ⟨lane', hlane', hin⟩
      obtain ⟨lane, hlane, hmoves⟩ := hback hlane'
      exact ⟨lane, hlane, hmoves.withdrawn ▸ hin⟩
  · refine (htaken i n p hin).elim (fun hold => ?_) id
    obtain ⟨lane, hlane, htook⟩ := h.took i n p hold
    obtain ⟨lane', hlane', hmoves⟩ := hmoved.some i n lane hlane
    exact ⟨lane', hlane', (hmoves (h.sound i n lane hlane)).took p htook⟩

/-- lanes a step further, beside everything else -/
theorem Kept.quiet (h : s.Kept) (hmoved : Moved s.lanes s'.lanes) (hout : ∀ i n, s'.Outstanding i n ↔ s.Outstanding i n) (hquiet : s.Quiet s') :
    s'.Kept :=
  h.moves hmoved hout hquiet.records hquiet.handed fun i n p hin => .inl (by rwa [hquiet.taken] at hin)

/-- an envelope's notes handed -/
theorem Kept.hand (h : s.Kept) {notes : StrMap (List ℕ)} (hnew : ∀ earlier ∈ s.handed, earlier < id) : (s.hand id notes).Kept := by
  have hnone (n : String) : s.lanes id n = none := by
    cases hlane : s.lanes id n with
    | none => rfl
    | some lane => exact absurd (hnew id (h.handed id n lane hlane)) (Nat.lt_irrefl _)
  have hlanes (i : ℕ) (n : String) : (s.hand id notes).lanes i n =
      if i = id then notes[n]?.map fun notes => { notes, waiting := s.receiving n } else s.lanes i n := rfl
  have hcount (note : Note) : (s.hand id notes).recordsOf note = s.recordsOf note := rfl
  refine ⟨fun i n lane hlane => ?_, fun i n ho => ?_, fun i n lane hlane => ?_, fun i n p hlane => ?_, fun i n lane hlane hnot p hp => ?_,
    fun i n lane hlane ho p => ?_, fun i n p => ?_, fun i n p hin => ?_⟩
  · rw [hlanes] at hlane
    split_ifs at hlane
    · obtain ⟨notes, -, rfl⟩ := Option.map_eq_some_iff.mp hlane
      exact Lane.sound_handed notes _
    · exact h.sound i n lane hlane
  · rw [outstanding_hand] at ho
    simp only [hlanes]
    split_ifs at ho ⊢
    · obtain ⟨found, hfound⟩ := Maps.mem_iff.mp ho
      exact ⟨_, by rw [hfound]; rfl⟩
    · exact h.known i n ho
  · rw [hlanes] at hlane
    split_ifs at hlane with hi
    · rw [hi]
      exact List.mem_append_right _ List.mem_cons_self
    · exact List.mem_append_left _ (h.handed i n lane hlane)
  · rw [hlanes] at hlane
    rw [hcount]
    split_ifs at hlane with hi
    · rw [hi]
      exact h.fresh id n p (hnone n)
    · exact h.fresh i n p hlane
  · rw [hlanes] at hlane
    rw [outstanding_hand] at hnot
    split_ifs at hlane hnot with hi
    · obtain ⟨notes, hget, rfl⟩ := Option.map_eq_some_iff.mp hlane
      exact absurd (Maps.mem_iff.mpr ⟨notes, hget⟩) hnot
    · exact h.gone i n lane hlane hnot p hp
  · rw [hlanes] at hlane
    rw [outstanding_hand] at ho
    rw [hcount]
    split_ifs at hlane ho with hi
    · obtain ⟨notes, -, rfl⟩ := Option.map_eq_some_iff.mp hlane
      rw [hi, h.fresh id n p (hnone n)]
      rfl
    · exact h.standing i n lane hlane ho p
  · show ((i, n, p), Fate.withdrawn) ∈ s.records ↔ _
    rw [h.marked]
    simp only [hlanes]
    by_cases hi : i = id
    · subst hi
      refine iff_of_false (fun ⟨lane, hlane, _⟩ => ?_) fun ⟨lane, hlane, hin⟩ => ?_
      · rw [hnone n] at hlane
        cases hlane
      · rw [if_pos rfl] at hlane
        obtain ⟨notes, -, rfl⟩ := Option.map_eq_some_iff.mp hlane
        exact List.not_mem_nil hin
    · simp only [if_neg hi]
  · obtain ⟨lane, hlane, htook⟩ := h.took i n p hin
    refine ⟨lane, ?_, htook⟩
    rw [hlanes, if_neg fun hi => ?_, hlane]
    rw [hi, hnone n] at hlane
    cases hlane

/-! ### A receiver let go -/

/-- the records of rulings from a position on -/
def recordsFrom (id : ℕ) (node : String) (start : ℕ) (rulings : List Ruling) : List (Note × Fate) :=
  (rulings.zipIdx start).filterMap fun p => p.1.fate?.map fun fate => ((id, node, p.2), fate)

theorem mem_recordsFrom {start : ℕ} {rulings : List Ruling} {note : Note} {fate : Fate}
    (h : (note, fate) ∈ recordsFrom id node start rulings) : note.1 = id ∧ note.2.1 = node ∧ start ≤ note.2.2 := by
  obtain ⟨⟨r, q⟩, hin, hmap⟩ := List.mem_filterMap.mp h
  obtain ⟨fate', -, heq⟩ := Option.map_eq_some_iff.mp hmap
  cases heq
  exact ⟨rfl, rfl, (List.mem_zipIdx hin).1⟩

theorem countP_recordsFrom_of_ne {start : ℕ} {rulings : List Ruling} {note : Note}
    (h : note.1 = id → note.2.1 = node → note.2.2 < start) :
    (recordsFrom id node start rulings).countP (fun record => record.1 = note) = 0 := by
  refine List.countP_eq_zero.mpr fun ⟨other, fate⟩ hin heq => ?_
  obtain ⟨hid, hnode, hle⟩ := mem_recordsFrom hin
  obtain rfl : other = note := of_decide_eq_true heq
  exact absurd (h hid hnode) (Nat.not_lt.mpr hle)

/-- one record a note, unless it was taken back -/
theorem countP_recordsFrom {start : ℕ} {rulings : List Ruling} (hle : start ≤ p) (hlt : p < start + rulings.length) :
    (recordsFrom id node start rulings).countP (fun record => record.1 = (id, node, p)) =
      if rulings[p - start]? = some .withdrawn then 0 else 1 := by
  induction rulings generalizing start with
  | nil => exact absurd (Nat.lt_of_lt_of_le hlt hle) (Nat.lt_irrefl _)
  | cons r rulings ih =>
    have hcons : recordsFrom id node start (r :: rulings) =
        (r.fate?.map fun fate => ((id, node, start), fate)).toList ++ recordsFrom id node (start + 1) rulings := by
      rw [recordsFrom, List.zipIdx_cons, List.filterMap_cons]
      cases hfate : r.fate? <;> rfl
    rw [hcons, List.countP_append]
    rcases Nat.eq_or_lt_of_le hle with rfl | hlt'
    · rw [countP_recordsFrom_of_ne fun _ _ => Nat.lt_succ_self _, Nat.sub_self, List.getElem?_cons_zero]
      cases r <;> simp [Ruling.fate?]
    · rw [ih hlt' (by rw [List.length_cons] at hlt; omega), show p - start = (p - (start + 1)) + 1 by omega, List.getElem?_cons_succ]
      cases r <;> simp [Ruling.fate?, Nat.ne_of_lt hlt']

/-- one lane's own change, with the records of its notes -/
theorem Kept.change (h : s.Kept) {lane lane' : Lane} (hlane : s.lanes id node = some lane) (hsound : lane'.Sound)
    (hnotes : lane'.notes = lane.notes) (htook : ∀ p, lane.Took p → lane'.Took p)
    (hlanes : ∀ i n, s'.lanes i n = if i = id ∧ n = node then some lane' else s.lanes i n)
    (hout : ∀ i n, ¬(i = id ∧ n = node) → (s'.Outstanding i n ↔ s.Outstanding i n))
    (hhanded : s'.handed = s.handed) (htaken : s'.taken = s.taken)
    {extra : List (Note × Fate)} (hrecords : s'.records = s.records ++ extra)
    (hextra : ∀ record ∈ extra, record.1.1 = id ∧ record.1.2.1 = node)
    (hgone : ¬s'.Outstanding id node → ∀ p < lane.notes.length, s'.recordsOf (id, node, p) = 1)
    (hstanding : s'.Outstanding id node → ∀ p, s'.recordsOf (id, node, p) = if p ∈ lane'.progress.withdrawn then 1 else 0)
    (hmarked : ∀ p, ((id, node, p), Fate.withdrawn) ∈ s'.records ↔ p ∈ lane'.progress.withdrawn) : s'.Kept := by
  have hat : s'.lanes id node = some lane' := by rw [hlanes, if_pos ⟨rfl, rfl⟩]
  have helse {i : ℕ} {n : String} (hne : ¬(i = id ∧ n = node)) : s'.lanes i n = s.lanes i n := by rw [hlanes, if_neg hne]
  have hcount {i : ℕ} {n : String} (hne : ¬(i = id ∧ n = node)) (p : ℕ) : s'.recordsOf (i, n, p) = s.recordsOf (i, n, p) := by
    have hnone : extra.countP (fun record => record.1 = (i, n, p)) = 0 := List.countP_eq_zero.mpr fun record hin heq => hne <| by
      have hrecord := hextra record hin
      rw [of_decide_eq_true heq] at hrecord
      exact hrecord
    rw [recordsOf, hrecords, List.countP_append, hnone, Nat.add_zero, recordsOf]
  refine ⟨fun i n found hfound => ?_, fun i n ho => ?_, fun i n found hfound => ?_, fun i n p hnone => ?_,
    fun i n found hfound hnot => ?_, fun i n found hfound ho => ?_, fun i n p => ?_, fun i n p hin => ?_⟩
  all_goals by_cases hne : i = id ∧ n = node
  · obtain ⟨rfl, rfl⟩ := hne
    cases hat.symm.trans hfound
    exact hsound
  · exact h.sound i n found ((helse hne).symm.trans hfound)
  · exact ⟨lane', by rw [hne.1, hne.2, hat]⟩
  · obtain ⟨found, hfound⟩ := h.known i n ((hout i n hne).mp ho)
    exact ⟨found, (helse hne).trans hfound⟩
  · rw [hhanded, hne.1]
    exact h.handed id node lane hlane
  · rw [hhanded]
    exact h.handed i n found ((helse hne).symm.trans hfound)
  · rw [hne.1, hne.2, hat] at hnone
    cases hnone
  · rw [hcount hne]
    exact h.fresh i n p ((helse hne).symm.trans hnone)
  · obtain ⟨rfl, rfl⟩ := hne
    cases hat.symm.trans hfound
    rw [hnotes]
    exact hgone hnot
  · simp only [hcount hne]
    exact h.gone i n found ((helse hne).symm.trans hfound) fun ho => hnot ((hout i n hne).mpr ho)
  · obtain ⟨rfl, rfl⟩ := hne
    cases hat.symm.trans hfound
    exact hstanding ho
  · simp only [hcount hne]
    exact h.standing i n found ((helse hne).symm.trans hfound) ((hout i n hne).mp ho)
  · obtain ⟨rfl, rfl⟩ := hne
    rw [hmarked, hat]
    simp
  · have hold : ((i, n, p), Fate.withdrawn) ∈ s'.records ↔ ((i, n, p), Fate.withdrawn) ∈ s.records := by
      rw [hrecords, List.mem_append, or_iff_left fun hin => hne (hextra _ hin)]
    rw [hold, h.marked, helse hne]
  · obtain ⟨rfl, rfl⟩ := hne
    rw [htaken] at hin
    obtain ⟨found, hfound, htaken⟩ := h.took i n p hin
    cases hlane.symm.trans hfound
    exact ⟨lane', hat, htook p htaken⟩
  · rw [htaken] at hin
    rw [helse hne]
    exact h.took i n p hin

theorem Kept.letGo_taken (h : (s.takeLane id node).Kept) : (s.letGo id node).Kept := by
  have hmoved : Moved s.lanes (s.letGo id node).lanes := moved_letGo
  have hquiet : s.Quiet (s.letGo id node) := quiet_letGo
  refine h.quiet hmoved (fun i n => ?_) ⟨hquiet.offered, hquiet.taken, hquiet.records, hquiet.handed⟩
  rw [outstanding_letGo, outstanding_takeLane]

/-- a receiver whose every note is ruled on, let go -/
theorem Kept.letGo (h : s.Kept) {lane lane' : Lane} (hlane : s.lanes id node = some lane) (hout : s.Outstanding id node)
    (hmoves : lane.Moves lane') {rulings : List Ruling} (hlen : rulings.length = lane.notes.length)
    (hrulings : ∀ p < lane.notes.length, rulings[p]? = some .withdrawn ↔ p ∈ lane.progress.withdrawn) :
    (((s.modifyLane id node fun _ => lane').settleLane id node rulings).letGo id node).Kept := by
  have hsettled : (((s.modifyLane id node fun _ => lane').settleLane id node rulings).takeLane id node).Kept := by
    have hrecords : (((s.modifyLane id node fun _ => lane').settleLane id node rulings).takeLane id node).records =
        s.records ++ recordsFrom id node 0 rulings := rfl
    have hgone : ¬(((s.modifyLane id node fun _ => lane').settleLane id node rulings).takeLane id node).Outstanding id node :=
      fun ho => (outstanding_takeLane.mp ho).2 ⟨rfl, rfl⟩
    refine h.change hlane hmoves.sound hmoves.notes hmoves.took (fun i n => ?_) (fun i n hne => ?_) rfl rfl hrecords
      (fun record hin => ?_) (fun _ p hp => ?_) (fun ho => absurd ho hgone) fun p => ?_
    · refine (if_congr Iff.rfl rfl rfl : (if i = id ∧ n = node then (s.lanes i n).map fun _ => lane' else s.lanes i n) = _).trans ?_
      split_ifs with hat
      · rw [hat.1, hat.2, hlane, Option.map_some]
      · rfl
    · rw [outstanding_takeLane, and_iff_left hne]
      rfl
    · obtain ⟨hid, hnode, -⟩ := mem_recordsFrom hin
      exact ⟨hid, hnode⟩
    · rw [recordsOf, hrecords, List.countP_append, countP_recordsFrom (Nat.zero_le _) (by rw [hlen]; omega), Nat.sub_zero]
      refine (congrArg (· + _) (h.standing id node lane hlane hout p)).trans ?_
      simp only [hrulings p hp]
      split_ifs <;> rfl
    · have hmarked : ((id, node, p), Fate.withdrawn) ∉ recordsFrom id node 0 rulings := fun hnew => by
        obtain ⟨⟨r, q⟩, -, hmap⟩ := List.mem_filterMap.mp hnew
        cases r <;> simp [Ruling.fate?] at hmap
      rw [hrecords, List.mem_append, or_iff_left hmarked, h.marked, hlane, hmoves.withdrawn]
      simp
  exact hsettled.letGo_taken

theorem mem_preemptedRulings {lane : Lane} (hlane : lane.Sound) (hp : p < lane.notes.length) :
    (preemptedRulings lane)[p]? = some .withdrawn ↔ p ∈ lane.progress.withdrawn := by
  rw [preemptedRulings, List.getElem?_map, List.getElem?_range hp, Option.map_some, Option.some.injEq]
  split_ifs with hfinished hwithdrawn
  · have hcommitted := hlane.finished p hfinished
    refine iff_of_false nofun fun hin => ?_
    rw [← hlane.ruled p (List.getElem?_eq_some_iff.mp hcommitted).1, hcommitted] at hin
    cases hin
  · exact iff_of_true rfl hwithdrawn
  · exact iff_of_false nofun hwithdrawn

/-! ### One step -/

theorem modifyLane_const {f : Lane → Lane} {lane : Lane} (hlane : s.lanes id node = some lane) :
    s.modifyLane id node f = s.modifyLane id node fun _ => f lane := by
  simp only [modifyLane, NoteDeliveries.mk.injEq, and_true, true_and]
  funext i n
  split_ifs with hat
  · rw [hat.1, hat.2, hlane]
    rfl
  · rfl

theorem modifyLane_self {lane : Lane} (hlane : s.lanes id node = some lane) : s.modifyLane id node (fun _ => lane) = s := by
  have hlanes : (s.modifyLane id node fun _ => lane).lanes = s.lanes := by
    funext i n
    simp only [modifyLane]
    split_ifs with hat
    · rw [hat.1, hat.2, hlane]
      rfl
    · rfl
  exact congrArg (fun lanes => { s with lanes }) hlanes

theorem Kept.recordLane (h : s.Kept) : (s.recordLane id node).Kept := by
  unfold NoteDeliveries.recordLane
  split
  · rename_i lane hlane
    split_ifs with hdone
    · obtain ⟨hout, hdone⟩ := hdone
      have hsound := h.sound id node lane hlane
      have hlen : lane.rulings.length = lane.notes.length := Nat.le_antisymm hsound.within (Lane.isDone_iff.mp hdone).2.2
      have hgo := h.letGo hlane hout (Lane.Moves.refl hsound) hlen fun p hp => hsound.ruled p (by rw [Lane.next, hlen]; exact hp)
      rwa [modifyLane_self hlane] at hgo
    · exact h
  · exact h

theorem Kept.withdrawNote (h : s.Kept) (hout : s.Outstanding id node) (hnew : ((id, node, p), Fate.withdrawn) ∉ s.records)
    (hp : ∀ lane ∈ s.lanes id node, p < lane.notes.length) : (s.withdrawNote id node p).Kept := by
  unfold NoteDeliveries.withdrawNote
  split
  · exact h
  · rename_i lane' hback
    obtain ⟨lane, hlane, hback⟩ := Option.bind_eq_some_iff.mp hback
    obtain ⟨hsound, hnotes, hwithdrawn, -, htook, -, -⟩ := (h.sound id node lane hlane).takeBack (hp lane hlane) hback
    have hout' : p ∉ lane.progress.withdrawn := fun hin => hnew ((h.marked id node p).mpr ⟨lane, hlane, hin⟩)
    have hcount (q : ℕ) : (s.records ++ [((id, node, p), Fate.withdrawn)]).countP (fun record => record.1 = (id, node, q)) =
        s.recordsOf (id, node, q) + if p = q then 1 else 0 := by
      rw [List.countP_append, List.countP_singleton]
      simp only [decide_eq_true_eq, Prod.mk.injEq, true_and]
      rfl
    refine h.change hlane hsound hnotes htook (fun i n => ?_) (fun _ _ _ => Iff.rfl) rfl rfl rfl (fun record hin => ?_)
      (fun hnot => absurd hout hnot) (fun _ q => (hcount q).trans ?_) fun q => ?_
    · refine (if_congr Iff.rfl rfl rfl : (if i = id ∧ n = node then (s.lanes i n).map fun _ => lane' else s.lanes i n) = _).trans ?_
      split_ifs with hat
      · rw [hat.1, hat.2, hlane, Option.map_some]
      · rfl
    · rw [List.mem_singleton.mp hin]
      exact ⟨rfl, rfl⟩
    · rw [h.standing id node lane hlane hout q, hwithdrawn]
      by_cases hq : p = q
      · subst hq
        simp [hout']
      · simp [hq, Ne.symm hq]
    · rw [List.mem_append, h.marked, hlane, hwithdrawn]
      simp

/-- a conversation's turn -/
theorem Kept.fate (h : s.Kept) {taken : Bool} : (s.fate id node taken).Kept := by
  unfold NoteDeliveries.fate
  split
  · exact h
  · rename_i lane hlane
    refine h.moves (moved_modifyLane fun lane hsound => hsound.fated taken) (fun _ _ => Iff.rfl) rfl rfl fun i n p hin => ?_
    simp only at hin
    split_ifs at hin with htaken
    · refine (List.mem_append.mp hin).imp_right fun hnew => ?_
      cases List.mem_singleton.mp hnew
      refine ⟨lane.fated taken, ?_, .inl ?_⟩
      · simp only [modifyLane, and_self, if_true, hlane, Option.map_some]
      · rw [Lane.fated, if_pos htaken.2, htaken.1]
        exact ⟨rfl, rfl⟩
    · exact .inl hin

theorem Kept.preempt (h : s.Kept) : s.preempt.Kept := by
  have hbeside {t : NoteDeliveries} (ht : t.Kept) (writer : Writer) : { t with writer }.Kept :=
    ht.quiet (.refl _) (fun _ _ => Iff.rfl) ⟨rfl, rfl, rfl, rfl⟩
  unfold NoteDeliveries.preempt
  split
  · exact h
  · rename_i canceller id node rest preempted takenBack hwriter
    unfold visit
    split
    · split_ifs
      · exact hbeside h _
      · exact hbeside h _
      · exact hbeside (h.quiet (moved_modifyLane fun lane hsound => hsound.markCancelled canceller) (fun _ _ => Iff.rfl) ⟨rfl, rfl, rfl, rfl⟩) _
    · exact hbeside h _
  · exact hbeside h _
  · exact hbeside (h.quiet (moved_modifyLane fun lane hsound => hsound.withdraw _) (fun _ _ => Iff.rfl) ⟨rfl, rfl, rfl, rfl⟩) _
  · exact hbeside h _
  · rename_i id node rest hwriter
    unfold answerFor
    split
    · rename_i lane hlane
      split_ifs with hout
      · have hsound := h.sound id node lane hlane
        refine hbeside ?_ _
        rw [modifyLane_const hlane]
        exact h.letGo hlane hout hsound.committed (by simp [preemptedRulings]) fun p hp => mem_preemptedRulings hsound hp
      · exact hbeside h _
    · exact hbeside h _
  · exact hbeside h _

/-- **One step.** -/
theorem kept_step (h : s.Kept) {event : Event} (hallowed : s.Allowed event) : (s.step event).Kept := by
  cases event with
  | hand id notes => exact h.hand hallowed.2
  | admission id node admitted =>
    simp only [step, admission]
    split
    · exact h
    · exact h.moves (moved_modifyLane fun lane hsound => hsound.admission admitted) (fun _ _ => Iff.rfl) rfl rfl fun _ _ _ hin => .inl hin
  | fate id node taken => exact h.fate
  | answer id node carried =>
    exact h.quiet (moved_modifyLane fun lane hsound => hsound.answer carried) (fun _ _ => Iff.rfl) ⟨rfl, rfl, rfl, rfl⟩
  | record id node => exact h.recordLane
  | withdrawNote id node position => exact h.withdrawNote hallowed.2.1 hallowed.2.2.1 hallowed.2.2.2
  | cancel «by» cancelled => exact h.quiet (.refl _) (fun _ _ => Iff.rfl) ⟨rfl, rfl, rfl, rfl⟩
  | preempt => exact h.preempt

/-- two notes to a worker, and a third behind them: the first is taken, the second withdrawn, the third cancelled on offer -/
def cancelledOnOffer : List Event :=
  [.hand 1 ((∅ : StrMap (List ℕ)).insert "worker" [0, 1]), .hand 2 ((∅ : StrMap (List ℕ)).insert "worker" [0]),
    .admission 1 "worker" true, .fate 1 "worker" true, .withdrawNote 1 "worker" 1, .answer 1 "worker" false,
    .admission 1 "worker" true, .record 1 "worker", .admission 2 "worker" true, .cancel 3 ((∅ : StrSet).insert "worker"),
    .preempt, .preempt, .preempt, .answer 2 "worker" false, .preempt, .preempt, .preempt]

example : (cancelledOnOffer.foldl step {}).records = [((1, "worker", 1), .withdrawn), ((1, "worker", 0), .committed),
    ((2, "worker", 0), .refused)] := by decide +kernel

end NoteDeliveries

end OnePipeline.Deliveries
