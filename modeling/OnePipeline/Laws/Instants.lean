/-
When a fold resumed from its checkpoint is the fold of the whole store.

Results:
- `refreshed_in_order`: in a journal whose records each sort behind the ones before, over every run;
- `refreshed_in_time`: where streams share an instant in any order, over the runs that cover no instant still open.
-/
import Mathlib.Data.List.DropRight
import Mathlib.Tactic
import OnePipeline.Core.Runs
import OnePipeline.Laws.Checkpoint
import OnePipeline.Laws.Order
import OnePipeline.Model.Checkpoint

namespace OnePipeline.Checkpoints

open Runs

variable {α : Type} {f : Folding α} {grown : List FinishedLine}

/-! ## Journals in order -/

/-- blocks of a journal in order, each in the merge order, are the journal in the merge order -/
theorem merged_of_inOrder {blocks : List (List FinishedLine)} (h : (recordsOf blocks.flatten).Pairwise Behind) :
    merged blocks = mergeOrder (recordsOf blocks.flatten) := by
  induction blocks using List.reverseRecOn with
  | nil => rfl
  | append_singleton blocks block ih =>
    rw [flatten_concat, recordsOf_append] at h ⊢
    obtain ⟨hfront, -, hcross⟩ := List.pairwise_append.mp h
    rw [merged_concat, ih hfront, mergeOrder_append hcross]

namespace World

variable {events : List (Event α)} {reader : ℕ} {p : Projected α}

/-- **A journal in order.** Over every run, where the records of the journal each sort behind those before: a reader refreshed holds the
fold of the whole store in the merge order, however it was resumed, rebuilt or split. -/
theorem refreshed_in_order (h : Admits (step f) (Allowed f) {} events)
    (hreader : (events.foldl (step f) {}).readers reader = some (.folded p))
    (horder : (recordsOf (events.foldl (step f) {}).journal.finished).Pairwise Behind) :
    ∃ p', ((events ++ [Event.refreshed reader]).foldl (step f) {}).readers reader = some (.folded p') ∧
      p'.state = RunState.fold f.host (mergeOrder (recordsOf (events.foldl (step f) {}).journal.finished)) ∧
      p'.tally.counts = (mergeOrder (recordsOf (events.foldl (step f) {}).journal.finished)).foldl f.take f.counted := by
  rw [List.foldl_append]
  obtain ⟨p', hp', hwhole⟩ := (kept_anywhere h).refreshed_whole hreader
  obtain ⟨blocks, hblocks, hstate, hcounts⟩ := hwhole.blocks
  have hmerged := merged_of_inOrder (hblocks ▸ horder)
  rw [hblocks] at hmerged
  exact ⟨p', hp', hmerged ▸ hstate, hmerged ▸ hcounts⟩

theorem refreshed_in_order_grownBeside :
    ∃ p', ((grownBeside ++ [Event.refreshed 0]).foldl (step plain) {}).readers 0 = some (.folded p') ∧
      p'.state = RunState.fold .lenient (mergeOrder (recordsOf (grownBeside.foldl (step plain) {}).journal.finished)) ∧
      p'.tally.counts = (mergeOrder (recordsOf (grownBeside.foldl (step plain) {}).journal.finished)).foldl plain.take () := by
  have horder : [Envelope.stamped "10:00" "driver" 1, .stamped "10:01" "relay" 4].Pairwise Behind :=
    List.pairwise_pair.mpr ⟨by decide, fun hstream => absurd hstream (by decide)⟩
  exact refreshed_in_order (p := plain.empty .yes) ⟨Nat.one_pos, trivial, trivial, trivial, trivial, trivial⟩ rfl horder

end World

/-! ## Journals in time -/

/-- a record stamped no earlier than another, and in its stream at no lower `seq` -/
structure InTime (a b : Envelope) : Prop where
  stamped : a.ts ≤ b.ts
  sequence : a.stream = b.stream → a.seq ≤ b.seq

theorem InTime.behind {a b : Envelope} (h : InTime a b) (hlt : a.ts < b.ts) : Behind a b :=
  ⟨Prod.Lex.toLex_le_toLex.mpr (Or.inl hlt), h.sequence⟩

theorem mem_recordsOf {lines : List FinishedLine} {e : Envelope} : e ∈ recordsOf lines ↔ ∃ line ∈ lines, line.record = some e :=
  List.mem_filterMap

/-- nothing datable holds no instant open -/
theorem beforeTheOpenInstant_undated (h : recordsOf grown = []) : beforeTheOpenInstant grown = grown.length := by
  have hnone : grown.reverse.findSome? (fun line => line.record.map Envelope.ts) = none := by
    refine List.findSome?_eq_none_iff.mpr fun line hline => ?_
    cases hrecord : line.record with
    | none => rfl
    | some e => exact (List.ne_nil_of_mem (mem_recordsOf.mpr ⟨line, List.mem_reverse.mp hline, hrecord⟩) h).elim
  rw [beforeTheOpenInstant, hnone]

/-- a line with no record of another instant -/
def OpenAt (ts : String) (line : FinishedLine) : Bool := !(line.record.any fun event => event.ts ≠ ts)

theorem openAt_iff {ts : String} {line : FinishedLine} : OpenAt ts line = true ↔ ∀ e, line.record = some e → e.ts = ts := by
  unfold OpenAt
  cases line.record with
  | none => simp
  | some e => simp

/-- the record that dates what is held back, behind it nothing datable -/
theorem exists_dating (h : recordsOf grown ≠ []) : ∃ undated line before last, grown.reverse = undated ++ line :: before ∧
    line.record = some last ∧ (∀ line ∈ undated, line.record = none) ∧
      beforeTheOpenInstant grown = (grown.rdropWhile (OpenAt last.ts)).length := by
  cases hfound : grown.reverse.findSome? fun line => line.record.map Envelope.ts with
  | none =>
    obtain ⟨e, he⟩ := List.exists_mem_of_ne_nil _ h
    obtain ⟨line, hline, hrecord⟩ := mem_recordsOf.mp he
    have hnone := List.findSome?_eq_none_iff.mp hfound line (List.mem_reverse.mpr hline)
    rw [hrecord] at hnone
    cases hnone
  | some ts =>
    obtain ⟨undated, line, before, hgrown, hts, hundated⟩ := List.findSome?_eq_some_iff.mp hfound
    obtain ⟨last, hlast, rfl⟩ := Option.map_eq_some_iff.mp hts
    refine ⟨undated, line, before, last, hgrown, hlast, fun line hline => Option.map_eq_none_iff.mp (hundated line hline), ?_⟩
    rw [beforeTheOpenInstant, hfound]
    rfl

/-- **The open instant.** What is held back is of one instant, and what is not ends at a record of another. -/
theorem beforeTheOpenInstant_dated (h : recordsOf grown ≠ []) : ∃ front held last, grown = front ++ held ∧
    beforeTheOpenInstant grown = front.length ∧ last ∈ recordsOf held ∧ (∀ e ∈ recordsOf held, e.ts = last.ts) ∧
      (front = [] ∨ ∃ before line e, front = before ++ [line] ∧ line.record = some e ∧ e.ts ≠ last.ts) := by
  obtain ⟨undated, line, before, last, hgrown, hlast, hundated, hextent⟩ := exists_dating h
  refine ⟨_, grown.rtakeWhile (OpenAt last.ts), last, List.rdropWhile_append_rtakeWhile.symm, hextent, ?_, fun e he => ?_, ?_⟩
  · have hopen : ∀ line ∈ undated, OpenAt last.ts line = true := by
      intro line hline
      refine openAt_iff.mpr fun e he => ?_
      rw [hundated line hline] at he
      cases he
    have hline : OpenAt last.ts line = true := openAt_iff.mpr fun e he => by rw [Option.some.inj (hlast.symm.trans he)]
    refine mem_recordsOf.mpr ⟨line, ?_, hlast⟩
    rw [List.rtakeWhile, List.mem_reverse, hgrown, List.takeWhile_append_of_pos hopen, List.takeWhile_cons_of_pos hline]
    exact List.mem_append_right _ List.mem_cons_self
  · obtain ⟨held, hheld, hrecord⟩ := mem_recordsOf.mp he
    exact openAt_iff.mp (List.mem_rtakeWhile_imp hheld) e hrecord
  · rcases eq_or_ne (grown.rdropWhile (OpenAt last.ts)) [] with hfront | hfront
    · exact Or.inl hfront
    have hclosed := List.rdropWhile_last_not (OpenAt last.ts) grown hfront
    rw [openAt_iff] at hclosed
    push Not at hclosed
    obtain ⟨e, he, hne⟩ := hclosed
    exact Or.inr ⟨_, _, e, (List.dropLast_append_getLast hfront).symm, he, hne⟩

/-- lines cut between two instants, a record past them where one is among them -/
structure Between (covered past : List FinishedLine) : Prop where
  parted : ∀ a ∈ recordsOf covered, ∀ b ∈ recordsOf past, a.ts < b.ts
  beyond : recordsOf covered ≠ [] → recordsOf past ≠ []

theorem Between.concat {covered block past : List FinishedLine} (h : Between covered (block ++ past)) (hblock : Between block past) :
    Between (covered ++ block) past where
  parted := by
    intro a ha b hb
    rw [recordsOf_append] at ha
    rcases List.mem_append.mp ha with ha | ha
    · exact h.parted a ha b (by rw [recordsOf_append]; exact List.mem_append_right _ hb)
    · exact hblock.parted a ha b hb
  beyond := by
    intro hsome
    rcases eq_or_ne (recordsOf block) [] with hnone | hrecords
    · rw [recordsOf_append, hnone, List.append_nil] at hsome
      have hpast := h.beyond hsome
      rwa [recordsOf_append, hnone, List.nil_append] at hpast
    · exact hblock.beyond hrecords

/-- lines in time, cut at what is held back of them -/
theorem heldBack_between (h : (recordsOf grown).Pairwise InTime) :
    Between (grown.take (extent grown .heldBack)) (grown.drop (extent grown .heldBack)) := by
  rcases eq_or_ne (recordsOf grown) [] with hnone | hrecords
  · rw [extent, beforeTheOpenInstant_undated hnone, List.drop_length, List.take_length]
    exact ⟨fun _ _ b hb => (List.not_mem_nil hb).elim, fun hsome => (hsome hnone).elim⟩
  obtain ⟨front, held, last, rfl, hextent, hlast, hheld, hfront⟩ := beforeTheOpenInstant_dated hrecords
  rw [extent, hextent, List.take_left, List.drop_left]
  refine ⟨fun a ha b hb => ?_, fun _ => List.ne_nil_of_mem hlast⟩
  rw [hheld b hb]
  rcases hfront with rfl | ⟨before, line, e, rfl, he, hne⟩
  · exact (List.not_mem_nil ha).elim
  have hrecords : recordsOf (before ++ [line]) = recordsOf before ++ [e] := by
    rw [recordsOf_append, recordsOf, recordsOf, List.filterMap_cons_some he, List.filterMap_nil]
  rw [recordsOf_append] at h
  obtain ⟨hbefore, -, hcross⟩ := List.pairwise_append.mp h
  have hlt : e.ts < last.ts := by
    have hin : e ∈ recordsOf (before ++ [line]) := hrecords ▸ List.mem_concat_self
    exact lt_of_le_of_ne (hcross e hin last hlast).stamped hne
  rw [hrecords] at ha hbefore
  rcases List.mem_append.mp ha with ha | ha
  · exact lt_of_le_of_lt ((List.pairwise_append.mp hbefore).2.2 a ha e (List.mem_singleton_self e)).stamped hlt
  · rw [List.mem_singleton.mp ha]
    exact hlt

/-- blocks of a journal in time, whose merges are the merge of what they cover, cut between two instants -/
def CutInTime (blocks : List (List FinishedLine)) (finished : List FinishedLine) : Prop :=
  (recordsOf finished).Pairwise InTime →
    merged blocks = mergeOrder (recordsOf blocks.flatten) ∧ ∀ past, blocks.flatten ++ past = finished → Between blocks.flatten past

section Cuts

variable {blocks : List (List FinishedLine)} {block finished : List FinishedLine}

/-- a block past the instants of those before it merges behind them -/
theorem merged_concat_of_parted (hmerged : merged blocks = mergeOrder (recordsOf blocks.flatten))
    (horder : (recordsOf (blocks.flatten ++ block)).Pairwise InTime)
    (hparted : ∀ a ∈ recordsOf blocks.flatten, ∀ b ∈ recordsOf block, a.ts < b.ts) :
    merged (blocks ++ [block]) = mergeOrder (recordsOf (blocks.flatten ++ block)) := by
  rw [recordsOf_append] at horder ⊢
  have hcross := (List.pairwise_append.mp horder).2.2
  rw [merged_concat, hmerged, mergeOrder_append fun a ha b hb => (hcross a ha b hb).behind (hparted a ha b hb)]

theorem CutInTime.appended (line : FinishedLine) (hread : blocks.flatten <+: finished) (h : CutInTime blocks finished) :
    CutInTime blocks (finished ++ [line]) := by
  obtain ⟨past, rfl⟩ := hread
  intro horder
  rw [recordsOf_append] at horder
  obtain ⟨hbefore, -, hcross⟩ := List.pairwise_append.mp horder
  obtain ⟨hmerged, hpast⟩ := h hbefore
  have hbetween := hpast past rfl
  refine ⟨hmerged, fun grown hgrown => ?_⟩
  obtain rfl : grown = past ++ [line] := List.append_cancel_left (hgrown.trans (List.append_assoc ..))
  refine ⟨fun a ha b hb => ?_, fun hsome => ?_⟩
  · rw [recordsOf_append] at hb
    rcases List.mem_append.mp hb with hb | hb
    · exact hbetween.parted a ha b hb
    -- a record past what is covered is stamped no later than the one appended
    obtain ⟨c, hc⟩ := List.exists_mem_of_ne_nil _ (hbetween.beyond (List.ne_nil_of_mem ha))
    have hle := hcross c (by rw [recordsOf_append]; exact List.mem_append_right _ hc) b hb
    exact lt_of_lt_of_le (hbetween.parted a ha c hc) hle.stamped
  · rw [recordsOf_append]
    exact List.append_ne_nil_of_left_ne_nil (hbetween.beyond hsome) _

theorem CutInTime.concat (hread : blocks.flatten ++ block <+: finished) (h : CutInTime blocks finished)
    (hblock : (recordsOf finished).Pairwise InTime → ∀ past, blocks.flatten ++ block ++ past = finished → Between block past) :
    CutInTime (blocks ++ [block]) finished := by
  obtain ⟨past, rfl⟩ := hread
  intro horder
  obtain ⟨hmerged, hpast⟩ := h horder
  have hbetween := hpast (block ++ past) (List.append_assoc ..).symm
  refine ⟨?_, fun rest heq => ?_⟩
  · have hread : (recordsOf (blocks.flatten ++ block)).Pairwise InTime := by
      rw [recordsOf_append] at horder
      exact (List.pairwise_append.mp horder).1
    rw [flatten_concat]
    exact merged_concat_of_parted hmerged hread fun a ha b hb =>
      hbetween.parted a ha b (by rw [recordsOf_append]; exact List.mem_append_left _ hb)
  · rw [flatten_concat] at heq ⊢
    obtain rfl : rest = past := List.append_cancel_left heq
    exact hbetween.concat (hblock horder rest rfl)

theorem CutInTime.heldBack (h : CutInTime blocks (blocks.flatten ++ grown)) :
    CutInTime (blocks ++ [grown.take (extent grown .heldBack)]) (blocks.flatten ++ grown) := by
  refine h.concat ?_ fun horder past heq => ?_
  · exact (List.prefix_append_right_inj _).mpr (List.take_prefix _ _)
  · rw [List.append_assoc] at heq
    obtain rfl : past = grown.drop (extent grown .heldBack) :=
      List.append_cancel_left ((List.append_cancel_left heq).trans (List.take_append_drop _ _).symm)
    rw [recordsOf_append] at horder
    exact heldBack_between (List.pairwise_append.mp horder).2.1

end Cuts

namespace World

variable {events : List (Event α)} {reader : ℕ} {p : Projected α}

/-- what covers no instant still open: windows of a rebuild that end between two instants, and no run proved ended -/
def HeldBack (w : World α) : Event α → Prop
  | .windowed reader => ∀ p window, w.readers reader = some (.rebuilding p window) →
      ¬ w.journal.length - p.coverage.bytes ≤ window → ∀ covered past, bytesOf covered = p.coverage.bytes →
        covered ++ finishedLinesWithin w.journal p.coverage.bytes window ++ past = w.journal.finished →
          Between (finishedLinesWithin w.journal p.coverage.bytes window) past
  | .ended _ => False
  | .appended _ | .began _ | .opened .. | .refreshed _ | .left _ => True

theorem cutting_inTime : Cutting CutInTime (HeldBack (α := α)) where
  nothing := fun _ _ => ⟨rfl, fun _ _ => ⟨fun _ ha => (List.not_mem_nil ha).elim, fun h => (h rfl).elim⟩⟩
  appended := fun line hread h => h.appended line hread
  heldBack := CutInTime.heldBack
  windowed := fun hallowed hreader hmore hbytes hread h =>
    h.concat hread fun _ past heq => hallowed _ _ hreader hmore _ past hbytes heq
  ended := fun hallowed => hallowed.elim

/-- **A journal in time.** Over the runs whose rebuilds end their windows between two instants and where no run is proved ended, and where
each record of the journal is stamped no earlier than those before, several streams at one instant in any order: a reader refreshed
holds the fold of the whole store in the merge order. -/
theorem refreshed_in_time (h : Admits (step f) (fun w e => Allowed f w e ∧ HeldBack w e) {} events)
    (hreader : (events.foldl (step f) {}).readers reader = some (.folded p))
    (horder : (recordsOf (events.foldl (step f) {}).journal.finished).Pairwise InTime) :
    ∃ p', ((events ++ [Event.refreshed reader]).foldl (step f) {}).readers reader = some (.folded p') ∧
      p'.state = RunState.fold f.host (mergeOrder (recordsOf (events.foldl (step f) {}).journal.finished)) ∧
      p'.tally.counts = (mergeOrder (recordsOf (events.foldl (step f) {}).journal.finished)).foldl f.take f.counted := by
  rw [List.foldl_append]
  obtain ⟨p', blocks, grown, hp', hcut, hgrown, haccounts⟩ := (kept_run cutting_inTime h).refreshed hreader
  rw [← hgrown] at hcut horder ⊢
  obtain ⟨hmerged, hpast⟩ := hcut.heldBack horder
  have hall : (blocks ++ [grown.take (extent grown .heldBack)]).flatten ++ grown.drop (extent grown .heldBack) =
      blocks.flatten ++ grown := by
    rw [flatten_concat, List.append_assoc, List.take_append_drop]
  have hwhole := merged_concat_of_parted hmerged (hall ▸ horder) (hpast _ hall).parted
  rw [hall] at hwhole
  exact ⟨p', hp', hwhole ▸ haccounts.state, hwhole ▸ congrArg Tally.counts haccounts.tally⟩

/-- a reader that rebuilds a window at a time, refreshed between two records of one instant, the second of a stream the merge places
first -/
def refreshedBetween : List (Event Unit) :=
  [.appended ⟨.whole (.stamped "09:00" "relay" 3), 40⟩, .appended ⟨.whole (.stamped "10:00" "relay" 4), 40⟩, .opened 0 .yes 41,
    .windowed 0, .windowed 0, .refreshed 0, .appended ⟨.whole (.stamped "10:00" "driver" 1), 40⟩]

theorem heldBack_refreshedBetween_first : HeldBack ((refreshedBetween.take 3).foldl (step plain) {}) (.windowed 0) := by
  intro p window hreader _ covered past hbytes heq
  obtain ⟨rfl, rfl⟩ := Reader.rebuilding.inj (Option.some.inj hreader)
  cases covered with
  | nil =>
    obtain rfl := (List.cons.inj heq).2
    exact ⟨by decide +kernel, fun _ => by decide +kernel⟩
  | cons line covered =>
    obtain rfl := (List.cons.inj heq).1
    have hnone : 41 + bytesOf covered = 0 := hbytes
    omega

theorem heldBack_refreshedBetween_last : HeldBack ((refreshedBetween.take 4).foldl (step plain) {}) (.windowed 0) := by
  intro p window hreader hmore
  obtain ⟨rfl, rfl⟩ := Reader.rebuilding.inj (Option.some.inj hreader)
  exact (hmore (by decide +kernel)).elim

theorem refreshed_in_time_refreshedBetween :
    ∃ p', ((refreshedBetween ++ [Event.refreshed 0]).foldl (step plain) {}).readers 0 = some (.folded p') ∧
      p'.state = RunState.fold .lenient (mergeOrder (recordsOf (refreshedBetween.foldl (step plain) {}).journal.finished)) ∧
      p'.tally.counts = (mergeOrder (recordsOf (refreshedBetween.foldl (step plain) {}).journal.finished)).foldl plain.take () := by
  have hadmits : Admits (step plain) (fun w e => Allowed plain w e ∧ HeldBack w e) {} refreshedBetween :=
    ⟨⟨trivial, trivial⟩, ⟨trivial, trivial⟩, ⟨Nat.succ_pos _, trivial⟩, ⟨trivial, heldBack_refreshedBetween_first⟩,
      ⟨trivial, heldBack_refreshedBetween_last⟩, ⟨trivial, trivial⟩, ⟨trivial, trivial⟩, trivial⟩
  have horder : [Envelope.stamped "09:00" "relay" 3, .stamped "10:00" "relay" 4, .stamped "10:00" "driver" 1].Pairwise InTime := by
    refine List.pairwise_cons.mpr ⟨List.forall_mem_cons.mpr ⟨⟨by decide, fun _ => by decide⟩, List.forall_mem_singleton.mpr ?_⟩, ?_⟩
    · exact ⟨by decide, fun hstream => absurd hstream (by decide)⟩
    · exact List.pairwise_pair.mpr ⟨le_refl "10:00", fun hstream => absurd hstream (by decide)⟩
  exact refreshed_in_time hadmits rfl horder

end World

end OnePipeline.Checkpoints
