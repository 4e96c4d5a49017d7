/-
A run's fold resumed from its checkpoint, over every interleaving of its writers, its readers and what is done to the document.

Results:
- `lines_accounted`: a refreshed reader has taken every finished line once, in blocks each in the merge order, and its tally, its losses
  and the sequence it starts a writer above are those of a read of the whole file;
- `rebuild_ends`: a rebuild in windows of any size ends;
- `whole_off_document`: a document that covers what a summary stamps holds the state of the whole journal.
-/
import Mathlib.Data.List.DropRight
import Mathlib.Tactic
import OnePipeline.Core.Runs
import OnePipeline.Laws.Order
import OnePipeline.Model.Checkpoint

namespace OnePipeline.Checkpoints

open Runs

variable {α : Type} {f : Folding α} {journal : Journal} {lines rest grown : List FinishedLine}

/-! ## Lines by their bytes -/

/-- a file's lines, each with its terminator -/
def Terminated (lines : List FinishedLine) : Prop := ∀ line ∈ lines, 0 < line.bytes

theorem terminated_finishedAt (offset : ℕ) (written : List Line) : Terminated (finishedAt offset written) := by
  induction written generalizing offset with
  | nil => exact fun _ h => (List.not_mem_nil h).elim
  | cons line written ih =>
    intro read hread
    rcases List.mem_cons.mp hread with rfl | hread
    · exact Nat.succ_pos _
    · exact ih _ read hread

theorem bytesOf_append : bytesOf (lines ++ rest) = bytesOf lines + bytesOf rest := by
  rw [bytesOf, List.map_append, List.sum_append]
  rfl

theorem bytesOf_cons (line : FinishedLine) : bytesOf (line :: lines) = line.bytes + bytesOf lines := List.sum_cons

theorem finishedAt_concat (offset : ℕ) (written : List Line) (line : Line) :
    finishedAt offset (written ++ [line]) =
      finishedAt offset written ++ [line.finished (offset + bytesOf (finishedAt offset written))] := by
  induction written generalizing offset with
  | nil => rfl
  | cons first written ih =>
    rw [List.cons_append, finishedAt, ih, finishedAt, List.cons_append, bytesOf_cons]
    simp only [Line.finished, Nat.add_assoc]

theorem dropBytes_bytesOf (h : Terminated lines) : dropBytes (bytesOf lines) (lines ++ rest) = rest := by
  induction lines with
  | nil =>
    cases rest with
    | nil => rfl
    | cons line rest => exact if_pos rfl
  | cons line lines ih =>
    have hline : 0 < line.bytes := h line List.mem_cons_self
    rw [bytesOf_cons, List.cons_append, dropBytes, if_neg (by omega), Nat.add_sub_cancel_left]
    exact ih fun read hread => h read (List.mem_cons_of_mem _ hread)

theorem takeBytes_front (bytes : ℕ) (lines : List FinishedLine) : takeBytes bytes lines <+: lines := by
  induction lines generalizing bytes with
  | nil => exact List.prefix_rfl
  | cons line lines ih =>
    rw [takeBytes]
    split_ifs
    · exact List.cons_prefix_cons.mpr ⟨rfl, ih _⟩
    · exact List.nil_prefix

theorem takeBytes_of_le {bytes : ℕ} (h : bytesOf lines ≤ bytes) : takeBytes bytes lines = lines := by
  induction lines generalizing bytes with
  | nil => rfl
  | cons line lines ih =>
    rw [bytesOf_cons] at h
    rw [takeBytes, if_pos (by omega), ih (by omega)]

theorem terminated_append (h : Terminated (lines ++ rest)) : Terminated lines ∧ Terminated rest :=
  ⟨fun line hline => h line (List.mem_append_left _ hline), fun line hline => h line (List.mem_append_right _ hline)⟩

/-- a read from the end of some lines takes the rest -/
theorem finishedLinesFrom_eq (h : journal.finished = lines ++ rest) : finishedLinesFrom journal (bytesOf lines) = rest := by
  have hterminated := terminated_append (h ▸ terminated_finishedAt 0 journal.lines : Terminated (lines ++ rest))
  have hlength : journal.length - bytesOf lines = bytesOf rest + journal.tail.bytes := by
    rw [Journal.length, h, bytesOf_append]
    omega
  have hwithin : ¬ journal.length < bytesOf lines + (bytesOf rest + journal.tail.bytes) := by
    rw [Journal.length, h, bytesOf_append]
    omega
  unfold finishedLinesFrom finishedLinesWithin
  rw [hlength, h, dropBytes_bytesOf hterminated.1]
  by_cases hnone : bytesOf rest + journal.tail.bytes = 0
  · rw [if_pos (Or.inl hnone)]
    cases rest with
    | nil => rfl
    | cons line rest =>
      have hline : 0 < line.bytes := hterminated.2 line List.mem_cons_self
      rw [bytesOf_cons] at hnone
      omega
  · rw [if_neg fun hor => hor.elim hnone hwithin, takeBytes_of_le (Nat.le_add_right _ _)]

theorem finishedLinesWithin_front (h : journal.finished = lines ++ rest) (len : ℕ) :
    finishedLinesWithin journal (bytesOf lines) len <+: rest := by
  have hterminated := terminated_append (h ▸ terminated_finishedAt 0 journal.lines : Terminated (lines ++ rest))
  unfold finishedLinesWithin
  split_ifs
  · exact List.nil_prefix
  · rw [h, dropBytes_bytesOf hterminated.1]
    exact takeBytes_front _ _

/-- lines of one file that occupy the same bytes are the same lines -/
theorem eq_of_bytesOf (h : Terminated (lines ++ rest)) (hbytes : bytesOf lines = bytesOf (lines ++ rest)) : rest = [] := by
  cases rest with
  | nil => rfl
  | cons line rest =>
    have hline : 0 < line.bytes := h line (List.mem_append_right _ List.mem_cons_self)
    rw [bytesOf_append, bytesOf_cons] at hbytes
    omega

/-! ## Blocks -/

theorem recordsOf_append : recordsOf (lines ++ rest) = recordsOf lines ++ recordsOf rest := List.filterMap_append

/-- lines folded a block at a time, each block in the merge order -/
def merged (blocks : List (List FinishedLine)) : List Envelope := blocks.flatMap fun block => mergeOrder (recordsOf block)

/-- every loss of lines, numbered after so many -/
def lossesAfter (first : ℕ) (lines : List FinishedLine) : List LineLost :=
  (lines.zipIdx (first + 1)).filterMap fun p => p.1.lost.map fun lost => ⟨lost.kind, p.2, lost.offset, lost.bytes⟩

/-- what is counted of lines folded in blocks -/
def tallyOf (f : Folding α) (blocks : List (List FinishedLine)) : Tally α where
  counts := (merged blocks).foldl f.take f.counted
  events := (recordsOf blocks.flatten).length
  unreadable := blocks.flatten.countP fun line => line.record.isNone
  losses := lossesAfter 0 blocks.flatten

def coverageOf (lines : List FinishedLine) : Coverage := lines.foldl (fun coverage line => coverage.absorb line.record line.bytes) {}

theorem merged_concat (blocks : List (List FinishedLine)) (block : List FinishedLine) :
    merged (blocks ++ [block]) = merged blocks ++ mergeOrder (recordsOf block) := by
  rw [merged, List.flatMap_append, List.flatMap_singleton]
  rfl

theorem lossesAfter_append (first : ℕ) :
    lossesAfter first (lines ++ rest) = lossesAfter first lines ++ lossesAfter (first + lines.length) rest := by
  rw [lossesAfter, List.zipIdx_append, List.filterMap_append, Nat.add_right_comm]
  rfl

theorem length_sub_recordsOf (lines : List FinishedLine) :
    lines.length - (recordsOf lines).length = lines.countP fun line => line.record.isNone := by
  have hboth : lines.length = (recordsOf lines).length + lines.countP fun line => line.record.isNone := by
    induction lines with
    | nil => rfl
    | cons line lines ih =>
      rw [List.length_cons, ih, List.countP_cons, recordsOf, recordsOf, List.filterMap_cons]
      cases line.record with
      | none => simp [Nat.add_assoc]
      | some record => simp [Nat.add_assoc, Nat.add_comm]
  omega

/-- one more block folded behind the blocks before it -/
theorem foldInMergeOrder_blocks (f : Folding α) (blocks : List (List FinishedLine)) (block : List FinishedLine) :
    f.foldInMergeOrder (RunState.fold f.host (merged blocks)) (tallyOf f blocks) block blocks.flatten.length =
      (RunState.fold f.host (merged (blocks ++ [block])), tallyOf f (blocks ++ [block])) := by
  have hflatten : (blocks ++ [block]).flatten = blocks.flatten ++ block := by
    rw [List.flatten_append, List.flatten_singleton]
  unfold Folding.foldInMergeOrder tallyOf
  refine Prod.ext ?_ (Tally.mk.injEq .. |>.mpr ⟨?_, ?_, ?_, ?_⟩)
  · rw [merged_concat, RunState.fold, RunState.fold, List.foldl_append]
  · rw [merged_concat, List.foldl_append]
  · rw [hflatten, recordsOf_append, List.length_append, length_mergeOrder]
  · rw [hflatten, List.countP_append, length_sub_recordsOf]
  · rw [hflatten, lossesAfter_append, Nat.zero_add]
    rfl

theorem coverageOf_append : coverageOf (lines ++ rest) =
    rest.foldl (fun coverage line => coverage.absorb line.record line.bytes) (coverageOf lines) := List.foldl_append

theorem coverageOf_counts (lines : List FinishedLine) :
    (coverageOf lines).bytes = bytesOf lines ∧ (coverageOf lines).records = lines.length := by
  induction lines using List.reverseRecOn with
  | nil => exact ⟨rfl, rfl⟩
  | append_singleton lines line ih =>
    rw [coverageOf_append, List.foldl_cons, List.foldl_nil, bytesOf_append, bytesOf_cons, List.length_append, ← ih.1, ← ih.2]
    cases line.record <;> exact ⟨rfl, rfl⟩


/-! ## What a projection accounts for -/

/-- a fold of the front of a file, a block at a time -/
structure Covers (f : Folding α) (finished : List FinishedLine) (blocks : List (List FinishedLine)) (coverage : Coverage)
    (state : RunState) (tally : Tally α) : Prop where
  read : blocks.flatten <+: finished
  coverage : coverage = coverageOf blocks.flatten
  state : state = RunState.fold f.host (merged blocks)
  tally : tally = tallyOf f blocks

/-- a projection of a file: what it covers, and the lines it read past its marker -/
structure Accounts (f : Folding α) (finished : List FinishedLine) (p : Projected α) (blocks : List (List FinishedLine))
    (ahead : List FinishedLine) : Prop where
  covers : Covers f finished blocks p.coverage p.covered p.coveredTally
  read : blocks.flatten ++ ahead <+: finished
  state : p.state = RunState.fold f.host (merged (blocks ++ [ahead]))
  tally : p.tally = tallyOf f (blocks ++ [ahead])
  readThrough : p.readThrough = bytesOf (blocks.flatten ++ ahead)
  linesThrough : p.linesThrough = (blocks.flatten ++ ahead).length
  claimedPast : p.claimedPast = (recordsOf ahead).foldl claim ∅

section Projections

variable {finished finished' ahead : List FinishedLine} {blocks : List (List FinishedLine)} {coverage : Coverage} {state : RunState}
  {tally : Tally α} {p : Projected α}

theorem flatten_concat (blocks : List (List FinishedLine)) (block : List FinishedLine) :
    (blocks ++ [block]).flatten = blocks.flatten ++ block := by
  rw [List.flatten_append, List.flatten_singleton]

theorem merged_concat_nil (blocks : List (List FinishedLine)) : merged (blocks ++ [[]]) = merged blocks :=
  (merged_concat blocks []).trans (List.append_nil _)

theorem tallyOf_concat_nil (blocks : List (List FinishedLine)) : tallyOf f (blocks ++ [[]]) = tallyOf f blocks := by
  unfold tallyOf
  rw [merged_concat_nil, flatten_concat, List.append_nil]

theorem Covers.grow (h : Covers f finished blocks coverage state tally) (hle : finished <+: finished') :
    Covers f finished' blocks coverage state tally :=
  { h with read := h.read.trans hle }

theorem Accounts.grow (h : Accounts f finished p blocks ahead) (hle : finished <+: finished') : Accounts f finished' p blocks ahead :=
  { h with covers := h.covers.grow hle, read := h.read.trans hle }

theorem covers_nothing (finished : List FinishedLine) : Covers f finished [] {} {} f.emptyTally :=
  ⟨List.nil_prefix, rfl, rfl, rfl⟩

theorem accounts_empty (finished : List FinishedLine) (persist : Persist) : Accounts f finished (f.empty persist) [] [] :=
  ⟨covers_nothing finished, List.nil_prefix, rfl, rfl, rfl, rfl, rfl⟩

/-- what has grown past the marker, taken -/
theorem Covers.takeWith (h : Covers f finished blocks p.coverage p.covered p.coveredTally) (hgrown : blocks.flatten ++ grown <+: finished)
    (instant : OpenInstant) (write : Persist) :
    Accounts f finished (f.takeWith p grown instant write).1 (blocks ++ [grown.take (extent grown instant)])
      (grown.drop (extent grown instant)) := by
  have hsplit : (blocks ++ [grown.take (extent grown instant)]).flatten ++ grown.drop (extent grown instant) = blocks.flatten ++ grown := by
    rw [flatten_concat, List.append_assoc, List.take_append_drop]
  have hfront : (blocks ++ [grown.take (extent grown instant)]).flatten <+: finished :=
    (List.prefix_append _ _).trans (hsplit ▸ hgrown)
  have honto : f.foldInMergeOrder p.covered p.coveredTally (grown.take (extent grown instant)) p.coverage.records =
      (RunState.fold f.host (merged (blocks ++ [grown.take (extent grown instant)])),
        tallyOf f (blocks ++ [grown.take (extent grown instant)])) := by
    rw [h.state, h.tally, h.coverage, (coverageOf_counts _).2]
    exact foldInMergeOrder_blocks f blocks _
  have hcoverage : (grown.take (extent grown instant)).foldl (fun coverage line => coverage.absorb line.record line.bytes) p.coverage =
      coverageOf (blocks ++ [grown.take (extent grown instant)]).flatten := by
    rw [flatten_concat, coverageOf_append, h.coverage]
  have hcounts := coverageOf_counts (blocks ++ [grown.take (extent grown instant)]).flatten
  have hpast := foldInMergeOrder_blocks f (blocks ++ [grown.take (extent grown instant)]) (grown.drop (extent grown instant))
  unfold Folding.takeWith
  simp only [honto, hcoverage, hcounts.1, hcounts.2, hpast]
  refine ⟨⟨hfront, rfl, rfl, rfl⟩, hsplit ▸ hgrown, rfl, rfl, ?_, ?_, rfl⟩
  · rw [bytesOf_append]
  · rw [List.length_append]

/-- a document written is the projection's -/
theorem written_takeWith {instant : OpenInstant} {write : Persist} {checkpoint : Checkpoint α}
    (h : checkpoint ∈ (f.takeWith p grown instant write).2) : checkpoint = f.document (f.takeWith p grown instant write).1 := by
  have hwritten : (f.takeWith p grown instant write).2 =
      if grown.take (extent grown instant) ≠ [] ∧ p.persist = .yes ∧ write = .yes then
        some (f.document (f.takeWith p grown instant write).1)
      else none := rfl
  rw [hwritten] at h
  split_ifs at h
  · exact (Option.some.inj h).symm
  · cases h

/-- what a document holds, resumed from -/
theorem Covers.resumed {checkpoint : Checkpoint α} (h : Covers f finished blocks checkpoint.coverage checkpoint.state checkpoint.tally)
    (persist : Persist) :
    Accounts f finished
      { covered := checkpoint.state, coveredTally := checkpoint.tally, coverage := checkpoint.coverage, digest := checkpoint.digest
        state := checkpoint.state, tally := checkpoint.tally, readThrough := checkpoint.coverage.bytes
        linesThrough := checkpoint.coverage.records, claimedPast := ∅, persist } blocks [] := by
  have hcounts := coverageOf_counts blocks.flatten
  refine ⟨h, (List.append_nil blocks.flatten).symm ▸ h.read, ?_, ?_, ?_, ?_, rfl⟩
  · rw [merged_concat_nil]
    exact h.state
  · rw [tallyOf_concat_nil]
    exact h.tally
  · rw [List.append_nil, ← hcounts.1, ← h.coverage]
  · rw [List.append_nil, ← hcounts.2, ← h.coverage]

/-- the lines past a marker of a journal -/
theorem Covers.past (h : Covers f journal.finished blocks coverage state tally) :
    blocks.flatten ++ finishedLinesFrom journal coverage.bytes = journal.finished ∧
      ∀ window, blocks.flatten ++ finishedLinesWithin journal coverage.bytes window <+: journal.finished := by
  obtain ⟨past, hpast⟩ := h.read
  have hbytes : coverage.bytes = bytesOf blocks.flatten := by
    rw [h.coverage]
    exact (coverageOf_counts _).1
  rw [hbytes]
  refine ⟨by rw [finishedLinesFrom_eq hpast.symm, hpast], fun window => ?_⟩
  rw [← hpast]
  exact (List.prefix_append_right_inj _).mpr (finishedLinesWithin_front hpast.symm window)

theorem Covers.bytes_le (h : Covers f journal.finished blocks coverage state tally) : coverage.bytes ≤ journal.length := by
  obtain ⟨past, hpast⟩ := h.read
  rw [h.coverage, (coverageOf_counts _).1, Journal.length, ← hpast, bytesOf_append]
  omega

end Projections

theorem extent_covered (grown : List FinishedLine) : extent grown .covered = grown.length := rfl

/-! ## What is kept -/

/-- what may come at a world: a rebuild in windows of some bytes; and from outside, no document but one this build refuses or one a
reader wrote -/
def Allowed (f : Folding α) (w : World α) : Event α → Prop
  | .opened _ _ window => 0 < window
  | .left document => ∀ checkpoint ∈ f.readable document, f.Sealed checkpoint → checkpoint ∈ w.wrote
  | .appended _ | .began _ | .windowed _ | .refreshed _ | .ended _ => True

/-- where a file's covered lines may be cut, of which files, and what then may come at a world -/
structure Cutting (Cut : List (List FinishedLine) → List FinishedLine → Prop) (allowed : World α → Event α → Prop) : Prop where
  nothing : ∀ finished, Cut [] finished
  appended : ∀ {blocks finished} (line : FinishedLine), blocks.flatten <+: finished → Cut blocks finished →
    Cut blocks (finished ++ [line])
  heldBack : ∀ {blocks grown}, Cut blocks (blocks.flatten ++ grown) →
    Cut (blocks ++ [grown.take (extent grown .heldBack)]) (blocks.flatten ++ grown)
  windowed : ∀ {w : World α} {reader p window blocks}, allowed w (.windowed reader) →
    w.readers reader = some (.rebuilding p window) → ¬ w.journal.length - p.coverage.bytes ≤ window →
      bytesOf blocks.flatten = p.coverage.bytes →
        blocks.flatten ++ finishedLinesWithin w.journal p.coverage.bytes window <+: w.journal.finished →
          Cut blocks w.journal.finished → Cut (blocks ++ [finishedLinesWithin w.journal p.coverage.bytes window]) w.journal.finished
  ended : ∀ {w : World α} {reader p blocks grown}, allowed w (.ended reader) → w.readers reader = some (.folded p) → grown ≠ [] →
    Cut blocks w.journal.finished → Cut (blocks ++ [grown]) w.journal.finished

variable {Cut : List (List FinishedLine) → List FinishedLine → Prop} {allowed : World α → Event α → Prop}

/-- a reader's projection accounts for its file, cut so -/
def Reader.Stands (f : Folding α) (Cut : List (List FinishedLine) → List FinishedLine → Prop) (finished : List FinishedLine) :
    Reader α → Prop
  | .rebuilding p window => 0 < window ∧ ∃ blocks ahead, Cut blocks finished ∧ Accounts f finished p blocks ahead
  | .folded p => ∃ blocks ahead, Cut blocks finished ∧ Accounts f finished p blocks ahead

namespace World

structure Kept (f : Folding α) (Cut : List (List FinishedLine) → List FinishedLine → Prop) (w : World α) : Prop where
  wrote : ∀ checkpoint ∈ w.wrote, ∃ blocks, Cut blocks w.journal.finished ∧
    Covers f w.journal.finished blocks checkpoint.coverage checkpoint.state checkpoint.tally
  document : ∀ checkpoint ∈ f.readable w.document, f.Sealed checkpoint → checkpoint ∈ w.wrote
  readers : ∀ reader is, w.readers reader = some is → is.Stands f Cut w.journal.finished

variable {w : World α} {reader : ℕ} {is : Reader α} {p : Projected α} {blocks : List (List FinishedLine)} {ahead : List FinishedLine}
  {window : ℕ}

theorem kept_start : Kept f Cut {} where
  wrote := fun _ h => (List.not_mem_nil h).elim
  document := fun _ h => (Option.not_mem_none _ h).elim
  readers := fun _ _ h => by cases h

/-- a journal that grew -/
theorem Kept.grow (h : w.Kept f Cut) {grown : Journal} (hle : w.journal.finished <+: grown.finished)
    (hcut : ∀ blocks, blocks.flatten <+: w.journal.finished → Cut blocks w.journal.finished → Cut blocks grown.finished) :
    Kept f Cut { w with journal := grown } where
  wrote := by
    intro checkpoint hwrote
    obtain ⟨blocks, hblocks, hcovers⟩ := h.wrote checkpoint hwrote
    exact ⟨blocks, hcut blocks hcovers.read hblocks, hcovers.grow hle⟩
  document := h.document
  readers := by
    intro reader is his
    have hstands := h.readers reader is his
    cases is with
    | rebuilding p window =>
      obtain ⟨hwindow, blocks, ahead, hblocks, haccounts⟩ := hstands
      exact ⟨hwindow, blocks, ahead, hcut blocks haccounts.covers.read hblocks, haccounts.grow hle⟩
    | folded p =>
      obtain ⟨blocks, ahead, hblocks, haccounts⟩ := hstands
      exact ⟨blocks, ahead, hcut blocks haccounts.covers.read hblocks, haccounts.grow hle⟩

theorem Kept.reads (h : w.Kept f Cut) (his : is.Stands f Cut w.journal.finished) : (w.reads reader is).Kept f Cut where
  wrote := h.wrote
  document := h.document
  readers := by
    intro other is' hother
    change Function.update w.readers reader (some is) other = some is' at hother
    by_cases hreader : other = reader
    · rw [hreader, Function.update_self] at hother
      obtain rfl : is = is' := Option.some.inj hother
      exact his
    · rw [Function.update_of_ne hreader] at hother
      exact h.readers other is' hother

/-- a fold taken, and written -/
theorem Kept.takes (h : w.Kept f Cut) {grown : List FinishedLine} {instant : OpenInstant} {write : Persist}
    (hblocks : Cut blocks w.journal.finished) (htaken : Accounts f w.journal.finished (f.takeWith p grown instant write).1 blocks ahead) :
    (w.takes reader (f.takeWith p grown instant write)).Kept f Cut := by
  have hreads : (w.reads reader (.folded (f.takeWith p grown instant write).1)).Kept f Cut := h.reads ⟨blocks, ahead, hblocks, htaken⟩
  refine ⟨fun checkpoint hwrote => ?_, fun checkpoint hreadable hsealed => ?_, hreads.readers⟩
  · rcases List.mem_append.mp hwrote with hwrote | hwrote
    · exact h.wrote checkpoint hwrote
    · rw [written_takeWith (Option.mem_toList.mp hwrote)]
      exact ⟨blocks, hblocks, htaken.covers⟩
  · change checkpoint ∈ f.readable ((f.takeWith p grown instant write).2.or w.document) at hreadable
    cases hdocument : (f.takeWith p grown instant write).2 with
    | none =>
      rw [hdocument, Option.none_or] at hreadable
      exact List.mem_append_left _ (h.document checkpoint hreadable hsealed)
    | some written =>
      rw [hdocument, Option.some_or] at hreadable
      obtain rfl : written = checkpoint := Option.some.inj (Option.mem_filter_iff.mp hreadable).1
      refine List.mem_append_right _ (Option.mem_toList.mpr ?_)
      exact hdocument

/-- what a reader of a usable document resumes from -/
theorem Kept.resumed (h : w.Kept f Cut) {persist : Persist} (hresumed : f.resumed w.journal w.document persist = some p) :
    ∃ blocks ahead, Cut blocks w.journal.finished ∧ Accounts f w.journal.finished p blocks ahead := by
  obtain ⟨checkpoint, hcheckpoint, rfl⟩ := Option.map_eq_some_iff.mp hresumed
  obtain ⟨hreadable, hcorroborated⟩ := Option.mem_filter_iff.mp hcheckpoint
  rw [Folding.corroboratedBy, Bool.and_eq_true, decide_eq_true_iff, decide_eq_true_iff] at hcorroborated
  obtain ⟨blocks, hblocks, hcovers⟩ := h.wrote checkpoint (h.document checkpoint hreadable hcorroborated.2)
  exact ⟨blocks, [], hblocks, hcovers.resumed persist⟩

/-- one turn of a rebuild's loop -/
theorem Kept.rebuildOnce (hblocks : Cut blocks w.journal.finished) (haccounts : Accounts f w.journal.finished p blocks ahead)
    (hwindow : 0 < window)
    (hcut : ¬ w.journal.length - p.coverage.bytes ≤ window →
      Cut (blocks ++ [finishedLinesWithin w.journal p.coverage.bytes window]) w.journal.finished) :
    (w.rebuildOnce f p window).Stands f Cut w.journal.finished := by
  unfold World.rebuildOnce
  split_ifs with hdone
  · exact ⟨blocks, ahead, hblocks, haccounts⟩
  · have hgrown := haccounts.covers.past.2 window
    cases hlines : finishedLinesWithin w.journal p.coverage.bytes window with
    | nil => exact ⟨by omega, blocks, ahead, hblocks, haccounts⟩
    | cons line grown =>
      have hblocks' := hcut hdone
      rw [hlines] at hgrown hblocks'
      refine ⟨hwindow, _, _, ?_, haccounts.covers.takeWith hgrown _ _⟩
      rw [extent_covered, List.take_length]
      exact hblocks'

/-- one event -/
theorem Kept.step (hcutting : Cutting Cut allowed) {e : Event α} (h : w.Kept f Cut) (ha : Allowed f w e) (ha' : allowed w e) :
    (w.step f e).Kept f Cut := by
  cases e with
  | appended line =>
    have hfinished : finishedAt 0 (w.journal.lines ++ [line]) = w.journal.finished ++ [line.finished (0 + bytesOf w.journal.finished)] :=
      finishedAt_concat 0 w.journal.lines line
    refine h.grow ?_ fun blocks hread hblocks => ?_
    · rw [Journal.finished, Journal.finished, hfinished]
      exact List.prefix_append _ _
    · rw [Journal.finished, hfinished]
      exact hcutting.appended _ hread hblocks
  | began tail => exact h.grow List.prefix_rfl fun _ _ hblocks => hblocks
  | opened reader persist window =>
    simp only [World.step]
    cases hresumed : f.resumed w.journal w.document persist with
    | none => exact h.reads ⟨ha, [], [], hcutting.nothing _, accounts_empty _ persist⟩
    | some p =>
      obtain ⟨blocks, ahead, hblocks, haccounts⟩ := h.resumed hresumed
      simp only []
      split_ifs
      · exact h.reads ⟨ha, blocks, ahead, hblocks, haccounts⟩
      · exact h.reads ⟨blocks, ahead, hblocks, haccounts⟩
  | windowed reader =>
    simp only [World.step]
    cases hreader : w.readers reader with
    | none => exact h
    | some is =>
      have hstands := h.readers reader is hreader
      cases is with
      | rebuilding p window =>
        obtain ⟨hwindow, blocks, ahead, hblocks, haccounts⟩ := hstands
        refine h.reads (Kept.rebuildOnce hblocks haccounts hwindow fun hmore => ?_)
        have hbytes : bytesOf blocks.flatten = p.coverage.bytes := by rw [haccounts.covers.coverage, (coverageOf_counts _).1]
        exact hcutting.windowed ha' hreader hmore hbytes (haccounts.covers.past.2 window) hblocks
      | folded p => exact h
  | refreshed reader =>
    simp only [World.step]
    cases hreader : w.readers reader with
    | none => exact h
    | some is =>
      have hstands := h.readers reader is hreader
      cases is with
      | rebuilding p window => exact h
      | folded p =>
        obtain ⟨blocks, ahead, hblocks, haccounts⟩ := hstands
        have hgrown := haccounts.covers.past.1
        simp only []
        rw [if_neg haccounts.covers.bytes_le.not_gt]
        refine h.takes ?_ (haccounts.covers.takeWith ⟨[], (List.append_nil _).trans hgrown⟩ _ _)
        rw [← hgrown] at hblocks
        exact hgrown ▸ hcutting.heldBack hblocks
  | ended reader =>
    simp only [World.step]
    cases hreader : w.readers reader with
    | none => exact h
    | some is =>
      have hstands := h.readers reader is hreader
      cases is with
      | rebuilding p window => exact h
      | folded p =>
        obtain ⟨blocks, ahead, hblocks, haccounts⟩ := hstands
        have hgrown := haccounts.covers.past.1
        simp only []
        cases hlines : finishedLinesFrom w.journal p.coverage.bytes with
        | nil => exact h
        | cons line rest =>
          rw [hlines] at hgrown
          refine h.takes ?_ (haccounts.covers.takeWith ⟨[], (List.append_nil _).trans hgrown⟩ _ _)
          exact hcutting.ended ha' hreader (List.cons_ne_nil _ _) hblocks
  | left document => exact ⟨h.wrote, ha, h.readers⟩

variable {events : List (Event α)}

/-- a whole run -/
theorem kept_run (hcutting : Cutting Cut allowed) (h : Admits (step f) (fun w e => Allowed f w e ∧ allowed w e) {} events) :
    (events.foldl (step f) ({} : World α)).Kept f Cut :=
  h.invariant (fun _ _ hkept ha => hkept.step hcutting ha.1 ha.2) kept_start

theorem cutting_anywhere : Cutting (fun _ _ => True) fun (_ : World α) _ => True :=
  ⟨fun _ => trivial, fun _ _ _ => trivial, fun _ => trivial, fun _ _ _ _ _ _ => trivial, fun _ _ _ _ => trivial⟩

/-- a whole run, its lines cut anywhere -/
theorem kept_anywhere (h : Admits (step f) (Allowed f) {} events) : (events.foldl (step f) ({} : World α)).Kept f fun _ _ => True :=
  kept_run cutting_anywhere (h.mono fun _ _ ha => ⟨ha, trivial⟩)

end World

/-! ## What a whole read comes to -/

/-- the greatest `seq` of each stream of some records -/
structure Claims (claimed : String → Option ℕ) (records : List Envelope) : Prop where
  above : ∀ e ∈ records, ∃ reached, claimed e.stream = some reached ∧ e.seq ≤ reached
  attained : ∀ stream reached, claimed stream = some reached → ∃ e ∈ records, e.stream = stream ∧ e.seq = reached

section Readings

variable {first : ℕ} {losses : List (Option Lost)} {integrity : Integrity}

theorem coverageOf_streams (lines : List FinishedLine) : (coverageOf lines).streams = (recordsOf lines).foldl claim ∅ := by
  induction lines using List.reverseRecOn with
  | nil => rfl
  | append_singleton lines line ih =>
    rw [coverageOf_append, List.foldl_cons, List.foldl_nil, recordsOf_append, List.foldl_append, ← ih]
    obtain ⟨record, bytes, lost⟩ := line
    cases record <;> rfl

/-- the greater of two streams' claims is the claim of both lists of records -/
theorem Claims.max {a b : String → Option ℕ} {front back : List Envelope} (ha : Claims a front) (hb : Claims b back) :
    Claims (fun stream => Max.max (a stream) (b stream)) (front ++ back) := by
  constructor
  · intro e he
    rcases List.mem_append.mp he with he | he
    · obtain ⟨reached, hreached, hle⟩ := ha.above e he
      cases hother : b e.stream with
      | none => exact ⟨reached, by rw [hreached]; rfl, hle⟩
      | some other => exact ⟨Max.max reached other, by rw [hreached]; rfl, hle.trans (le_max_left _ _)⟩
    · obtain ⟨reached, hreached, hle⟩ := hb.above e he
      cases hother : a e.stream with
      | none => exact ⟨reached, by rw [hreached]; rfl, hle⟩
      | some other => exact ⟨Max.max other reached, by rw [hreached]; rfl, hle.trans (le_max_right _ _)⟩
  · intro stream reached hreached
    have hfront (h : a stream = some reached) : ∃ e ∈ front ++ back, e.stream = stream ∧ e.seq = reached := by
      obtain ⟨e, he, hof⟩ := ha.attained stream reached h
      exact ⟨e, List.mem_append_left _ he, hof⟩
    have hback (h : b stream = some reached) : ∃ e ∈ front ++ back, e.stream = stream ∧ e.seq = reached := by
      obtain ⟨e, he, hof⟩ := hb.attained stream reached h
      exact ⟨e, List.mem_append_right _ he, hof⟩
    cases hone : a stream with
    | none =>
      rw [hone] at hreached
      refine hback ?_
      cases hother : b stream with
      | none => rw [hother] at hreached; cases hreached
      | some other => rw [hother] at hreached; exact hreached
    | some one =>
      cases hother : b stream with
      | none =>
        rw [hone, hother] at hreached
        exact hfront (hone.trans hreached)
      | some other =>
        rw [hone, hother] at hreached
        have hmax : Max.max one other = reached := Option.some.inj hreached
        rcases le_total one other with hle | hle
        · exact hback (by rw [hother, ← hmax, max_eq_right hle])
        · exact hfront (by rw [hone, ← hmax, max_eq_left hle])

/-- one record more -/
theorem Claims.claim {claimed : StrMap ℕ} {records : List Envelope} (h : Claims (fun stream => claimed[stream]?) records)
    (e : Envelope) : Claims (fun stream => (Checkpoints.claim claimed e)[stream]?) (records ++ [e]) := by
  have hone : Claims (fun stream => if stream = e.stream then some e.seq else none) [e] := by
    constructor
    · intro read hread
      rw [List.mem_singleton.mp hread]
      exact ⟨e.seq, if_pos rfl, le_rfl⟩
    · intro stream reached hreached
      split_ifs at hreached with hstream
      exact ⟨e, List.mem_singleton_self e, hstream.symm, Option.some.inj hreached⟩
  have hget : (fun stream : String => (Checkpoints.claim claimed e)[stream]?) =
      fun stream => Max.max claimed[stream]? (if stream = e.stream then some e.seq else none) := by
    funext stream
    rw [Checkpoints.claim, Maps.get_insert]
    by_cases hstream : stream = e.stream
    · rw [if_pos hstream, if_pos hstream, hstream]
      cases claimed[e.stream]? with
      | none => exact congrArg some (Nat.zero_max e.seq)
      | some before => rfl
    · rw [if_neg hstream, if_neg hstream]
      cases claimed[stream]? with
      | none => rfl
      | some before => rfl
  rw [hget]
  exact h.max hone

theorem claims_foldl (records : List Envelope) : Claims (fun stream => (records.foldl claim ∅)[stream]?) records := by
  induction records using List.reverseRecOn with
  | nil => exact ⟨fun _ h => (List.not_mem_nil h).elim, fun stream reached h => by simp at h⟩
  | append_singleton records e ih =>
    rw [List.foldl_append]
    exact ih.claim e

/-- what two readings of a journal lost -/
def Integrity.both (integrity more : Integrity) : Integrity where
  truncated := integrity.truncated ++ more.truncated
  unparseable := integrity.unparseable ++ more.unparseable

theorem count_both (line : ℕ) (lost : Option Lost) : integrity.count line lost = integrity.both (Integrity.count {} line lost) := by
  obtain ⟨truncated, unparseable⟩ := integrity
  cases lost with
  | none => simp [Integrity.count, Integrity.both]
  | some lost =>
    obtain ⟨kind, offset, bytes⟩ := lost
    cases kind <;> simp [Integrity.count, Integrity.both]

theorem both_assoc (one two three : Integrity) : (one.both two).both three = one.both (two.both three) := by
  simp only [Integrity.both, List.append_assoc]

theorem countAll_cons (lost : Option Lost) : integrity.countAll first (lost :: losses) =
    (integrity.count (first + 1) lost).countAll (first + 1) losses := by
  rw [Integrity.countAll, List.zipIdx_cons]
  rfl

theorem countAll_both (integrity : Integrity) (first : ℕ) (losses : List (Option Lost)) :
    integrity.countAll first losses = integrity.both (Integrity.countAll {} first losses) := by
  induction losses generalizing integrity first with
  | nil =>
    obtain ⟨truncated, unparseable⟩ := integrity
    simp [Integrity.countAll, Integrity.both]
  | cons lost losses ih =>
    rw [countAll_cons, ih, count_both, both_assoc, countAll_cons, ← ih]

theorem countAll_append (more : List (Option Lost)) : integrity.countAll first (losses ++ more) =
    (integrity.countAll first losses).countAll (first + losses.length) more := by
  rw [Integrity.countAll, List.zipIdx_append, List.foldl_append, Nat.add_right_comm]
  rfl

/-- the losses a fold met, counted again -/
theorem foldl_lossesAfter (lines : List FinishedLine) : (lossesAfter first lines).foldl
    (fun (integrity : Integrity) lost => integrity.count lost.line (some ⟨lost.kind, lost.offset, lost.bytes⟩)) integrity =
      integrity.countAll first (lines.map FinishedLine.lost) := by
  induction lines generalizing integrity first with
  | nil => rfl
  | cons line lines ih =>
    rw [List.map_cons, countAll_cons, ← ih, lossesAfter, List.zipIdx_cons, List.filterMap_cons]
    cases hlost : line.lost with
    | none => rfl
    | some lost => rfl

end Readings

/-- a projection of a whole journal -/
structure Whole (f : Folding α) (journal : Journal) (p : Projected α) : Prop where
  /-- every finished line once, a block at a time, each block in the merge order -/
  blocks : ∃ blocks : List (List FinishedLine), blocks.flatten = journal.finished ∧
    p.state = RunState.fold f.host (merged blocks) ∧ p.tally.counts = (merged blocks).foldl f.take f.counted
  events : p.tally.events = (recordsOf journal.finished).length
  unreadable : p.tally.unreadable = journal.finished.countP fun line => line.record.isNone
  lost : p.integrity journal = lossesFrom journal 0 0
  bytes : p.readThrough = bytesOf journal.finished
  lines : p.linesThrough = journal.lines.length
  claims : Claims p.seqClaimed (recordsOf journal.finished)

theorem length_finishedAt (offset : ℕ) (written : List Line) : (finishedAt offset written).length = written.length := by
  induction written generalizing offset with
  | nil => rfl
  | cons line written ih => rw [finishedAt, List.length_cons, ih, List.length_cons]

theorem Accounts.whole {p : Projected α} {blocks : List (List FinishedLine)} {ahead : List FinishedLine}
    (h : Accounts f journal.finished p blocks ahead) (hall : blocks.flatten ++ ahead = journal.finished) : Whole f journal p := by
  have hflatten : (blocks ++ [ahead]).flatten = journal.finished := (flatten_concat blocks ahead).trans hall
  refine ⟨⟨blocks ++ [ahead], hflatten, h.state, congrArg Tally.counts h.tally⟩, ?_, ?_, ?_, ?_, ?_, ?_⟩
  · rw [h.tally, tallyOf, hflatten]
  · rw [h.tally, tallyOf, hflatten]
  · have hlosses : p.tally.losses = lossesAfter 0 journal.finished := by rw [h.tally, tallyOf, hflatten]
    have hpast : dropBytes p.readThrough journal.finished = [] := by
      have hdrop : dropBytes (bytesOf journal.finished) (journal.finished ++ []) = [] :=
        dropBytes_bytesOf (terminated_finishedAt 0 journal.lines)
      rw [h.readThrough, hall, ← hdrop, List.append_nil]
    have hstart : dropBytes 0 journal.finished = journal.finished := by
      cases journal.finished with
      | nil => rfl
      | cons line rest => exact if_pos rfl
    unfold Projected.integrity lossesFrom
    simp only [hpast, hstart, hlosses, foldl_lossesAfter, List.map_nil, List.nil_append, h.linesThrough, hall]
    rw [countAll_append, List.length_map, Nat.zero_add, countAll_both (Integrity.countAll {} 0 _)]
    rfl
  · rw [h.readThrough, hall]
  · rw [h.linesThrough, hall, Journal.finished, length_finishedAt]
  · have hcovered : Claims (fun stream => p.coverage.streams[stream]?) (recordsOf blocks.flatten) := by
      rw [h.covers.coverage, coverageOf_streams]
      exact claims_foldl _
    have hpast : Claims (fun stream => p.claimedPast[stream]?) (recordsOf ahead) := by
      rw [h.claimedPast]
      exact claims_foldl _
    rw [← hall, recordsOf_append]
    exact hcovered.max hpast

namespace World

variable {events : List (Event α)} {reader : ℕ} {p : Projected α} {w : World α}

/-- a reader refreshed has read its whole journal -/
theorem Kept.refreshed (h : w.Kept f Cut) (hreader : w.readers reader = some (.folded p)) :
    ∃ p' blocks grown, (w.step f (.refreshed reader)).readers reader = some (.folded p') ∧
      Cut blocks w.journal.finished ∧ blocks.flatten ++ grown = w.journal.finished ∧
      Accounts f w.journal.finished p' (blocks ++ [grown.take (extent grown .heldBack)]) (grown.drop (extent grown .heldBack)) := by
  obtain ⟨blocks, ahead, hblocks, haccounts⟩ := h.readers reader _ hreader
  have hgrown := haccounts.covers.past.1
  have hwithin : blocks.flatten ++ finishedLinesFrom w.journal p.coverage.bytes <+: w.journal.finished :=
    ⟨[], (List.append_nil _).trans hgrown⟩
  have htaken := haccounts.covers.takeWith hwithin .heldBack .yes
  refine ⟨_, blocks, _, ?_, hblocks, hgrown, htaken⟩
  simp only [World.step, hreader, if_neg haccounts.covers.bytes_le.not_gt]
  exact Function.update_self ..

theorem Kept.refreshed_whole (h : w.Kept f Cut) (hreader : w.readers reader = some (.folded p)) :
    ∃ p', (w.step f (.refreshed reader)).readers reader = some (.folded p') ∧ Whole f w.journal p' := by
  obtain ⟨p', blocks, grown, hp', -, hgrown, haccounts⟩ := h.refreshed hreader
  refine ⟨p', hp', haccounts.whole ?_⟩
  rw [flatten_concat, List.append_assoc, List.take_append_drop, hgrown]

/-- **Every line once.** Over every interleaving of the writers of a run's journal, of readers opening on its document, rebuilding it in
windows of any size, refreshing and writing it, and of what is done to the document from outside: a reader refreshed has folded every
finished line once, and what it counts, what it lost and what it starts a writer above are those of the whole file. -/
theorem lines_accounted (h : Admits (step f) (Allowed f) {} events)
    (hreader : (events.foldl (step f) {}).readers reader = some (.folded p)) :
    ∃ p', ((events ++ [Event.refreshed reader]).foldl (step f) {}).readers reader = some (.folded p') ∧
      Whole f (events.foldl (step f) {}).journal p' := by
  rw [List.foldl_append]
  exact (kept_anywhere h).refreshed_whole hreader

/-- a folding that counts nothing and seals no state -/
def plain : Folding Unit where
  run := "r"
  host := .lenient
  counted := ()
  take := fun _ _ => ()
  stateBytes := fun _ => some []
  tallyBytes := fun _ => some []

/-- a reader of an empty journal, two records of two streams and a blank line appended beside it -/
def grownBeside : List (Event Unit) :=
  [.opened 0 .yes 1, .windowed 0, .appended ⟨.whole (.stamped "10:00" "driver" 1), 40⟩, .appended ⟨.blank, 0⟩,
    .appended ⟨.whole (.stamped "10:01" "relay" 4), 40⟩]

theorem lines_accounted_grownBeside :
    ∃ p', ((grownBeside ++ [Event.refreshed 0]).foldl (step plain) {}).readers 0 = some (.folded p') ∧
      Whole plain (grownBeside.foldl (step plain) {}).journal p' :=
  lines_accounted (p := plain.empty .yes) ⟨Nat.one_pos, trivial, trivial, trivial, trivial, trivial⟩ rfl

end World

/-! ## Rebuilds, and documents of a whole journal -/

namespace World

variable {events : List (Event α)} {reader : ℕ} {p : Projected α} {w : World α} {window : ℕ}

/-- a window that holds a line moves the marker -/
theorem marker_lt {blocks : List (List FinishedLine)} {line : FinishedLine} (write : Persist)
    (h : Covers f w.journal.finished blocks p.coverage p.covered p.coveredTally)
    (hgrown : blocks.flatten ++ line :: grown <+: w.journal.finished) :
    p.coverage.bytes < (f.takeWith p (line :: grown) .covered write).1.coverage.bytes := by
  have htaken := (h.takeWith hgrown .covered write).covers.coverage
  obtain ⟨past, hpast⟩ := hgrown
  have hline : 0 < line.bytes := terminated_finishedAt 0 w.journal.lines line
    (by rw [← Journal.finished, ← hpast]; simp)
  rw [htaken, (coverageOf_counts _).1, h.coverage, (coverageOf_counts _).1, flatten_concat, extent_covered, List.take_length,
    bytesOf_append, bytesOf_cons]
  omega

theorem Kept.ends (h : w.Kept f fun _ _ => True) (hreader : w.readers reader = some (.rebuilding p window)) :
    ∃ turns p', ((List.replicate turns (Event.windowed reader)).foldl (World.step f) w).readers reader = some (.folded p') := by
  -- each turn either moves the marker or widens a window shorter than the journal
  induction hmeasure : (w.journal.length - p.coverage.bytes) + (w.journal.length - window) using Nat.strong_induction_on
    generalizing w p window with
  | _ n ih =>
    obtain ⟨hwindow, blocks, ahead, -, haccounts⟩ := h.readers reader _ hreader
    have hstep : w.step f (.windowed reader) = w.reads reader (w.rebuildOnce f p window) := by
      simp only [World.step, hreader]
    have hkept : (w.step f (.windowed reader)).Kept f fun _ _ => True := h.step cutting_anywhere trivial trivial
    have hread : (w.step f (.windowed reader)).readers reader = some (w.rebuildOnce f p window) := by
      rw [hstep]
      exact Function.update_self ..
    have hjournal : (w.step f (.windowed reader)).journal = w.journal := by
      rw [hstep]
      rfl
    by_cases hdone : w.journal.length - p.coverage.bytes ≤ window
    · refine ⟨1, p, hread.trans ?_⟩
      rw [World.rebuildOnce, if_pos hdone]
    · have hmore {p' : Projected α} {window' : ℕ} (hnext : w.rebuildOnce f p window = .rebuilding p' window')
          (hless : (w.journal.length - p'.coverage.bytes) + (w.journal.length - window') < n) :
          ∃ turns p', ((List.replicate turns (Event.windowed reader)).foldl (World.step f) w).readers reader = some (.folded p') := by
        obtain ⟨turns, p'', hended⟩ := ih _ hless hkept (hread.trans (congrArg some hnext)) (by rw [hjournal])
        exact ⟨turns + 1, p'', hended⟩
      cases hlines : finishedLinesWithin w.journal p.coverage.bytes window with
      | nil =>
        refine hmore (by rw [World.rebuildOnce, if_neg hdone, hlines]) ?_
        omega
      | cons line grown =>
        have hgrown := haccounts.covers.past.2 window
        rw [hlines] at hgrown
        have hmoved := marker_lt .no haccounts.covers hgrown
        refine hmore (by rw [World.rebuildOnce, if_neg hdone, hlines]) ?_
        omega

/-- **Rebuilds end.** Over the same runs, a rebuild whose journal stands still ends, whatever its window and wherever it is. -/
theorem rebuild_ends (h : Admits (step f) (Allowed f) {} events)
    (hreader : (events.foldl (step f) {}).readers reader = some (.rebuilding p window)) :
    ∃ turns p', ((events ++ List.replicate turns (Event.windowed reader)).foldl (step f) {}).readers reader = some (.folded p') := by
  obtain ⟨turns, p', hended⟩ := (kept_anywhere h).ends hreader
  exact ⟨turns, p', by rw [List.foldl_append]; exact hended⟩

/-- a reader that opens on a journal whose only line is wider than its window -/
def openedNarrow : List (Event Unit) := [.appended ⟨.whole (.stamped "10:00" "driver" 1), 40⟩, .opened 0 .no 1]

theorem rebuild_ends_openedNarrow :
    ∃ turns p', ((openedNarrow ++ List.replicate turns (Event.windowed 0)).foldl (step plain) {}).readers 0 = some (.folded p') :=
  rebuild_ends (p := plain.empty .no) ⟨trivial, Nat.one_pos, trivial⟩ rfl

/-- **Off the document.** Over the same runs, the state an ended run's reader takes without opening its journal, where the document covers
the bytes a current summary stamps, folds every finished line of the journal once. -/
theorem whole_off_document {count : ℕ} {state : RunState} (h : Admits (step f) (Allowed f) {} events)
    (hstate : (events.foldl (step f) {}).coveringWhole f (events.foldl (step f) {}).journal.length count = some state) :
    ∃ blocks : List (List FinishedLine), blocks.flatten = (events.foldl (step f) {}).journal.finished ∧
      state = RunState.fold f.host (merged blocks) := by
  have hkept := kept_anywhere h
  generalize events.foldl (step f) {} = w at hstate hkept
  obtain ⟨checkpoint, hcheckpoint, rfl⟩ := Option.map_eq_some_iff.mp hstate
  obtain ⟨hreadable, hcovering⟩ := Option.mem_filter_iff.mp hcheckpoint
  obtain ⟨hbytes, -, hsealed⟩ := of_decide_eq_true hcovering
  obtain ⟨blocks, -, hcovers⟩ := hkept.wrote checkpoint (hkept.document checkpoint hreadable hsealed)
  obtain ⟨past, hpast⟩ := hcovers.read
  refine ⟨blocks, ?_, hcovers.state⟩
  have hterminated : Terminated (blocks.flatten ++ past) := hpast ▸ terminated_finishedAt 0 w.journal.lines
  rw [hcovers.coverage, (coverageOf_counts _).1, Journal.length, ← hpast] at hbytes
  have hnone : past = [] := eq_of_bytesOf hterminated (by rw [bytesOf_append] at hbytes ⊢; omega)
  rw [← hpast, hnone, List.append_nil]

/-- a reader of a run proved ended, its final instant covered -/
def endedAlone : List (Event Unit) :=
  [.opened 0 .yes 1, .windowed 0, .appended ⟨.whole (.stamped "10:00" "driver" 1), 40⟩, .ended 0]

theorem whole_off_document_endedAlone :
    ∃ state, (endedAlone.foldl (step plain) {}).coveringWhole plain (endedAlone.foldl (step plain) {}).journal.length 1 = some state ∧
      ∃ blocks : List (List FinishedLine), blocks.flatten = (endedAlone.foldl (step plain) {}).journal.finished ∧
        state = RunState.fold .lenient (merged blocks) := by
  have hcovering : ((endedAlone.foldl (step plain) {}).coveringWhole plain
      (endedAlone.foldl (step plain) {}).journal.length 1).isSome = true := by decide +kernel
  obtain ⟨state, hstate⟩ := Option.isSome_iff_exists.mp hcovering
  exact ⟨state, hstate, whole_off_document ⟨Nat.one_pos, trivial, trivial, trivial, trivial⟩ hstate⟩

end World

end OnePipeline.Checkpoints
