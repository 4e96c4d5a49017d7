/-
A lifecycle node's attempts, over every sequence of endings and every pool refusal between them.

Results:
- `refusals_cost_nothing`: with pool refusals inserted before any attempts, the attempts made, what each was composed with, the decision
  put to the supervisor and the settlement before its stamps are those of the same attempts without the refusals;
- `attempts_chained`: over every run, the attempts are numbered from one, within the budget, each after the first on the branch the one before
  preserved, under the diagnosis of every failure before it, announced with the notes it is composed with, and none follows an attempt
  that left the branch where it stood already;
- `asked_once`: a run puts a decision to the supervisor once at most, of a spent budget whose last attempt ended in a conflict, with the
  count of the attempts handed one.
-/
import Mathlib.Data.List.DropRight
import Mathlib.Tactic
import OnePipeline.Core.Runs
import OnePipeline.Model.Attempts

namespace OnePipeline.Attempts

open Runs

variable {budget : ℕ} {launched : Node} {loop : Loop} {placed placed' : Placed} {s t : State}

/-! ## Refusals -/

/-- a pool refusal: what the refused attempt learnt, and what the dispatch that resumes it is placed and composed with -/
structure Refusal where
  learnt : Learnt
  placed : Placed
  notes : List RecordedNote

def Refusal.events (launched : Node) (refusal : Refusal) : List Event :=
  [.attempt refusal.learnt .exhausted false (.ok []), .admitted launched refusal.placed refusal.notes]

/-- an attempt made, after the refusals before it -/
structure Tried where
  refusals : List Refusal
  learnt : Learnt
  ending : Settlement ⊕ Preserved
  cancelled : Bool
  notes : Except String (List RecordedNote)

def Tried.attempt (tried : Tried) : Attempt := tried.ending.elim .settled .preserving

def Tried.events (launched : Node) (tried : Tried) : List Event :=
  tried.refusals.flatMap (Refusal.events launched) ++ [.attempt tried.learnt tried.attempt tried.cancelled tried.notes]

/-- what an attempt is composed with: what the record said as it was announced, or at the last of its resumes -/
def notesAfter (notes : List RecordedNote) (refusals : List Refusal) : List RecordedNote :=
  (refusals.getLast?.map Refusal.notes).getD notes

/-- the refusals before the first of some attempts -/
def refusalsBefore : List Tried → List Refusal
  | [] => []
  | tried :: _ => tried.refusals

/-- the same attempts, the identity admitting each at once, composed with the same notes -/
def unrefused : List Tried → List Tried
  | [] => []
  | tried :: rest =>
    { tried with refusals := [], notes := tried.notes.map fun notes => notesAfter notes (refusalsBefore rest) } :: unrefused rest

/-- the settlement of an execution, before what its attempts learnt is stamped on it -/
def State.unstamped (s : State) : Option Settlement :=
  match s.phase with
  | .settled settlement _ => some settlement
  | .attempting _ _ _ | .requeued _ => none

structure State.Alike (s t : State) : Prop where
  made : s.made = t.made
  conflicts : s.conflicts = t.conflicts
  unstamped : s.unstamped = t.unstamped

namespace Loop

def composed (loop : Loop) (notes : List RecordedNote) : Loop := if loop.lastPreserved.isSome then { loop with notes } else loop

def awaited (loop : Loop) (refusals : List Refusal) : Loop :=
  match refusals.getLast? with
  | some refusal => loop.composed refusal.notes
  | none => loop

/-- at its first attempt a loop has nothing behind it -/
def Resumable (budget : ℕ) (launched : Node) (loop : Loop) : Prop := loop.lastPreserved = none → loop = .start budget launched none

@[simp] theorem lastPreserved_composed (notes : List RecordedNote) : (loop.composed notes).lastPreserved = loop.lastPreserved := by
  unfold composed
  split_ifs <;> rfl

theorem composed_composed (notes notes' : List RecordedNote) : (loop.composed notes).composed notes' = loop.composed notes' := by
  by_cases hlast : loop.lastPreserved.isSome = true
  · simp only [composed, if_pos hlast]
  · simp only [composed, if_neg hlast]

theorem Resumable.composed (h : loop.Resumable budget launched) (notes : List RecordedNote) :
    (loop.composed notes).Resumable budget launched := by
  intro hlast
  rw [lastPreserved_composed] at hlast
  rw [Loop.composed, hlast]
  exact h hlast

theorem resumable_start (resume : Option Continuation) : (Loop.start budget launched resume).Resumable budget launched := by
  cases resume with
  | none => exact fun _ => rfl
  | some continuation => exact fun hlast => by cases hlast

/-- a refused loop resumed is the loop, composed again -/
theorem Resumable.start_continuation (h : loop.Resumable budget launched) (notes : List RecordedNote) :
    Loop.start budget launched (loop.continuation.map (Continuation.composed · notes)) = loop.composed notes := by
  cases hlast : loop.lastPreserved with
  | none =>
    rw [continuation, hlast, Loop.composed, hlast, h hlast]
    rfl
  | some preserved =>
    rw [continuation, hlast, Loop.composed, hlast]
    simp only [Option.map_some, Continuation.composed, Loop.start, Option.isSome_some, if_true]

theorem awaited_cons (refusal : Refusal) (rest : List Refusal) :
    (loop.composed refusal.notes).awaited rest = loop.awaited (refusal :: rest) := by
  unfold awaited
  rw [List.getLast?_cons]
  cases rest.getLast? with
  | none => rfl
  | some last => exact composed_composed _ _

theorem awaited_of_some (hlast : loop.lastPreserved.isSome = true) (refusals : List Refusal) :
    loop.awaited refusals = { loop with notes := notesAfter loop.notes refusals } := by
  unfold awaited notesAfter
  cases refusals.getLast? with
  | none => rfl
  | some last => exact if_pos hlast

/-- the notes the record holds decide nothing of what a failure comes to -/
theorem concluded_map {preserved : Preserved} {cancelled : Bool} (notes : Except String (List RecordedNote))
    (f : List RecordedNote → List RecordedNote) :
    loop.concluded budget preserved cancelled (notes.map f) = (loop.concluded budget preserved cancelled notes).map id f := by
  unfold concluded
  simp only []
  split
  · rfl
  · split_ifs
    · rfl
    · rfl
    · cases notes <;> rfl

end Loop

namespace State

/-- refusals leave the loop where it stood, composed again -/
theorem run_refusals (h : loop.Resumable budget launched) (refusals : List Refusal) (hphase : s.phase = .attempting launched loop placed) :
    ∃ placed', ((refusals.flatMap (Refusal.events launched)).foldl (step budget) s).phase =
        .attempting launched (loop.awaited refusals) placed' ∧
      ((refusals.flatMap (Refusal.events launched)).foldl (step budget) s).made = s.made ∧
      ((refusals.flatMap (Refusal.events launched)).foldl (step budget) s).conflicts = s.conflicts := by
  induction refusals generalizing s loop placed with
  | nil => exact ⟨placed, hphase, rfl, rfl⟩
  | cons refusal rest ih =>
    rw [List.flatMap_cons, List.foldl_append]
    have hstep : (Refusal.events launched refusal).foldl (step budget) s =
        { s with
          phase := .attempting launched (loop.composed refusal.notes) refusal.placed
          redispatched := s.redispatched ++
            ((loop.continuation.map (Continuation.composed · refusal.notes)).map Continuation.redispatch).toList } := by
      simp only [Refusal.events, List.foldl_cons, List.foldl_nil, step, hphase, h.start_continuation]
    rw [hstep]
    generalize hnext : ({ s with
      phase := .attempting launched (loop.composed refusal.notes) refusal.placed
      redispatched := s.redispatched ++
        ((loop.continuation.map (Continuation.composed · refusal.notes)).map Continuation.redispatch).toList } : State) = next
    obtain ⟨placed', hrest, hmade, hconflicts⟩ := ih (h.composed refusal.notes) (s := next) (by rw [← hnext])
    exact ⟨placed', by rw [hrest, Loop.awaited_cons], hmade.trans (by rw [← hnext]), hconflicts.trans (by rw [← hnext])⟩

theorem run_settled {settlement : Settlement} (hphase : s.phase = .settled settlement placed) (events : List Event) :
    events.foldl (step budget) s = s := by
  induction events with
  | nil => rfl
  | cons event events ih =>
    have hstep : step budget s event = s := by
      cases event <;> simp only [step, hphase]
    rw [List.foldl_cons, hstep, ih]

theorem Alike.of_settled (settlement : Settlement) (placed placed' : Placed) (hs : s.phase = .settled settlement placed) (ht : t.phase = .settled settlement placed')
    (hmade : s.made = t.made) (hconflicts : s.conflicts = t.conflicts) (events events' : List Event) :
    (events.foldl (step budget) s).Alike (events'.foldl (step budget) t) := by
  rw [run_settled hs, run_settled ht]
  refine ⟨hmade, hconflicts, ?_⟩
  simp only [State.unstamped, hs, ht]

/-- executions at one loop, but for the refusals before the attempts to come -/
theorem alike_run (tried : List Tried) (h : loop.Resumable budget launched) (hs : s.phase = .attempting launched loop placed)
    (ht : t.phase = .attempting launched (loop.awaited (refusalsBefore tried)) placed') (hmade : s.made = t.made)
    (hconflicts : s.conflicts = t.conflicts) :
    ((tried.flatMap (Tried.events launched)).foldl (step budget) s).Alike
      (((unrefused tried).flatMap (Tried.events launched)).foldl (step budget) t) := by
  induction tried generalizing s t loop placed placed' with
  | nil =>
    refine ⟨hmade, hconflicts, ?_⟩
    simp only [List.flatMap_nil, unrefused, List.foldl_nil, State.unstamped, hs, ht]
  | cons tried rest ih =>
    rw [List.flatMap_cons, Tried.events, List.foldl_append, List.foldl_append, List.foldl_cons, List.foldl_nil]
    rw [unrefused, List.flatMap_cons, Tried.events, List.flatMap_nil, List.nil_append, List.foldl_append, List.foldl_cons, List.foldl_nil]
    obtain ⟨placed₁, hphase, hmade₁, hconflicts₁⟩ := run_refusals h tried.refusals hs
    generalize (tried.refusals.flatMap (Refusal.events launched)).foldl (step budget) s = s₁ at hphase hmade₁ hconflicts₁ ⊢
    have hmade' : s₁.made = t.made := hmade₁.trans hmade
    have hconflicts' : s₁.conflicts = t.conflicts := hconflicts₁.trans hconflicts
    change t.phase = .attempting launched (loop.awaited tried.refusals) placed' at ht
    generalize loop.awaited tried.refusals = now at hphase ht
    cases hending : tried.ending with
    | inl settlement =>
      refine Alike.of_settled settlement (placed₁.learn tried.learnt) (placed'.learn tried.learnt) ?_ ?_ ?_ ?_ _ _
      all_goals simp only [Tried.attempt, hending, Sum.elim_inl, step, hphase, ht, hmade', hconflicts']
    | inr preserved =>
      have hsame : now.concluded budget (now.carryArm preserved) tried.cancelled
          (tried.notes.map fun notes => notesAfter notes (refusalsBefore rest)) =
            (now.concluded budget (now.carryArm preserved) tried.cancelled tried.notes).map id
              fun notes => notesAfter notes (refusalsBefore rest) := Loop.concluded_map _ _
      cases hconcluded : now.concluded budget (now.carryArm preserved) tried.cancelled tried.notes with
      | inl ended =>
        rw [hconcluded] at hsame
        refine Alike.of_settled ended.1 (placed₁.learn tried.learnt) (placed'.learn tried.learnt) ?_ ?_ ?_ ?_ _ _
        all_goals
          simp only [Tried.attempt, hending, Sum.elim_inr, step, hphase, ht, State.preserving, hconcluded, hsame, Sum.map_inl, id, hmade',
            hconflicts']
      | inr notes =>
        rw [hconcluded] at hsame
        have hnext : (step budget s₁ (.attempt tried.learnt tried.attempt tried.cancelled tried.notes)).phase =
            .attempting launched ((now.read (now.carryArm preserved)).next launched (now.carryArm preserved) notes)
              (placed₁.learn tried.learnt) := by
          simp only [Tried.attempt, hending, Sum.elim_inr, step, hphase, State.preserving, hconcluded]
        have hawaited : (step budget t (.attempt tried.learnt (Sum.elim Attempt.settled Attempt.preserving (Sum.inr preserved))
            tried.cancelled (tried.notes.map fun notes => notesAfter notes (refusalsBefore rest)))).phase =
              .attempting launched (((now.read (now.carryArm preserved)).next launched (now.carryArm preserved) notes).awaited
                (refusalsBefore rest)) (placed'.learn tried.learnt) := by
          rw [Loop.awaited_of_some rfl]
          simp only [Sum.elim_inr, step, ht, State.preserving, hsame, Sum.map_inr]
          rfl
        refine ih (fun hlast => by cases hlast) hnext hawaited ?_ ?_
        · simp only [Tried.attempt, hending, Sum.elim_inr, step, hphase, ht, State.preserving, hconcluded, hsame, Sum.map_inr, hmade']
        · simp only [Tried.attempt, hending, Sum.elim_inr, step, hphase, ht, State.preserving, hconcluded, hsame, Sum.map_inr, hconflicts']

end State

/-! ## What the failures of a run come to -/

/-- the commit the branch was left at by the last failure that moved it or lost it -/
def leftAt (failures : List Preserved) : Option String :=
  (failures.rdropWhile fun preserved => decide (preserved.tip = .unmoved)).getLast?.bind fun preserved =>
    match preserved.tip with
    | .at commit => some commit
    | .unmoved | .unknown => none

/-- an ending the host's checks were read for: the push that opened them landed -/
def Preserving.landed : Preserving → Bool
  | .checksFailed | .checksUnsettled => true
  | .pushRejected | .syncConflict => false

/-- the failures through the last whose push landed -/
def landed (failures : List Preserved) : List Preserved := failures.rdropWhile fun preserved => !preserved.outcome.landed

/-- where the remote holds the branch: where it was left by the last push that landed -/
def heldAt (failures : List Preserved) : OnRemote :=
  if landed failures = [] then .never else (leftAt (landed failures)).elim .unknown .at

/-- the latest armed sentence, under its attempt's number -/
def latestArm (failures : List Preserved) : Option String :=
  failures.zipIdx.reverse.findSome? fun p => p.1.armed.map fun sentence => s!"Attempt {p.2 + 1}: {sentence}"

/-- the dispatches handed a merge, and the last merge handed -/
def handedOver (failures : List Preserved) : Conflicted where
  dispatches := failures.countP fun preserved => preserved.handed.isSome
  last := (failures.filterMap Preserved.handed).getLast?

/-- the node an attempt is dispatched as, some failures behind it -/
def nodeAfter (budget : ℕ) (launched : Node) (failures : List Preserved) : Node :=
  match failures.getLast? with
  | none => launched
  | some last => continued launched last (heldAt failures) (failures.length + 1) budget (failures.map Preserved.outcome)

/-- a failure another attempt may follow: it concluded no merge it was handed, or did not leave the branch at the commit it stood at -/
def Repairable (failures : List Preserved) (preserved : Preserved) : Prop :=
  preserved.unconcluded = true ∨ ∀ commit, leftAt failures = some commit → leftAt (failures ++ [preserved]) ≠ some commit

/-- an attempt as its failures before it leave it -/
structure Composed (budget : ℕ) (launched : Node) (redispatched : List Redispatch) (failures : List Preserved) (asked : Asked) : Prop where
  attempt : asked.attempt = failures.length + 1
  within : failures.length < budget
  node : asked.node = nodeAfter budget launched failures
  repairable : Grown Repairable failures
  /-- announced, with the notes it is composed with -/
  announced : ∀ last ∈ failures.getLast?, (⟨launched.id, failures.length + 1, budget, redispatchReason last, asked.notes⟩ : Redispatch) ∈
    redispatched

/-- an attempt that follows from those made before it -/
def Chained (budget : ℕ) (launched : Node) (redispatched : List Redispatch) (before : List (Asked × Option Preserved))
    (made : Asked × Option Preserved) : Prop :=
  ∃ failures, before.map Prod.snd = failures.map some ∧ Composed budget launched redispatched failures made.1 ∧
    ∀ preserved ∈ made.2, preserved.armed = none → preserved.armedBefore = latestArm failures

section Readings

variable {failures : List Preserved} {preserved : Preserved}

theorem leftAt_concat : leftAt (failures ++ [preserved]) = standing (leftAt failures) preserved.tip := by
  unfold leftAt
  cases htip : preserved.tip with
  | unmoved => rw [List.rdropWhile_concat_pos _ _ _ (by simp [htip]), standing]
  | «at» commit =>
    rw [List.rdropWhile_concat_neg _ _ _ (by simp [htip]), List.getLast?_concat, Option.bind_some, htip, standing]
  | unknown =>
    rw [List.rdropWhile_concat_neg _ _ _ (by simp [htip]), List.getLast?_concat, Option.bind_some, htip, standing]

theorem landed_concat : landed (failures ++ [preserved]) = if preserved.outcome.landed then failures ++ [preserved] else landed failures := by
  unfold landed
  rw [List.rdropWhile_concat]
  cases preserved.outcome.landed <;> rfl

theorem heldAt_concat :
    heldAt (failures ++ [preserved]) = (heldAt failures).after preserved.outcome (leftAt (failures ++ [preserved])) := by
  unfold heldAt
  rw [landed_concat]
  cases preserved.outcome with
  | checksFailed | checksUnsettled =>
    simp only [Preserving.landed, if_true, List.append_eq_nil_iff, List.cons_ne_self, and_false, if_false]
    cases leftAt (failures ++ [preserved]) <;> rfl
  | pushRejected | syncConflict => rfl

theorem latestArm_concat :
    latestArm (failures ++ [preserved]) =
      (preserved.armed.map fun sentence => s!"Attempt {failures.length + 1}: {sentence}").or (latestArm failures) := by
  unfold latestArm
  rw [List.zipIdx_append, List.reverse_append, List.zipIdx_singleton, List.reverse_singleton, List.singleton_append, List.findSome?_cons,
    Nat.zero_add]
  cases preserved.armed <;> rfl

theorem handedOver_concat : handedOver (failures ++ [preserved]) = (handedOver failures).read preserved := by
  unfold handedOver Conflicted.read
  rw [List.countP_append, List.countP_singleton, List.filterMap_append]
  cases hhanded : preserved.handed with
  | none => simp [hhanded]
  | some paths => simp [hhanded]

theorem nodeAfter_concat :
    nodeAfter budget launched (failures ++ [preserved]) = continued launched preserved (heldAt (failures ++ [preserved]))
      (failures.length + 1 + 1) budget (failures.map Preserved.outcome ++ [preserved.outcome]) := by
  rw [nodeAfter, List.getLast?_concat]
  simp only [List.length_append, List.length_singleton, List.map_append, List.map_singleton]

theorem nodeAfter_id : (nodeAfter budget launched failures).id = launched.id := by
  unfold nodeAfter
  cases failures.getLast? <;> rfl

/-- an attempt is made again only of a failure that is repairable -/
theorem repairable_of_republished
    (h : (republished (leftAt failures) preserved.tip).filter (fun _ => !preserved.unconcluded) = none) : Repairable failures preserved := by
  by_cases hunconcluded : preserved.unconcluded = true
  · exact Or.inl hunconcluded
  · refine Or.inr fun commit hleft hsame => ?_
    rw [leftAt_concat, hleft] at hsame
    rw [hleft] at h
    have hkept : republished (some commit) preserved.tip = some commit := by
      cases htip : preserved.tip with
      | «at» tip =>
        rw [htip, standing] at hsame
        exact if_pos (Option.some.inj hsame)
      | unmoved => rfl
      | unknown =>
        rw [htip, standing] at hsame
        cases hsame
    rw [hkept, Option.filter_some, if_pos (by simp [hunconcluded])] at h
    cases h

end Readings

namespace Loop

/-- a loop with these failures behind it -/
structure Follows (budget : ℕ) (launched : Node) (redispatched : List Redispatch) (failures : List Preserved) (loop : Loop) : Prop where
  attempts : loop.attempts = budget
  composed : Composed budget launched redispatched failures loop.asked
  endings : loop.endings = failures.map Preserved.outcome
  published : loop.published = leftAt failures
  onRemote : loop.onRemote = heldAt failures
  last : loop.lastPreserved = failures.getLast?
  arms : ∀ last ∈ failures.getLast?,
    (last.armed.map fun sentence => s!"Attempt {failures.length}: {sentence}").or last.armedBefore = latestArm failures
  conflicted : loop.conflicted = handedOver failures

namespace Follows

variable {redispatched redispatched' : List Redispatch} {failures : List Preserved} {preserved : Preserved} {notes : List RecordedNote}

theorem start (hbudget : 0 < budget) : (Loop.start budget launched none).Follows budget launched redispatched [] where
  attempts := rfl
  composed := ⟨rfl, hbudget, rfl, .nil, fun _ hlast => by cases hlast⟩
  endings := rfl
  published := rfl
  onRemote := rfl
  last := rfl
  arms := fun _ hlast => by cases hlast
  conflicted := rfl

theorem mono (h : loop.Follows budget launched redispatched failures) (hle : redispatched ⊆ redispatched') :
    loop.Follows budget launched redispatched' failures :=
  { h with composed := { h.composed with announced := fun last hlast => hle (h.composed.announced last hlast) } }

/-- an attempt's failure, the arms before it carried -/
theorem armedBefore (h : loop.Follows budget launched redispatched failures) (harmed : (loop.carryArm preserved).armed = none) :
    (loop.carryArm preserved).armedBefore = latestArm failures := by
  have hunarmed : preserved.armed = none := by
    unfold carryArm at harmed
    split_ifs at harmed
    · exact harmed
    · exact harmed
  unfold carryArm
  rw [hunarmed, if_neg (by simp), h.last]
  cases hlast : failures.getLast? with
  | none =>
    rw [List.getLast?_eq_none_iff.mp hlast]
    rfl
  | some last =>
    have harms := h.arms last hlast
    have hattempt : loop.attempt = failures.length + 1 := h.composed.attempt
    simp only [Option.bind_some, hattempt, Nat.add_sub_cancel, harms]

/-- the arms a carried failure leaves for the next -/
theorem arms_concat (h : loop.Follows budget launched redispatched failures) (preserved : Preserved) :
    ((loop.carryArm preserved).armed.map fun sentence => s!"Attempt {failures.length + 1}: {sentence}").or
        (loop.carryArm preserved).armedBefore = latestArm (failures ++ [loop.carryArm preserved]) := by
  rw [latestArm_concat]
  cases harmed : (loop.carryArm preserved).armed with
  | none => rw [h.armedBefore harmed]
  | some sentence => rfl

theorem read_conflicted (h : loop.Follows budget launched redispatched failures) (preserved : Preserved) :
    (loop.read preserved).conflicted = handedOver (failures ++ [preserved]) := by
  rw [handedOver_concat, ← h.conflicted]
  rfl

theorem read_published (h : loop.Follows budget launched redispatched failures) (preserved : Preserved) :
    (loop.read preserved).published = leftAt (failures ++ [preserved]) := by
  rw [leftAt_concat, ← h.published]
  rfl

theorem read_onRemote (h : loop.Follows budget launched redispatched failures) (preserved : Preserved) :
    (loop.read preserved).onRemote = heldAt (failures ++ [preserved]) := by
  rw [heldAt_concat, ← h.read_published, ← h.onRemote]
  rfl

/-- what another attempt was announced after -/
theorem of_concluded (h : loop.Follows budget launched redispatched failures) {cancelled : Bool}
    {recorded : Except String (List RecordedNote)} (hconcluded : loop.concluded budget preserved cancelled recorded = .inr notes) :
    Repairable failures preserved ∧ failures.length + 1 < budget := by
  unfold concluded at hconcluded
  simp only [] at hconcluded
  split at hconcluded
  · cases hconcluded
  next hrepublished =>
    rw [h.published] at hrepublished
    refine ⟨repairable_of_republished hrepublished, ?_⟩
    split_ifs at hconcluded with hspent
    have hattempt : loop.attempt = failures.length + 1 := h.composed.attempt
    have hattempts := h.attempts
    omega

theorem next (h : loop.Follows budget launched redispatched failures) {cancelled : Bool} {recorded : Except String (List RecordedNote)}
    (hconcluded : loop.concluded budget (loop.carryArm preserved) cancelled recorded = .inr notes) :
    ((loop.read (loop.carryArm preserved)).next launched (loop.carryArm preserved) notes).Follows budget launched
      (redispatched ++ [loop.redispatch (loop.carryArm preserved) notes]) (failures ++ [loop.carryArm preserved]) := by
  have harms := h.arms_concat preserved
  have hreadConflicted := h.read_conflicted (loop.carryArm preserved)
  have hreadPublished := h.read_published (loop.carryArm preserved)
  have hreadOnRemote := h.read_onRemote (loop.carryArm preserved)
  generalize loop.carryArm preserved = preserved at hconcluded harms hreadConflicted hreadPublished hreadOnRemote ⊢
  obtain ⟨hrepairable, hwithin⟩ := h.of_concluded hconcluded
  have hattempt : loop.attempt = failures.length + 1 := h.composed.attempt
  have hlength : (failures ++ [preserved]).length = failures.length + 1 := by rw [List.length_append, List.length_singleton]
  have hendings : (loop.read preserved).endings = failures.map Preserved.outcome ++ [preserved.outcome] :=
    congrArg (· ++ [preserved.outcome]) h.endings
  refine ⟨h.attempts, ⟨?_, hlength ▸ hwithin, ?_, h.composed.repairable.concat hrepairable, ?_⟩, ?_, hreadPublished, hreadOnRemote, ?_, ?_,
    hreadConflicted⟩
  · rw [hlength]
    exact congrArg (· + 1) hattempt
  · rw [nodeAfter_concat, ← hreadOnRemote, ← hendings]
    show continued launched preserved _ (loop.attempt + 1) loop.attempts _ = _
    rw [hattempt, h.attempts]
  · intro last hlast
    rw [List.getLast?_concat] at hlast
    obtain rfl : preserved = last := Option.some.inj hlast
    rw [hlength]
    refine List.mem_append_right _ (List.mem_singleton.mpr ?_)
    have hid : loop.node.id = launched.id := (congrArg Node.id h.composed.node).trans nodeAfter_id
    simp only [redispatch, hid, hattempt, h.attempts]
    rfl
  · rw [List.map_append]
    exact hendings
  · rw [List.getLast?_concat]
    rfl
  · intro last hlast
    rw [List.getLast?_concat] at hlast
    obtain rfl : preserved = last := Option.some.inj hlast
    rw [hlength]
    exact harms

/-- a refused loop, resumed and announced again -/
theorem resumed (h : loop.Follows budget launched redispatched failures) (hbudget : 0 < budget) (notes : List RecordedNote) :
    (Loop.start budget launched (loop.continuation.map (Continuation.composed · notes))).Follows budget launched
      (redispatched ++ ((loop.continuation.map (Continuation.composed · notes)).map Continuation.redispatch).toList) failures := by
  cases hlast : failures.getLast? with
  | none =>
    obtain rfl : failures = [] := List.getLast?_eq_none_iff.mp hlast
    have hnone : loop.lastPreserved = none := h.last.trans hlast
    rw [continuation, hnone]
    exact start hbudget
  | some last =>
    have hsome : loop.lastPreserved = some last := h.last.trans hlast
    rw [continuation, hsome]
    simp only [Option.map_some, Continuation.composed, Loop.start]
    refine ⟨h.attempts, ⟨h.composed.attempt, h.composed.within, h.composed.node, h.composed.repairable, ?_⟩, h.endings, h.published,
      h.onRemote, hlast.symm, h.arms, h.conflicted⟩
    intro last' hlast'
    obtain rfl : last = last' := Option.some.inj (hlast.symm.trans hlast')
    refine List.mem_append_right _ (List.mem_singleton.mpr ?_)
    have hid : loop.node.id = launched.id := (congrArg Node.id h.composed.node).trans nodeAfter_id
    have hattempt : loop.attempt = failures.length + 1 := h.composed.attempt
    simp only [Continuation.redispatch, hid, hattempt, h.attempts]
    rfl

end Follows

end Loop

/-! ## The decision put to the supervisor -/

/-- a budget spent, its last attempt ended in a conflict its branch's dispatches were handed -/
structure Due (budget : ℕ) (launched : Node) (failures : List Preserved) (last : Preserved) : Prop where
  spent : failures.length + 1 = budget
  conflict : last.outcome = .syncConflict
  handed : (failures ++ [last]).filterMap Preserved.handed ≠ []
  named : Text.trim launched.id ≠ ""
  repairable : Repairable failures last

/-- the decision, over the conflict handed last -/
def decision (launched : Node) (failures : List Preserved) (last : Preserved) (paths : List String) : SessionConflict where
  node := Text.trim launched.id
  dispatched := (failures ++ [last]).countP fun preserved => preserved.handed.isSome
  branch := last.branch
  paths
  because := last.reason

section Decisions

variable {failures : List Preserved} {preserved last : Preserved}

theorem republished_of_repairable (h : Repairable failures preserved) :
    (republished (leftAt failures) preserved.tip).filter (fun _ => !preserved.unconcluded) = none := by
  rcases h with hunconcluded | hmoved
  · rw [hunconcluded, Bool.not_true, Option.filter_eq_none_iff]
    exact fun _ _ hfalse => Bool.noConfusion hfalse
  · cases hleft : leftAt failures with
    | none => rfl
    | some commit =>
      have hne := hmoved commit hleft
      rw [leftAt_concat, hleft] at hne
      have hnone : republished (some commit) preserved.tip = none := by
        cases htip : preserved.tip with
        | «at» tip =>
          rw [htip, standing] at hne
          exact if_neg fun hsame => hne (congrArg some hsame)
        | unmoved =>
          rw [htip] at hne
          exact absurd rfl hne
        | unknown => rfl
      rw [hnone]
      rfl

/-- a decision is put about a conflict handed, by name -/
theorem unconverged_handedOver {node : Node} (hid : node.id = launched.id) {conflict : SessionConflict} :
    (handedOver (failures ++ [last])).unconverged node last = some conflict ↔
      last.outcome = .syncConflict ∧ Text.trim launched.id ≠ "" ∧
        ∃ paths, ((failures ++ [last]).filterMap Preserved.handed).getLast? = some paths ∧ conflict = decision launched failures last paths := by
  unfold Conflicted.unconverged
  by_cases houtcome : last.outcome = .syncConflict
  · rw [if_neg (not_not_intro houtcome)]
    simp only [handedOver, houtcome, true_and, Option.bind_eq_bind]
    cases ((failures ++ [last]).filterMap Preserved.handed).getLast? with
    | none => simp
    | some paths =>
      rw [← hid]
      by_cases hnamed : Text.trim node.id = ""
      · have href : NodeRef.of node = none := dif_neg (not_not_intro hnamed)
        simp [href, hnamed]
      · have href : NodeRef.of node = some ⟨Text.trim node.id, hnamed⟩ := dif_pos hnamed
        simp only [href, Option.bind_some, Option.some.injEq, ne_eq, hnamed, not_false_eq_true, true_and, exists_eq_left', decision, ← hid]
        exact eq_comm
  · rw [if_pos houtcome]
    simp [houtcome]

end Decisions

namespace Loop

variable {redispatched : List Redispatch} {failures : List Preserved} {preserved : Preserved} {cancelled : Bool}
  {recorded : Except String (List RecordedNote)} {settlement : Settlement} {conflict : Option SessionConflict}

/-- a failure that settles its node: the decision put about it, where one is -/
theorem Follows.of_settled (h : loop.Follows budget launched redispatched failures)
    (hconcluded : loop.concluded budget preserved cancelled recorded = .inl (settlement, conflict)) :
    (∀ decided ∈ conflict, Due budget launched failures preserved ∧
        (∃ paths, ((failures ++ [preserved]).filterMap Preserved.handed).getLast? = some paths ∧
          decided = decision launched failures preserved paths) ∧
        settlement = stoppedRetrying launched.id preserved ((failures ++ [preserved]).map Preserved.outcome)) ∧
      (cancelled = false → Due budget launched failures preserved → conflict ≠ none) := by
  have hid : loop.node.id = launched.id := (congrArg Node.id h.composed.node).trans nodeAfter_id
  have hattempt : loop.attempt = failures.length + 1 := h.composed.attempt
  have hendings : (loop.read preserved).endings = (failures ++ [preserved]).map Preserved.outcome := by
    rw [List.map_append, ← h.endings]
    rfl
  unfold concluded at hconcluded
  simp only [h.published, h.read_conflicted, hendings, hid] at hconcluded
  cases hsame : (republished (leftAt failures) preserved.tip).filter fun _ => !preserved.unconcluded with
  | some same =>
    rw [hsame] at hconcluded
    cases hconcluded
    refine ⟨fun decided hdecided => (Option.not_mem_none _ hdecided).elim, fun _ hdue => ?_⟩
    rw [republished_of_repairable hdue.repairable] at hsame
    cases hsame
  | none =>
    have hrepairable := repairable_of_republished hsame
    rw [hsame] at hconcluded
    simp only [] at hconcluded
    by_cases hspent : loop.attempts ≤ loop.attempt ∨ cancelled = true
    · rw [if_pos hspent] at hconcluded
      obtain ⟨rfl, rfl⟩ := Prod.mk.inj (Sum.inl.inj hconcluded)
      refine ⟨fun decided hdecided => ?_, fun hquiet hdue => ?_⟩
      · cases hcancelled : cancelled with
        | true =>
          rw [hcancelled, if_pos rfl] at hdecided
          exact (Option.not_mem_none _ hdecided).elim
        | false =>
          rw [hcancelled, if_neg Bool.false_ne_true] at hdecided
          obtain ⟨houtcome, hnamed, paths, hpaths, hdecision⟩ := (unconverged_handedOver hid).mp hdecided
          have hlast : loop.attempts ≤ loop.attempt := hspent.resolve_right (by rw [hcancelled]; exact Bool.false_ne_true)
          have hwithin := h.composed.within
          have hattempts := h.attempts
          refine ⟨⟨by omega, houtcome, fun hnil => ?_, hnamed, hrepairable⟩, ⟨paths, hpaths, hdecision⟩, rfl⟩
          rw [hnil] at hpaths
          cases hpaths
      · rw [hquiet, if_neg Bool.false_ne_true]
        intro hnone
        obtain ⟨paths, hpaths⟩ := Option.ne_none_iff_exists'.mp fun hlast => hdue.handed (List.getLast?_eq_none_iff.mp hlast)
        have hput := (unconverged_handedOver hid).mpr ⟨hdue.conflict, hdue.named, paths, hpaths, rfl⟩
        rw [hnone] at hput
        cases hput
    · rw [if_neg hspent] at hconcluded
      cases recorded with
      | ok notes => cases hconcluded
      | error why =>
        cases hconcluded
        refine ⟨fun decided hdecided => (Option.not_mem_none _ hdecided).elim, fun _ hdue => ?_⟩
        have hattempts := h.attempts
        have hdueSpent := hdue.spent
        exact absurd (Or.inl (by omega)) hspent

end Loop

/-! ## Runs -/

/-- an attempt made while the run was being cancelled -/
def Event.cancelled : Event → Bool
  | .attempt _ _ cancelled _ => cancelled
  | .admitted _ _ _ => false

/-- the dispatch that resumes a refused attempt launches the node as it was launched -/
def Relaunched (launched : Node) (_ : State) : Event → Prop
  | .attempt _ _ _ _ => True
  | .admitted node _ _ => node = launched

namespace State

/-- a loop with the failures of the attempts made behind it, no decision put -/
structure Behind (budget : ℕ) (launched : Node) (s : State) (loop : Loop) (failures : List Preserved) : Prop where
  made : s.made.map Prod.snd = failures.map some
  follows : loop.Follows budget launched s.redispatched failures
  conflicts : s.conflicts = []

/-- the decision an execution put, where it put one -/
structure Decided (budget : ℕ) (launched : Node) (s : State) (settlement : Settlement) (conflict : SessionConflict) (failures : List Preserved)
    (last : Preserved) : Prop where
  once : s.conflicts = [conflict]
  made : s.made.map Prod.snd = (failures ++ [last]).map some
  due : Due budget launched failures last
  decision : ∃ paths, ((failures ++ [last]).filterMap Preserved.handed).getLast? = some paths ∧ conflict = decision launched failures last paths
  settled : settlement = stoppedRetrying launched.id last ((failures ++ [last]).map Preserved.outcome)

/-- what a phase says of the attempts made; `quiet` where the run was never being cancelled -/
def Stands (quiet : Prop) (budget : ℕ) (launched : Node) (s : State) : Phase → Prop
  | .attempting node loop _ => node = launched ∧ ∃ failures, s.Behind budget launched loop failures
  | .requeued resume => ∃ loop failures, resume = loop.continuation ∧ s.Behind budget launched loop failures
  | .settled settlement _ =>
    (∀ conflict ∈ s.conflicts, ∃ failures last, s.Decided budget launched settlement conflict failures last) ∧
      (quiet → ∀ failures last, s.made.map Prod.snd = (failures ++ [last]).map some → Due budget launched failures last → s.conflicts ≠ [])

structure Kept (quiet : Prop) (budget : ℕ) (launched : Node) (s : State) : Prop where
  chained : Grown (Chained budget launched s.redispatched) s.made
  stands : s.Stands quiet budget launched s.phase

variable {quiet : Prop}

theorem kept_start (hbudget : 0 < budget) : (start budget launched placed none).Kept quiet budget launched where
  chained := .nil
  stands := ⟨rfl, [], rfl, .start hbudget, rfl⟩

theorem Behind.chained {failures : List Preserved} {made : Asked × Option Preserved} (h : s.Behind budget launched loop failures)
    (hasked : made.1 = loop.asked) (harms : ∀ preserved ∈ made.2, preserved.armed = none → preserved.armedBefore = latestArm failures) :
    Chained budget launched s.redispatched s.made made :=
  ⟨failures, h.made, hasked ▸ h.follows.composed, harms⟩

/-- an attempt to come is within the budget -/
theorem Behind.not_due {failures before : List Preserved} {last : Preserved} (h : s.Behind budget launched loop failures)
    (hmade : s.made.map Prod.snd = (before ++ [last]).map some) : ¬ Due budget launched before last := by
  intro hdue
  have hsame : failures = before ++ [last] := List.map_injective_iff.mpr (Option.some_injective _) (h.made.symm.trans hmade)
  have hwithin := h.follows.composed.within
  rw [hsame, List.length_append, List.length_singleton, hdue.spent] at hwithin
  exact lt_irrefl _ hwithin

theorem Chained.mono {redispatched redispatched' : List Redispatch} (hle : redispatched ⊆ redispatched')
    (before : List (Asked × Option Preserved)) (made : Asked × Option Preserved) (h : Chained budget launched redispatched before made) :
    Chained budget launched redispatched' before made := by
  obtain ⟨failures, hbefore, hcomposed, harms⟩ := h
  exact ⟨failures, hbefore, { hcomposed with announced := fun last hlast => hle (hcomposed.announced last hlast) }, harms⟩

/-- one attempt that failed -/
theorem Kept.preserving {failures : List Preserved} {preserved : Preserved} {cancelled : Bool} {notes : Except String (List RecordedNote)}
    (h : s.Kept quiet budget launched) (hbehind : s.Behind budget launched loop failures) (hquiet : quiet → cancelled = false) :
    (s.preserving budget launched loop placed preserved cancelled notes).Kept quiet budget launched := by
  have hmade : (s.made ++ [(loop.asked, some (loop.carryArm preserved))]).map Prod.snd = (failures ++ [loop.carryArm preserved]).map some := by
    rw [List.map_append, hbehind.made, List.map_append, List.map_singleton, List.map_singleton]
  have hentry : Chained budget launched s.redispatched s.made (loop.asked, some (loop.carryArm preserved)) := by
    refine hbehind.chained rfl fun carried hcarried harmed => ?_
    obtain rfl : loop.carryArm preserved = carried := Option.some.inj hcarried
    exact hbehind.follows.armedBefore harmed
  unfold State.preserving
  simp only []
  cases hconcluded : loop.concluded budget (loop.carryArm preserved) cancelled notes with
  | inl ended =>
    obtain ⟨settlement, conflict⟩ := ended
    obtain ⟨hput, hdue⟩ := hbehind.follows.of_settled hconcluded
    refine ⟨h.chained.concat hentry, ⟨fun decided hdecided => ?_, fun hrun failures' last' hmade' hdue' => ?_⟩⟩
    · simp only [hbehind.conflicts, List.nil_append, Option.mem_toList] at hdecided
      obtain ⟨hdueHere, hdecision, hsettled⟩ := hput decided hdecided
      refine ⟨failures, loop.carryArm preserved, ?_, hmade, hdueHere, hdecision, hsettled⟩
      rw [Option.mem_def.mp hdecided, hbehind.conflicts]
      rfl
    · obtain ⟨rfl, hlast⟩ := List.append_inj' (List.map_injective_iff.mpr (Option.some_injective _) (hmade.symm.trans hmade')) rfl
      obtain rfl : loop.carryArm preserved = last' := List.singleton_inj.mp hlast
      obtain ⟨decided, rfl⟩ := Option.ne_none_iff_exists'.mp (hdue (hquiet hrun) hdue')
      exact List.append_ne_nil_of_right_ne_nil _ (List.cons_ne_nil decided [])
  | inr notes' =>
    refine ⟨(h.chained.concat hentry).mono (Chained.mono (List.subset_append_left _ _)), rfl, _, hmade, hbehind.follows.next hconcluded,
      hbehind.conflicts⟩

/-- one event -/
theorem Kept.step (hbudget : 0 < budget) {e : Event} (h : s.Kept quiet budget launched)
    (ha : Relaunched launched s e ∧ (quiet → e.cancelled = false)) : (s.step budget e).Kept quiet budget launched := by
  have hstands := h.stands
  cases hphase : s.phase with
  | attempting node loop placed =>
    rw [hphase] at hstands
    obtain ⟨rfl, failures, hbehind⟩ := hstands
    cases e with
    | admitted launched' placed' notes =>
      simp only [State.step, hphase]
      exact h
    | attempt learnt ending cancelled notes =>
      cases ending with
      | settled settlement =>
        simp only [State.step, hphase]
        refine ⟨h.chained.concat (hbehind.chained rfl fun _ hnone => (Option.not_mem_none _ hnone).elim), ?_, ?_⟩
        · intro conflict hconflict
          simp only [hbehind.conflicts] at hconflict
          exact (List.not_mem_nil hconflict).elim
        · intro _ failures' last' hmade' _
          have hlast := congrArg List.getLast? hmade'
          simp only [List.map_append, List.map_singleton, List.getLast?_concat] at hlast
          cases hlast
      | preserving preserved =>
        simp only [State.step, hphase]
        exact h.preserving hbehind ha.2
      | exhausted =>
        simp only [State.step, hphase]
        exact ⟨h.chained, loop, failures, rfl, hbehind.made, hbehind.follows, hbehind.conflicts⟩
  | requeued resume =>
    rw [hphase] at hstands
    obtain ⟨loop, failures, rfl, hbehind⟩ := hstands
    cases e with
    | attempt learnt ending cancelled notes =>
      simp only [State.step, hphase]
      exact h
    | admitted node placed' notes =>
      obtain rfl : node = launched := ha.1
      simp only [State.step, hphase]
      exact ⟨h.chained.mono (Chained.mono (List.subset_append_left _ _)), rfl, failures, hbehind.made,
        hbehind.follows.resumed hbudget notes, hbehind.conflicts⟩
  | settled settlement placed =>
    have hsame : s.step budget e = s := by
      cases e <;> simp only [State.step, hphase]
    rw [hsame]
    exact h

variable {events : List Event}

/-- a whole run -/
theorem kept_run (quiet : Prop) (hbudget : 0 < budget) (h : Admits (step budget) (Relaunched launched) (start budget launched placed none) events)
    (hquiet : quiet → ∀ e ∈ events, e.cancelled = false) :
    (events.foldl (step budget) (start budget launched placed none)).Kept quiet budget launched :=
  (h.and_forall fun e he hrun => hquiet hrun e he).invariant (fun _ _ hkept ha => hkept.step hbudget ha) (kept_start hbudget)

/-- **A chain of attempts.** Over every run of a node's execution, whatever its attempts end in, whenever its identity refuses it, whatever
its record says of its notes and whether or not the run is cancelled: each attempt made follows from the failures of those before it. -/
theorem attempts_chained (hbudget : 0 < budget) (h : Admits (step budget) (Relaunched launched) (start budget launched placed none) events) :
    Grown (Chained budget launched (events.foldl (step budget) (start budget launched placed none)).redispatched)
      (events.foldl (step budget) (start budget launched placed none)).made :=
  (kept_run False hbudget h fun hfalse => hfalse.elim).chained

def unmerged (tip : SessionTip) (handed : Option (List String)) : Preserved :=
  { branch := "work", outcome := .syncConflict, reason := "does not merge", tip, handed }

/-- a budget of two spent on a conflict, the second attempt refused once and then handed the merge -/
def conflictedTwice : List Event :=
  [.attempt {} (.preserving (unmerged (.«at» "c1") none)) false (.ok []), .attempt {} .exhausted false (.ok []),
    .admitted { id := "a" } {} [], .attempt {} (.preserving (unmerged .unmoved (some ["f"]))) false (.ok [])]

theorem attempts_chained_conflictedTwice :
    (conflictedTwice.foldl (step 2) (start 2 { id := "a" } {} none)).made.length = 2 ∧
      Grown (Chained 2 { id := "a" } (conflictedTwice.foldl (step 2) (start 2 { id := "a" } {} none)).redispatched)
        (conflictedTwice.foldl (step 2) (start 2 { id := "a" } {} none)).made :=
  ⟨rfl, attempts_chained (by decide) ⟨trivial, trivial, rfl, trivial, trivial⟩⟩

/-- **The decision, once.** Over every run of a node's execution: what it puts to the supervisor is one decision at most, put as its budget
is spent on a conflict, and settled as that conflict; and in a run never cancelled it is put whenever that is how the budget was spent. -/
theorem asked_once (hbudget : 0 < budget) (h : Admits (step budget) (Relaunched launched) (start budget launched placed none) events) :
    let s := events.foldl (step budget) (start budget launched placed none)
    (∀ conflict ∈ s.conflicts, ∃ settlement failures last, s.unstamped = some settlement ∧
        s.Decided budget launched settlement conflict failures last) ∧
      ((∀ e ∈ events, e.cancelled = false) → ∀ failures last, s.made.map Prod.snd = (failures ++ [last]).map some →
        Due budget launched failures last → s.conflicts ≠ []) := by
  intro s
  have hkept : ∀ quiet, (quiet → ∀ e ∈ events, e.cancelled = false) → s.Kept quiet budget launched := fun quiet hquiet =>
    kept_run quiet hbudget h hquiet
  constructor
  · intro conflict hconflict
    have hstands := (hkept False fun hfalse => hfalse.elim).stands
    cases hphase : s.phase with
    | attempting node loop placed' =>
      rw [hphase] at hstands
      obtain ⟨_, _, hbehind⟩ := hstands
      rw [hbehind.conflicts] at hconflict
      exact (List.not_mem_nil hconflict).elim
    | requeued resume =>
      rw [hphase] at hstands
      obtain ⟨_, _, _, hbehind⟩ := hstands
      rw [hbehind.conflicts] at hconflict
      exact (List.not_mem_nil hconflict).elim
    | settled settlement placed' =>
      rw [hphase] at hstands
      obtain ⟨failures, last, hdecided⟩ := hstands.1 conflict hconflict
      exact ⟨settlement, failures, last, by rw [State.unstamped, hphase], hdecided⟩
  · intro hquiet failures last hmade hdue
    have hstands := (hkept True fun _ => hquiet).stands
    cases hphase : s.phase with
    | attempting node loop placed' =>
      rw [hphase] at hstands
      obtain ⟨_, _, hbehind⟩ := hstands
      exact (hbehind.not_due hmade hdue).elim
    | requeued resume =>
      rw [hphase] at hstands
      obtain ⟨_, _, _, hbehind⟩ := hstands
      exact (hbehind.not_due hmade hdue).elim
    | settled settlement placed' =>
      rw [hphase] at hstands
      exact hstands.2 trivial failures last hmade hdue

theorem asked_once_conflictedTwice :
    let s := conflictedTwice.foldl (step 2) (start 2 { id := "a" } {} none)
    s.conflicts = [⟨"a", 1, "work", ["f"], "does not merge"⟩] ∧
      ∀ conflict ∈ s.conflicts, ∃ settlement failures last, s.unstamped = some settlement ∧
        s.Decided 2 { id := "a" } settlement conflict failures last := by
  have hrun : Admits (step 2) (Relaunched { id := "a" }) (start 2 { id := "a" } {} none) conflictedTwice :=
    ⟨trivial, trivial, rfl, trivial, trivial⟩
  exact ⟨by decide, (asked_once (by decide) hrun).1⟩

end State

end OnePipeline.Attempts
