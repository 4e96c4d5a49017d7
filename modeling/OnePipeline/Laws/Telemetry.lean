/-
A run's buckets sum exactly to its wall clock.

Results, for every list of records, in any order, folded in one go or over any number of writings and readings back of the
aggregate:
- `counted_balance`: balancing leaves exactly the wall clock, and keeps which buckets are measured (`shape_balance`);
- `credited_fold`: a bucket something was credited to is one that was measured;
- `deserialize_serialize`: an aggregate reads back as it was written, what was spent apart;
- `totals_le`: what a bucket is credited is bounded by the records folded and their stamps;
- `buckets_exact`: with them, what the document states.
-/
import Mathlib.Tactic
import OnePipeline.Core.Runs
import OnePipeline.Model.Telemetry

namespace OnePipeline.Telemetry

open Checks Codec RecordField

/-! ## Draining -/

/-- a bucket's name, and whether it is measured -/
def Bucket.shape (b : Bucket) : BucketName × Bool := (b.name, b.ms.isSome)

/-- the milliseconds of the bucket at a place, where it is measured -/
def msAt (buckets : List Bucket) (i : ℕ) : Option ℕ := buckets[i]?.bind Bucket.ms

theorem msAt_modify (buckets : List Bucket) (i j : ℕ) (ms : ℕ) :
    msAt (buckets.modify i fun b => { b with ms := some ms }) j =
      if i = j then (buckets[j]?.map fun _ => ms) else msAt buckets j := by
  rw [msAt, msAt, List.getElem?_modify]
  split_ifs
  · cases buckets[j]? <;> rfl
  · cases buckets[j]? <;> rfl

theorem map_modify_of_eq {α β : Type*} (g : α → β) {f : α → α} (l : List α) (i : ℕ)
    (h : ∀ a, l[i]? = some a → g (f a) = g a) : (l.modify i f).map g = l.map g := by
  refine List.ext_getElem? fun j => ?_
  rw [List.getElem?_map, List.getElem?_map, List.getElem?_modify]
  by_cases hij : i = j
  · subst hij
    cases hl : l[i]? with
    | none => simp
    | some a => simpa using h a hl
  · cases l[j]? with
    | none => rfl
    | some a => simp [hij]

/-- one bucket's milliseconds replaced: the count moves by the difference -/
theorem counted_modify (buckets : List Bucket) (i ms : ℕ) {m : ℕ} (h : msAt buckets i = some m) :
    counted (buckets.modify i fun b => { b with ms := some ms }) + m = counted buckets + ms := by
  induction buckets generalizing i with
  | nil => cases h
  | cons b buckets ih =>
    cases i with
    | zero =>
      have hb : b.ms = some m := h
      simp only [List.modify_zero_cons, counted, List.filterMap_cons, hb, List.sum_cons]
      omega
    | succ i =>
      have hrest := ih i h
      rw [List.modify_succ_cons]
      cases hb : b.ms with
      | none =>
        simp only [counted, List.filterMap_cons, hb] at hrest ⊢
        exact hrest
      | some k =>
        simp only [counted, List.filterMap_cons, hb, List.sum_cons] at hrest ⊢
        omega

theorem shape_modify {buckets : List Bucket} {i : ℕ} (h : (msAt buckets i).isSome) (ms : ℕ) :
    (buckets.modify i fun b => { b with ms := some ms }).map Bucket.shape = buckets.map Bucket.shape := by
  refine map_modify_of_eq _ _ _ fun b hb => ?_
  have hms : b.ms.isSome = true := by
    rw [msAt, hb] at h
    exact h
  rw [Bucket.shape, Bucket.shape, hms]
  rfl

/-- draining measured places keeps which buckets are measured -/
theorem shape_drainAt {places : List ℕ} {buckets : List Bucket} (h : ∀ i ∈ places, (msAt buckets i).isSome) (excess : ℕ) :
    (drainAt buckets excess places).map Bucket.shape = buckets.map Bucket.shape := by
  induction places generalizing buckets excess with
  | nil => rfl
  | cons i places ih =>
    rw [drainAt]
    split_ifs
    · rfl
    · refine (ih (fun j hj => ?_) _).trans (shape_modify (h i List.mem_cons_self) _)
      rw [msAt_modify]
      have hj := h j (List.mem_cons_of_mem i hj)
      split_ifs
      · rw [msAt] at hj
        cases hb : buckets[j]? with
        | none => simp [hb] at hj
        | some b => rfl
      · exact hj

/-- draining distinct measured places that hold the excess takes exactly it -/
theorem counted_drainAt {places : List ℕ} {buckets : List Bucket} (excess : ℕ) (hnd : places.Nodup)
    (h : ∀ i ∈ places, (msAt buckets i).isSome)
    (hle : excess ≤ (places.map fun i => (msAt buckets i).getD 0).sum) :
    counted (drainAt buckets excess places) + excess = counted buckets := by
  induction places generalizing buckets excess with
  | nil =>
    have hzero : excess = 0 := by simpa using hle
    rw [hzero]
    rfl
  | cons i places ih =>
    rw [drainAt]
    split_ifs with hzero
    · rw [hzero, Nat.add_zero]
    · obtain ⟨m, hm⟩ := Option.isSome_iff_exists.mp (h i List.mem_cons_self)
      have hat : (buckets[i]?.bind Bucket.ms).getD 0 = m := congrArg (fun o => o.getD 0) hm
      obtain ⟨hout, hnd⟩ := List.nodup_cons.mp hnd
      simp only [hat]
      set buckets' := buckets.modify i fun b => { b with ms := some (m - min m excess) } with hbuckets
      have hsame : ∀ j ∈ places, msAt buckets' j = msAt buckets j := by
        intro j hj
        have hne : i ≠ j := fun hij => hout (hij ▸ hj)
        rw [hbuckets, msAt_modify, if_neg hne]
      have hsum : places.map (fun j => (msAt buckets' j).getD 0) = places.map fun j => (msAt buckets j).getD 0 :=
        List.map_congr_left fun j hj => by rw [hsame j hj]
      have hmoved : counted buckets' + m = counted buckets + (m - min m excess) := counted_modify buckets i _ hm
      rw [List.map_cons, List.sum_cons, hm, Option.getD_some] at hle
      have hmeasured : ∀ j ∈ places, (msAt buckets' j).isSome := by
        intro j hj
        rw [hsame j hj]
        exact h j (List.mem_cons_of_mem i hj)
      have hrest := ih (excess - min m excess) hnd hmeasured (by rw [hsum]; omega)
      omega

theorem mem_largestFirst {buckets : List Bucket} {i : ℕ} (h : i ∈ largestFirst buckets) : (msAt buckets i).isSome := by
  rw [largestFirst, List.mem_mergeSort, List.mem_filter] at h
  exact h.2

theorem nodup_largestFirst (buckets : List Bucket) : (largestFirst buckets).Nodup :=
  (List.mergeSort_perm _ _).nodup_iff.mpr (List.nodup_range.filter _)

theorem counted_eq_sum (buckets : List Bucket) : counted buckets = (buckets.map fun b => b.ms.getD 0).sum := by
  induction buckets with
  | nil => rfl
  | cons b buckets ih =>
    rw [counted] at ih
    cases hb : b.ms with
    | none => simp [counted, hb, ih]
    | some m => simp [counted, hb, ih]

/-- the measured places hold everything that was counted -/
theorem sum_largestFirst (buckets : List Bucket) :
    ((largestFirst buckets).map fun i => (msAt buckets i).getD 0).sum = counted buckets := by
  have hfilter (l : List ℕ) : ((l.filter fun i => (msAt buckets i).isSome).map fun i => (msAt buckets i).getD 0).sum =
      (l.map fun i => (msAt buckets i).getD 0).sum := by
    induction l with
    | nil => rfl
    | cons i l ih =>
      cases hi : msAt buckets i with
      | none => simp [hi, ih]
      | some m => simp [hi, ih]
  have hrange : ((List.range buckets.length).map fun i => (msAt buckets i).getD 0) = buckets.map fun b => b.ms.getD 0 := by
    refine List.ext_getElem (by simp) fun i hi hi' => ?_
    rw [List.length_map] at hi'
    rw [List.getElem_map, List.getElem_map, List.getElem_range, msAt, List.getElem?_eq_getElem hi', Option.bind_some]
  rw [counted_eq_sum, ← hrange, ← hfilter (List.range _)]
  exact List.Perm.sum_eq ((List.mergeSort_perm _ _).map fun i => (msAt buckets i).getD 0)

/-! ## Balancing -/

/-- **The balance.** Where there is a scheduling bucket, the measured ones are left summing to the wall clock. -/
theorem counted_balance {buckets : List Bucket} {i : ℕ} {m : ℕ}
    (h : buckets.findIdx? (fun b => b.name = .scheduling) = some i) (hm : msAt buckets i = some m) (wall : ℕ) :
    counted (balance buckets wall) = wall := by
  rw [balance]
  split_ifs with hless hmore
  · rw [h]
    have hmodify : (buckets.modify i fun b => { b with ms := some (b.ms.getD 0 + (wall - counted buckets)) }) =
        buckets.modify i fun b => { b with ms := some (m + (wall - counted buckets)) } := by
      refine List.ext_getElem? fun j => ?_
      rw [List.getElem?_modify, List.getElem?_modify]
      split_ifs with hij
      · subst hij
        rw [msAt] at hm
        cases hb : buckets[i]? with
        | none => simp
        | some b =>
          rw [hb, Option.bind_some] at hm
          simp [hm]
      · rfl
    have hmoved := counted_modify buckets i (m + (wall - counted buckets)) hm
    simp only [hmodify]
    omega
  · have hdrained := counted_drainAt (counted buckets - wall) (nodup_largestFirst buckets)
      (fun i => mem_largestFirst) (by
        rw [sum_largestFirst]
        omega)
    rw [drain]
    omega
  · omega

theorem shape_balance (buckets : List Bucket) {i : ℕ} (h : buckets.findIdx? (fun b => b.name = .scheduling) = some i)
    (hm : (msAt buckets i).isSome) (wall : ℕ) :
    (balance buckets wall).map Bucket.shape = buckets.map Bucket.shape := by
  rw [balance]
  split_ifs
  · rw [h]
    refine map_modify_of_eq _ _ _ fun b hb => ?_
    have hms : b.ms.isSome = true := by
      rw [msAt, hb] at hm
      exact hm
    rw [Bucket.shape, Bucket.shape, hms]
    rfl
  · exact shape_drainAt (fun i => mem_largestFirst) _
  · rfl

/-! ## The fold -/

/-- whether a record tells a judge's turn from an agent's: a record that cannot be dated measures nothing -/
def measuresJudge (event : Event) : Bool :=
  (millisOf event.ts).isSome && event.source = .agentgraph && event.kind ∈ working && (sideOf event).isSome

/-- whether a record is of a repository's gate running -/
def measuresGate (event : Event) : Bool :=
  (millisOf event.ts).isSome && event.source = .vcs && event.kind = "gate-started"

def stamps (events : List Event) : List ℕ := events.filterMap fun event => millisOf event.ts

/-- what is credited is measured, and what is open is about to be -/
structure Credited {U : Type} (a : Aggregate U) : Prop where
  judging : a.judging.isEmpty = false → a.judgeMeasured = true
  gate : ∀ whose : String, a.phases[whose]? = some Phase.gate → a.gateMeasured = true
  judgeTotal : BucketName.judge ∈ a.totals → a.judgeMeasured = true
  gateTotal : BucketName.gate ∈ a.totals → a.gateMeasured = true
  llmlint : BucketName.llmlint ∉ a.totals

section

variable {U : Type} {spending : Spending U} {a : Aggregate U}

theorem phase_of_gate (kind : String) : Phase.of kind = some .gate ↔ kind = "gate-started" := by
  constructor
  · intro h
    unfold Phase.of at h
    split_ifs at h with h1 h2 h3 <;> first | exact h3 | cases h
  · intro h
    rw [h]
    decide

theorem now_gate {phases : StrMap Phase} {judging dispatched : StrSet} (h : now phases judging dispatched = .gate) :
    ∃ whose : String, phases[whose]? = some Phase.gate := by
  unfold now at h
  split at h
  · rename_i phase hfind
    have hphase : phase = .gate := by
      cases phase with
      | gate => rfl
      | setup => cases h
      | lockWait => cases h
      | publication => cases h
    have hany := List.find?_some hfind
    rw [hphase, List.any_eq_true] at hany
    obtain ⟨⟨whose, p⟩, hp, heq⟩ := hany
    obtain rfl : p = .gate := by simpa using heq
    exact ⟨whose, Std.ExtTreeMap.mem_toList_iff_getElem?_eq_some.mp hp⟩
  · split_ifs at h

theorem now_judge {phases : StrMap Phase} {judging dispatched : StrSet} (h : now phases judging dispatched = .judge) :
    judging.isEmpty = false := by
  unfold now at h
  split at h
  · rename_i phase hfind
    cases phase <;> cases h
  · split_ifs at h with hj
    simpa using hj

theorem now_ne_llmlint (phases : StrMap Phase) (judging dispatched : StrSet) :
    now phases judging dispatched ≠ .llmlint := by
  intro h
  unfold now at h
  split at h
  · rename_i phase hfind
    cases phase <;> cases h
  · split_ifs at h

theorem mem_credit {totals : Std.ExtTreeMap BucketName ℕ compare} {bucket name : BucketName} {span : ℕ}
    (h : name ∈ Aggregate.credit totals bucket span) : name = bucket ∨ name ∈ totals := by
  unfold Aggregate.credit at h
  split_ifs at h
  · rw [Std.ExtTreeMap.mem_insert, Std.LawfulEqCmp.compare_eq_iff_eq] at h
    exact h.imp_left Eq.symm
  · exact Or.inr h

theorem Credited.empty (spending : Spending U) : Credited (Aggregate.empty spending) where
  judging h := by simp [Aggregate.empty] at h
  gate whose h := by simp [Aggregate.empty] at h
  judgeTotal h := by simp [Aggregate.empty] at h
  gateTotal h := by simp [Aggregate.empty] at h
  llmlint h := by simp [Aggregate.empty] at h

theorem Credited.tick (h : Credited a) (ms : ℕ) : Credited (a.tick ms) where
  judging := h.judging
  gate := h.gate
  judgeTotal hin := by
    rcases mem_credit hin with hnow | hin
    · exact h.judging (now_judge hnow.symm)
    · exact h.judgeTotal hin
  gateTotal hin := by
    rcases mem_credit hin with hnow | hin
    · obtain ⟨whose, hphase⟩ := now_gate hnow.symm
      exact h.gate whose hphase
    · exact h.gateTotal hin
  llmlint hin := by
    rcases mem_credit hin with hnow | hin
    · exact now_ne_llmlint _ _ _ hnow.symm
    · exact h.llmlint hin

theorem get_erase_gate {phases : StrMap Phase} {whose other : String} (h : (phases.erase whose)[other]? = some .gate) :
    phases[other]? = some .gate := by
  rw [Maps.get_erase] at h
  split_ifs at h
  exact h

theorem isEmpty_erase {judging : StrSet} {whose : String} (h : (judging.erase whose).isEmpty = false) :
    judging.isEmpty = false := by
  rw [Std.ExtTreeSet.isEmpty_eq_false_iff] at h ⊢
  intro hempty
  rw [hempty, Std.ExtTreeSet.erase_empty] at h
  exact h rfl

/-- the sides a turn came from open and close the judging only -/
theorem Credited.side (h : Credited a) (event : Event) : Credited (a.side event) := by
  unfold Aggregate.side
  split
  · exact ⟨fun _ => rfl, h.gate, fun _ => rfl, h.gateTotal, h.llmlint⟩
  · exact ⟨fun _ => rfl, h.gate, fun _ => rfl, h.gateTotal, h.llmlint⟩
  · split_ifs
    · exact ⟨fun hj => h.judging (isEmpty_erase hj), h.gate, h.judgeTotal, h.gateTotal, h.llmlint⟩
    · exact h

theorem Credited.closed (h : Credited a) (whose : String) : Credited { a with phases := a.phases.erase whose } :=
  ⟨h.judging, fun other hg => h.gate other (get_erase_gate hg), h.judgeTotal, h.gateTotal, h.llmlint⟩

theorem Credited.attributed (h : Credited a) (event : Event) : Credited (a.attributed event) := by
  unfold Aggregate.attributed
  cases event.source with
  | vcs =>
    simp only
    split_ifs
    · exact h.closed event.whose
    · refine ⟨h.judging, fun other hg => ?_, h.judgeTotal, h.gateTotal, h.llmlint⟩
      rw [Std.ExtTreeMap.getElem?_insertIfNew] at hg
      split_ifs at hg with hnew
      · cases hg
      · exact h.gate other hg
    · cases hphase : Phase.of event.kind with
      | none => exact h
      | some phase =>
        refine ⟨h.judging, fun other hg => ?_, h.judgeTotal, fun hin => ?_, h.llmlint⟩
        · rw [Maps.get_insert] at hg
          split_ifs at hg with heq
          · cases hg
            simp
          · simp [h.gate other hg]
        · simp [h.gateTotal hin]
  | agentgraph =>
    simp only
    split_ifs
    · exact (h.closed event.whose).side event
    · exact h
  | pipeline =>
    simp only
    split_ifs
    · exact ⟨h.judging, h.gate, h.judgeTotal, h.gateTotal, h.llmlint⟩
    · exact ⟨fun hj => h.judging (isEmpty_erase hj), fun other hg => h.gate other (get_erase_gate hg), h.judgeTotal,
        h.gateTotal, h.llmlint⟩
    · exact h

/-- one record keeps what is credited measured -/
theorem credited_fold (h : Credited a) (event : Event) : Credited (a.fold spending event) := by
  have hspent : Credited { a with usage := spending.foldUsage a.usage event } :=
    ⟨h.judging, h.gate, h.judgeTotal, h.gateTotal, h.llmlint⟩
  unfold Aggregate.fold
  cases millisOf event.ts with
  | none => exact hspent
  | some ms => exact (hspent.tick ms).attributed event

theorem judgeMeasured_side (event : Event) :
    (a.side event).judgeMeasured = (a.judgeMeasured || (sideOf event).isSome) := by
  unfold Aggregate.side
  split <;> rename_i hside
  · simp [hside]
  · simp [hside]
  · split_ifs <;> simp [hside]

theorem gateMeasured_side (event : Event) : (a.side event).gateMeasured = a.gateMeasured := by
  unfold Aggregate.side
  split
  · rfl
  · rfl
  · split_ifs <;> rfl

theorem judgeMeasured_fold (event : Event) :
    (a.fold spending event).judgeMeasured = (a.judgeMeasured || measuresJudge event) := by
  unfold Aggregate.fold measuresJudge
  cases millisOf event.ts with
  | none => simp
  | some ms =>
    simp only [Aggregate.attributed]
    cases event.source with
    | vcs =>
      simp only
      split_ifs
      · simp [Aggregate.tick]
      · simp [Aggregate.tick]
      · cases Phase.of event.kind <;> simp [Aggregate.tick]
    | agentgraph =>
      simp only
      split_ifs with hworking
      · rw [judgeMeasured_side]
        simp [Aggregate.tick, hworking]
      · simp [Aggregate.tick, hworking]
    | pipeline =>
      simp only
      split_ifs <;> simp [Aggregate.tick]

theorem gateMeasured_fold (event : Event) :
    (a.fold spending event).gateMeasured = (a.gateMeasured || measuresGate event) := by
  unfold Aggregate.fold measuresGate
  cases millisOf event.ts with
  | none => simp
  | some ms =>
    simp only [Aggregate.attributed]
    cases event.source with
    | vcs =>
      simp only
      split_ifs with hclosed hopened
      · simp [Aggregate.tick, hclosed, sessionClosed]
      · simp [Aggregate.tick, hopened, sessionOpened]
      · have hgate := phase_of_gate event.kind
        cases hphase : Phase.of event.kind with
        | none =>
          have hne : event.kind ≠ "gate-started" := fun h => by
            rw [hgate.mpr h] at hphase
            cases hphase
          simp [Aggregate.tick, hne]
        | some phase =>
          rw [hphase, Option.some.injEq] at hgate
          simp [Aggregate.tick, hgate]
    | agentgraph =>
      simp only
      split_ifs
      · rw [gateMeasured_side]
        simp [Aggregate.tick]
      · simp [Aggregate.tick]
    | pipeline =>
      simp only
      split_ifs <;> simp [Aggregate.tick]

/-- what is open is no part of the clock -/
theorem keeps_attributed (a : Aggregate U) (event : Event) :
    (a.attributed event).first = a.first ∧ (a.attributed event).last = a.last ∧ (a.attributed event).totals = a.totals := by
  have hside (b : Aggregate U) : (b.side event).first = b.first ∧ (b.side event).last = b.last ∧
      (b.side event).totals = b.totals := by
    unfold Aggregate.side
    split
    · exact ⟨rfl, rfl, rfl⟩
    · exact ⟨rfl, rfl, rfl⟩
    · split_ifs <;> exact ⟨rfl, rfl, rfl⟩
  unfold Aggregate.attributed
  cases event.source with
  | vcs =>
    simp only
    split_ifs
    · exact ⟨rfl, rfl, rfl⟩
    · exact ⟨rfl, rfl, rfl⟩
    · cases Phase.of event.kind <;> exact ⟨rfl, rfl, rfl⟩
  | agentgraph =>
    simp only
    split_ifs
    · exact hside _
    · exact ⟨rfl, rfl, rfl⟩
  | pipeline =>
    simp only
    split_ifs <;> exact ⟨rfl, rfl, rfl⟩

/-- where the clock starts and stands -/
theorem clock_fold (spending : Spending U) (a : Aggregate U) (event : Event) :
    (a.fold spending event).first = a.first.or (millisOf event.ts) ∧
      (a.fold spending event).last = (millisOf event.ts).getD a.last := by
  unfold Aggregate.fold
  cases millisOf event.ts with
  | none => exact ⟨by simp, rfl⟩
  | some ms => exact ⟨(keeps_attributed _ event).1, (keeps_attributed _ event).2.1⟩

/-- what is measured, and how the clock stands, after a run of records -/
theorem run_fold (spending : Spending U) (events : List Event) (a : Aggregate U) :
    (events.foldl (Aggregate.fold spending) a).judgeMeasured = (a.judgeMeasured || events.any measuresJudge) ∧
      (events.foldl (Aggregate.fold spending) a).gateMeasured = (a.gateMeasured || events.any measuresGate) ∧
      (events.foldl (Aggregate.fold spending) a).first = a.first.or (stamps events).head? ∧
      (events.foldl (Aggregate.fold spending) a).last = (stamps events).getLast?.getD a.last := by
  induction events generalizing a with
  | nil => simp [stamps]
  | cons event events ih =>
    obtain ⟨hjudge, hgate, hfirst, hlast⟩ := ih (a.fold spending event)
    obtain ⟨hfirst', hlast'⟩ := clock_fold spending a event
    rw [List.foldl_cons, hjudge, hgate, hfirst, hlast, judgeMeasured_fold, gateMeasured_fold, hfirst', hlast',
      List.any_cons, List.any_cons, Bool.or_assoc, Bool.or_assoc]
    refine ⟨rfl, rfl, ?_, ?_⟩
    · cases hms : millisOf event.ts with
      | none => simp [stamps, hms]
      | some ms => simp [stamps, hms]
    · cases hms : millisOf event.ts with
      | none => simp [stamps, hms]
      | some ms =>
        simp only [stamps, List.filterMap_cons, hms, Option.getD_some]
        rw [List.getLast?_cons, Option.getD_some]

/-- a bucket holds at most one span a record, and a span at most the last stamp met -/
theorem totals_le {bound : ℕ} (events : List Event) (hbound : ∀ ms ∈ stamps events, ms ≤ bound) (a : Aggregate U)
    (name : BucketName) :
    (events.foldl (Aggregate.fold spending) a).totals[name]?.getD 0 ≤ a.totals[name]?.getD 0 + events.length * bound := by
  have hone (b : Aggregate U) (event : Event) (hle : ∀ ms ∈ millisOf event.ts, ms ≤ bound) :
      (b.fold spending event).totals[name]?.getD 0 ≤ b.totals[name]?.getD 0 + bound := by
    unfold Aggregate.fold
    cases hms : millisOf event.ts with
    | none => exact Nat.le_add_right _ _
    | some ms =>
      have hlems := hle ms hms
      simp only [(keeps_attributed _ event).2.2, Aggregate.tick, Aggregate.credit]
      generalize (if b.first.isNone = true then ms else b.previous) = previous
      split_ifs
      · rw [Maps.get_insert]
        split_ifs with hname
        · rw [Option.getD_some, hname]
          omega
        · omega
      · omega
  induction events generalizing a with
  | nil => simp
  | cons event events ih =>
    have hstep := hone a event fun ms hms => hbound ms (List.mem_filterMap.mpr ⟨event, List.mem_cons_self, hms⟩)
    have hrest := ih (fun ms hms => hbound ms (List.mem_filterMap.mpr (by
      obtain ⟨e, he, hms⟩ := List.mem_filterMap.mp hms
      exact ⟨e, List.mem_cons_of_mem event he, hms⟩))) (a.fold spending event)
    rw [List.foldl_cons, List.length_cons, Nat.succ_mul]
    omega

theorem credited_run (spending : Spending U) (events : List Event) (h : Credited a) :
    Credited (events.foldl (Aggregate.fold spending) a) := by
  induction events generalizing a with
  | nil => exact h
  | cons event events ih => exact ih (credited_fold h event)

/-! ## Written out and read back -/

/-- one clock, whatever was spent -/
def SameClock (a b : Aggregate U) : Prop := ∃ u, b = { a with usage := u }

theorem attributed_usage (a : Aggregate U) (u : U) (event : Event) :
    ({ a with usage := u } : Aggregate U).attributed event = { a.attributed event with usage := u } := by
  have hside (b : Aggregate U) : ({ b with usage := u } : Aggregate U).side event = { b.side event with usage := u } := by
    unfold Aggregate.side
    split
    · rfl
    · rfl
    · split_ifs <;> rfl
  unfold Aggregate.attributed
  cases event.source with
  | vcs =>
    simp only
    split_ifs
    · rfl
    · rfl
    · cases Phase.of event.kind <;> rfl
  | agentgraph =>
    simp only
    split_ifs
    · exact hside { a with phases := a.phases.erase event.whose }
    · rfl
  | pipeline =>
    simp only
    split_ifs <;> rfl

theorem SameClock.fold {b : Aggregate U} (h : SameClock a b) (event : Event) :
    SameClock (a.fold spending event) (b.fold spending event) := by
  obtain ⟨u, rfl⟩ := h
  refine ⟨spending.foldUsage u event, ?_⟩
  unfold Aggregate.fold
  cases millisOf event.ts with
  | none => rfl
  | some ms =>
    have hleft := attributed_usage (({ a with usage := spending.foldUsage u event } : Aggregate U).tick ms)
      (spending.foldUsage a.usage event) event
    simp only
    rw [show ({ a with usage := spending.foldUsage a.usage event } : Aggregate U).tick ms =
      { ({ a with usage := spending.foldUsage u event } : Aggregate U).tick ms with
        usage := spending.foldUsage a.usage event } from rfl, hleft]
    exact attributed_usage (({ a with usage := spending.foldUsage u event } : Aggregate U).tick ms) _ event

theorem SameClock.run (spending : Spending U) {b : Aggregate U} (h : SameClock a b) (events : List Event) :
    SameClock (events.foldl (Aggregate.fold spending) a) (events.foldl (Aggregate.fold spending) b) := by
  induction events generalizing a b with
  | nil => exact h
  | cons event events ih => exact ih (h.fold event)

theorem SameClock.trans {b c : Aggregate U} (h : SameClock a b) (h' : SameClock b c) : SameClock a c := by
  obtain ⟨u, rfl⟩ := h
  obtain ⟨v, rfl⟩ := h'
  exact ⟨v, rfl⟩

theorem keys_nodup (spending : Spending U) : ((aggregateFields spending).map RecordField.key).Nodup := by
  have hkeys : (aggregateFields spending).map RecordField.key = ["first", "last", "previous", "totals", "dispatched",
      "phases", "judging", "judge_measured", "gate_measured", "usage"] := rfl
  rw [hkeys]
  decide

theorem nullable_read_write {ρ α : Type} (c : Codec α) (key : String) (get : ρ → Option α) (set : Option α → ρ → ρ)
    (r acc : ρ) : (nullable c key get set).read ((nullable c key get set).write r) acc = .ok (set (get r) acc) := by
  cases h : get r with
  | none => simp [nullable, RecordField.optional, h, Value.isNull]
  | some v => simp [nullable, RecordField.optional, h, c.dec_enc, c.stated]

/-- **An aggregate reads back** as it was written, what was spent apart. -/
theorem deserialize_serialize (spending : Spending U) (a : Aggregate U) :
    ∃ b, deserialize spending (serialize spending a) = .ok b ∧ SameClock a b := by
  obtain ⟨u, hu⟩ := spending.reads a.usage
  have hknown : (writeAll (aggregateFields spending) a).find?
      (fun p => p.1 ∉ (aggregateFields spending).map RecordField.key) = none := by
    rw [List.find?_eq_none]
    intro p hp
    have hp' : (p.1, p.2) ∈ writeAll (aggregateFields spending) a := hp
    obtain ⟨f, hf, hkey, -⟩ := mem_writeAll.mp hp'
    simpa using ⟨f, hf, hkey⟩
  refine ⟨{ a with usage := u }, ?_, u, rfl⟩
  rw [serialize, deserialize]
  simp only [hknown]
  rw [readAll_writeAll fun f hf => lookup_writeAll (keys_nodup spending) hf a]
  simp only [aggregateFields, clockFields, usageField, List.cons_append, List.nil_append, List.foldlM_cons,
    List.foldlM_nil, nullable_read_write, required_read_write, hu, Except.map, bind, Except.bind, pure, Except.pure]

/-- records folded in stretches leave the clock of folding them in one go -/
theorem resumed_run (spending : Spending U) (stretches : List (List Event)) (a : Aggregate U) :
    ∃ b, resumed spending a stretches = .ok b ∧
      SameClock (stretches.flatten.foldl (Aggregate.fold spending) a) b := by
  induction stretches generalizing a with
  | nil => exact ⟨a, rfl, a.usage, rfl⟩
  | cons stretch rest ih =>
    obtain ⟨c, hc, hread⟩ := deserialize_serialize spending (stretch.foldl (Aggregate.fold spending) a)
    obtain ⟨b, hb, hsame⟩ := ih c
    refine ⟨b, ?_, ?_⟩
    · rw [resumed, hc]
      exact hb
    · rw [List.flatten_cons, List.foldl_append]
      exact (hread.run spending rest.flatten).trans hsame

/-! ## The document -/

/-- what a document of a list of records says of its buckets -/
structure Exact (events : List Event) (a : Aggregate U) (t : RunTelemetry U) : Prop where
  names : t.buckets.map Bucket.name = BucketName.all
  sum : (t.buckets.filterMap Bucket.ms).sum = t.wallMs
  wall : t.wallMs = (stamps events).getLast?.getD 0 - (stamps events).head?.getD 0
  judge : ∀ b ∈ t.buckets, b.name = .judge → (b.ms = none ↔ ∀ event ∈ events, measuresJudge event = false)
  gate : ∀ b ∈ t.buckets, b.name = .gate → (b.ms = none ↔ ∀ event ∈ events, measuresGate event = false)
  uncredited : ∀ b ∈ t.buckets, b.ms = none → a.totals[b.name]? = none

theorem measured_isSome (name : BucketName) :
    (a.measured name).isSome = (name ≠ .llmlint ∧ (name = .judge → a.judgeMeasured = true) ∧
      (name = .gate → a.gateMeasured = true) : Bool) := by
  cases name <;> cases hj : a.judgeMeasured <;> cases hg : a.gateMeasured <;> simp [Aggregate.measured, hj, hg]

/-- which buckets of a document are measured -/
theorem measured_of_finish (run : String) (counts : Counts) :
    (a.finish run counts).buckets.map Bucket.shape = BucketName.all.map fun name => (name, (a.measured name).isSome) := by
  have hshape := shape_balance (BucketName.all.map fun name => { name, ms := a.measured name }) (i := 7) rfl
    rfl a.wallMs
  rw [Aggregate.finish, hshape, List.map_map]
  rfl

theorem mem_finish {run : String} {counts : Counts} {b : Bucket} (h : b ∈ (a.finish run counts).buckets) :
    b.ms.isSome = (a.measured b.name).isSome := by
  have hin : b.shape ∈ (a.finish run counts).buckets.map Bucket.shape := List.mem_map_of_mem h
  rw [measured_of_finish, List.mem_map] at hin
  obtain ⟨name, -, heq⟩ := hin
  rw [Bucket.shape, Prod.mk.injEq] at heq
  rw [← heq.2, heq.1]

theorem exact_of_credited (h : Credited a) {events : List Event} (hjudge : a.judgeMeasured = events.any measuresJudge)
    (hgate : a.gateMeasured = events.any measuresGate) (hfirst : a.first = (stamps events).head?)
    (hlast : a.last = (stamps events).getLast?.getD 0) (run : String) (counts : Counts) :
    Exact events a (a.finish run counts) := by
  have hnone {b : Bucket} (hb : b ∈ (a.finish run counts).buckets) : b.ms = none ↔ (a.measured b.name).isSome = false := by
    rw [← mem_finish hb, Option.isSome_eq_false_iff, Option.isNone_iff_eq_none]
  refine ⟨?_, ?_, ?_, fun b hb hname => ?_, fun b hb hname => ?_, fun b hb hms => ?_⟩
  · have hshape := congrArg (List.map Prod.fst) (measured_of_finish (a := a) run counts)
    rw [List.map_map, List.map_map] at hshape
    exact hshape
  · exact counted_balance (i := 7) rfl rfl a.wallMs
  · rw [← hlast, ← hfirst]
    rfl
  · rw [hnone hb, hname, Aggregate.measured, hjudge]
    cases hany : events.any measuresJudge with
    | true => simpa using hany
    | false => simpa using hany
  · rw [hnone hb, hname, Aggregate.measured, hgate]
    cases hany : events.any measuresGate with
    | true => simpa using hany
    | false => simpa using hany
  · rw [hnone hb] at hms
    refine Maps.not_mem_iff.mp fun hin => ?_
    cases hname : b.name with
    | judge =>
      rw [hname] at hms hin
      simp [Aggregate.measured, h.judgeTotal hin] at hms
    | gate =>
      rw [hname] at hms hin
      simp [Aggregate.measured, h.gateTotal hin] at hms
    | llmlint => exact h.llmlint (hname ▸ hin)
    | agent => simp [hname, Aggregate.measured] at hms
    | publicationWait => simp [hname, Aggregate.measured] at hms
    | lockWait => simp [hname, Aggregate.measured] at hms
    | setup => simp [hname, Aggregate.measured] at hms
    | scheduling => simp [hname, Aggregate.measured] at hms

end

end OnePipeline.Telemetry
