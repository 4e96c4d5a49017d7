/-
The merge order of a store that grew past its covered records.

Results:
- `merged_mergeOrder`: the merge order is the merge of the streams, each in its own sequence;
- `mergeOrder_perm`: it holds every record, each as often;
- `mergeOrder_append`: records that sort behind others merge behind them all;
- `covered_extends`: a store past a coverage that stands in front of it merges, and folds, behind what is covered.
-/
import Mathlib.Tactic
import OnePipeline.Core.Maps
import OnePipeline.Core.Merge
import OnePipeline.Model.Journal
import OnePipeline.Model.Projection

namespace OnePipeline

open Merge

/-! ## The streams -/

/-- the records of one stream, as they were appended -/
def ofStream (stream : String) (events : List Envelope) : List Envelope := events.filter fun e => e.stream = stream

/-- what a map of streams queues under one, empty where it knows none of it -/
def queueOf (streams : StrMap (List Envelope)) (stream : String) : List Envelope := streams[stream]?.getD []

theorem queueOf_insert (streams : StrMap (List Envelope)) (k j : String) (queue : List Envelope) :
    queueOf (streams.insert k queue) j = if j = k then queue else queueOf streams j := by
  unfold queueOf
  rw [Maps.get_insert]
  split_ifs <;> rfl

theorem queueOf_foldl_enqueue (events : List Envelope) (streams : StrMap (List Envelope)) (k : String) :
    queueOf (events.foldl enqueue streams) k = queueOf streams k ++ ofStream k events := by
  induction events generalizing streams with
  | nil => exact (List.append_nil _).symm
  | cons e events ih =>
    rw [List.foldl_cons, ih, enqueue, queueOf_insert, ofStream, ofStream, List.filter_cons]
    by_cases hk : k = e.stream
    · subst hk
      simp [queueOf]
    · rw [if_neg hk, if_neg (by simpa using fun h => hk h.symm)]

theorem queueOf_queued (events : List Envelope) (k : String) :
    queueOf (queued events) k = inSequence (ofStream k events) := by
  have hfold : (events.foldl enqueue (∅ : StrMap (List Envelope)))[k]?.getD [] = ofStream k events :=
    queueOf_foldl_enqueue events ∅ k
  rw [queueOf, queued, Std.ExtTreeMap.getElem?_map, ← hfold]
  cases (events.foldl enqueue (∅ : StrMap (List Envelope)))[k]? <;> rfl

/-! ## A turn -/

/-- where the head of a stream's queue sorts -/
def headPlace (stream : String) (event : Envelope) : Placed := toLex (event.ts, stream)

theorem headPlace_ne (k : String) (a : Envelope) (j : String) (b : Envelope) (h : headPlace k a = headPlace j b) : k = j :=
  (Prod.ext_iff.mp (toLex.injective h)).2

theorem nextStream_some {streams : StrMap (List Envelope)} {k : String} (h : nextStream streams = some k) :
    ∃ a rest, streams[k]? = some (a :: rest) ∧
      ∀ j b l, queueOf streams j = b :: l → headPlace k a ≤ headPlace j b := by
  unfold nextStream at h
  obtain ⟨head, hhead, hk⟩ := Option.map_eq_some_iff.mp h
  obtain ⟨p, hp, hplace⟩ := List.mem_filterMap.mp (List.argmin_mem hhead)
  obtain ⟨a, ha, rfl⟩ := Option.map_eq_some_iff.mp hplace
  obtain ⟨rest, hqueue⟩ := List.head?_eq_some_iff.mp ha
  have hp1 : p.1 = k := hk
  have hget : streams[p.1]? = some p.2 := Std.ExtTreeMap.mem_toList_iff_getElem?_eq_some.mp hp
  refine ⟨a, rest, by rw [← hp1, hget, hqueue], fun j b l hj => ?_⟩
  have hmem : (j, b :: l) ∈ streams.toList := by
    refine Std.ExtTreeMap.mem_toList_iff_getElem?_eq_some.mpr ?_
    unfold queueOf at hj
    cases hs : streams[j]? with
    | none => rw [hs] at hj; cases hj
    | some queue => rw [hs] at hj; rw [show queue = b :: l from hj]
  have hin : headPlace j b ∈
      streams.toList.filterMap fun p => p.2.head?.map fun event => (toLex (event.ts, p.1) : Placed) :=
    List.mem_filterMap.mpr ⟨(j, b :: l), hmem, rfl⟩
  have hle := List.le_of_mem_argmin hin hhead
  rw [hp1] at hle
  exact hle

theorem nextStream_none {streams : StrMap (List Envelope)} (h : nextStream streams = none) (k : String) :
    queueOf streams k = [] := by
  unfold nextStream at h
  have hnil := List.argmin_eq_none.mp (Option.map_eq_none_iff.mp h)
  unfold queueOf
  cases hs : streams[k]? with
  | none => rfl
  | some queue =>
    have hmem : (k, queue) ∈ streams.toList := Std.ExtTreeMap.mem_toList_iff_getElem?_eq_some.mpr hs
    have hhead := List.filterMap_eq_nil_iff.mp hnil (k, queue) hmem
    simpa using hhead

/-- the turns taken over a map that queues a list of records merge its queues, and take every record -/
theorem merged_takeHeads (turns : ℕ) {streams : StrMap (List Envelope)} {events : List Envelope}
    (hturns : events.length = turns) (h : ∀ k, (queueOf streams k).Perm (ofStream k events)) :
    Merged headPlace (queueOf streams) (takeHeads turns streams) := by
  induction turns generalizing streams events with
  | zero =>
    have hnil : events = [] := List.length_eq_zero_iff.mp hturns
    refine .done fun k => List.Perm.eq_nil ?_
    rw [hnil] at h
    exact h k
  | succ turns ih =>
    rw [takeHeads]
    cases hnext : nextStream streams with
    | none => exact .done (nextStream_none hnext)
    | some k =>
      obtain ⟨a, rest, hget, hleast⟩ := nextStream_some hnext
      have hhead : queueOf streams k = a :: rest := by rw [queueOf, hget]; rfl
      simp only [hget]
      -- the record taken is one of the list: what is left of the list is what is left of the queues
      have ha : a ∈ ofStream k events := (h k).mem_iff.mp (hhead ▸ List.mem_cons_self)
      obtain ⟨hin, hstream⟩ := List.mem_filter.mp ha
      have hak : a.stream = k := of_decide_eq_true hstream
      obtain ⟨front, back, rfl⟩ := List.append_of_mem hin
      have hperm : (front ++ a :: back).Perm (a :: (front ++ back)) := List.perm_middle
      have hleft (j : String) : (queueOf (streams.insert k rest) j).Perm (ofStream j (front ++ back)) := by
        have hj := (h j).trans (hperm.filter _)
        rw [queueOf_insert]
        by_cases hjk : j = k
        · subst hjk
          rw [hhead, List.filter_cons_of_pos (by simpa using hak)] at hj
          rw [if_pos rfl]
          exact hj.cons_inv
        · rw [List.filter_cons_of_neg (by simpa [hak] using fun heq => hjk heq.symm)] at hj
          rw [if_neg hjk]
          exact hj
      have hlength : (front ++ back).length = turns := by
        simp only [List.length_append, List.length_cons] at hturns ⊢
        omega
      have hupdate : queueOf (streams.insert k rest) = Function.update (queueOf streams) k rest := by
        funext j
        rw [queueOf_insert]
        by_cases hjk : j = k
        · rw [if_pos hjk, hjk, Function.update_self]
        · rw [if_neg hjk, Function.update_of_ne hjk]
      exact .take hhead hleast (hupdate ▸ ih hlength hleft)

/-- **The merge order.** It is the merge of the streams, each in its own sequence. -/
theorem merged_mergeOrder (events : List Envelope) :
    Merged headPlace (fun k => inSequence (ofStream k events)) (mergeOrder events) := by
  have hqueues : queueOf (queued events) = fun k => inSequence (ofStream k events) := funext (queueOf_queued events)
  rw [← hqueues]
  refine merged_takeHeads events.length rfl fun k => ?_
  rw [queueOf_queued]
  exact List.perm_insertionSort _ _

/-- the merge order holds every record, each as often -/
theorem mergeOrder_perm (events : List Envelope) : (mergeOrder events).Perm events := by
  refine perm_of_filter Envelope.stream fun k => ?_
  have hstream : ∀ k, ∀ e ∈ inSequence (ofStream k events), e.stream = k := fun k e he =>
    of_decide_eq_true (List.mem_filter.mp ((List.mem_insertionSort _).mp he)).2
  rw [(merged_mergeOrder events).filter_eq hstream]
  exact List.perm_insertionSort _ _

theorem length_mergeOrder (events : List Envelope) : (mergeOrder events).length = events.length := (mergeOrder_perm events).length_eq

/-! ## Records behind others -/

/-- a record that sorts behind another: at no earlier place, and in its stream at no lower `seq` -/
structure Behind (a b : Envelope) : Prop where
  placed : placed a ≤ placed b
  sequence : a.stream = b.stream → a.seq ≤ b.seq

theorem mem_ofStream {k : String} {events : List Envelope} {e : Envelope} :
    e ∈ ofStream k events ↔ e ∈ events ∧ e.stream = k := by
  rw [ofStream, List.mem_filter, decide_eq_true_iff]

/-- **A store in two parts.** Records that each sort behind the others merge behind them all. -/
theorem mergeOrder_append {covered rest : List Envelope} (h : ∀ a ∈ covered, ∀ b ∈ rest, Behind a b) :
    mergeOrder (covered ++ rest) = mergeOrder covered ++ mergeOrder rest := by
  have hqueues : (fun k => inSequence (ofStream k (covered ++ rest))) =
      fun k => inSequence (ofStream k covered) ++ inSequence (ofStream k rest) := by
    funext k
    rw [ofStream, List.filter_append, inSequence, insertionSort_append]
    · rfl
    · intro a ha b hb
      obtain ⟨ha, hak⟩ := mem_ofStream.mp ha
      obtain ⟨hb, hbk⟩ := mem_ofStream.mp hb
      exact (h a ha b hb).sequence (hak.trans hbk.symm)
  have hwhole := merged_mergeOrder (covered ++ rest)
  rw [hqueues] at hwhole
  refine hwhole.unique headPlace_ne ((merged_mergeOrder covered).append (merged_mergeOrder rest) ?_)
  intro k a j b ha hb
  obtain ⟨hain, rfl⟩ := mem_ofStream.mp ((List.mem_insertionSort _).mp ha)
  obtain ⟨hbin, rfl⟩ := mem_ofStream.mp ((List.mem_insertionSort _).mp hb)
  exact (h a hain b hbin).placed

/-! ## What a coverage stands in front of -/

namespace Coverage

/-- lines absorbed in order, each with its bytes; one this build could not read is no record -/
def absorbAll (c : Coverage) (lines : List (Option Envelope × ℕ)) : Coverage :=
  lines.foldl (fun c line => c.absorb line.1 line.2) c

/-- a coverage that reached as far as a record -/
structure Reaches (c : Coverage) (e : Envelope) : Prop where
  placed : ∃ «at», c.at = some «at» ∧ OnePipeline.placed e ≤ «at»
  sequence : ∃ reached, c.streams[e.stream]? = some reached ∧ e.seq ≤ reached

/-- a coverage reaches a record it absorbs -/
theorem reaches_absorb (c : Coverage) (e : Envelope) (bytes : ℕ) : (c.absorb (some e) bytes).Reaches e := by
  refine ⟨?_, ?_⟩
  · by_cases hat : c.at.all (fun «at» => «at» < OnePipeline.placed e) = true
    · exact ⟨_, if_pos hat, le_refl _⟩
    · refine (Option.eq_none_or_eq_some c.at).elim (fun hnone => absurd (by rw [hnone]; rfl) hat) fun ⟨«at», hsome⟩ => ?_
      refine ⟨«at», (if_neg hat).trans hsome, ?_⟩
      rw [hsome, Option.all_some, decide_eq_true_iff] at hat
      exact not_lt.mp hat
  · refine ⟨_, by rw [absorb, Maps.get_insert, if_pos rfl], le_max_right _ _⟩

/-- a coverage goes no less far for a line more -/
theorem Reaches.absorb {c : Coverage} {e : Envelope} (h : c.Reaches e) (line : Option Envelope) (bytes : ℕ) :
    (c.absorb line bytes).Reaches e := by
  obtain ⟨⟨«at», hat, hle⟩, ⟨reached, hreached, hseq⟩⟩ := h
  cases line with
  | none => exact ⟨⟨«at», hat, hle⟩, ⟨reached, hreached, hseq⟩⟩
  | some event =>
    refine ⟨?_, ?_⟩
    · by_cases hlt : c.at.all (fun «at» => «at» < OnePipeline.placed event) = true
      · refine ⟨_, if_pos hlt, hle.trans (le_of_lt ?_)⟩
        rwa [hat, Option.all_some, decide_eq_true_iff] at hlt
      · exact ⟨«at», (if_neg hlt).trans hat, hle⟩
    · by_cases hstream : e.stream = event.stream
      · refine ⟨_, by rw [Coverage.absorb, Maps.get_insert, if_pos hstream], hseq.trans ?_⟩
        rw [← hstream, hreached]
        exact le_max_left _ _
      · exact ⟨reached, by rw [Coverage.absorb, Maps.get_insert, if_neg hstream]; exact hreached, hseq⟩

/-- a coverage reaches every record it absorbed -/
theorem reaches_absorbAll {lines : List (Option Envelope × ℕ)} {e : Envelope} (h : e ∈ lines.filterMap Prod.fst)
    (c : Coverage) : (c.absorbAll lines).Reaches e := by
  have hkeeps (lines : List (Option Envelope × ℕ)) (c : Coverage) (hc : c.Reaches e) : (c.absorbAll lines).Reaches e := by
    induction lines generalizing c with
    | nil => exact hc
    | cons line lines ih => exact ih _ (hc.absorb line.1 line.2)
  induction lines generalizing c with
  | nil => cases h
  | cons line lines ih =>
    obtain ⟨event, bytes⟩ := line
    cases event with
    | none => exact ih h _
    | some event =>
      rcases List.mem_cons.mp h with rfl | h
      · exact hkeeps lines _ (reaches_absorb c e bytes)
      · exact ih h _

/-- a record a coverage stands in front of sorts behind every record it reaches -/
theorem Reaches.behind {c : Coverage} {a b : Envelope} (ha : c.Reaches a) (hb : c.isInFrontOf b = true) : Behind a b := by
  obtain ⟨⟨«at», hat, hle⟩, ⟨reached, hreached, hseq⟩⟩ := ha
  rw [isInFrontOf, Bool.and_eq_true, hat, Option.all_some, decide_eq_true_iff] at hb
  refine ⟨hle.trans hb.1, fun hstream => hseq.trans ?_⟩
  have hfront := hb.2
  rw [← hstream, hreached, Option.all_some, decide_eq_true_iff] at hfront
  exact hfront

end Coverage

/-- **A covered fold extended.** Where a coverage that absorbed a store's covered lines stands in front of every record
past them, the store's merge order is the covered records' and then the rest's, and its fold is the rest folded onto the
covered fold. -/
theorem covered_extends (host : Host) {lines : List (Option Envelope × ℕ)} {covered rest : List Envelope}
    (hcovered : lines.filterMap Prod.fst = covered)
    (h : ∀ e ∈ rest, (({} : Coverage).absorbAll lines).isInFrontOf e = true) :
    mergeOrder (covered ++ rest) = mergeOrder covered ++ mergeOrder rest ∧
      RunState.fold host (mergeOrder (covered ++ rest)) =
        (mergeOrder rest).foldl (RunState.foldRecord host) (RunState.fold host (mergeOrder covered)) := by
  have horder : mergeOrder (covered ++ rest) = mergeOrder covered ++ mergeOrder rest :=
    mergeOrder_append fun a ha b hb => (Coverage.reaches_absorbAll (hcovered ▸ ha) {}).behind (h b hb)
  exact ⟨horder, by rw [horder, RunState.fold, List.foldl_append]; rfl⟩

/-- a record of a stream, stamped with a time of its own -/
def Envelope.stamped (ts stream : String) (seq : ℕ) : Envelope :=
  { v := 2, ts, stream, seq, node := none, body := .driverAdopted }

/-- two streams covered, one of them out of the order of its times, and a record that repeats the last covered one -/
theorem covered_extends_at_a_tie :
    mergeOrder [.stamped "10:00" "driver" 1, .stamped "09:00" "driver" 2, .stamped "10:00" "relay" 4,
        .stamped "10:00" "relay" 4] =
      mergeOrder [.stamped "10:00" "driver" 1, .stamped "09:00" "driver" 2, .stamped "10:00" "relay" 4] ++
        mergeOrder [.stamped "10:00" "relay" 4] := by
  let lines : List (Option Envelope × ℕ) :=
    [(some (.stamped "10:00" "driver" 1), 40), (some (.stamped "09:00" "driver" 2), 40), (none, 7),
      (some (.stamped "10:00" "relay" 4), 40)]
  have hcovered : lines.filterMap Prod.fst =
      [.stamped "10:00" "driver" 1, .stamped "09:00" "driver" 2, .stamped "10:00" "relay" 4] := rfl
  refine (covered_extends .lenient hcovered ?_).1
  intro e he
  rw [List.mem_singleton.mp he]
  decide

end OnePipeline
