/-
The run-end hook fires at most once per epoch, whoever judges the run.

Results:
- `retires_cases`: what a record that takes a standing marker away is;
- `mem_endedBy`: the places `epochs` notes are those of the records that retired a marker;
- `step_once`: a step of any process keeps the invariant `Once`;
- `fires_once_per_epoch`: between two firings some record retired the first one's marker.

A process reads the journal inside the handover, so every earlier firing is in what it read. The journal is folded in the
order it was appended in, so a marker that is gone again was retired by a record appended behind its firing.
-/
import Mathlib.Tactic
import OnePipeline.Model.Edits
import OnePipeline.Model.Hooks

namespace OnePipeline.Hooks

variable {host : Host}

/-! ## What a record does to the marker -/

/-- a record that takes a standing marker away -/
def Retires (host : Host) (s : Marked) (r : Envelope) : Prop :=
  s.hookMarker.isSome = true ∧ (s.foldOne host r).hookMarker = none

/-- a record that ends an epoch: an edit that changed the graph's ending, or an adoption carrying the epoch's flag -/
inductive EndsEpoch (host : Host) (s : Marked) (r : Envelope) : Prop
  | edit {operations : Option (List Operation)} {was : Ended} (body : r.body = .editCommitted operations)
      (ended : ending s.toRunState = some was)
      (changed : ending (s.toRunState.foldRecord host r) ≠ some was)
  | adoption (body : r.body = .driverAdopted true)

theorem before_eq_some {s : Marked} {r : Envelope} {was : Ended} (h : s.before r = some was) :
    (∃ operations, r.body = .editCommitted operations) ∧ ending s.toRunState = some was := by
  unfold Marked.before at h
  split at h
  · rename_i operations hbody
    split_ifs at h
    exact ⟨⟨operations, hbody⟩, h⟩
  · cases h

theorem after_eq_none {before : Option Ended} {s : Marked} {r : Envelope} (hs : s.hookMarker.isSome = true)
    (hnone : (Marked.after before s r).hookMarker = none) :
    (∃ was, before = some was ∧ ending s.toRunState ≠ some was) ∨ r.body = .driverAdopted true := by
  rw [Marked.after] at hnone
  by_cases hedit : (before.any fun was => s.strict && ending s.toRunState ≠ some was) = true
  · cases before with
    | none => cases hedit
    | some was =>
      rw [Option.any_some, Bool.and_eq_true, decide_eq_true_iff] at hedit
      exact .inl ⟨was, rfl, hedit.2⟩
  · rw [if_neg hedit] at hnone
    split at hnone
    · rename_i hbody
      exact .inr hbody
    · cases hnone
    · rw [hnone] at hs
      cases hs

/-- **A retired marker.** Only an edit that changed the graph's ending and a flagged adoption take a marker away. -/
theorem retires_cases {s : Marked} {r : Envelope} (h : Retires host s r) : EndsEpoch host s r := by
  obtain ⟨hstands, hgone⟩ := h
  let held : Marked := { s with toRunState := s.toRunState.foldRecord host r }
  have hheld : held.hookMarker.isSome = true := hstands
  rcases after_eq_none hheld hgone with ⟨was, hwas, hchanged⟩ | hbody
  · obtain ⟨⟨operations, hbody⟩, hended⟩ := before_eq_some hwas
    exact .edit hbody hended hchanged
  · exact .adoption hbody

/-- a firing leaves a marker standing -/
theorem marker_of_firing {s : Marked} {f : Envelope} (hf : isFiring f = true) :
    (s.foldOne host f).hookMarker.isSome = true := by
  unfold isFiring at hf
  split at hf
  · rename_i hbody
    rw [Marked.foldOne, Marked.after]
    have hbefore : s.before f = none := by
      rw [Marked.before, hbody]
    rw [hbefore, hbody]
    rfl
  · cases hf

theorem folded_append (a b : List Envelope) :
    Marked.folded host (a ++ b) = b.foldl (Marked.foldOne host) (Marked.folded host a) :=
  List.foldl_append

/-- records behind a standing marker that leave none: one of them retired it, and it stood until then -/
theorem exists_retiring {s : Marked} {b : List Envelope} (hs : s.hookMarker.isSome = true)
    (hgone : (b.foldl (Marked.foldOne host) s).hookMarker = none) :
    ∃ b₁ r b₂, b = b₁ ++ r :: b₂ ∧ Retires host (b₁.foldl (Marked.foldOne host) s) r ∧
      ∀ t, t <+: b₁ → (t.foldl (Marked.foldOne host) s).hookMarker.isSome = true := by
  induction b generalizing s with
  | nil =>
    rw [List.foldl_nil] at hgone
    rw [hgone] at hs
    cases hs
  | cons r b ih =>
    rcases Option.eq_none_or_eq_some (s.foldOne host r).hookMarker with hnone | ⟨m, hsome⟩
    · refine ⟨[], r, b, rfl, ⟨hs, hnone⟩, ?_⟩
      intro t ht
      rw [List.prefix_nil.mp ht]
      exact hs
    · obtain ⟨b₁, r', b₂, hb, hretires, hstood⟩ := ih (by rw [hsome]; rfl) hgone
      refine ⟨r :: b₁, r', b₂, by rw [hb, List.cons_append], hretires, ?_⟩
      intro t ht
      cases t with
      | nil => exact hs
      | cons x t =>
        obtain ⟨rfl, htail⟩ := List.cons_prefix_cons.mp ht
        exact hstood t htail

/-! ## The walk -/

theorem walk_state (l : List Envelope) (k : ℕ) (walked : Marked × List ℕ) :
    ((l.zipIdx k).foldl (walkOne host) walked).1 = l.foldl (Marked.foldOne host) walked.1 := by
  induction l generalizing k walked with
  | nil => rfl
  | cons e l ih => exact ih (k + 1) _

theorem fired_eq (journal : List Envelope) : fired host journal = (Marked.folded host journal).hookMarker.isSome := by
  rw [fired, epochs, walk_state]
  rfl

/-- the places noted while records are walked -/
theorem mem_walk (l : List Envelope) (k : ℕ) (walked : Marked × List ℕ) (i : ℕ) :
    i ∈ ((l.zipIdx k).foldl (walkOne host) walked).2 ↔
      i ∈ walked.2 ∨ ∃ a r b, l = a ++ r :: b ∧ i = k + a.length ∧ Retires host (a.foldl (Marked.foldOne host) walked.1) r := by
  induction l generalizing k walked with
  | nil => simp
  | cons e l ih =>
    rw [List.zipIdx_cons, List.foldl_cons, ih]
    have hnoted : i ∈ (walkOne host walked (e, k)).2 ↔ i ∈ walked.2 ∨ i = k ∧ Retires host walked.1 e := by
      rw [walkOne, Retires]
      split_ifs with hretired
      · rw [Bool.and_eq_true, Option.isNone_iff_eq_none] at hretired
        rw [List.mem_append, List.mem_singleton, and_iff_left hretired]
      · rw [Bool.and_eq_true, Option.isNone_iff_eq_none] at hretired
        rw [or_iff_left fun h => hretired h.2]
    rw [hnoted, or_assoc]
    refine or_congr_right ⟨?_, ?_⟩
    · intro h
      rcases h with ⟨rfl, hretires⟩ | ⟨a, r, b, rfl, rfl, hretires⟩
      · exact ⟨[], e, l, rfl, rfl, hretires⟩
      · exact ⟨e :: a, r, b, rfl, by rw [List.length_cons]; omega, hretires⟩
    · intro h
      obtain ⟨a, r, b, hl, rfl, hretires⟩ := h
      cases a with
      | nil =>
        obtain ⟨rfl, rfl⟩ := List.cons.inj hl
        exact .inl ⟨rfl, hretires⟩
      | cons x a =>
        obtain ⟨rfl, rfl⟩ := List.cons.inj hl
        exact .inr ⟨a, r, b, rfl, by rw [List.length_cons]; omega, hretires⟩

/-- **Ended epochs.** The places the walk notes are those of the records that retired a marker. -/
theorem mem_endedBy (journal : List Envelope) (i : ℕ) :
    i ∈ (epochs host journal).endedBy ↔
      ∃ a r b, journal = a ++ r :: b ∧ i = a.length ∧ Retires host (Marked.folded host a) r := by
  rw [epochs, mem_walk]
  simp [Marked.folded]

/-! ## One firing an epoch -/

/-- between two firings of a journal a record retired the first one's marker, which stood until then -/
def OncePerEpoch (host : Host) (journal : List Envelope) : Prop :=
  ∀ a f b g c, journal = a ++ f :: (b ++ g :: c) → isFiring f = true → isFiring g = true →
    ∃ b₁ r b₂, b = b₁ ++ r :: b₂ ∧ EndsEpoch host (Marked.folded host (a ++ f :: b₁)) r ∧
      (a ++ f :: b₁).length ∈ (epochs host journal).endedBy ∧
      ∀ t, t <+: b₁ → (Marked.folded host (a ++ f :: t)).hookMarker.isSome = true

/-- the invariant: one firing an epoch, and behind what a process read that found no marker, no firing -/
structure Once (host : Host) (s : System) : Prop where
  once : OncePerEpoch host s.journal
  unfired : ∀ process, s.handover = some (process, .judged false) →
    ∃ read rest, s.journal = read ++ rest ∧ fired host read = false ∧ ∀ e ∈ rest, isFiring e = false

/-- a record behind a journal leaves the firings in it as they were -/
theorem OncePerEpoch.append {journal : List Envelope} (h : OncePerEpoch host journal) {e : Envelope}
    (hlast : isFiring e = true → ∀ a f b, journal = a ++ f :: b → isFiring f = true →
      ∃ b₁ r b₂, b = b₁ ++ r :: b₂ ∧ Retires host (Marked.folded host (a ++ f :: b₁)) r ∧
        ∀ t, t <+: b₁ → (Marked.folded host (a ++ f :: t)).hookMarker.isSome = true) :
    OncePerEpoch host (journal ++ [e]) := by
  intro a f b g c heq hf hg
  rcases List.eq_nil_or_concat c with rfl | ⟨c, x, rfl⟩
  · have hsplit : journal ++ [e] = (a ++ f :: b) ++ [g] := by
      rw [heq, List.append_assoc, List.cons_append]
    obtain ⟨hj, hge⟩ := List.append_inj' hsplit rfl
    obtain rfl : e = g := List.singleton_inj.mp hge
    obtain ⟨b₁, r, b₂, hb, hretires, hstood⟩ := hlast hg a f b hj hf
    refine ⟨b₁, r, b₂, hb, retires_cases hretires, ?_, hstood⟩
    exact (mem_endedBy _ _).mpr ⟨a ++ f :: b₁, r, b₂ ++ [e], by rw [heq, hb]; simp, rfl, hretires⟩
  · have hsplit : journal ++ [e] = (a ++ f :: (b ++ g :: c)) ++ [x] := by
      rw [heq, List.concat_eq_append]
      simp
    obtain ⟨hj, -⟩ := List.append_inj' hsplit rfl
    obtain ⟨b₁, r, b₂, hb, hends, hnoted, hstood⟩ := h a f b g c hj hf hg
    refine ⟨b₁, r, b₂, hb, hends, ?_, hstood⟩
    obtain ⟨a', r', b', hj', hlen, hretires⟩ := (mem_endedBy _ _).mp hnoted
    exact (mem_endedBy _ _).mpr ⟨a', r', b' ++ [e], by rw [hj']; simp, hlen, hretires⟩

/-- what a process that found no marker read holds, of every firing in it, the record that retired it -/
theorem retired_of_unfired {journal read rest : List Envelope} (hj : journal = read ++ rest)
    (hun : fired host read = false) (hrest : ∀ e ∈ rest, isFiring e = false) {a b : List Envelope} {f : Envelope}
    (heq : journal = a ++ f :: b) (hf : isFiring f = true) :
    ∃ b₁ r b₂, b = b₁ ++ r :: b₂ ∧ Retires host (Marked.folded host (a ++ f :: b₁)) r ∧
      ∀ t, t <+: b₁ → (Marked.folded host (a ++ f :: t)).hookMarker.isSome = true := by
  -- the firing is in what was read: behind it nothing fired
  have hread : ∃ c, read = a ++ f :: c ∧ b = c ++ rest := by
    rcases List.append_eq_append_iff.mp (hj.symm.trans heq) with ⟨c, ha, hr⟩ | ⟨c, hread, hb⟩
    · have hin : f ∈ rest := by
        rw [hr]
        exact List.mem_append_right _ List.mem_cons_self
      rw [hrest f hin] at hf
      cases hf
    · cases c with
      | nil =>
        have hin : f ∈ rest := by
          rw [List.nil_append] at hb
          rw [← hb]
          exact List.mem_cons_self
        rw [hrest f hin] at hf
        cases hf
      | cons x c =>
        obtain ⟨rfl, htail⟩ := List.cons.inj hb
        exact ⟨c, hread, htail⟩
  obtain ⟨c, hread, hb⟩ := hread
  rw [fired_eq, hread, folded_append, List.foldl_cons, Option.isSome_eq_false_iff, Option.isNone_iff_eq_none] at hun
  obtain ⟨b₁, r, b₂, hc, hretires, hstood⟩ := exists_retiring (marker_of_firing hf) hun
  have hfold (t : List Envelope) : Marked.folded host (a ++ f :: t) =
      t.foldl (Marked.foldOne host) ((Marked.folded host a).foldOne host f) := by
    rw [folded_append, List.foldl_cons]
  refine ⟨b₁, r, b₂ ++ rest, by rw [hb, hc]; simp, hfold b₁ ▸ hretires, ?_⟩
  intro t ht
  rw [hfold]
  exact hstood t ht

/-- **A step of any process.** -/
theorem step_once {s : System} (h : Once host s) (op : Op) : Once host (step host s op) := by
  cases op with
  | append event =>
    rw [step]
    split_ifs with hfiring
    · exact h
    · have hnot : isFiring event = false := by simpa using hfiring
      refine ⟨h.once.append fun hf => absurd hf hfiring, ?_⟩
      intro process hheld
      obtain ⟨read, rest, hj, hun, hrest⟩ := h.unfired process hheld
      refine ⟨read, rest ++ [event], by rw [hj, List.append_assoc], hun, ?_⟩
      intro e he
      rcases List.mem_append.mp he with he | he
      · exact hrest e he
      · rw [List.mem_singleton.mp he]
        exact hnot
  | hold process =>
    rw [step]
    split_ifs
    · exact ⟨h.once, fun p hheld => by cases hheld⟩
    · exact h
  | read process =>
    rw [step]
    split_ifs
    · refine ⟨h.once, fun p hheld => ⟨s.journal, [], (List.append_nil _).symm, ?_, fun e he => by cases he⟩⟩
      obtain ⟨rfl, hstage⟩ := Prod.mk.inj (Option.some.inj hheld)
      exact Stage.judged.inj hstage
    · exact h
  | emit process ts seq =>
    rw [step]
    split_ifs with hheld
    · obtain ⟨read, rest, hj, hun, hrest⟩ := h.unfired process hheld
      refine ⟨h.once.append fun _ a f b heq hf => retired_of_unfired hj hun hrest heq hf, fun p hp => ?_⟩
      cases hp
    · exact h
  | drop process =>
    rw [step]
    split_ifs
    · exact ⟨h.once, fun p hheld => by cases hheld⟩
    · exact h

/-- **Once per epoch.** In every run of any number of processes, each appending records and each judging the run under
the handover, between two firings a record retired the first one's marker: an edit that changed the graph's ending, or an
adoption carrying the epoch's flag. -/
theorem fires_once_per_epoch (host : Host) (ops : List Op) : OncePerEpoch host (run host ops).journal := by
  have hstart : Once host {} := by
    refine ⟨?_, fun process hheld => by cases hheld⟩
    intro a f b g c heq
    cases a <;> cases heq
  have hrun (ops : List Op) (s : System) (h : Once host s) : Once host (ops.foldl (step host) s) := by
    induction ops generalizing s with
    | nil => exact h
    | cons op ops ih => exact ih _ (step_once h op)
  exact (hrun ops {} hstart).once

/-- two processes that both judge one ending -/
example : ((run Host.lenient [.hold "driver", .hold "stop", .read "driver", .read "stop", .emit "driver" "10:02" 0,
    .emit "stop" "10:01" 0, .drop "driver", .hold "stop", .read "stop", .emit "stop" "10:01" 0]).journal.map
      Envelope.stream) = ["driver"] := by decide +kernel

/-- an adoption that says of itself what the rule says of the state it adopts retires a marker fired over a live graph -/
theorem retired_by_adoption {s : Marked} {r : Envelope} {decisionOutstanding : Bool} (h : Retires host s r)
    (hr : r.body = .driverAdopted (adoptionStartsEpoch s decisionOutstanding)) : s.hookMarker = some .live := by
  rcases retires_cases h with ⟨hbody, -, -⟩ | hbody
  · rw [hr] at hbody
    cases hbody
  · rw [hr, Body.driverAdopted.injEq, adoptionStartsEpoch] at hbody
    split_ifs at hbody with hguard
    by_contra hnot
    exact hguard (by simp [hnot])

end OnePipeline.Hooks
