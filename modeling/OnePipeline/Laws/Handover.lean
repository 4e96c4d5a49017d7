/-
No accepted command is stranded.

An entry is numbered above the highest one seen, and only above one whose maker was proved gone. While that entry still
stands as it was read, every number below an entry is of a party that is gone, and one party at most is inside.

Results:
- `Gated.one`: of the live parties one at most has made an entry and not taken it away;
- `settled_of_isEmpty`: what an owner that finds nothing to claim leaves on the queue is answered;
- `nothing_stranded`: where a party answered that a holder is gone is answered so while the entry it read stands, one
  live party at most is inside the section, and a run let go of with Released leaves nothing unanswered waiting;
- `answered_after_it_left`: a holder that took its entry away before it died, and whose number another then took, is
  stepped over with the other inside; its envelope is appended to a run that was let go of.
-/
import Mathlib.Tactic
import OnePipeline.Core.Runs
import OnePipeline.Model.Handover

namespace OnePipeline.Handover

open Runs
open Ownership (Life)

section

variable {P : Type} {m : Machine P} {s s' : State P} {p q : P} {n : ℕ}

/-! ## The gate -/

/-- an entry of the number stands, and no live party is inside by it -/
structure Past (s : State P) (n : ℕ) : Prop where
  stands : ∃ e ∈ s.entries, e.number = n
  free : ∀ p, s.life p = .live → (s.phase p).number ≠ some n

/-- every number below an entry is past, and a live party's entry is there and is its own -/
structure Gated (m : Machine P) (s : State P) : Prop where
  unborn : ∀ p, s.life p = .unborn → s.phase p = .idle
  stands : ∀ p n, s.life p = .live → (s.phase p).number = some n → ∃ e ∈ s.entries, e.number = n
  names : ∀ p n, s.life p = .live → (s.phase p).number = some n →
    ∀ e ∈ s.entries, e.number = n → ∀ who, e.body = some who → m.who p = who
  apart : ∀ p q n, s.life p = .live → s.life q = .live → (s.phase p).number = some n → (s.phase q).number = some n → p = q
  below : ∀ e ∈ s.entries, 1 ≤ e.number ∧ ∀ j, 1 ≤ j → j < e.number → Past s j
  creates : ∀ p work below, s.life p = .live → s.phase p = .creating work below → ∀ j, 1 ≤ j → j ≤ below → Past s j

/-- **One inside.** Of two live parties inside, the lower number is past, so they are at one number and are one. -/
theorem Gated.one (h : Gated m s) (hp : s.life p = .live) (hq : s.life q = .live) (hpn : (s.phase p).number.isSome)
    (hqn : (s.phase q).number.isSome) : p = q := by
  obtain ⟨n, hn⟩ := Option.isSome_iff_exists.mp hpn
  obtain ⟨k, hk⟩ := Option.isSome_iff_exists.mp hqn
  have hlower {p q : P} {n k : ℕ} (hp : s.life p = .live) (hq : s.life q = .live) (hn : (s.phase p).number = some n)
      (hk : (s.phase q).number = some k) : ¬n < k := by
    intro hlt
    obtain ⟨e, he, rfl⟩ := h.stands p n hp hn
    obtain ⟨e', he', rfl⟩ := h.stands q k hq hk
    exact ((h.below e' he').2 e.number (h.below e he).1 hlt).free p hp hn
  have heq : n = k := le_antisymm (not_lt.mp (hlower hq hp hk hn)) (not_lt.mp (hlower hp hq hn hk))
  subst heq
  exact h.apart p q n hp hq hn hk

/-- an entry that stands with the body of one no live party is, is past -/
theorem Gated.past_of_gone (h : Gated m s) {who : Identity} (hentry : ⟨n, some who⟩ ∈ s.entries) (hgone : s.Proves m who) :
    Past s n := by
  refine ⟨⟨_, hentry, rfl⟩, fun p hp hn => ?_⟩
  exact hgone p (h.names p n hp hn _ hentry rfl who rfl) hp

/-- what a step keeps of the numbers that are past: the entries stand, and nobody comes to be inside by one -/
structure Keeps (s s' : State P) : Prop where
  entries : ∀ n, (∃ e ∈ s.entries, e.number = n) → Past s n → ∃ e ∈ s'.entries, e.number = n
  inside : ∀ p n, Past s n → s'.life p = .live → (s'.phase p).number = some n → s.life p = .live ∧ (s.phase p).number = some n

theorem Past.keeps (h : Past s n) (hk : Keeps s s') : Past s' n := by
  refine ⟨hk.entries n h.stands h, fun p hp hn => ?_⟩
  obtain ⟨hlive, hnumber⟩ := hk.inside p n h hp hn
  exact h.free p hlive hnumber

/-- a state that differs in the lock and the queue alone -/
theorem Gated.beside (h : Gated m s) (hentries : s'.entries = s.entries) (hphase : s'.phase = s.phase) (hlife : s'.life = s.life) :
    Gated m s' := by
  have hkeeps : Keeps s s' := by
    refine ⟨fun n he _ => ?_, fun p n _ hp hn => ?_⟩
    · rw [hentries]
      exact he
    · rw [hlife] at hp
      rw [hphase] at hn
      exact ⟨hp, hn⟩
  refine ⟨?_, ?_, ?_, ?_, fun e he => ?_, fun p work below hp hφ j hj hle => ?_⟩
  · rw [hlife, hphase]
    exact h.unborn
  · rw [hlife, hphase, hentries]
    exact h.stands
  · rw [hlife, hphase, hentries]
    exact h.names
  · rw [hlife, hphase]
    exact h.apart
  · rw [hentries] at he
    exact ⟨(h.below e he).1, fun j hj hlt => ((h.below e he).2 j hj hlt).keeps hkeeps⟩
  · rw [hlife] at hp
    rw [hphase] at hφ
    exact (h.creates p work below hp hφ j hj hle).keeps hkeeps

/-! ## The queue -/

/-- nothing waits unanswered -/
def Queue.Settled (queue : Queue) : Prop := ∀ r ∈ queue.waiting, r.decodes = true ∧ r.id ∈ queue.outcomes

/-- **The last look.** -/
theorem settled_of_isEmpty {queue : Queue} {waiting : List Queued} (hreads : ∀ r ∈ queue.waiting, r ∈ waiting)
    (hempty : (claimableCommands waiting queue.outcomes).isEmpty = true) : queue.Settled := by
  intro r hr
  unfold Claimable.isEmpty claimableCommands at hempty
  simp only [Bool.and_eq_true, List.isEmpty_iff, beq_iff_eq, List.filter_eq_nil_iff, List.countP_eq_zero] at hempty
  have hdecodes : r.decodes = true := by
    have hno := hempty.2 r (hreads r hr)
    simpa using hno
  refine ⟨hdecodes, ?_⟩
  have hanswered := hempty.1 r (hreads r hr)
  rw [hdecodes] at hanswered
  have hmem : r.id ∈ answeredAmong waiting queue.outcomes := by simpa using hanswered
  exact (List.mem_filter.mp hmem).1

theorem waiting_claim {queue : Queue} {r : Queued} (h : r ∈ queue.claim.waiting) : r ∈ queue.waiting := by
  unfold Queue.claim at h
  split_ifs at h
  · have hdrop : r ∈ queue.waiting.drop 1 := by
      rw [Queue.waiting, List.drop_drop]
      exact h
    exact List.mem_of_mem_drop hdrop
  · exact h

theorem outcomes_claim (queue : Queue) : queue.claim.outcomes = queue.outcomes := by
  unfold Queue.claim
  split_ifs <;> rfl

theorem Queue.Settled.claim {queue : Queue} (h : queue.Settled) : queue.claim.Settled := by
  intro r hr
  rw [outcomes_claim]
  exact h r (waiting_claim hr)

theorem Queue.Settled.answer {queue : Queue} (h : queue.Settled) (id : ℕ) : (queue.answer id).Settled := fun r hr =>
  ⟨(h r hr).1, List.mem_append_left _ (h r hr).2⟩

/-- what an owner or a submitter relies on where it stands -/
def Fits (s : State P) (p : P) : Phase → Prop
  | .listing work | .looking work _ | .doubting work _ _ | .creating work _ | .filling work _ => work = .letGo → s.held p = true
  | .appending _ _ => s.released = false
  | .reading _ => s.held p = true
  | .answering _ waiting => s.held p = true ∧ ∀ r ∈ s.queue.waiting, r ∈ waiting
  | .releasing _ => s.held p = true ∧ s.queue.Settled
  | .idle | .trying _ _ | .inside _ | .leaving _ => True

/-- one live party at most holds the lock, and a run let go of with Released is free and leaves nothing unanswered -/
structure Handed (s : State P) : Prop where
  unborn : ∀ p, s.life p = .unborn → s.held p = false
  fits : ∀ p, s.life p = .live → Fits s p (s.phase p)
  holder : ∀ p, s.life p = .live → s.held p = true → s.lock = some p
  released : s.released = true → s.lock = none ∧ s.queue.Settled

/-- one that holds the lock where a phase says so fits where it stands, the queue having only been read off -/
theorem Fits.read {φ : Phase} (h : Fits s p φ) (hheld : s.held p = true → s'.held p = true)
    (hreleased : s.released = false → s'.released = false) (hwaiting : ∀ r ∈ s'.queue.waiting, r ∈ s.queue.waiting)
    (hsettled : s.queue.Settled → s'.queue.Settled) : Fits s' p φ := by
  cases φ with
  | idle | trying _ _ | inside _ | leaving _ => trivial
  | listing work | looking work _ | doubting work _ _ | creating work _ | filling work _ => exact fun hw => hheld (h hw)
  | appending _ _ => exact hreleased h
  | reading _ => exact hheld h
  | answering _ waiting => exact ⟨hheld h.1, fun r hr => h.2 r (hwaiting r hr)⟩
  | releasing _ => exact ⟨hheld h.1, hsettled h.2⟩

/-- one that is not inside, or holds nothing there, fits whatever becomes of the queue -/
theorem Fits.outside {φ : Phase} (h : Fits s p φ) (hheld : s.held p = true → s'.held p = true) (hout : φ.number = none) :
    Fits s' p φ := by
  cases φ with
  | idle => trivial
  | listing work | looking work _ | doubting work _ _ | creating work _ => exact fun hw => hheld (h hw)
  | filling _ _ | trying _ _ | appending _ _ | reading _ | answering _ _ | releasing _ | inside _ | leaving _ => cases hout

/-- a party that does not hold the lock fits whatever is appended -/
theorem fits_append_of_not_held {φ : Phase} {decodes : Bool} (h : Fits s p φ) (hheld : s.held p ≠ true) :
    Fits (s.append m decodes) p φ := by
  cases φ with
  | idle | trying _ _ | inside _ | leaving _ => trivial
  | listing work | looking work _ | doubting work _ _ | creating work _ | filling work _ => exact h
  | appending _ _ => exact h
  | reading _ => exact h
  | answering _ _ | releasing _ => exact absurd h.1 hheld

/-- a party free of both sections fits anything -/
theorem fits_of_free {φ : Phase} (h : φ.free = true) : Fits s p φ := by
  cases φ with
  | idle | inside _ => trivial
  | _ => cases h

theorem ne_of_unborn (hlive : s.life p = .live) (hq : s.life q = .unborn) : q ≠ p := by
  rintro rfl
  rw [hlive] at hq
  cases hq

/-- a party's entry filled with its identity -/
theorem Gated.fill (h : Gated m s) (hlive : s.life p = .live) (hphase : (s.phase p).number = some n) :
    Gated m (s.fillEntry n (m.who p)) := by
  have hentry {e : Entry} (he : e ∈ (s.fillEntry n (m.who p)).entries) :
      (∃ old ∈ s.entries, old.number = e.number) ∧ (e ∈ s.entries ∨ e.number = n ∧ e.body = some (m.who p)) := by
    obtain ⟨old, hold, rfl⟩ := List.mem_map.mp he
    split_ifs with hn
    · exact ⟨⟨old, hold, rfl⟩, .inr ⟨hn, rfl⟩⟩
    · exact ⟨⟨old, hold, rfl⟩, .inl hold⟩
  have hstands {k : ℕ} (hk : ∃ e ∈ s.entries, e.number = k) : ∃ e ∈ (s.fillEntry n (m.who p)).entries, e.number = k := by
    obtain ⟨e, he, heq⟩ := hk
    refine ⟨_, List.mem_map_of_mem he, ?_⟩
    split_ifs
    · exact heq
    · exact heq
  have hkeeps : Keeps s (s.fillEntry n (m.who p)) := ⟨fun k he _ => hstands he, fun q k _ hq hk => ⟨hq, hk⟩⟩
  refine ⟨h.unborn, fun q k hq hk => hstands (h.stands q k hq hk), fun q k hq hk e he heq who hwho => ?_, h.apart, fun e he => ?_,
    fun q work below hq hφ j hj hle => (h.creates q work below hq hφ j hj hle).keeps hkeeps⟩
  · rcases (hentry he).2 with hold | ⟨hn, hbody⟩
    · exact h.names q k hq hk e hold heq who hwho
    · rw [hbody] at hwho
      cases hwho
      rw [← heq, hn] at hk
      rw [h.apart q p n hq hlive hk hphase]
  · obtain ⟨⟨old, hold, heq⟩, -⟩ := hentry he
    rw [← heq]
    exact ⟨(h.below old hold).1, fun j hj hlt => ((h.below old hold).2 j hj hlt).keeps hkeeps⟩

/-- a state that differs in the entries alone -/
theorem Handed.beside (h : Handed s) {entries : List Entry} {stranger : Bool} : Handed { s with entries, stranger } :=
  ⟨h.unborn, fun q hq => (h.fits q hq).read id id (fun _ hr => hr) id, h.holder, h.released⟩

/-- what waits on the queue only read off, or answered -/
theorem Handed.queue (h : Handed s) {queue : Queue} (hwaiting : ∀ r ∈ queue.waiting, r ∈ s.queue.waiting)
    (hsettled : s.queue.Settled → queue.Settled) : Handed { s with queue } :=
  ⟨h.unborn, fun q hq => (h.fits q hq).read id id hwaiting hsettled, h.holder,
    fun hr => ⟨(h.released hr).1, hsettled (h.released hr).2⟩⟩

/-- a record appended to the queue of a run that is held -/
theorem Handed.append (h : Handed s) {decodes : Bool} (hreleased : s.released = false)
    (hfits : ∀ q, s.life q = .live → Fits (s.append m decodes) q (s.phase q)) : Handed (s.append m decodes) := by
  refine ⟨h.unborn, hfits, h.holder, fun hr => ?_⟩
  rw [show (s.append m decodes).released = s.released from rfl, hreleased] at hr
  cases hr

/-- the gate and the run's lock and queue, together -/
structure Sound (m : Machine P) (s : State P) : Prop where
  gate : Gated m s
  run : Handed s

/-- a party inside is alone there: another looks at the queue for no run it lets go of -/
theorem Sound.alone (h : Sound m s) (hlive : s.life p = .live) (hinside : (s.phase p).number.isSome) (hq : s.life q = .live)
    (hne : q ≠ p) (hheld : s.held q = true → s'.held q = true) : Fits s' q (s.phase q) := by
  refine (h.run.fits q hq).outside hheld ?_
  by_contra hsome
  exact hne (h.gate.one hq hlive (Option.isSome_iff_ne_none.mpr hsome) hinside)

theorem sound_empty (m : Machine P) : Sound m {} :=
  ⟨⟨fun _ _ => rfl, fun _ _ h => (by cases h), fun _ _ h => (by cases h), fun _ _ _ h => (by cases h), fun _ h => (by cases h),
    fun _ _ _ h => (by cases h)⟩, ⟨fun _ _ => rfl, fun _ h => (by cases h), fun _ h => (by cases h), fun h => (by cases h)⟩⟩

variable [DecidableEq P]

@[simp] theorem phase_enter (s : State P) (p : P) (φ : Phase) : (s.enter p φ).phase p = φ := Function.update_self ..

theorem phase_enter_ne (s : State P) {p q : P} (φ : Phase) (h : q ≠ p) : (s.enter p φ).phase q = s.phase q :=
  Function.update_of_ne h ..

/-! ## One operation at the gate -/

/-- a party moved where it is inside by no other entry -/
theorem number_enter {φ : Phase} (hnumber : φ.number = none ∨ φ.number = (s.phase p).number)
    (h : ((s.enter p φ).phase q).number = some n) : (s.phase q).number = some n := by
  by_cases hq : q = p
  · subst hq
    rw [phase_enter] at h
    rcases hnumber with hnone | hsame
    · rw [hnone] at h
      cases h
    · exact hsame.symm.trans h
  · rwa [phase_enter_ne s φ hq] at h

/-- a party moved with the entries left as they are -/
theorem Gated.move (h : Gated m s) (hlive : s.life p = .live) {φ : Phase}
    (hnumber : φ.number = none ∨ φ.number = (s.phase p).number)
    (hcreates : ∀ work below, φ = .creating work below → ∀ j, 1 ≤ j → j ≤ below → Past s j) : Gated m (s.enter p φ) := by
  have hkeeps : Keeps s (s.enter p φ) := ⟨fun n he _ => he, fun q n _ hq hn => ⟨hq, number_enter hnumber hn⟩⟩
  refine ⟨fun q hq => ?_, fun q n hq hn => ?_, fun q n hq hn => ?_, fun q r n hq hr hqn hrn => ?_, fun e he => ?_,
    fun q work below hq hφ j hj hle => ?_⟩
  · rw [phase_enter_ne s φ (ne_of_unborn hlive hq)]
    exact h.unborn q hq
  · exact h.stands q n hq (number_enter hnumber hn)
  · exact h.names q n hq (number_enter hnumber hn)
  · exact h.apart q r n hq hr (number_enter hnumber hqn) (number_enter hnumber hrn)
  · exact ⟨(h.below e he).1, fun j hj hlt => ((h.below e he).2 j hj hlt).keeps hkeeps⟩
  · by_cases hqp : q = p
    · subst hqp
      rw [phase_enter] at hφ
      exact (hcreates work below hφ j hj hle).keeps hkeeps
    · rw [phase_enter_ne s φ hqp] at hφ
      exact (h.creates q work below hq hφ j hj hle).keeps hkeeps

/-- a party moved to where it makes nothing -/
theorem Gated.moveOn (h : Gated m s) (hlive : s.life p = .live) {φ : Phase}
    (hnumber : φ.number = none ∨ φ.number = (s.phase p).number) (hφ : ∀ work below, φ ≠ .creating work below) :
    Gated m (s.enter p φ) :=
  h.move hlive hnumber fun work below heq => absurd heq (hφ work below)

/-- the entry above the highest a party saw, made -/
theorem Gated.make (h : Gated m s) (hlive : s.life p = .live) {work : Work} {below : ℕ} (hphase : s.phase p = .creating work below)
    (hfree : ∀ e ∈ s.entries, e.number ≠ below + 1) :
    Gated m ((s.makeEntry (below + 1)).enter p (.filling work (below + 1))) := by
  have hnumber {q : P} {n : ℕ} (hn : (((s.makeEntry (below + 1)).enter p (.filling work (below + 1))).phase q).number = some n) :
      q = p ∧ n = below + 1 ∨ q ≠ p ∧ (s.phase q).number = some n := by
    by_cases hq : q = p
    · subst hq
      rw [phase_enter] at hn
      exact .inl ⟨rfl, (Option.some.inj hn).symm⟩
    · rw [phase_enter_ne _ _ hq] at hn
      exact .inr ⟨hq, hn⟩
  -- nobody is inside by the number the entry is made at, since none stands
  have hnobody (q : P) (hq : s.life q = .live) : (s.phase q).number ≠ some (below + 1) := by
    intro hn
    obtain ⟨e, he, heq⟩ := h.stands q _ hq hn
    exact hfree e he heq
  have hkeeps : Keeps s ((s.makeEntry (below + 1)).enter p (.filling work (below + 1))) := by
    refine ⟨fun n he _ => ?_, fun q n hpast hq hn => ?_⟩
    · obtain ⟨e, he, heq⟩ := he
      exact ⟨e, List.mem_cons_of_mem _ he, heq⟩
    · rcases hnumber hn with ⟨-, rfl⟩ | ⟨-, hn⟩
      · obtain ⟨e, he, heq⟩ := hpast.stands
        exact absurd heq (hfree e he)
      · exact ⟨hq, hn⟩
  refine ⟨fun q hq => ?_, fun q n hq hn => ?_, fun q n hq hn e he heq who hwho => ?_, fun q r n hq hr hqn hrn => ?_,
    fun e he => ?_, fun q w b hq hφ j hj hle => ?_⟩
  · rw [phase_enter_ne _ _ (ne_of_unborn hlive hq)]
    exact h.unborn q hq
  · rcases hnumber hn with ⟨-, rfl⟩ | ⟨-, hn⟩
    · exact ⟨⟨below + 1, none⟩, List.mem_cons_self, rfl⟩
    · obtain ⟨e, he, heq⟩ := h.stands q n hq hn
      exact ⟨e, List.mem_cons_of_mem _ he, heq⟩
  · rcases List.mem_cons.mp he with rfl | he
    · cases hwho
    · rcases hnumber hn with ⟨-, rfl⟩ | ⟨-, hn⟩
      · exact absurd heq (hfree e he)
      · exact h.names q n hq hn e he heq who hwho
  · rcases hnumber hqn with ⟨hqp, hn⟩ | ⟨-, hqwas⟩
    · rcases hnumber hrn with ⟨hrp, -⟩ | ⟨-, hrwas⟩
      · rw [hqp, hrp]
      · rw [hn] at hrwas
        exact absurd hrwas (hnobody r hr)
    · rcases hnumber hrn with ⟨-, hn⟩ | ⟨-, hrwas⟩
      · rw [hn] at hqwas
        exact absurd hqwas (hnobody q hq)
      · exact h.apart q r n hq hr hqwas hrwas
  · rcases List.mem_cons.mp he with rfl | he
    · exact ⟨Nat.le_add_left 1 below,
        fun j hj hlt => (h.creates p work below hlive hphase j hj (Nat.lt_succ_iff.mp hlt)).keeps hkeeps⟩
    · exact ⟨(h.below e he).1, fun j hj hlt => ((h.below e he).2 j hj hlt).keeps hkeeps⟩
  · by_cases hqp : q = p
    · subst hqp
      rw [phase_enter] at hφ
      cases hφ
    · rw [phase_enter_ne _ _ hqp] at hφ
      exact (h.creates q w b hq hφ j hj hle).keeps hkeeps

/-- a party's entry taken away as it leaves -/
theorem Gated.remove (h : Gated m s) (hlive : s.life p = .live) (hphase : (s.phase p).number = some n) :
    Gated m ((s.removeEntry n).enter p .idle) := by
  have hnumber {q : P} {k : ℕ} (hk : (((s.removeEntry n).enter p .idle).phase q).number = some k) :
      q ≠ p ∧ (s.phase q).number = some k := by
    by_cases hq : q = p
    · subst hq
      rw [phase_enter] at hk
      cases hk
    · rw [phase_enter_ne _ _ hq] at hk
      exact ⟨hq, hk⟩
  have hstays {k : ℕ} (hne : k ≠ n) (hk : ∃ e ∈ s.entries, e.number = k) :
      ∃ e ∈ ((s.removeEntry n).enter p .idle).entries, e.number = k := by
    obtain ⟨e, he, heq⟩ := hk
    refine ⟨e, List.mem_filter.mpr ⟨he, ?_⟩, heq⟩
    simpa [heq] using hne
  have hkeeps : Keeps s ((s.removeEntry n).enter p .idle) := by
    refine ⟨fun k he hpast => hstays ?_ he, fun q k _ hq hk => ⟨hq, (hnumber hk).2⟩⟩
    rintro rfl
    exact hpast.free p hlive hphase
  refine ⟨fun q hq => ?_, fun q k hq hk => ?_, fun q k hq hk e he => ?_, fun q r k hq hr hqk hrk => ?_, fun e he => ?_,
    fun q work below hq hφ j hj hle => ?_⟩
  · rw [phase_enter_ne _ _ (ne_of_unborn hlive hq)]
    exact h.unborn q hq
  · obtain ⟨hne, hwas⟩ := hnumber hk
    refine hstays (fun heq => ?_) (h.stands q k hq hwas)
    rw [heq] at hwas
    exact hne (h.apart q p n hq hlive hwas hphase)
  · exact h.names q k hq (hnumber hk).2 e (List.mem_filter.mp he).1
  · exact h.apart q r k hq hr (hnumber hqk).2 (hnumber hrk).2
  · have hold := (List.mem_filter.mp he).1
    exact ⟨(h.below e hold).1, fun j hj hlt => ((h.below e hold).2 j hj hlt).keeps hkeeps⟩
  · by_cases hqp : q = p
    · subst hqp
      rw [phase_enter] at hφ
      cases hφ
    · rw [phase_enter_ne _ _ hqp] at hφ
      exact (h.creates q work below hq hφ j hj hle).keeps hkeeps

/-! ## One operation on the lock and the queue -/

/-- a party moved where it fits -/
theorem Handed.move (h : Handed s) (hlive : s.life p = .live) {φ : Phase} (hφ : Fits s p φ) : Handed (s.enter p φ) := by
  refine ⟨h.unborn, fun q hq => ?_, h.holder, h.released⟩
  have hread {q : P} {ψ : Phase} (hψ : Fits s q ψ) : Fits (s.enter p φ) q ψ := hψ.read id id (fun _ hr => hr) id
  by_cases hqp : q = p
  · subst hqp
    rw [phase_enter]
    exact hread hφ
  · rw [phase_enter_ne s φ hqp]
    exact hread (h.fits q hq)

/-- the lock taken, free or of a party that is gone -/
theorem Handed.take (h : Handed s) (hlive : s.life p = .live) {gone : Bool} (htakeable : s.takeable m p gone = true)
    (hgone : gone = true → ∀ q ∈ s.lock, s.Proves m (m.who q)) : Handed (s.take p) := by
  have hheld {q : P} (hq : q ≠ p) : (s.take p).held q = s.held q := Function.update_of_ne hq ..
  refine ⟨fun q hq => ?_, fun q hq => ?_, fun q hq hqheld => ?_, fun hr => by cases hr⟩
  · rw [hheld (ne_of_unborn hlive hq)]
    exact h.unborn q hq
  · refine (h.fits q hq).read (fun hqheld => ?_) (fun _ => rfl) (fun _ hr => hr) id
    by_cases hqp : q = p
    · subst hqp
      exact Function.update_self ..
    · rwa [hheld hqp]
  · by_cases hqp : q = p
    · rw [hqp]
      rfl
    · rw [hheld hqp] at hqheld
      have hlock := h.holder q hq hqheld
      unfold State.takeable at htakeable
      rw [hlock] at htakeable
      have hyes : gone = true := (of_decide_eq_true htakeable).2
      exact absurd hq (hgone hyes q (by rw [hlock]; rfl) q rfl)

/-- the lock no longer a free party's to release -/
theorem Handed.drop (h : Handed s) (hlive : s.life p = .live) (hfree : (s.phase p).free = true) (hheld : s.held p = true)
    (lock : Option P) : Handed { s with lock, held := Function.update s.held p false } := by
  have hheld' {q : P} (hq : q ≠ p) : Function.update s.held p false q = s.held q := Function.update_of_ne hq ..
  refine ⟨fun q hq => ?_, fun q hq => ?_, fun q hq hqheld => ?_, fun hr => ?_⟩
  · show Function.update s.held p false q = false
    rw [hheld' (ne_of_unborn hlive hq)]
    exact h.unborn q hq
  · by_cases hqp : q = p
    · rw [hqp]
      exact fits_of_free hfree
    · refine (h.fits q hq).read (fun hqheld => ?_) id (fun _ hr => hr) id
      show Function.update s.held p false q = true
      rwa [hheld' hqp]
  · by_cases hqp : q = p
    · subst hqp
      have hnot : Function.update s.held q false q = false := Function.update_self ..
      exact absurd (hqheld.symm.trans hnot) (by decide)
    · have hqheld : s.held q = true := (hheld' hqp).symm.trans hqheld
      -- two live parties do not both hold the lock
      have hp := h.holder p hlive hheld
      have hqlock := h.holder q hq hqheld
      rw [hp] at hqlock
      exact absurd (Option.some.inj hqlock).symm hqp
  · have hwas := (h.released hr).1
    rw [h.holder p hlive hheld] at hwas
    cases hwas

/-! ## Every step -/

theorem Sound.move (h : Sound m s) (hlive : s.life p = .live) {φ : Phase}
    (hnumber : φ.number = none ∨ φ.number = (s.phase p).number) (hφ : ∀ work below, φ ≠ .creating work below)
    (hfits : Fits s p φ) : Sound m (s.enter p φ) :=
  ⟨h.gate.moveOn hlive hnumber hφ, h.run.move hlive hfits⟩

/-- a submitter's envelope appended behind the run's owner -/
theorem Sound.appends (h : Sound m s) (hlive : s.life p = .live) {decodes : Bool} (hphase : s.phase p = .appending decodes n) :
    Sound m ((s.append m decodes).enter p (.leaving n)) := by
  have hfits := h.run.fits p hlive
  rw [hphase] at hfits
  have hinside : (s.phase p).number.isSome := by rw [hphase]; rfl
  have hgate : Gated m (s.append m decodes) := h.gate.beside rfl rfl rfl
  refine ⟨hgate.moveOn hlive ?_ (fun _ _ heq => by cases heq), ?_⟩
  · right
    show _ = (s.phase p).number
    rw [hphase]
    rfl
  · refine (h.run.append (m := m) hfits fun q hq => ?_).move hlive trivial
    by_cases hqp : q = p
    · rw [hqp, hphase]
      exact hfits
    · exact h.alone hlive hinside hq hqp id

/-- the run let go of, its queue found empty -/
theorem Sound.releases (h : Sound m s) (hlive : s.life p = .live) (hphase : s.phase p = .releasing n) :
    Sound m ((s.release p).enter p (.leaving n)) := by
  have hfits := h.run.fits p hlive
  rw [hphase] at hfits
  obtain ⟨hheld, hsettled⟩ := hfits
  have hinside : (s.phase p).number.isSome := by rw [hphase]; rfl
  have hheld' {q : P} (hq : q ≠ p) : (s.release p).held q = s.held q := Function.update_of_ne hq ..
  have hgate : Gated m (s.release p) := h.gate.beside rfl rfl rfl
  refine ⟨hgate.moveOn hlive ?_ (fun _ _ heq => by cases heq), ?_⟩
  · right
    show _ = (s.phase p).number
    rw [hphase]
    rfl
  · refine ⟨fun q hq => ?_, fun q hq => ?_, fun q hq hqheld => ?_, fun _ => ⟨rfl, hsettled⟩⟩
    · exact (hheld' (ne_of_unborn hlive hq)).trans (h.run.unborn q hq)
    · by_cases hqp : q = p
      · rw [hqp, phase_enter]
        trivial
      · rw [phase_enter_ne _ _ hqp]
        exact h.alone hlive hinside hq hqp fun hqheld => (hheld' hqp).trans hqheld
    · by_cases hqp : q = p
      · subst hqp
        have hnot : (s.release q).held q = false := Function.update_self ..
        exact absurd (hqheld.symm.trans hnot) (by decide)
      · have hqlock := h.run.holder q hq ((hheld' hqp).symm.trans hqheld)
        rw [h.run.holder p hlive hheld] at hqlock
        exact absurd (Option.some.inj hqlock).symm hqp

/-- **One operation.** -/
theorem sound_act (h : Sound m s) {yes : Bool} (hallowed : s.Allowed m (.act p yes)) (hsteady : s.Steady m (.act p yes)) :
    Sound m (s.act m p yes) := by
  obtain ⟨hlive, hproves⟩ := hallowed
  have hfits := h.run.fits p hlive
  cases hphase : s.phase p with
  | idle =>
    simp only [State.act, hphase]
    exact h
  | listing work =>
    rw [hphase] at hfits
    simp only [State.act, hphase]
    cases highestEntryIn s.entries s.stranger with
    | none =>
      refine ⟨h.gate.move hlive (.inl rfl) fun _ below heq j hj hle => ?_, h.run.move hlive hfits⟩
      cases heq
      omega
    | some top => exact h.move hlive (.inl rfl) (fun _ _ heq => by cases heq) hfits
  | looking work top =>
    rw [hphase] at hfits
    simp only [State.act, hphase]
    cases identityAt s.entries top with
    | none => exact h.move hlive (.inl rfl) (fun _ _ heq => by cases heq) hfits
    | some holder => exact h.move hlive (.inl rfl) (fun _ _ heq => by cases heq) hfits
  | doubting work top holder =>
    rw [hphase] at hfits
    simp only [State.act, hphase]
    split_ifs with hgone htop
    · obtain ⟨hhost, hyes⟩ := hgone
      rw [hyes] at hsteady
      simp only [State.Steady, hphase] at hsteady
      have hentry := hsteady hhost
      have hpast := h.gate.past_of_gone hentry (hproves hyes holder (by simp [State.subject, hphase]))
      refine ⟨h.gate.move hlive (.inl rfl) fun _ below heq j hj hle => ?_, h.run.move hlive hfits⟩
      cases heq
      rcases Nat.lt_or_eq_of_le hle with hlt | rfl
      · exact (h.gate.below _ hentry).2 j hj hlt
      · exact hpast
    · exact h.move hlive (.inl rfl) (fun _ _ heq => by cases heq) trivial
    · exact h.move hlive (.inl rfl) (fun _ _ heq => by cases heq) hfits
  | creating work below =>
    rw [hphase] at hfits
    simp only [State.act, hphase]
    split_ifs with htaken
    · exact h.move hlive (.inl rfl) (fun _ _ heq => by cases heq) hfits
    · have hmade : Handed (s.makeEntry (below + 1)) := h.run.beside
      refine ⟨h.gate.make hlive hphase fun e he heq => htaken ?_, hmade.move hlive hfits⟩
      exact List.any_eq_true.mpr ⟨e, he, by simpa using heq⟩
  | filling work n =>
    rw [hphase] at hfits
    have hnumber : (s.phase p).number = some n := by rw [hphase]; rfl
    simp only [State.act, hphase]
    split_ifs
    · have hfilled : Sound m (s.fillEntry n (m.who p)) := ⟨h.gate.fill hlive hnumber, h.run.beside⟩
      cases work with
      | accept decodes => exact hfilled.move hlive (.inr hnumber.symm) (fun _ _ heq => by cases heq) trivial
      | letGo => exact hfilled.move hlive (.inr hnumber.symm) (fun _ _ heq => by cases heq) (hfits rfl)
      | other => exact hfilled.move hlive (.inr hnumber.symm) (fun _ _ heq => by cases heq) trivial
    · exact h.move hlive (.inr hnumber.symm) (fun _ _ heq => by cases heq) trivial
  | trying decodes n =>
    have hnumber : (s.phase p).number = some n := by rw [hphase]; rfl
    simp only [State.act, hphase]
    split_ifs with htakeable
    · have htook : Sound m (s.take p) := by
        refine ⟨h.gate.beside rfl rfl rfl, h.run.take hlive htakeable fun hyes q hq => hproves hyes _ ?_⟩
        simp only [State.subject, hphase]
        exact Option.mem_map_of_mem _ hq
      exact htook.move hlive (.inr hnumber.symm) (fun _ _ heq => by cases heq) trivial
    · refine h.move hlive (.inr hnumber.symm) (fun _ _ heq => by cases heq) ?_
      -- a run let go of is free, and would have been taken
      show s.released = false
      by_contra hreleased
      have hfree := (h.run.released (Bool.not_eq_false _ ▸ hreleased)).1
      exact htakeable (by rw [State.takeable, hfree])
  | appending decodes n =>
    simp only [State.act, hphase]
    exact h.appends hlive hphase
  | reading n =>
    rw [hphase] at hfits
    simp only [State.act, hphase]
    exact h.move hlive (.inr (by rw [hphase]; rfl)) (fun _ _ heq => by cases heq) ⟨hfits, fun _ hr => hr⟩
  | answering n waiting =>
    rw [hphase] at hfits
    simp only [State.act, hphase]
    split_ifs with hempty
    · exact h.move hlive (.inr (by rw [hphase]; rfl)) (fun _ _ heq => by cases heq) ⟨hfits.1, settled_of_isEmpty hfits.2 hempty⟩
    · exact h.move hlive (.inr (by rw [hphase]; rfl)) (fun _ _ heq => by cases heq) trivial
  | releasing n =>
    simp only [State.act, hphase]
    exact h.releases hlive hphase
  | inside n =>
    simp only [State.act, hphase]
    exact h.move hlive (.inr (by rw [hphase]; rfl)) (fun _ _ heq => by cases heq) trivial
  | leaving n =>
    simp only [State.act, hphase]
    split_ifs
    · have hremoved : Handed (s.removeEntry n) := h.run.beside
      exact ⟨h.gate.remove hlive (by rw [hphase]; rfl), hremoved.move hlive trivial⟩
    · exact h.move hlive (.inl rfl) (fun _ _ heq => by cases heq) trivial

/-- a life moving on, where a party being born stands nowhere -/
theorem Sound.setLife (h : Sound m s) {life : Life} (hborn : s.life p ≠ .unborn → life = .dead) (hlife : life ≠ .unborn) :
    Sound m (s.setLife p life) := by
  have hself : (s.setLife p life).life p = life := Function.update_self ..
  have hother {q : P} (hq : q ≠ p) : (s.setLife p life).life q = s.life q := Function.update_of_ne hq ..
  have hunborn {q : P} (hq : (s.setLife p life).life q = .unborn) : s.life q = .unborn := by
    by_cases hqp : q = p
    · rw [hqp, hself] at hq
      exact absurd hq hlife
    · rwa [hother hqp] at hq
  -- a live party was live, or is the one born, which is idle and holds nothing
  have hlive {q : P} (hq : (s.setLife p life).life q = .live) :
      s.life q = .live ∨ s.phase q = .idle ∧ s.held q = false := by
    by_cases hqp : q = p
    · subst hqp
      by_cases hwas : s.life q = .unborn
      · exact .inr ⟨h.gate.unborn q hwas, h.run.unborn q hwas⟩
      · rw [hself, hborn hwas] at hq
        cases hq
    · rw [hother hqp] at hq
      exact .inl hq
  have hinside {q : P} {n : ℕ} (hq : (s.setLife p life).life q = .live) (hn : (s.phase q).number = some n) : s.life q = .live := by
    rcases hlive hq with hq | ⟨hidle, -⟩
    · exact hq
    · rw [hidle] at hn
      cases hn
  have hkeeps : Keeps s (s.setLife p life) := ⟨fun _ he _ => he, fun _ _ _ hq hn => ⟨hinside hq hn, hn⟩⟩
  refine ⟨⟨fun q hq => h.gate.unborn q (hunborn hq), fun q n hq hn => h.gate.stands q n (hinside hq hn) hn,
    fun q n hq hn => h.gate.names q n (hinside hq hn) hn,
    fun q r n hq hr hqn hrn => h.gate.apart q r n (hinside hq hqn) (hinside hr hrn) hqn hrn, fun e he => ?_,
    fun q work below hq hφ j hj hle => ?_⟩,
    ⟨fun q hq => h.run.unborn q (hunborn hq), fun q hq => ?_, fun q hq hqheld => ?_, h.run.released⟩⟩
  · exact ⟨(h.gate.below e he).1, fun j hj hlt => ((h.gate.below e he).2 j hj hlt).keeps hkeeps⟩
  · rcases hlive hq with hq | ⟨hidle, -⟩
    · exact (h.gate.creates q work below hq hφ j hj hle).keeps hkeeps
    · rw [show (s.setLife p life).phase q = s.phase q from rfl, hidle] at hφ
      cases hφ
  · show Fits _ q (s.phase q)
    rcases hlive hq with hq | ⟨hidle, -⟩
    · exact (h.run.fits q hq).read id id (fun _ hr => hr) id
    · rw [hidle]
      trivial
  · rcases hlive hq with hq | ⟨-, hnot⟩
    · exact h.run.holder q hq hqheld
    · exact absurd (hqheld.symm.trans hnot) (by decide)

/-- **One step.** -/
theorem sound_step (h : Sound m s) {event : Event P} (hallowed : s.Allowed m event) (hsteady : s.Steady m event) :
    Sound m (s.step m event) := by
  cases event with
  | born p =>
    have hwas : s.life p = .unborn := hallowed
    exact h.setLife (fun hne => absurd hwas hne) fun heq => by cases heq
  | begins p work =>
    obtain ⟨hlive, -, hheld⟩ := hallowed
    exact h.move hlive (.inl rfl) (fun _ _ heq => by cases heq) hheld
  | act p yes => exact sound_act h hallowed hsteady
  | givesUp p =>
    have hlive : s.life p = .live := hallowed
    have hfits := h.run.fits p hlive
    show Sound m (s.enter p (s.phase p).givenUp)
    cases hphase : s.phase p with
    | idle | listing work | looking work top | doubting work top holder | creating work below =>
      exact h.move hlive (.inl rfl) (fun _ _ heq => by cases heq) trivial
    | trying decodes n | appending decodes n =>
      exact h.move hlive (.inr (by rw [hphase]; rfl)) (fun _ _ heq => by cases heq) trivial
    | filling _ n | reading n | answering n _ | releasing n | inside n | leaving n =>
      rw [hphase] at hfits
      exact h.move hlive (.inr (by rw [hphase]; rfl)) (fun _ _ heq => by cases heq) hfits
  | takes p gone =>
    obtain ⟨hlive, -, hproves⟩ := hallowed
    show Sound m (if s.takeable m p gone then s.take p else s)
    split_ifs with htakeable
    · exact ⟨h.gate.beside rfl rfl rfl, h.run.take hlive htakeable hproves⟩
    · exact h
  | drops p => exact ⟨h.gate.beside rfl rfl rfl, h.run.drop hallowed.1 hallowed.2.1 hallowed.2.2 none⟩
  | abandons p => exact ⟨h.gate.beside rfl rfl rfl, h.run.drop hallowed.1 hallowed.2.1 hallowed.2.2 s.lock⟩
  | submits p decodes =>
    obtain ⟨hlive, hfree, hheld⟩ := hallowed
    have hlock := h.run.holder p hlive hheld
    refine ⟨h.gate.beside rfl rfl rfl, h.run.append ?_ fun q hq => ?_⟩
    · by_contra hreleased
      have hnone := (h.run.released (Bool.not_eq_false _ ▸ hreleased)).1
      rw [hlock] at hnone
      cases hnone
    · by_cases hqp : q = p
      · rw [hqp]
        exact fits_of_free hfree
      · exact fits_append_of_not_held (h.run.fits q hq) fun hqheld => hqp (by
          have hqlock := h.run.holder q hq hqheld
          rw [hlock] at hqlock
          exact (Option.some.inj hqlock).symm)
  | claims p => exact ⟨h.gate.beside rfl rfl rfl, h.run.queue (fun _ hr => waiting_claim hr) Queue.Settled.claim⟩
  | answers id => exact ⟨h.gate.beside rfl rfl rfl, h.run.queue (fun _ hr => hr) fun hs => hs.answer id⟩
  | litters => exact ⟨h.gate.beside rfl rfl rfl, h.run.beside⟩
  | dies p =>
    have hwas : s.life p = .live := hallowed
    exact h.setLife (fun _ => rfl) fun heq => by cases heq

/-- **Nothing is stranded.** Where a party answered that a holder is gone is answered so while the entry it read stands, in
every state of every run one live party at most is inside the section, and a run let go of with Released leaves nothing
unanswered waiting. -/
theorem nothing_stranded (m : Machine P) (events : List (Event P))
    (hrun : Admits (State.step m) (fun s e => s.Allowed m e ∧ s.Steady m e) {} events) :
    (events.foldl (State.step m) {}).NothingStranded := by
  have hsound : Sound m (events.foldl (State.step m) {}) :=
    hrun.invariant (I := Sound m) (fun s e hs he => sound_step hs he.1 he.2) (sound_empty m)
  exact ⟨fun p q => hsound.gate.one, fun hreleased => (hsound.run.released hreleased).2⟩

end

/-! ## An answer that comes late -/

section

variable {P : Type} [DecidableEq P] [Fintype P] (m : Machine P) (s : State P)

instance (who : Identity) : Decidable (s.Proves m who) := inferInstanceAs (Decidable (∀ q, m.who q = who → s.life q ≠ .live))

instance : ∀ e, Decidable (s.Allowed m e)
  | .born p => inferInstanceAs (Decidable (s.life p = .unborn))
  | .begins p work => inferInstanceAs (Decidable (s.life p = .live ∧ s.phase p = .idle ∧ (work = .letGo → s.held p = true)))
  | .act p yes => inferInstanceAs (Decidable (s.life p = .live ∧ (yes = true → ∀ who ∈ s.subject m p, s.Proves m who)))
  | .takes p gone =>
    inferInstanceAs (Decidable (s.life p = .live ∧ (s.phase p).free = true ∧ (gone = true → ∀ q ∈ s.lock, s.Proves m (m.who q))))
  | .drops p | .abandons p | .submits p _ =>
    inferInstanceAs (Decidable (s.life p = .live ∧ (s.phase p).free = true ∧ s.held p = true))
  | .claims p => inferInstanceAs (Decidable (s.life p = .live ∧ s.held p = true))
  | .givesUp p | .dies p => inferInstanceAs (Decidable (s.life p = .live))
  | .answers _ | .litters => .isTrue trivial

instance : ∀ e, Decidable (s.Steady m e)
  | .act p true =>
    match h : s.phase p with
    | .doubting _ top holder =>
      decidable_of_iff (holder.host = (m.who p).host → ⟨top, some holder⟩ ∈ s.entries) (by simp only [State.Steady, h])
    | .idle | .listing _ | .looking _ _ | .creating _ _ | .filling _ _ | .trying _ _ | .appending _ _ | .reading _
    | .answering _ _ | .releasing _ | .inside _ | .leaving _ => .isTrue (by simp only [State.Steady, h])
  | .act _ false | .born _ | .begins _ _ | .givesUp _ | .takes _ _ | .drops _ | .abandons _ | .submits _ _ | .claims _
  | .answers _ | .litters | .dies _ => .isTrue trivial

end

/-- an owner and two submitters of one host -/
def three : Machine (Fin 3) := { who := fun p => ⟨p, "h"⟩, nextId := List.length }

/-- a submitter dies inside, and the owner steps over its entry and lets the run go -/
def steppedOver : List (Event (Fin 3)) :=
  [.born 0, .born 1, .takes 0 false, .begins 1 (.accept true), .act 1 false, .act 1 false, .act 1 true, .dies 1,
    .begins 0 .letGo, .act 0 false, .act 0 false, .act 0 true, .act 0 false, .act 0 true, .act 0 false, .act 0 false, .act 0 false]

theorem steppedOver_strands_nothing :
    (steppedOver.foldl (State.step three) {}).released = true ∧ (steppedOver.foldl (State.step three) {}).NothingStranded :=
  ⟨by decide, nothing_stranded three steppedOver (by decide)⟩

/-- the owner reads the first submitter's entry; that one, whose envelope the queue refused, takes its entry away and
dies; the second takes the number and finds the run held; the owner is answered that the first is gone -/
def answeredLate : List (Event (Fin 3)) :=
  [.born 0, .born 1, .born 2, .takes 0 false,
    .begins 1 (.accept true), .act 1 false, .act 1 false, .act 1 true, .act 1 false,
    .begins 0 .letGo, .act 0 false, .act 0 false,
    .givesUp 1, .act 1 true, .dies 1,
    .begins 2 (.accept true), .act 2 false, .act 2 false, .act 2 true, .act 2 false,
    -- the number above is made while the second is inside by the one below
    .act 0 true, .act 0 false, .act 0 true, .act 0 false, .act 0 false, .act 0 false,
    .act 2 false]

/-- **Stranded.** Both are inside, and the second's envelope waits on the queue of a run that was let go of. -/
theorem answered_after_it_left :
    ¬∀ events : List (Event (Fin 3)), Admits (State.step three) (State.Allowed three) {} events →
      (events.foldl (State.step three) {}).NothingStranded := by
  intro hall
  have hstranded := (hall answeredLate (by decide)).answered (by decide)
  have hwaits : (⟨0, true⟩ : Queued) ∈ (answeredLate.foldl (State.step three) {}).queue.waiting := by decide
  have hunanswered : 0 ∉ (answeredLate.foldl (State.step three) {}).queue.outcomes := by decide
  exact hunanswered (hstranded _ hwaits).2

end OnePipeline.Handover
