/-
Every record taken off the command queue is accounted for while its driver goes on.

The claimer drops the rest of its claim with an answer it cannot write (`settles_dropped`), and the loop drops a record that
names no id with a refusal of it that fails. `KeepsEach` says of a step that it meets neither.

Results:
- `Accounted`: each record claimed is in exactly one place, what is answered has its outcome line, envelopes are judged in
  the order they were claimed;
- `Kept`: the invariant, with what the two hold under the one lock; `kept_step` keeps it over every step that drops nothing;
- `accounted_of_run`: in every run of such steps, whatever is claimed when, every record is accounted for.
-/
import Mathlib.Tactic
import OnePipeline.Core.Runs
import OnePipeline.Model.InPass

namespace OnePipeline.InPass

open Runs

/-! ## What the two hold -/

/-- the records of a claim under way that it has not come to -/
def restOf (c : Option Claim) : List ℕ := (c.map Claim.rest).getD []

/-- the answers a claim under way owes -/
def claimOwes (c : Option Claim) : List ℕ := (c.map Claim.owed).getD []

def undecodableOf (r : Option Reconciling) : List ℕ := (r.map Reconciling.undecodable).getD []

def claimedOf (r : Option Reconciling) : List ℕ := (r.map Reconciling.claimed).getD []

def passOwes (r : Option Reconciling) : List ℕ := (r.map Reconciling.owed).getD []

section

variable (c : Claim) (r : Reconciling)

@[simp] theorem restOf_underWay : restOf c.underWay = c.rest := by
  unfold Claim.underWay
  split_ifs with h
  · exact h.1.symm
  · rfl

@[simp] theorem claimOwes_underWay : claimOwes c.underWay = c.owed := by
  unfold Claim.underWay
  split_ifs with h
  · exact h.2.symm
  · rfl

@[simp] theorem undecodableOf_underWay : undecodableOf r.underWay = r.undecodable := by
  unfold Reconciling.underWay
  split_ifs with h
  · exact h.1.symm
  · rfl

@[simp] theorem claimedOf_underWay : claimedOf r.underWay = r.claimed := by
  unfold Reconciling.underWay
  split_ifs with h
  · exact h.2.1.symm
  · rfl

@[simp] theorem passOwes_underWay : passOwes r.underWay = r.owed := by
  unfold Reconciling.underWay
  split_ifs with h
  · exact h.2.2.symm
  · rfl

@[simp] theorem restOf_none : restOf none = [] := rfl

@[simp] theorem claimOwes_none : claimOwes none = [] := rfl

@[simp] theorem undecodableOf_none : undecodableOf none = [] := rfl

@[simp] theorem claimedOf_none : claimedOf none = [] := rfl

@[simp] theorem passOwes_none : passOwes none = [] := rfl

@[simp] theorem restOf_some : restOf (some c) = c.rest := rfl

@[simp] theorem claimOwes_some : claimOwes (some c) = c.owed := rfl

@[simp] theorem undecodableOf_some : undecodableOf (some r) = r.undecodable := rfl

@[simp] theorem claimedOf_some : claimedOf (some r) = r.claimed := rfl

@[simp] theorem passOwes_some : passOwes (some r) = r.owed := rfl

end

namespace State

variable {s : State} {start : ℕ}

/-- every place a record taken off the queue may be in: answered, handed to the loop, kept behind, owed an answer, or in the
hands of the claim or the pass judging it -/
def places (s : State) : List ℕ :=
  s.answered ++ s.shared.handed ++ s.behind ++ s.owed ++ restOf s.claim ++ claimOwes s.claim ++
    undecodableOf s.reconciling ++ claimedOf s.reconciling ++ passOwes s.reconciling

/-- what is still to be judged, in the order it was claimed -/
def inTurn (s : State) : List ℕ := claimedOf s.reconciling ++ s.behind ++ s.shared.handed ++ restOf s.claim

structure Accounted (start : ℕ) (s : State) : Prop where
  once : ∀ i, s.places.count i = if start ≤ i ∧ i < s.cursor then 1 else 0
  answered : ∀ i ∈ s.answered, s.hasOutcome i = true
  inOrder : s.judged.Pairwise (· < ·)

/-- a driver that goes on, with what the two hold under the one lock -/
structure Kept (start : ℕ) (s : State) : Prop where
  within : start ≤ s.cursor
  once : ∀ i, s.places.count i = if start ≤ i ∧ i < s.cursor then 1 else 0
  capped : s.cursor ≤ max start s.log.length
  answered : ∀ i ∈ s.answered, s.hasOutcome i = true
  ordered : (s.judged ++ s.inTurn).Pairwise (· < ·)
  below : ∀ i ∈ s.judged ++ s.inTurn, i < s.cursor
  behind : s.behind = []
  owed : s.owed = []
  alone : s.claim.isSome = true → s.reconciling = none
  taken : s.reconciling.isSome = true → s.shared.handed = []
  unhanded : ∀ c, s.claim = some c → c.handing = false → s.shared.handed = []
  closing : s.closing = true → s.claim = none ∧ s.shared.handed = [] ∧ s.shared.mode = .stopped

theorem Kept.accounted (h : s.Kept start) : s.Accounted start :=
  ⟨h.once, h.answered, (List.pairwise_append.mp h.ordered).1⟩

/-! ## The queue -/

theorem hasOutcome_iff {i : ℕ} : s.hasOutcome i = true ↔ ∃ record, s.log[i]? = some record ∧ record.id ∈ s.outcomes := by
  simp [hasOutcome, Option.any_eq_true]

/-- an outcome line written stays, and the log only grows -/
theorem hasOutcome_mono {t : State} {i : ℕ} (hlog : s.log <+: t.log) (hout : s.outcomes ⊆ t.outcomes)
    (h : s.hasOutcome i = true) : t.hasOutcome i = true := by
  obtain ⟨record, hrecord, hid⟩ := hasOutcome_iff.mp h
  obtain ⟨more, hmore⟩ := hlog
  refine hasOutcome_iff.mpr ⟨record, ?_, hout hid⟩
  rw [← hmore, List.getElem?_append_left (List.getElem?_eq_some_iff.mp hrecord).1, hrecord]

theorem hasOutcome_writeOutcome {i : ℕ} (h : i < s.log.length) : (s.writeOutcome i).hasOutcome i = true := by
  refine hasOutcome_iff.mpr ⟨s.log[i], ?_, ?_⟩
  · simp [writeOutcome, h]
  · simp [writeOutcome, h]

theorem hasOutcome_of_writeOutcome {i k : ℕ} (h : s.hasOutcome k = true) : (s.writeOutcome i).hasOutcome k = true :=
  @hasOutcome_mono s (s.writeOutcome i) k (List.prefix_refl _) (List.subset_append_left _ _) h

theorem mem_unclaimed {i : ℕ} : i ∈ s.unclaimed ↔ s.cursor ≤ i ∧ i < s.log.length := by
  rw [unclaimed, List.mem_range'_1]
  omega

theorem count_unclaimed (i : ℕ) :
    (s.unclaimed.filter s.passedOver).count i + (s.unclaimed.filter fun i => !s.passedOver i).count i =
      if s.cursor ≤ i ∧ i < s.cursor + (s.log.length - s.cursor) then 1 else 0 := by
  have hnodup : s.unclaimed.Nodup := List.nodup_range'
  rw [← List.count_append, (List.filter_append_perm s.passedOver s.unclaimed).count_eq, hnodup.count]
  refine if_congr (mem_unclaimed.trans ?_) rfl rfl
  omega

/-- what is claimed next comes after everything claimed before -/
theorem ordered_unclaimed {l : List ℕ} (hl : l.Pairwise (· < ·)) (hbelow : ∀ i ∈ l, i < s.cursor) :
    (l ++ s.unclaimed).Pairwise (· < ·) := by
  refine List.pairwise_append.mpr ⟨hl, List.pairwise_lt_range' , fun a ha b hb => ?_⟩
  exact (hbelow a ha).trans_le (mem_unclaimed.mp hb).1

theorem below_unclaimed {l : List ℕ} (hbelow : ∀ i ∈ l, i < s.cursor) :
    ∀ i ∈ l ++ s.unclaimed, i < s.cursor + (s.log.length - s.cursor) := by
  intro i hi
  rcases List.mem_append.mp hi with hi | hi
  · have := hbelow i hi
    omega
  · obtain ⟨hfrom, hto⟩ := mem_unclaimed.mp hi
    omega

/-! ## The claimer -/

theorem kept_claimerClaims (h : s.Kept start) (hclaim : s.claim = none) (hpass : s.reconciling = none) :
    s.claimerClaims.Kept start := by
  unfold claimerClaims
  split_ifs with hmay
  · obtain ⟨hmode, hholding, hhanded⟩ := hmay
    have hturn : s.inTurn = [] := by simp [inTurn, hclaim, hpass, hhanded, h.behind]
    have hordered := h.ordered
    have hbelow := h.below
    rw [hturn, List.append_nil] at hordered hbelow
    have hsub : (s.judged ++ s.unclaimed.filter fun i => !s.passedOver i).Sublist (s.judged ++ s.unclaimed) :=
      List.filter_sublist.append_left _
    have hwithin := h.within
    have hcapped := h.capped
    refine
      { within := by simp only [claimCommands]; omega
        once := fun i => ?_
        capped := by simp only [claimCommands]; omega
        answered := fun i hi => ?_
        ordered := ?_
        below := ?_
        behind := h.behind
        owed := h.owed
        alone := fun _ => hpass
        taken := fun _ => hhanded
        unhanded := fun _ _ _ => hhanded
        closing := fun hclosing => ?_ }
    · have hone := h.once i
      have hcount := @count_unclaimed s i
      simp only [places, hclaim, hpass, hhanded, h.behind, h.owed, claimCommands, restOf_underWay, claimOwes_underWay,
        restOf_none, claimOwes_none, undecodableOf_none, claimedOf_none, passOwes_none, List.append_nil,
        List.count_append] at hone ⊢
      split_ifs at hone hcount ⊢ <;> omega
    · rcases List.mem_append.mp hi with hi | hi
      · exact h.answered i hi
      · exact (Bool.and_eq_true_iff.mp (List.mem_filter.mp hi).2).2
    · simpa [inTurn, hpass, hhanded, h.behind, claimCommands] using (ordered_unclaimed hordered hbelow).sublist hsub
    · simpa [inTurn, hpass, hhanded, h.behind, claimCommands] using fun i hi => below_unclaimed hbelow i (hsub.subset hi)
    · have hstopped := (h.closing hclosing).2.2
      rw [hmode] at hstopped
      cases hstopped
  · exact h

/-- a record of one of the places is on the log -/
theorem Kept.logged (h : s.Kept start) {i : ℕ} (hi : i ∈ s.places) : i < s.log.length := by
  have hcount := h.once i
  have hpos := List.count_pos_iff.mpr hi
  have hcapped := h.capped
  split_ifs at hcount <;> omega

theorem kept_hand (h : s.Kept start) {c : Claim} {i : ℕ} {rest : List ℕ} (hclaim : s.claim = some c)
    (hrest : c.rest = i :: rest) : (s.hand c i rest).Kept start := by
  have hpass : s.reconciling = none := h.alone (by rw [hclaim]; rfl)
  refine
    { within := h.within
      once := fun k => ?_
      capped := h.capped
      answered := h.answered
      ordered := ?_
      below := ?_
      behind := h.behind
      owed := h.owed
      alone := fun _ => hpass
      taken := fun htaken => ?_
      unhanded := fun c' hc' hhanding => ?_
      closing := fun hclosing => ?_ }
  · have hone := h.once k
    simp only [places, hand, hclaim, hpass, hrest, h.behind, h.owed, restOf_underWay, claimOwes_underWay, restOf_some,
      claimOwes_some, List.append_nil, List.count_append, List.count_cons, List.count_nil] at hone ⊢
    split_ifs at hone ⊢ <;> omega
  · simpa [inTurn, hand, hclaim, hpass, hrest, h.behind] using h.ordered
  · simpa [inTurn, hand, hclaim, hpass, hrest, h.behind] using h.below
  · have hnone : s.reconciling.isSome = true := htaken
    rw [hpass] at hnone
    cases hnone
  · simp only [hand, Claim.underWay] at hc'
    split_ifs at hc'
    cases hc'
    cases hhanding
  · have hnone := (h.closing hclosing).1
    rw [hclaim] at hnone
    cases hnone

/-! ### An envelope judged -/

/-- what the judging of an envelope changes: it is judged, and answered or owed its answer -/
theorem judges_spec (i : ℕ) (processed : Processed) :
    ∃ outcomes answered, s.judges i processed = { s with judged := s.judged ++ [i], outcomes, answered } ∧
      s.outcomes ⊆ outcomes ∧ answered ++ owes i processed = s.answered ++ [i] ∧
      (i < s.log.length → ∀ k ∈ answered, k ∈ s.answered ∨ (s.judges i processed).hasOutcome k = true) := by
  rcases processed with _ | (_ | _)
  · refine ⟨_, _, rfl, List.subset_append_left _ _, List.append_nil _, fun hi k hk => ?_⟩
    rcases List.mem_append.mp hk with hk | hk
    · exact .inl hk
    · rw [List.mem_singleton.mp hk]
      exact .inr (@hasOutcome_writeOutcome { s with judged := s.judged ++ [i] } i hi)
  · exact ⟨_, _, rfl, List.Subset.refl _, rfl, fun _ k hk => .inl hk⟩
  · exact ⟨_, _, rfl, List.subset_append_left _ _, rfl, fun _ k hk => .inl hk⟩

theorem kept_claimerTakes (h : s.Kept start) {c : Claim} (hclaim : s.claim = some c) (processed : Processed) :
    (s.claimerTakes c processed).Kept start := by
  have hpass : s.reconciling = none := h.alone (by rw [hclaim]; rfl)
  unfold claimerTakes
  cases hrest : c.rest with
  | nil => exact h
  | cons i rest =>
    cases howed : c.owed with
    | cons => exact h
    | nil =>
      simp only
      cases hanswerable : s.answerable c i with
      | none => exact kept_hand h hclaim hrest
      | some named =>
        have hhanding : c.handing = false := by
          cases hc : c.handing with
          | false => rfl
          | true =>
            rw [answerable] at hanswerable
            split at hanswerable
            · simp [hc] at hanswerable
            · cases hanswerable
        have hhanded : s.shared.handed = [] := h.unhanded c hclaim hhanding
        have hplace : i ∈ s.places := by simp [places, hclaim, hrest]
        obtain ⟨outcomes, answered, hjudges, hmore, hanswered, hsound⟩ := @judges_spec s i processed
        have hlogged := h.logged hplace
        simp only [hjudges] at hsound ⊢
        refine
          { within := h.within
            once := fun k => ?_
            capped := h.capped
            answered := fun k hk => ?_
            ordered := ?_
            below := ?_
            behind := h.behind
            owed := h.owed
            alone := fun _ => hpass
            taken := fun _ => hhanded
            unhanded := fun _ _ _ => hhanded
            closing := fun hclosing => ?_ }
        · have hone := h.once k
          have hcount := congrArg (List.count k) hanswered
          simp only [places, hclaim, hpass, hrest, howed, h.behind, h.owed, restOf_underWay, claimOwes_underWay, restOf_some,
            claimOwes_some, List.append_nil, List.count_append, List.count_cons, List.count_nil] at hone hcount ⊢
          split_ifs at hone hcount ⊢ <;> omega
        · rcases hsound hlogged k hk with hk | hk
          · exact @hasOutcome_mono s _ k (List.prefix_refl _) hmore (h.answered k hk)
          · exact hk
        · simpa [inTurn, hclaim, hpass, hrest, h.behind, hhanded] using h.ordered
        · simpa [inTurn, hclaim, hpass, hrest, h.behind, hhanded] using h.below
        · have hnone := (h.closing hclosing).1
          rw [hclaim] at hnone
          cases hnone

/-! ### An answer owed -/

/-- an owed answer paid: one more record answered -/
theorem pay_spec {t : State} {i : ℕ} {written : Bool} (hi : i < s.log.length) (h : s.pay i written = some t) :
    ∃ outcomes, t = { s with outcomes, answered := s.answered ++ [i] } ∧ s.outcomes ⊆ outcomes ∧ t.hasOutcome i = true := by
  unfold pay at h
  split_ifs at h with hhas hwritten
  · cases h
    exact ⟨s.outcomes, rfl, List.Subset.refl _, hhas⟩
  · cases h
    exact ⟨_, rfl, List.subset_append_left _ _, hasOutcome_writeOutcome hi⟩

theorem kept_claimerPays (h : s.Kept start) {c : Claim} {written : Bool} (hclaim : s.claim = some c)
    (hpaid : ∀ i rest, c.owed = i :: rest → (s.pay i written).isSome = true) : (s.claimerPays c written).Kept start := by
  have hpass : s.reconciling = none := h.alone (by rw [hclaim]; rfl)
  unfold claimerPays
  cases howed : c.owed with
  | nil => exact h
  | cons i owed =>
    obtain ⟨t, ht⟩ := Option.isSome_iff_exists.mp (hpaid i owed howed)
    have hplace : i ∈ s.places := by simp [places, hclaim, howed]
    obtain ⟨outcomes, rfl, hmore, hsound⟩ := pay_spec (h.logged hplace) ht
    simp only [ht]
    refine
      { within := h.within
        once := fun k => ?_
        capped := h.capped
        answered := fun k hk => ?_
        ordered := ?_
        below := ?_
        behind := h.behind
        owed := h.owed
        alone := fun _ => hpass
        taken := fun htaken => ?_
        unhanded := fun c' hc' hhanding => ?_
        closing := fun hclosing => ?_ }
    · have hone := h.once k
      simp only [places, hclaim, hpass, howed, h.behind, h.owed, restOf_underWay, claimOwes_underWay, restOf_some,
        claimOwes_some, List.append_nil, List.count_append, List.count_cons, List.count_nil] at hone ⊢
      split_ifs at hone ⊢ <;> omega
    · rcases List.mem_append.mp hk with hk | hk
      · exact @hasOutcome_mono s _ k (List.prefix_refl _) hmore (h.answered k hk)
      · rw [List.mem_singleton.mp hk]
        exact hsound
    · simpa [inTurn, hclaim, hpass, h.behind] using h.ordered
    · simpa [inTurn, hclaim, hpass, h.behind] using h.below
    · have hnone : s.reconciling.isSome = true := htaken
      rw [hpass] at hnone
      cases hnone
    · simp only [Claim.underWay] at hc'
      split_ifs at hc'
      cases hc'
      exact h.unhanded c hclaim hhanding
    · have hnone := (h.closing hclosing).1
      rw [hclaim] at hnone
      cases hnone

/-! ## The loop -/

theorem count_split (p : ℕ → Bool) (l : List ℕ) (k : ℕ) :
    (l.filter fun i => !p i).count k + (l.filter p).count k = l.count k := by
  rw [Nat.add_comm, ← List.count_append, (List.filter_append_perm p l).count_eq]

/-- what a pass takes up, of what was handed and what it claims: undecodable records aside, in order -/
theorem kept_takesUp {t : State} {claimed : List ℕ} {keeps : Bool} (h : s.Kept start) (hclaim : s.claim = none)
    (hpass : s.reconciling = none) (p : ℕ → Bool) (hlog : t.log = s.log) (houtcomes : t.outcomes = s.outcomes)
    (hcursor : s.cursor ≤ t.cursor ∧ t.cursor ≤ s.cursor + (s.log.length - s.cursor))
    (hanswered : ∀ k ∈ t.answered, k ∈ s.answered ∨ s.hasOutcome k = true)
    (hcount : ∀ k, t.answered.count k + claimed.count k =
      s.answered.count k + if s.cursor ≤ k ∧ k < t.cursor then 1 else 0)
    (hsub : (s.judged ++ s.shared.handed ++ claimed).Sublist (s.judged ++ s.shared.handed ++ s.unclaimed))
    (hcap : ∀ k ∈ claimed, k < t.cursor)
    (hjudged : t.judged = s.judged) (hnothing : t.claim = none ∧ t.behind = [] ∧ t.owed = [] ∧ t.shared.handed = [])
    (hmode : t.closing = true → t.shared.mode = .stopped)
    (htakes : t.reconciling = Reconciling.underWay {
      undecodable := (s.shared.handed ++ claimed).filter fun i => !p i
      claimed := (s.shared.handed ++ claimed).filter p
      owed := []
      keeps }) : t.Kept start := by
  obtain ⟨hnoClaim, hbehind, howed, hhanded⟩ := hnothing
  have hturn : s.judged ++ s.inTurn = s.judged ++ s.shared.handed := by simp [inTurn, hclaim, hpass, h.behind]
  have hordered := h.ordered
  have hbelow := h.below
  rw [hturn] at hordered hbelow
  have hwithin := h.within
  have hcapped := h.capped
  have hafter : t.judged ++ t.inTurn = s.judged ++ (s.shared.handed ++ claimed).filter p := by
    simp [inTurn, htakes, hnoClaim, hbehind, hhanded, hjudged]
  have hpart : (s.judged ++ (s.shared.handed ++ claimed).filter p).Sublist (s.judged ++ s.shared.handed ++ claimed) := by
    rw [List.append_assoc]
    exact List.filter_sublist.append_left _
  refine
    { within := by omega
      once := fun k => ?_
      capped := by rw [hlog]; omega
      answered := fun k hk => ?_
      ordered := hafter ▸ (ordered_unclaimed hordered hbelow).sublist (hpart.trans hsub)
      below := fun k hk => ?_
      behind := hbehind
      owed := howed
      alone := fun hsome => ?_
      taken := fun _ => hhanded
      unhanded := fun _ _ _ => hhanded
      closing := fun hclosing => ⟨hnoClaim, hhanded, hmode hclosing⟩ }
  · have hone := h.once k
    have hadd := hcount k
    have hsplit := count_split p (s.shared.handed ++ claimed) k
    simp only [places, hclaim, hpass, h.behind, h.owed, htakes, hnoClaim, hbehind, howed, hhanded, restOf_none, claimOwes_none,
      undecodableOf_none, claimedOf_none, passOwes_none, undecodableOf_underWay, claimedOf_underWay, passOwes_underWay,
      List.append_nil, List.count_append] at hone hsplit ⊢
    split_ifs at hone hadd ⊢ <;> omega
  · have hsame : t.hasOutcome k = s.hasOutcome k := by rw [hasOutcome, hasOutcome, hlog, houtcomes]
    rw [hsame]
    exact (hanswered k hk).elim (h.answered k) id
  · rw [hafter] at hk
    rcases List.mem_append.mp (hpart.subset hk) with hk | hk
    · have := hbelow k hk
      omega
    · exact hcap k hk
  · rw [hnoClaim] at hsome
    cases hsome

theorem kept_loopClaims (h : s.Kept start) (hpass : s.reconciling = none) (moved : Bool) :
    (s.loopClaims moved).Kept start := by
  have hclaimed (k : ℕ) : (s.answered ++ s.unclaimed.filter s.passedOver).count k +
      (s.unclaimed.filter fun i => !s.passedOver i).count k =
        s.answered.count k + if s.cursor ≤ k ∧ k < s.cursor + (s.log.length - s.cursor) then 1 else 0 := by
    rw [List.count_append, Nat.add_assoc, count_unclaimed]
  have hover (k : ℕ) (hk : k ∈ s.answered ++ s.unclaimed.filter s.passedOver) : k ∈ s.answered ∨ s.hasOutcome k = true := by
    rcases List.mem_append.mp hk with hk | hk
    · exact .inl hk
    · exact .inr (Bool.and_eq_true_iff.mp (List.mem_filter.mp hk).2).2
  have hsub : (s.judged ++ s.shared.handed ++ s.unclaimed.filter fun i => !s.passedOver i).Sublist
      (s.judged ++ s.shared.handed ++ s.unclaimed) := List.filter_sublist.append_left _
  have hcap (k : ℕ) (hk : k ∈ s.unclaimed.filter fun i => !s.passedOver i) : k < s.cursor + (s.log.length - s.cursor) := by
    have := mem_unclaimed.mp (List.mem_filter.mp hk).1
    omega
  unfold loopClaims
  split_ifs with hclosing hclaim hmoved
  · obtain ⟨hnoClaim, hhanded, hstopped⟩ := h.closing hclosing
    refine @kept_takesUp s start _ _ false h hnoClaim hpass s.isEnvelope rfl rfl ⟨by simp [claimCommands], le_rfl⟩ hover
      hclaimed hsub hcap rfl ⟨hnoClaim, h.behind, h.owed, hhanded⟩ (fun _ => hstopped) ?_
    rw [hhanded]
    rfl
  · exact h
  · have hnoClaim : s.claim = none := by simpa using hclaim
    refine @kept_takesUp s start _ _ true h hnoClaim hpass s.isEnvelope rfl rfl ⟨by simp [claimCommands], le_rfl⟩ hover
      hclaimed hsub hcap rfl ⟨hnoClaim, rfl, rfl, rfl⟩ (fun htrue => absurd htrue hclosing) ?_
    simp only [claimCommands, h.behind, h.owed, List.nil_append]
    rfl
  · have hnoClaim : s.claim = none := by simpa using hclaim
    refine @kept_takesUp s start _ [] true h hnoClaim hpass s.isEnvelope rfl rfl ⟨le_rfl, Nat.le_add_right _ _⟩
      (fun k hk => .inl hk) (fun k => ?_) (List.nil_sublist _ |>.append_left _) (fun k hk => by cases hk) rfl
      ⟨hnoClaim, rfl, rfl, rfl⟩ (fun htrue => absurd htrue hclosing) ?_
    · have hnone : ¬(s.cursor ≤ k ∧ k < s.cursor) := by omega
      simp [hnone]
    · simp [h.behind, h.owed]

/-- what a pass's next step leaves of it: one record fewer in its hands, answered or owed its answer -/
theorem kept_passes {t : State} {r : Reconciling} (r' : Reconciling) (h : s.Kept start) (hpass : s.reconciling = some r)
    (hlog : t.log = s.log) (hmore : s.outcomes ⊆ t.outcomes) (hcursor : t.cursor = s.cursor)
    (hanswered : ∀ k ∈ t.answered, k ∈ s.answered ∨ t.hasOutcome k = true)
    (hcount : ∀ k, t.answered.count k + r'.undecodable.count k + r'.claimed.count k + r'.owed.count k =
      s.answered.count k + r.undecodable.count k + r.claimed.count k + r.owed.count k)
    (hturn : t.judged ++ r'.claimed = s.judged ++ r.claimed) (hclaim : t.claim = s.claim) (hshared : t.shared = s.shared)
    (hbehind : t.behind = s.behind) (howed : t.owed = s.owed) (hclosing : t.closing = s.closing)
    (hleft : t.reconciling = r'.underWay) : t.Kept start := by
  have hnoClaim : s.claim = none := by
    cases hc : s.claim with
    | none => rfl
    | some c =>
      have hnone := h.alone (by rw [hc]; rfl)
      rw [hpass] at hnone
      cases hnone
  have hhanded : s.shared.handed = [] := h.taken (by rw [hpass]; rfl)
  have hjudged : t.judged ++ t.inTurn = s.judged ++ s.inTurn := by
    simpa [inTurn, hleft, hclaim, hnoClaim, hshared, hhanded, hbehind, h.behind, hpass] using hturn
  refine
    { within := hcursor ▸ h.within
      once := fun k => ?_
      capped := by rw [hlog, hcursor]; exact h.capped
      answered := fun k hk => ?_
      ordered := hjudged ▸ h.ordered
      below := by rw [hjudged, hcursor]; exact h.below
      behind := hbehind.trans h.behind
      owed := howed.trans h.owed
      alone := fun hsome => ?_
      taken := fun _ => hshared ▸ hhanded
      unhanded := fun _ _ _ => hshared ▸ hhanded
      closing := fun htrue => ?_ }
  · have hone := h.once k
    have hsame := hcount k
    simp only [places, hleft, hclaim, hnoClaim, hshared, hhanded, hbehind, howed, h.behind, h.owed, hpass, hcursor,
      restOf_none, claimOwes_none, undecodableOf_underWay, claimedOf_underWay, passOwes_underWay, undecodableOf_some,
      claimedOf_some, passOwes_some, List.append_nil, List.count_append] at hone ⊢
    omega
  · rcases hanswered k hk with hk | hk
    · exact hasOutcome_mono (hlog ▸ List.prefix_refl _) hmore (h.answered k hk)
    · exact hk
  · rw [hclaim, hnoClaim] at hsome
    cases hsome
  · rw [hclosing] at htrue
    rw [hclaim, hshared]
    exact h.closing htrue

theorem kept_loopRefuses (h : s.Kept start) {r : Reconciling} {refused : Bool} (hpass : s.reconciling = some r)
    (hkeeps : ∀ i rest, r.undecodable = i :: rest → refused = true ∨ s.carriesId i = true) :
    (s.loopRefuses r refused).Kept start := by
  unfold loopRefuses
  cases hundecodable : r.undecodable with
  | nil => exact h
  | cons i undecodable =>
    have hplace : i ∈ s.places := by simp [places, hpass, hundecodable]
    simp only
    split_ifs with hrefused hcarries
    · refine kept_passes { r with undecodable } h hpass rfl (List.subset_append_left _ _) rfl (fun k hk => ?_)
        (fun k => ?_) rfl rfl rfl rfl rfl rfl rfl
      · rcases List.mem_append.mp hk with hk | hk
        · exact .inl hk
        · rw [List.mem_singleton.mp hk]
          exact .inr (hasOutcome_writeOutcome (h.logged hplace))
      · simp only [hundecodable, List.count_append, List.count_cons, List.count_nil]
        omega
    · refine kept_passes { r with undecodable, owed := r.owed ++ [i] } h hpass rfl (List.Subset.refl _) rfl
        (fun k hk => .inl hk) (fun k => ?_) rfl rfl rfl rfl rfl rfl rfl
      simp only [hundecodable, List.count_append, List.count_cons, List.count_nil]
      omega
    · rcases hkeeps i undecodable hundecodable with htrue | htrue
      · exact absurd htrue hrefused
      · exact absurd htrue hcarries

theorem kept_loopPays (h : s.Kept start) {r : Reconciling} {written : Bool} (hpass : s.reconciling = some r) :
    (s.loopPays r written).ended = true ∨ (s.loopPays r written).Kept start := by
  unfold loopPays
  cases hundecodable : r.undecodable with
  | cons => exact .inr h
  | nil =>
    cases howed : r.owed with
    | nil => exact .inr h
    | cons i owed =>
      have hplace : i ∈ s.places := by simp [places, hpass, howed]
      simp only
      cases hpay : s.pay i written with
      | none => exact .inl rfl
      | some t =>
        obtain ⟨outcomes, rfl, hmore, hsound⟩ := pay_spec (h.logged hplace) hpay
        refine .inr (kept_passes { r with owed } h hpass rfl hmore rfl (fun k hk => ?_) (fun k => ?_) rfl rfl rfl rfl
          rfl rfl (by simp [hundecodable]))
        · rcases List.mem_append.mp hk with hk | hk
          · exact .inl hk
          · rw [List.mem_singleton.mp hk]
            exact .inr hsound
        · simp only [howed, List.count_append, List.count_cons, List.count_nil]
          omega

theorem kept_loopJudges (h : s.Kept start) {r : Reconciling} (hpass : s.reconciling = some r) (processed : Processed) :
    (s.loopJudges r processed).Kept start := by
  unfold loopJudges
  cases hundecodable : r.undecodable with
  | cons => exact h
  | nil =>
    cases howed : r.owed with
    | cons => exact h
    | nil =>
      cases hclaimed : r.claimed with
      | nil => exact h
      | cons i claimed =>
        have hplace : i ∈ s.places := by simp [places, hpass, hclaimed]
        obtain ⟨outcomes, answered, hjudges, hmore, hanswered, hsound⟩ := @judges_spec s i processed
        have hlogged := h.logged hplace
        simp only [hjudges] at hsound ⊢
        refine kept_passes { r with claimed, owed := owes i processed } h hpass rfl hmore rfl (hsound hlogged)
          (fun k => ?_) (by simp [hclaimed]) rfl rfl rfl rfl rfl (by simp [hundecodable])
        have hcount := congrArg (List.count k) hanswered
        simp only [hundecodable, howed, hclaimed, List.count_append, List.count_cons, List.count_nil] at hcount ⊢
        omega

/-! ## Runs -/

/-- a step that drops no record: no answer the claimer owes fails to be written, and no refusal of a record that names no id
fails -/
def KeepsEach (s : State) : Event → Prop
  | .claimerPays written => ∀ c i rest, s.claim = some c → c.owed = i :: rest → written = true ∨ s.hasOutcome i = true
  | .loopRefuses refused =>
    ∀ r i rest, s.reconciling = some r → r.undecodable = i :: rest → refused = true ∨ s.carriesId i = true
  | _ => True

theorem kept_submitted (h : s.Kept start) (record : Claimed) : (s.submitted record).Kept start := by
  refine { h with capped := h.capped.trans (max_le_max le_rfl ?_), answered := fun i hi => ?_ }
  · simp [submitted]
  · exact @hasOutcome_mono s _ i (List.prefix_append _ _) (List.Subset.refl _) (h.answered i hi)

theorem kept_admits (h : s.Kept start) (node : String) : (s.admits node).Kept start := by
  unfold admits
  split_ifs
  · exact h
  · exact { h with }

theorem kept_standsDown (h : s.Kept start) : s.standsDown.Kept start := by
  refine { h with closing := fun hclosing => ?_ }
  simp only [standsDown, Bool.and_eq_true, Option.isNone_iff_eq_none, List.isEmpty_iff] at hclosing
  exact ⟨hclosing.1.1, hclosing.2, rfl⟩

theorem kept_waits (h : s.Kept start) (waiting : Bool) : (s.waits waiting).Kept start := by
  unfold «waits»
  split_ifs with hmode hwaiting
  · exact h
  · exact { h with closing := fun hclosing => absurd (h.closing hclosing).2.2 hmode }
  · exact { h with closing := fun hclosing => absurd (h.closing hclosing).2.2 hmode }

/-- **One step.** Where it drops no record, a driver that goes on keeps each. -/
theorem kept_step (h : s.ended = false → s.Kept start) {event : Event} (hkeeps : s.KeepsEach event) :
    (step s event).ended = false → (step s event).Kept start := by
  intro hgoes
  unfold step at hgoes ⊢
  split_ifs at hgoes ⊢ with hended
  · exact h hgoes
  have hkept : s.Kept start := h (by simpa using hended)
  cases event with
  | submitted record => exact kept_submitted hkept record
  | passBegins inFlight =>
    cases hpass : s.reconciling with
    | some r => exact hkept
    | none => exact { hkept with closing := fun hclosing => by cases hclosing }
  | admits node =>
    cases hpass : s.reconciling with
    | some r => exact hkept
    | none => exact kept_admits hkept node
  | «waits» waiting =>
    cases hpass : s.reconciling with
    | some r => exact hkept
    | none => exact kept_waits hkept waiting
  | standsDown =>
    cases hpass : s.reconciling with
    | some r => exact hkept
    | none => exact kept_standsDown hkept
  | claimerClaims =>
    cases hclaim : s.claim with
    | some c => exact hkept
    | none =>
      cases hpass : s.reconciling with
      | some r => exact hkept
      | none => exact kept_claimerClaims hkept hclaim hpass
  | claimerTakes processed =>
    cases hclaim : s.claim with
    | none => exact hkept
    | some c => exact kept_claimerTakes hkept hclaim processed
  | claimerPays written =>
    cases hclaim : s.claim with
    | none => exact hkept
    | some c =>
      refine kept_claimerPays hkept hclaim fun i rest howed => ?_
      unfold pay
      rcases hkeeps c i rest hclaim howed with hwritten | hhas
      · split_ifs <;> rfl
      · rw [if_pos hhas]
        rfl
  | loopClaims moved =>
    cases hpass : s.reconciling with
    | some r => exact hkept
    | none => exact kept_loopClaims hkept hpass moved
  | loopRefuses refused =>
    cases hpass : s.reconciling with
    | none => exact hkept
    | some r => exact kept_loopRefuses hkept hpass fun i rest => hkeeps r i rest hpass
  | loopPays written =>
    cases hpass : s.reconciling with
    | none => exact hkept
    | some r =>
      simp only [hpass] at hgoes ⊢
      rcases kept_loopPays hkept hpass with hover | hafter
      · rw [hover] at hgoes
        cases hgoes
      · exact hafter
  | loopJudges processed =>
    cases hpass : s.reconciling with
    | none => exact hkept
    | some r => exact kept_loopJudges hkept hpass processed

theorem kept_started (log : List Claimed) (cursor : ℕ) (outcomes : List ℕ) : (started log cursor outcomes).Kept cursor where
  within := le_rfl
  once i := by
    have hnone : ¬(cursor ≤ i ∧ i < cursor) := by omega
    simp [places, started, hnone]
  capped := le_max_left _ _
  answered i hi := by cases hi
  ordered := .nil
  below i hi := by cases hi
  behind := rfl
  owed := rfl
  alone hsome := by cases hsome
  taken hsome := by cases hsome
  unhanded _ hc := by cases hc
  closing hclosing := by cases hclosing

/-- **Every record, over a run.** In a run whose steps drop none, a driver that goes on has every record it took off the
queue in exactly one place, and its envelopes judged once each, in the order they were claimed. -/
theorem accounted_of_run {log : List Claimed} {cursor : ℕ} {outcomes : List ℕ} {events : List Event}
    (h : Admits step KeepsEach (started log cursor outcomes) events)
    (hgoes : (events.foldl step (started log cursor outcomes)).ended = false) :
    (events.foldl step (started log cursor outcomes)).Accounted cursor :=
  (h.invariant (I := fun s : State => s.ended = false → s.Kept cursor) (fun _ _ hs hk => kept_step hs hk)
    (fun _ => kept_started log cursor outcomes) hgoes).accounted

/-! ### Two settles claimed beside a pass -/

def twoSettles : List Claimed :=
  [.envelope 7 [.settle "a" .done "it merged" none none], .envelope 8 [.settle "b" .done "it merged" none none]]

/-- the first fails, and its answer cannot be written -/
def unwritten : List Event := [.claimerClaims, .claimerTakes (.failed false), .claimerPays false]

/-- neither is anywhere, and the driver goes on -/
theorem settles_dropped :
    (unwritten.foldl step (started twoSettles 0 [])).ended = false ∧
      ¬(unwritten.foldl step (started twoSettles 0 [])).Accounted 0 := by
  refine ⟨by decide, fun h => ?_⟩
  have hnowhere : (unwritten.foldl step (started twoSettles 0 [])).places.count 1 = 0 := by decide
  have hclaimed : (unwritten.foldl step (started twoSettles 0 [])).cursor = 2 := by decide
  have hone := h.once 1
  rw [hnowhere, hclaimed] at hone
  cases hone

/-- its answer written, the second is answered too -/
theorem settles_accounted :
    ([Event.claimerClaims, .claimerTakes (.failed false), .claimerPays true, .claimerTakes .answered].foldl step
      (started twoSettles 0 [])).Accounted 0 :=
  accounted_of_run ⟨trivial, trivial, fun _ _ _ _ _ => .inl rfl, trivial, trivial⟩ (by decide)

end State

end OnePipeline.InPass
