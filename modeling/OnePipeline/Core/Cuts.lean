/-
An interval divided at cuts: the windows between neighbouring cuts, and what their lengths come to.

Results:
- `sum_filter`: the windows a predicate holds over come to as many instants as it holds at;
- `sum_windows`: the windows come to the whole interval;
- `covered_iff`: where every endpoint of an interval is a cut, a window is inside one or outside all of them.

Nothing in this file names the program.
-/
import Mathlib.Tactic

namespace OnePipeline.Cuts

/-! ## Windows -/

/-- the windows between neighbouring cuts -/
def windows : List ℕ → List (ℕ × ℕ)
  | a :: b :: l => (a, b) :: windows (b :: l)
  | _ => []

/-- what windows come to -/
def lengths (l : List (ℕ × ℕ)) : ℕ := (l.map fun w => w.2 - w.1).sum

@[simp] theorem lengths_nil : lengths [] = 0 := rfl

@[simp] theorem lengths_cons (w : ℕ × ℕ) (l : List (ℕ × ℕ)) : lengths (w :: l) = w.2 - w.1 + lengths l := by
  simp [lengths]

variable {a : ℕ} {l : List ℕ}

/-- a window is not empty, and no cut is inside it -/
theorem windows_spec (h : (a :: l).Pairwise (· < ·)) {w : ℕ × ℕ} (hw : w ∈ windows (a :: l)) :
    a ≤ w.1 ∧ w.1 < w.2 ∧ w.2 ∈ a :: l ∧ ∀ c ∈ a :: l, c ≤ w.1 ∨ w.2 ≤ c := by
  induction l generalizing a with
  | nil => cases hw
  | cons b l ih =>
    obtain ⟨hhead, htail⟩ := List.pairwise_cons.mp h
    have hab := hhead b List.mem_cons_self
    rw [windows, List.mem_cons] at hw
    rcases hw with rfl | hw
    · refine ⟨le_refl a, hab, List.mem_cons_of_mem _ List.mem_cons_self, fun c hc => ?_⟩
      rcases List.mem_cons.mp hc with rfl | hc
      · exact .inl (le_refl c)
      · rcases List.mem_cons.mp hc with rfl | hc
        · exact .inr (le_refl c)
        · exact .inr ((List.pairwise_cons.mp htail).1 c hc).le
    · obtain ⟨hle, hlt, hmem, hcuts⟩ := ih htail hw
      refine ⟨hab.le.trans hle, hlt, List.mem_cons_of_mem _ hmem, fun c hc => ?_⟩
      rcases List.mem_cons.mp hc with rfl | hc
      · exact .inl (hab.le.trans hle)
      · exact hcuts c hc

/-- **Instants.** The windows a predicate holds over come to as many instants as it holds at. -/
theorem sum_filter {p : ℕ × ℕ → Bool} {q : ℕ → Prop} [DecidablePred q] (h : (a :: l).Pairwise (· < ·))
    (hp : ∀ w ∈ windows (a :: l), ∀ t, w.1 ≤ t → t < w.2 → (p w = true ↔ q t)) :
    lengths ((windows (a :: l)).filter p) = ((Finset.Ico a ((a :: l).getLast (List.cons_ne_nil a l))).filter q).card := by
  induction l generalizing a with
  | nil => simp [windows]
  | cons b l ih =>
    obtain ⟨hhead, htail⟩ := List.pairwise_cons.mp h
    have hab := hhead b List.mem_cons_self
    have hrest := ih htail fun w hw => hp w (by rw [windows]; exact List.mem_cons_of_mem _ hw)
    have hbl : b ≤ (b :: l).getLast (List.cons_ne_nil b l) := by
      rcases List.mem_cons.mp (List.getLast_mem (List.cons_ne_nil b l)) with heq | hin
      · exact heq.ge
      · exact ((List.pairwise_cons.mp htail).1 _ hin).le
    have hfirst : ((Finset.Ico a b).filter q).card = if p (a, b) = true then b - a else 0 := by
      have hone (t : ℕ) (ht : t ∈ Finset.Ico a b) : p (a, b) = true ↔ q t := by
        obtain ⟨hle, hlt⟩ := Finset.mem_Ico.mp ht
        exact hp (a, b) (by rw [windows]; exact List.mem_cons_self) t hle hlt
      split_ifs with hpab
      · rw [Finset.filter_true_of_mem fun t ht => (hone t ht).mp hpab, Nat.card_Ico]
      · rw [Finset.filter_false_of_mem fun t ht => fun hq => hpab ((hone t ht).mpr hq), Finset.card_empty]
    have hlast : (a :: b :: l).getLast (List.cons_ne_nil a (b :: l)) = (b :: l).getLast (List.cons_ne_nil b l) :=
      List.getLast_cons (List.cons_ne_nil b l)
    have hsplit : (Finset.Ico a ((b :: l).getLast (List.cons_ne_nil b l))).filter q =
        (Finset.Ico a b).filter q ∪ (Finset.Ico b ((b :: l).getLast (List.cons_ne_nil b l))).filter q := by
      rw [← Finset.filter_union, Finset.Ico_union_Ico_eq_Ico hab.le hbl]
    have hdisjoint : Disjoint ((Finset.Ico a b).filter q)
        ((Finset.Ico b ((b :: l).getLast (List.cons_ne_nil b l))).filter q) :=
      Finset.disjoint_filter_filter (Finset.Ico_disjoint_Ico_consecutive a b _)
    rw [hlast, hsplit, Finset.card_union_of_disjoint hdisjoint, hfirst, ← hrest, windows]
    split_ifs with hpab
    · rw [List.filter_cons_of_pos hpab, lengths_cons]
    · rw [List.filter_cons_of_neg hpab, Nat.zero_add]

/-- **The whole interval.** The windows come to it. -/
theorem sum_windows (h : (a :: l).Pairwise (· < ·)) :
    lengths (windows (a :: l)) = (a :: l).getLast (List.cons_ne_nil a l) - a := by
  have hall := sum_filter (p := fun _ => true) (q := fun _ => True) h fun _ _ _ _ _ => by simp
  rwa [List.filter_eq_self.mpr fun _ _ => rfl, Finset.filter_true, Nat.card_Ico] at hall

/-! ## Cuts inside an interval -/

/-- the cuts inside an interval, its ends among them, in order and each once -/
def within (start stop : ℕ) (marks : List ℕ) : List ℕ :=
  ((((start :: stop :: marks).filter fun t => start ≤ t ∧ t ≤ stop)).insertionSort (· ≤ ·)).dedup

variable {start stop : ℕ} {marks : List ℕ}

theorem mem_within {t : ℕ} :
    t ∈ within start stop marks ↔ start ≤ t ∧ t ≤ stop ∧ (t = start ∨ t = stop ∨ t ∈ marks) := by
  rw [within, List.mem_dedup, List.mem_insertionSort, List.mem_filter, List.mem_cons, List.mem_cons, decide_eq_true_eq]
  tauto

theorem pairwise_within : (within start stop marks).Pairwise (· < ·) := by
  have hsorted : (within start stop marks).Pairwise (· ≤ ·) :=
    (List.pairwise_insertionSort (· ≤ ·) _).sublist (List.dedup_sublist _)
  exact (hsorted.and (List.nodup_dedup _)).imp fun hab => lt_of_le_of_ne hab.1 hab.2

/-- the cuts start at the interval's start and end at its end -/
theorem within_eq (h : start ≤ stop) :
    ∃ l, within start stop marks = start :: l ∧ (start :: l).getLast (List.cons_ne_nil start l) = stop := by
  have hstart : start ∈ within start stop marks := mem_within.mpr ⟨le_refl start, h, .inl rfl⟩
  have hend : stop ∈ within start stop marks := mem_within.mpr ⟨h, le_refl _, .inr (.inl rfl)⟩
  have hsorted : (within start stop marks).Pairwise (· < ·) := pairwise_within
  have hbounds (t : ℕ) (ht : t ∈ within start stop marks) : start ≤ t ∧ t ≤ stop :=
    ⟨(mem_within.mp ht).1, (mem_within.mp ht).2.1⟩
  cases hcuts : within start stop marks with
  | nil => rw [hcuts] at hstart; cases hstart
  | cons a l =>
    rw [hcuts] at hstart hend hsorted hbounds
    have ha : a = start := by
      rcases List.mem_cons.mp hstart with heq | hin
      · exact heq.symm
      · exact absurd ((List.pairwise_cons.mp hsorted).1 start hin) (not_lt.mpr (hbounds a List.mem_cons_self).1)
    subst ha
    refine ⟨l, rfl, le_antisymm (hbounds _ (List.getLast_mem _)).2 ?_⟩
    exact hsorted.imp (fun h => h.le) |>.rel_getLast hend

/-! ## Spans -/

/-- a window inside one of some spans -/
def covered (spans : List (ℕ × ℕ)) (w : ℕ × ℕ) : Bool := spans.any fun s => s.1 ≤ w.1 ∧ w.2 ≤ s.2

/-- **Spans.** Where every endpoint of a span inside an interval is a cut of it, a window is covered exactly where any
instant of it is in a span. -/
theorem covered_iff {spans : List (ℕ × ℕ)} (h : start ≤ stop) (hmarks : ∀ s ∈ spans, s.1 ∈ marks ∧ s.2 ∈ marks)
    {w : ℕ × ℕ} (hw : w ∈ windows (within start stop marks)) {t : ℕ} (hle : w.1 ≤ t) (hlt : t < w.2) :
    covered spans w = true ↔ ∃ s ∈ spans, s.1 ≤ t ∧ t < s.2 := by
  obtain ⟨l, hcuts, -⟩ : ∃ l, within start stop marks = start :: l ∧ _ := within_eq h
  have hsorted : (within start stop marks).Pairwise (· < ·) := pairwise_within
  rw [hcuts] at hw hsorted
  obtain ⟨hfirst, -, hmem, houtside⟩ := windows_spec hsorted hw
  have hend : w.2 ≤ stop := (mem_within.mp (hcuts ▸ hmem)).2.1
  have hcut (c : ℕ) (hc : c ∈ marks) : c ≤ w.1 ∨ w.2 ≤ c := by
    by_cases hin : start ≤ c ∧ c ≤ stop
    · exact houtside c (hcuts ▸ mem_within.mpr ⟨hin.1, hin.2, .inr (.inr hc)⟩)
    · omega
  rw [covered, List.any_eq_true]
  constructor
  · rintro ⟨s, hs, hcov⟩
    obtain ⟨h1, h2⟩ := of_decide_eq_true hcov
    exact ⟨s, hs, h1.trans hle, hlt.trans_le h2⟩
  · rintro ⟨s, hs, h1, h2⟩
    obtain ⟨hm1, hm2⟩ := hmarks s hs
    refine ⟨s, hs, decide_eq_true ⟨?_, ?_⟩⟩
    · exact (hcut s.1 hm1).resolve_right fun h => by omega
    · exact (hcut s.2 hm2).resolve_left fun h => by omega

end OnePipeline.Cuts
