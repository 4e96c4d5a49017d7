/-
The closure of a list under a step, computed with a worklist: take the last entry pending, and unless it was seen add it
and what it leads to.

Results, where every step stays in a finite `support` and leads to at most `width` entries:
- `drain_closed`: with `fuelOf` of the support, what is drained is closed under the step;
- `seen_subset_drain`: it keeps what was seen to begin with;
- `drain_subset`: and holds nothing outside that and the support;
- `mem_drain_iff`: drained with nothing seen, it is what the step leads to from what was pending.

Nothing in this file names the program.
-/
import Mathlib.Tactic

namespace OnePipeline.Worklist

variable {V : Type*} [DecidableEq V] (next : V → List V)

/-- entries pending, the last one taken first, and entries seen, in the order they were -/
def drain : ℕ → List V → List V → List V
  | 0, _, seen => seen
  | fuel + 1, pending, seen =>
    match pending.getLast? with
    | none => seen
    | some v =>
      if v ∈ seen then drain fuel pending.dropLast seen else drain fuel (pending.dropLast ++ next v) (seen ++ [v])

/-- the turns a drain can take: one for each entry pending, and one for each entry each new one adds -/
def fuelOf (support pending : List V) (width : ℕ) : ℕ := pending.length + (width + 1) * support.length + 1

variable {next}

theorem seen_subset_drain (fuel : ℕ) (pending seen : List V) {v : V} (hv : v ∈ seen) : v ∈ drain next fuel pending seen := by
  induction fuel generalizing pending seen with
  | zero => exact hv
  | succ fuel ih =>
    unfold drain
    cases pending.getLast? with
    | none => exact hv
    | some w =>
      simp only
      split_ifs
      · exact ih _ _ hv
      · exact ih _ _ (List.mem_append_left _ hv)

theorem drain_subset {support : List V} (hnext : ∀ v ∈ support, ∀ w ∈ next v, w ∈ support) (fuel : ℕ) {pending seen : List V}
    (hp : ∀ v ∈ pending, v ∈ support) {v : V} (hv : v ∈ drain next fuel pending seen) : v ∈ seen ∨ v ∈ support := by
  induction fuel generalizing pending seen with
  | zero => exact Or.inl hv
  | succ fuel ih =>
    unfold drain at hv
    cases hl : pending.getLast? with
    | none =>
      rw [hl] at hv
      exact Or.inl hv
    | some w =>
      have hw : w ∈ support := hp w (List.mem_of_getLast? hl)
      have hdrop : ∀ u ∈ pending.dropLast, u ∈ support := fun u hu => hp u (List.dropLast_subset _ hu)
      simp only [hl] at hv
      split_ifs at hv
      · exact ih hdrop hv
      · have hp' : ∀ u ∈ pending.dropLast ++ next w, u ∈ support := by
          intro u hu
          rcases List.mem_append.mp hu with hu | hu
          · exact hdrop u hu
          · exact hnext w hw u hu
        rcases ih hp' hv with h | h
        · rcases List.mem_append.mp h with h | h
          · exact Or.inl h
          · exact Or.inr ((List.mem_singleton.mp h) ▸ hw)
        · exact Or.inr h

/-- the entries of the support not seen yet -/
def unseen (support seen : List V) : List V := support.filter fun v => v ∉ seen

theorem unseen_append_lt {support seen : List V} {v : V} (hs : v ∈ support) (hv : v ∉ seen) :
    (unseen support (seen ++ [v])).length < (unseen support seen).length := by
  have hsub : unseen support (seen ++ [v]) = (unseen support seen).filter fun w => w ≠ v := by
    simp only [unseen, List.filter_filter]
    refine List.filter_congr fun w _ => ?_
    simp [and_comm]
  rw [hsub]
  refine List.length_filter_lt_length_iff_exists.mpr ⟨v, ?_, by simp⟩
  simpa [unseen] using And.intro hs hv

/-- **The drain.** With the fuel of its support it stops, and what it saw is closed under the step. -/
theorem drain_closed {support : List V} {width : ℕ} (hnext : ∀ v ∈ support, ∀ w ∈ next v, w ∈ support)
    (hwidth : ∀ v ∈ support, (next v).length ≤ width) (fuel : ℕ) {pending seen : List V}
    (hfuel : pending.length + (width + 1) * (unseen support seen).length < fuel) (hp : ∀ v ∈ pending, v ∈ support)
    (hinv : ∀ v ∈ seen, ∀ w ∈ next v, w ∈ seen ∨ w ∈ pending) :
    (∀ v ∈ pending, v ∈ drain next fuel pending seen) ∧
      ∀ v ∈ drain next fuel pending seen, ∀ w ∈ next v, w ∈ drain next fuel pending seen := by
  induction fuel generalizing pending seen with
  | zero => omega
  | succ fuel ih =>
    unfold drain
    cases hl : pending.getLast? with
    | none =>
      have hnil : pending = [] := List.getLast?_eq_none_iff.mp hl
      subst hnil
      refine ⟨by simp, fun v hv w hw => ?_⟩
      simpa using hinv v hv w hw
    | some u =>
      have hsplit : pending = pending.dropLast ++ [u] := (List.dropLast_append_getLast? u hl).symm
      have hlen : pending.length = pending.dropLast.length + 1 := by
        conv_lhs => rw [hsplit]
        simp
      have hu : u ∈ support := hp u (List.mem_of_getLast? hl)
      have hdrop : ∀ v ∈ pending.dropLast, v ∈ support := fun v hv => hp v (List.dropLast_subset _ hv)
      have hmem (v : V) : v ∈ pending ↔ v ∈ pending.dropLast ∨ v = u := by
        conv_lhs => rw [hsplit]
        simp
      simp only
      split_ifs with hs
      · have hinv' : ∀ v ∈ seen, ∀ w ∈ next v, w ∈ seen ∨ w ∈ pending.dropLast := by
          intro v hv w hw
          rcases hinv v hv w hw with h | h
          · exact Or.inl h
          · rcases (hmem w).mp h with h | rfl
            · exact Or.inr h
            · exact Or.inl hs
        obtain ⟨hp', hc⟩ := ih (by omega) hdrop hinv'
        refine ⟨fun v hv => ?_, hc⟩
        rcases (hmem v).mp hv with h | rfl
        · exact hp' v h
        · exact seen_subset_drain _ _ _ hs
      · have hpend : ∀ v ∈ pending.dropLast ++ next u, v ∈ support := by
          intro v hv
          rcases List.mem_append.mp hv with h | h
          · exact hdrop v h
          · exact hnext u hu v h
        have hinv' : ∀ v ∈ seen ++ [u], ∀ w ∈ next v, w ∈ seen ++ [u] ∨ w ∈ pending.dropLast ++ next u := by
          intro v hv w hw
          rcases List.mem_append.mp hv with hv | hv
          · rcases hinv v hv w hw with h | h
            · exact Or.inl (List.mem_append_left _ h)
            · rcases (hmem w).mp h with h | rfl
              · exact Or.inr (List.mem_append_left _ h)
              · exact Or.inl (by simp)
          · rw [List.mem_singleton.mp hv] at hw
            exact Or.inr (List.mem_append_right _ hw)
        have hless := unseen_append_lt hu hs
        have hw := hwidth u hu
        have hfuel' : (pending.dropLast ++ next u).length + (width + 1) * (unseen support (seen ++ [u])).length < fuel := by
          have hmul : (width + 1) * (unseen support (seen ++ [u])).length + (width + 1) ≤
              (width + 1) * (unseen support seen).length := by
            rw [← Nat.mul_succ]
            exact Nat.mul_le_mul_left _ hless
          rw [List.length_append]
          omega
        obtain ⟨hp', hc⟩ := ih hfuel' hpend hinv'
        refine ⟨fun v hv => ?_, hc⟩
        rcases (hmem v).mp hv with h | rfl
        · exact hp' v (List.mem_append_left _ h)
        · exact seen_subset_drain _ _ _ (by simp)

/-- what is drained was seen to begin with, or is reached from what was pending -/
theorem drain_reached (fuel : ℕ) {pending seen : List V} {v : V} (hv : v ∈ drain next fuel pending seen) :
    v ∈ seen ∨ ∃ p ∈ pending, Relation.ReflTransGen (fun a b => b ∈ next a) p v := by
  induction fuel generalizing pending seen with
  | zero => exact .inl hv
  | succ fuel ih =>
    unfold drain at hv
    cases hl : pending.getLast? with
    | none =>
      rw [hl] at hv
      exact .inl hv
    | some w =>
      have hw : w ∈ pending := List.mem_of_getLast? hl
      simp only [hl] at hv
      split_ifs at hv
      · rcases ih hv with h | ⟨p, hp, hr⟩
        · exact .inl h
        · exact .inr ⟨p, List.dropLast_subset _ hp, hr⟩
      · rcases ih hv with h | ⟨p, hp, hr⟩
        · rcases List.mem_append.mp h with h | h
          · exact .inl h
          · rw [List.mem_singleton.mp h]
            exact .inr ⟨w, hw, .refl⟩
        · rcases List.mem_append.mp hp with hp | hp
          · exact .inr ⟨p, List.dropLast_subset _ hp, hr⟩
          · exact .inr ⟨w, hw, .head hp hr⟩

/-- **What is drained.** -/
theorem mem_drain_iff {support pending : List V} {width : ℕ} (hnext : ∀ v ∈ support, ∀ w ∈ next v, w ∈ support)
    (hwidth : ∀ v ∈ support, (next v).length ≤ width) (hp : ∀ v ∈ pending, v ∈ support) {v : V} :
    v ∈ drain next (fuelOf support pending width) pending [] ↔
      ∃ p ∈ pending, Relation.ReflTransGen (fun a b => b ∈ next a) p v := by
  have hfuel : pending.length + (width + 1) * (unseen support []).length < fuelOf support pending width := by
    have hall : unseen support [] = support := List.filter_eq_self.mpr (by simp)
    rw [fuelOf, hall]
    omega
  obtain ⟨hstart, hclosed⟩ := drain_closed hnext hwidth _ hfuel hp (by simp)
  refine ⟨fun hv => (drain_reached _ hv).resolve_left (by simp), ?_⟩
  rintro ⟨p, hp, hr⟩
  induction hr with
  | refl => exact hstart p hp
  | tail _ hlast ih => exact hclosed _ ih _ hlast

end OnePipeline.Worklist
