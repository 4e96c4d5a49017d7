/-
The members of a finite set that are below no other, under a strict order.

Results:
- `exists_topmost`: each member is topmost, or below one that is;
- `topmost_nonempty`: a set that has a member has a topmost one;
- `topmost_eq_iff`: a larger set has the same topmost members exactly when each member it adds is below one of the smaller.

Nothing in this file names the program.
-/
import Mathlib.Tactic

namespace OnePipeline.Tops

variable {α : Type*} {below : α → α → Prop} {C D : Set α} {c : α}

/-- the members of a set that are below none of its members -/
def Topmost (below : α → α → Prop) (C : Set α) : Set α := fun c => c ∈ C ∧ ∀ d ∈ C, ¬below c d

theorem mem_topmost : c ∈ Topmost below C ↔ c ∈ C ∧ ∀ d ∈ C, ¬below c d := Iff.rfl

theorem topmost_subset : Topmost below C ⊆ C := fun _ h => h.1

variable [IsStrictOrder α below]

theorem exists_topmost (hfin : C.Finite) (hc : c ∈ C) : ∃ t ∈ Topmost below C, c = t ∨ below c t := by
  have hup : IsStrictOrder α (Function.swap below) :=
    { irrefl := fun a h => irrefl_of below a h, trans := fun _ _ _ hab hbc => trans_of below hbc hab }
  have hwf : C.WellFoundedOn (Function.swap below) := hfin.wellFoundedOn
  -- up from the member, each one met is below what is found above it
  refine hwf.induction (P := fun c => ∃ t ∈ Topmost below C, c = t ∨ below c t) hc fun c hc ih => ?_
  by_cases htop : ∀ d ∈ C, ¬below c d
  · exact ⟨c, ⟨hc, htop⟩, .inl rfl⟩
  · push Not at htop
    obtain ⟨d, hd, hcd⟩ := htop
    obtain ⟨t, ht, rfl | hdt⟩ := ih d hd hcd
    · exact ⟨d, ht, .inr hcd⟩
    · exact ⟨t, ht, .inr (trans_of below hcd hdt)⟩

theorem topmost_nonempty (hfin : C.Finite) : (Topmost below C).Nonempty ↔ C.Nonempty := by
  refine ⟨fun ⟨t, ht⟩ => ⟨t, ht.1⟩, fun ⟨c, hc⟩ => ?_⟩
  obtain ⟨t, ht, -⟩ := @exists_topmost _ below _ _ _ hfin hc
  exact ⟨t, ht⟩

/-- **What more members change.** -/
theorem topmost_eq_iff (hfin : D.Finite) (hle : C ⊆ D) :
    Topmost below D = Topmost below C ↔ ∀ d ∈ D, d ∉ C → ∃ c ∈ C, below d c := by
  constructor
  · intro heq d hd hnew
    obtain ⟨t, ht, rfl | hdt⟩ := @exists_topmost _ below _ _ _ hfin hd
    · exact absurd (heq ▸ ht : d ∈ Topmost below C).1 hnew
    · exact ⟨t, (heq ▸ ht : t ∈ Topmost below C).1, hdt⟩
  · intro hadded
    ext t
    constructor
    · rintro ⟨ht, htop⟩
      refine ⟨?_, fun c hc => htop c (hle hc)⟩
      by_contra hnew
      obtain ⟨c, hc, htc⟩ := hadded t ht hnew
      exact htop c (hle hc) htc
    · rintro ⟨ht, htop⟩
      refine ⟨hle ht, fun d hd htd => ?_⟩
      -- what is above it among the members added is below one that was there
      by_cases hdC : d ∈ C
      · exact htop d hdC htd
      · obtain ⟨c, hc, hdc⟩ := hadded d hd hdC
        exact htop c hc (trans_of below htd hdc)

end OnePipeline.Tops
