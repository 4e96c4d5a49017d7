/-
Runs of a system whose steps are data: a state, a list of events folded onto it, and which events may come at a state.

Results:
- `Admits.invariant`: what every admitted event keeps holds after a run;
- `Admits.always_iff`: what holds after every part of a run, where each event decides whether it still does;
- `Admits.append`: a run in two parts;
- `Admits.mono`, `Admits.under`, `Admits.and_forall`: a run under another admission;
- `Through.comp`, `Through.foldl`: changes, and runs, that a view of the state decides the view of;
- `Grown.concat`: a history whose every entry follows from those before it, an entry longer.

Nothing in this file names the program.
-/
import Mathlib.Tactic

namespace OnePipeline.Runs

variable {σ ε : Type*} (step : σ → ε → σ) (allowed : σ → ε → Prop)

/-- a list of events each of which may come at the state the ones before it leave -/
def Admits : σ → List ε → Prop
  | _, [] => True
  | s, e :: l => allowed s e ∧ Admits (step s e) l

variable {step allowed} {allowed' : σ → ε → Prop} {s : σ} {l m : List ε}

/-- **The invariant rule.** -/
theorem Admits.invariant {I : σ → Prop} (hstep : ∀ s e, I s → allowed s e → I (step s e)) (h0 : I s)
    (h : Admits step allowed s l) : I (l.foldl step s) := by
  induction l generalizing s with
  | nil => exact h0
  | cons e l ih => exact ih (hstep s e h0 h.1) h.2

theorem Admits.mono (hle : ∀ s e, allowed s e → allowed' s e) (h : Admits step allowed s l) :
    Admits step allowed' s l := by
  induction l generalizing s with
  | nil => trivial
  | cons e l ih => exact ⟨hle s e h.1, ih h.2⟩

theorem Admits.append : Admits step allowed s (l ++ m) ↔ Admits step allowed s l ∧ Admits step allowed (l.foldl step s) m := by
  induction l generalizing s with
  | nil => simp [Admits]
  | cons e l ih => simp only [List.cons_append, Admits, ih, List.foldl_cons, and_assoc]

/-- a run under another admission, which what every event keeps gives -/
theorem Admits.under {I : σ → Prop} (hstep : ∀ s e, I s → allowed s e → I (step s e))
    (hgood : ∀ s e, I s → allowed s e → allowed' s e) (h0 : I s) (h : Admits step allowed s l) : Admits step allowed' s l := by
  induction l generalizing s with
  | nil => trivial
  | cons e l ih => exact ⟨hgood s e h0 h.1, ih (hstep s e h0 h.1) h.2⟩

/-- **Throughout a run.** What each admitted event keeps exactly when the event is good holds after every part of a run
exactly when all its events are. -/
theorem Admits.always_iff {I : σ → Prop} (hstep : ∀ s e, I s → allowed s e → (I (step s e) ↔ allowed' s e)) (h0 : I s)
    (h : Admits step allowed s l) : (∀ m, m <+: l → I (m.foldl step s)) ↔ Admits step allowed' s l := by
  induction l generalizing s with
  | nil =>
    refine ⟨fun _ => trivial, fun _ m hm => ?_⟩
    rw [List.prefix_nil.mp hm]
    exact h0
  | cons e l ih =>
    constructor
    · intro hall
      have hkept : I (step s e) := hall [e] ⟨l, rfl⟩
      refine ⟨(hstep s e h0 h.1).mp hkept, (ih hkept h.2).mp fun m hm => ?_⟩
      exact hall (e :: m) (List.cons_prefix_cons.mpr ⟨rfl, hm⟩)
    · intro hgood m hm
      rcases List.prefix_cons_iff.mp hm with rfl | ⟨part, rfl, hpart⟩
      · exact h0
      · exact (ih ((hstep s e h0 h.1).mpr hgood.1) h.2).mpr hgood.2 part hpart

/-- whether a run is admitted, where each step can be told -/
instance Admits.decidable [∀ s e, Decidable (allowed s e)] : ∀ s l, Decidable (Admits step allowed s l)
  | _, [] => .isTrue trivial
  | s, e :: l => @instDecidableAnd _ _ inferInstance (Admits.decidable (step s e) l)

/-- a list of events that may come at any state -/
theorem Admits.of_forall (h : ∀ e ∈ l, ∀ s, allowed s e) : Admits step allowed s l := by
  induction l generalizing s with
  | nil => trivial
  | cons e l ih => exact ⟨h e List.mem_cons_self s, ih fun e' he => h e' (List.mem_cons_of_mem _ he)⟩

/-- a run whose events each satisfy a condition of their own -/
theorem Admits.and_forall {p : ε → Prop} (h : Admits step allowed s l) (hp : ∀ e ∈ l, p e) :
    Admits step (fun s e => allowed s e ∧ p e) s l := by
  induction l generalizing s with
  | nil => trivial
  | cons e l ih => exact ⟨⟨h.1, hp e List.mem_cons_self⟩, ih h.2 fun e' he => hp e' (List.mem_cons_of_mem _ he)⟩

/-! ## Steps under a view -/

/-- a change whose outcome under a view is decided by the state under it -/
def Through {κ : Type*} (view : σ → κ) (f : σ → σ) : Prop := ∀ ⦃s t⦄, view s = view t → view (f s) = view (f t)

namespace Through

variable {κ : Type*} {view : σ → κ} {f g : σ → σ}

/-- a change that reads nothing a view of states as states blanks -/
theorem of_view {view : σ → σ} (h : ∀ s, view (f s) = view (f (view s))) : Through view f := by
  intro s t hv
  rw [h s, h t, hv]

theorem comp (hg : Through view g) (hf : Through view f) : Through view fun s => g (f s) := fun _ _ hv => hg (hf hv)

/-- a change chosen by what the view keeps -/
theorem ite {c : σ → Prop} [DecidablePred c] (hc : ∀ ⦃s t⦄, view s = view t → (c s ↔ c t)) (hf : Through view f)
    (hg : Through view g) : Through view fun s => if c s then f s else g s := by
  intro s t hv
  by_cases hs : c s
  · simp only [if_pos hs, if_pos ((hc hv).mp hs), hf hv]
  · simp only [if_neg hs, if_neg fun ht => hs ((hc hv).mpr ht), hg hv]

theorem foldl {step : σ → ε → σ} (l : List ε) (h : ∀ e, Through view fun s => step s e) :
    Through view fun s => l.foldl step s := by
  intro s t hv
  induction l generalizing s t with
  | nil => exact hv
  | cons e l ih => exact ih (h e hv)

end Through

/-! ## Histories -/

/-- a history each entry of which is in a relation to those before it -/
def Grown {α : Type*} (P : List α → α → Prop) (l : List α) : Prop := ∀ k a, l[k]? = some a → P (l.take k) a

namespace Grown

variable {α : Type*} {P Q : List α → α → Prop} {l : List α} {a : α}

theorem nil : Grown P [] := fun k b hb => by cases hb

theorem concat (h : Grown P l) (ha : P l a) : Grown P (l ++ [a]) := by
  intro k b hb
  rcases Nat.lt_trichotomy k l.length with hk | rfl | hk
  · rw [List.getElem?_append_left hk] at hb
    rw [List.take_append_of_le_length hk.le]
    exact h k b hb
  · rw [List.getElem?_concat_length] at hb
    obtain rfl : a = b := Option.some.inj hb
    rw [List.take_left]
    exact ha
  · rw [List.getElem?_eq_none (by rw [List.length_append, List.length_singleton]; omega)] at hb
    cases hb

theorem mono (hPQ : ∀ before b, P before b → Q before b) (h : Grown P l) : Grown Q l := fun k b hb => hPQ _ b (h k b hb)

end Grown

end OnePipeline.Runs
