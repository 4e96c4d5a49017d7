/-
Checks in sequence over `Except`: a check that refuses under a condition, one over each element of a list, one that
hands on what another answered. Each comes with the one lemma saying when it passes, so that a proof about a validator
reads its conditions off without looking into it.

Nothing in this file names the program.
-/
import Mathlib.Tactic

namespace OnePipeline.Checks

universe u

variable {ε ε' : Type*} {α β : Type u} {γ : Type*}

/-- refuse with `e` where `c` holds -/
def refuseIf (c : Prop) [Decidable c] (e : ε) : Except ε Unit := if c then .error e else .ok ()

/-- the refusal another check answered, if it answered one -/
def refuseAs (refusal : Option ε) : Except ε Unit :=
  match refusal with
  | some e => .error e
  | none => .ok ()

/-- what is there, or a refusal -/
def need (o : Option α) (e : ε) : Except ε α :=
  match o with
  | some a => .ok a
  | none => .error e

/-- one check over each element, in order -/
def each (f : γ → Except ε Unit) : List γ → Except ε Unit
  | [] => .ok ()
  | a :: l => f a >>= fun _ => each f l

@[simp] theorem bind_eq_ok {x : Except ε α} {f : α → Except ε β} {b : β} :
    (x >>= f) = .ok b ↔ ∃ a, x = .ok a ∧ f a = .ok b := by
  cases x with
  | error e => simp [bind, Except.bind]
  | ok a => simp [bind, Except.bind]

theorem exists_unit {p : Unit → Prop} : (∃ u, p u) ↔ p () := ⟨fun ⟨(), h⟩ => h, fun h => ⟨(), h⟩⟩

@[simp] theorem pure_eq_ok {a b : α} : (pure a : Except ε α) = .ok b ↔ a = b := by
  simp [pure, Except.pure]

@[simp] theorem mapError_eq_ok {x : Except ε α} {f : ε → ε'} {a : α} : x.mapError f = .ok a ↔ x = .ok a := by
  cases x with
  | error e => simp [Except.mapError]
  | ok b => simp [Except.mapError]

@[simp] theorem map_eq_ok {x : Except ε α} {f : α → β} {b : β} : x.map f = .ok b ↔ ∃ a, x = .ok a ∧ f a = b := by
  cases x with
  | error e => simp [Except.map]
  | ok a => simp [Except.map]

@[simp] theorem refuseIf_eq_ok {c : Prop} [Decidable c] {e : ε} {u : Unit} : refuseIf c e = .ok u ↔ ¬c := by
  unfold refuseIf
  split_ifs with h
  · simp [h]
  · simp [h]

@[simp] theorem refuseAs_eq_ok {r : Option ε} {u : Unit} : refuseAs r = .ok u ↔ r = none := by
  cases r with
  | none => simp [refuseAs]
  | some e => simp [refuseAs]

@[simp] theorem need_eq_ok {o : Option α} {e : ε} {a : α} : need o e = .ok a ↔ o = some a := by
  cases o with
  | none => simp [need]
  | some b => simp [need]

@[simp] theorem each_eq_ok {f : γ → Except ε Unit} {l : List γ} {u : Unit} :
    each f l = .ok u ↔ ∀ a ∈ l, f a = .ok () := by
  induction l with
  | nil => simp [each]
  | cons a l ih =>
    rw [each, bind_eq_ok, List.forall_mem_cons, ← ih]
    exact ⟨fun ⟨(), hf, hl⟩ => ⟨hf, hl⟩, fun ⟨hf, hl⟩ => ⟨(), hf, hl⟩⟩

theorem bind_eq_error {x : Except ε α} {f : α → Except ε β} {e : ε} :
    (x >>= f) = .error e ↔ x = .error e ∨ ∃ a, x = .ok a ∧ f a = .error e := by
  cases x with
  | error e => simp [bind, Except.bind]
  | ok a => simp [bind, Except.bind]

theorem map_eq_error {x : Except ε α} {f : α → β} {e : ε} : x.map f = .error e ↔ x = .error e := by
  cases x with
  | error e => simp [Except.map]
  | ok a => simp [Except.map]

theorem refuseIf_eq_error {c : Prop} [Decidable c] {e e' : ε} : refuseIf c e = .error e' ↔ c ∧ e = e' := by
  unfold refuseIf
  split_ifs with h
  · simp [h]
  · simp [h]

theorem need_eq_error {o : Option α} {e e' : ε} : need o e = .error e' ↔ o = none ∧ e = e' := by
  cases o with
  | none => simp [need]
  | some b => simp [need]

/-- a fold that fails does so at one element, past the ones before it -/
theorem foldlM_eq_error {f : α → γ → Except ε α} {l : List γ} {a : α} {e : ε} (h : l.foldlM f a = .error e) :
    ∃ before c after b, l = before ++ c :: after ∧ before.foldlM f a = .ok b ∧ f b c = .error e := by
  induction l generalizing a with
  | nil => cases h
  | cons c l ih =>
    rw [List.foldlM_cons, bind_eq_error] at h
    rcases h with h | ⟨a', hc, h⟩
    · exact ⟨[], c, l, a, rfl, rfl, h⟩
    · obtain ⟨before, d, after, b, rfl, hb, hd⟩ := ih h
      exact ⟨c :: before, d, after, b, rfl, by rw [List.foldlM_cons, hc]; exact hb, hd⟩

/-- what a check answers, where an evaluation of it says it passes with a value of a property -/
theorem exists_ok_of_any {γ : Type*} {x : Except ε γ} {p : γ → Bool} (h : x.toOption.any p = true) :
    ∃ a, x = .ok a ∧ p a = true := by
  cases x with
  | error e => cases h
  | ok a => exact ⟨a, rfl, h⟩

/-- what a check refuses with, where an evaluation of it says it refuses with a refusal of a property -/
theorem exists_error_of_any {γ : Type*} {x : Except ε γ} {p : ε → Bool}
    (h : (match x with | .error e => p e | .ok _ => false) = true) : ∃ e, x = .error e ∧ p e = true := by
  cases x with
  | error e => exact ⟨e, rfl, h⟩
  | ok a => cases h

/-- two sequences of checks pass alike where each of their checks does -/
theorem each_congr {f g : γ → Except ε Unit} {l m : List γ} (hl : ∀ a, a ∈ l ↔ a ∈ m)
    (h : ∀ a ∈ l, f a = .ok () ↔ g a = .ok ()) : each f l = .ok () ↔ each g m = .ok () := by
  rw [each_eq_ok, each_eq_ok]
  constructor
  · exact fun hf a ha => (h a ((hl a).mpr ha)).mp (hf a ((hl a).mpr ha))
  · exact fun hg a ha => (h a ha).mpr (hg a ((hl a).mp ha))

end OnePipeline.Checks
