/-
Actions on a state that may fail and leave the state they came to either way, with rules of pre- and postconditions.

Results:
- `Triple.bind`, `Triple.pure`, `Triple.fail`, `Triple.lift`, `Triple.read`, `Triple.update`: a rule for each way an action
  is made;
- `Triple.mono`, `Triple.and`: the rule of consequence, and two postconditions at once;
- `Keeps.bind`, `Keeps.each`: what each part of an action keeps, the whole keeps;
- `Keeps.after`: what an action comes to, the rest of it keeps.

Nothing in this file names the program.
-/
import Mathlib.Tactic

namespace OnePipeline

/-- an action on a state that answers or fails, and the state it leaves -/
def Act (σ ε α : Type) : Type := σ → Except ε α × σ

namespace Act

variable {σ ε α β : Type}

instance : Monad (Act σ ε) where
  pure a := fun s => (.ok a, s)
  bind x f := fun s =>
    match x s with
    | (.ok a, s) => f a s
    | (.error e, s) => (.error e, s)

/-- what the state says -/
def read (f : σ → α) : Act σ ε α := fun s => (.ok (f s), s)

def update (f : σ → σ) : Act σ ε Unit := fun s => (.ok (), f s)

def fail (e : ε) : Act σ ε α := fun s => (.error e, s)

/-- what is answered or refused without the state -/
def lift (x : Except ε α) : Act σ ε α := fun s => (x, s)

/-- each of a list acted on, in order, until one fails -/
def each (f : α → Act σ ε Unit) : List α → Act σ ε Unit
  | [] => pure ()
  | a :: l => do
    f a
    each f l

theorem bind_ok {x : Act σ ε α} {f : α → Act σ ε β} {s s' : σ} {a : α} (h : x s = (.ok a, s')) : (x >>= f) s = f a s' := by
  show (match x s with | (.ok a, s) => f a s | (.error e, s) => (.error e, s)) = _
  rw [h]

theorem bind_error {x : Act σ ε α} {f : α → Act σ ε β} {s s' : σ} {e : ε} (h : x s = (.error e, s')) :
    (x >>= f) s = (.error e, s') := by
  show (match x s with | (.ok a, s) => f a s | (.error e, s) => (.error e, s)) = _
  rw [h]

@[simp] theorem read_bind (g : σ → α) (f : α → Act σ ε β) (s : σ) : (Act.read g >>= f) s = f (g s) s := rfl

@[simp] theorem update_bind (g : σ → σ) (f : Unit → Act σ ε β) (s : σ) : (Act.update g >>= f) s = f () (g s) := rfl

@[simp] theorem lift_ok_bind (a : α) (f : α → Act σ ε β) (s : σ) : (Act.lift (.ok a) >>= f) s = f a s := rfl

@[simp] theorem lift_error_bind (e : ε) (f : α → Act σ ε β) (s : σ) : (Act.lift (.error e) >>= f) s = (.error e, s) := rfl

@[simp] theorem pure_apply (a : α) (s : σ) : (pure a : Act σ ε α) s = (.ok a, s) := rfl

@[simp] theorem fail_apply (e : ε) (s : σ) : (Act.fail e : Act σ ε α) s = (.error e, s) := rfl

/-! ## Triples -/

/-- from every state `P` holds of, what is answered and the state left satisfy `Q` -/
def Triple (P : σ → Prop) (x : Act σ ε α) (Q : Except ε α → σ → Prop) : Prop := ∀ s, P s → Q (x s).1 (x s).2

variable {P P' : σ → Prop} {x : Act σ ε α} {f : α → Act σ ε β} {Q Q' : Except ε α → σ → Prop} {R : Except ε β → σ → Prop}

namespace Triple

theorem bind (hx : Triple P x Q) (hok : ∀ a, Triple (Q (.ok a)) (f a) R) (herror : ∀ e s, Q (.error e) s → R (.error e) s) :
    Triple P (x >>= f) R := by
  intro s hs
  have hQ := hx s hs
  cases h : x s with
  | mk answer s' =>
    rw [h] at hQ
    cases answer with
    | ok a =>
      rw [bind_ok h]
      exact hok a s' hQ
    | error e =>
      rw [bind_error h]
      exact herror e s' hQ

theorem pure {a : α} (h : ∀ s, P s → Q (.ok a) s) : Triple P (Pure.pure a : Act σ ε α) Q := h

theorem fail {e : ε} (h : ∀ s, P s → Q (.error e) s) : Triple P (Act.fail e : Act σ ε α) Q := h

theorem lift {answer : Except ε α} (h : ∀ s, P s → Q answer s) : Triple P (Act.lift answer) Q := h

theorem read {g : σ → α} (h : ∀ s, P s → Q (.ok (g s)) s) : Triple P (Act.read g) Q := h

theorem update {g : σ → σ} {Q : Except ε Unit → σ → Prop} (h : ∀ s, P s → Q (.ok ()) (g s)) : Triple P (Act.update g) Q := h

theorem mono (h : Triple P x Q) (hP : ∀ s, P' s → P s) (hQ : ∀ a s, Q a s → Q' a s) : Triple P' x Q' :=
  fun s hs => hQ _ _ (h s (hP s hs))

theorem and (h : Triple P x Q) (h' : Triple P' x Q') : Triple (fun s => P s ∧ P' s) x fun a s => Q a s ∧ Q' a s :=
  fun s hs => ⟨h s hs.1, h' s hs.2⟩

end Triple

/-! ## What an action keeps -/

/-- what holds before an action holds after it, failed or not -/
def Keeps (I : σ → Prop) (x : Act σ ε α) : Prop := Triple I x fun _ => I

variable {I : σ → Prop}

namespace Keeps

theorem bind (hx : Keeps I x) (hf : ∀ a, Keeps I (f a)) : Keeps I (x >>= f) := Triple.bind hx hf fun _ _ h => h

theorem pure (a : α) : Keeps I (Pure.pure a : Act σ ε α) := fun _ h => h

theorem fail (e : ε) : Keeps I (Act.fail e : Act σ ε α) := fun _ h => h

theorem lift (answer : Except ε α) : Keeps I (Act.lift answer : Act σ ε α) := fun _ h => h

theorem read (g : σ → α) : Keeps I (Act.read g : Act σ ε α) := fun _ h => h

theorem each {g : α → Act σ ε Unit} {l : List α} (hg : ∀ a ∈ l, Keeps I (g a)) : Keeps I (Act.each g l) := by
  induction l with
  | nil => exact pure ()
  | cons a l ih => exact (hg a List.mem_cons_self).bind fun _ => ih fun b hb => hg b (List.mem_cons_of_mem a hb)

/-- what an action comes to, the rest of it keeps -/
theorem after {P : σ → Prop} (hx : Triple P x fun _ => I) (hf : ∀ a, Keeps I (f a)) : Triple P (x >>= f) fun _ => I :=
  Triple.bind hx hf fun _ _ h => h

/-- what the state says, taken with what is known of it -/
theorem read_bind {g : σ → α} (h : ∀ s, I s → I ((f (g s)) s).2) : Keeps I (Act.read g >>= f) := h

end Keeps

end Act

end OnePipeline
