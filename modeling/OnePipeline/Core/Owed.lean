/-
Writers that make one write after another and may end between any two of them, where a write may owe others: those that have
to follow it at once.

Results:
- `Framed.append`, `Framed.each`: scripts in which every write is followed by what it owes, put together;
- `Framed.follows`: what comes after a write of such a script;
- `Framed.take`: a script ended where no write anything waits on was due lacks only writes nothing waits on;
- `Framed.balanced`: what the writes of such a script make is what they owe.

Nothing in this file names the program.
-/
import Mathlib.Tactic

namespace OnePipeline.Owed

variable {σ ω α β : Type*}

/-! ## Scripts -/

/-- the state a list of writes leaves -/
def after (apply : σ → ω → σ) (s : σ) (ws : List ω) : σ := ws.foldl apply s

/-- the writes of one thing after another, each of which is decided in the state the ones before it left -/
def each (apply : σ → ω → σ) (f : σ → α → List ω) : List α → σ → List ω
  | [], _ => []
  | a :: as, s => f s a ++ each apply f as (after apply s (f s a))

/-- the writes made by a writer that ended after some of them -/
def upTo (ended : Option ℕ) (ws : List ω) : List ω :=
  match ended with
  | none => ws
  | some k => ws.take k

variable {apply : σ → ω → σ} {s : σ} {w : ω} {ws vs : List ω}

@[simp] theorem after_nil : after apply s [] = s := rfl

@[simp] theorem after_cons : after apply s (w :: ws) = after apply (apply s w) ws := rfl

@[simp] theorem after_append : after apply s (ws ++ vs) = after apply (after apply s ws) vs := List.foldl_append

/-- what no write changes -/
theorem after_keeps {v : σ → β} (h : ∀ s, ∀ w ∈ ws, v (apply s w) = v s) : v (after apply s ws) = v s := by
  induction ws generalizing s with
  | nil => rfl
  | cons w ws ih => rw [after_cons, ih fun s w hw => h s w (List.mem_cons_of_mem _ hw), h s w List.mem_cons_self]

theorem after_invariant {I : σ → Prop} (hstep : ∀ s, ∀ w ∈ ws, I s → I (apply s w)) (h : I s) : I (after apply s ws) := by
  induction ws generalizing s with
  | nil => exact h
  | cons w ws ih => exact ih (fun s w hw => hstep s w (List.mem_cons_of_mem _ hw)) (hstep s w List.mem_cons_self h)

/-- what each write adds to a view of the state -/
theorem after_adds {v : σ → List β} {g : ω → List β} (h : ∀ s w, v (apply s w) = v s ++ g w) (ws : List ω) (s : σ) :
    v (after apply s ws) = v s ++ ws.flatMap g := by
  induction ws generalizing s with
  | nil => simp
  | cons w ws ih => rw [after_cons, ih, h, List.flatMap_cons, List.append_assoc]

theorem flatMap_each {f : σ → α → List ω} {g : ω → List β} {G : α → List β} (h : ∀ s a, (f s a).flatMap g = G a)
    (as : List α) (s : σ) : (each apply f as s).flatMap g = as.flatMap G := by
  induction as generalizing s with
  | nil => rfl
  | cons a as ih => rw [each, List.flatMap_append, h, ih, List.flatMap_cons]

theorem mem_each {f : σ → α → List ω} {as : List α} (h : w ∈ each apply f as s) : ∃ s', ∃ a ∈ as, w ∈ f s' a := by
  induction as generalizing s with
  | nil => cases h
  | cons a as ih =>
    rcases List.mem_append.mp h with h | h
    · exact ⟨s, a, List.mem_cons_self, h⟩
    · obtain ⟨s', b, hb, hw⟩ := ih h
      exact ⟨s', b, List.mem_cons_of_mem _ hb, hw⟩

theorem upTo_initial (ended : Option ℕ) (ws : List ω) : upTo ended ws <+: ws := by
  cases ended with
  | none => exact List.prefix_rfl
  | some k => exact List.take_prefix k ws

/-! ## What a write owes -/

/-- a script each of whose writes is followed by those it owes in the state it leaves, and of which only those are due -/
inductive Framed (apply : σ → ω → σ) (due : ω → Bool) (dues : σ → ω → List ω) : σ → List ω → Prop
  | nil (s : σ) : Framed apply due dues s []
  | cons (s : σ) (w : ω) {ws : List ω} (hw : due w = false)
      (h : Framed apply due dues (after apply (apply s w) (dues (apply s w) w)) ws) :
      Framed apply due dues s (w :: (dues (apply s w) w ++ ws))

/-- no write anything waits on is among those still owed -/
def Clear (due pays : ω → Bool) (pending : List ω) : Prop := ∀ w ∈ pending.takeWhile due, pays w = false

instance (due pays : ω → Bool) (pending : List ω) : Decidable (Clear due pays pending) :=
  inferInstanceAs (Decidable (∀ w ∈ pending.takeWhile due, pays w = false))

/-- the writes due after a writer ended -/
def pending (ended : Option ℕ) (ws : List ω) : List ω :=
  match ended with
  | none => []
  | some k => ws.drop k

namespace Framed

variable {dues : σ → ω → List ω} {due pays : ω → Bool}

theorem single (hw : due w = false) (h : dues (apply s w) w = []) : Framed apply due dues s [w] := by
  have hcons : Framed apply due dues s (w :: (dues (apply s w) w ++ [])) := .cons s w hw (.nil _)
  rwa [h] at hcons

theorem append (h : Framed apply due dues s ws) (h' : Framed apply due dues (after apply s ws) vs) :
    Framed apply due dues s (ws ++ vs) := by
  induction h with
  | nil s => exact h'
  | cons s w hw _ ih =>
    rw [List.cons_append, List.append_assoc]
    refine .cons s w hw (ih ?_)
    rwa [after_cons, after_append] at h'

/-- writes that owe nothing, none of them due -/
theorem of_forall (h : ∀ w ∈ ws, due w = false ∧ ∀ s, dues s w = []) : Framed apply due dues s ws := by
  induction ws generalizing s with
  | nil => exact .nil s
  | cons w ws ih =>
    obtain ⟨hw, howes⟩ := h w List.mem_cons_self
    exact (single hw (howes _)).append (ih fun w hw => h w (List.mem_cons_of_mem _ hw))

theorem each {f : σ → α → List ω} (h : ∀ s a, Framed apply due dues s (f s a)) (as : List α) (s : σ) :
    Framed apply due dues s (Owed.each apply f as s) := by
  induction as generalizing s with
  | nil => exact .nil s
  | cons a as ih => exact (h s a).append (ih _)

/-- **What follows a write.** A write that is nobody's due is followed by what it owes. -/
theorem follows (h : Framed apply due dues s ws) (hdue : ∀ s w, ∀ d ∈ dues s w, due d = true) {a b : List ω}
    (hws : ws = a ++ w :: b) (hw : due w = false) : ∃ rest, b = dues (after apply s (a ++ [w])) w ++ rest := by
  induction h generalizing a with
  | nil s => exact absurd hws (by simp)
  | @cons s v ws _ _ ih =>
    cases a with
    | nil =>
      obtain ⟨rfl, rfl⟩ := List.cons.inj hws
      exact ⟨ws, rfl⟩
    | cons u a =>
      obtain ⟨rfl, hrest⟩ := List.cons.inj hws
      rcases List.append_eq_append_iff.mp hrest with ⟨c, rfl, hc⟩ | ⟨c, hc, hb⟩
      · obtain ⟨rest, rfl⟩ := ih hc
        refine ⟨rest, ?_⟩
        simp
      · cases c with
        | nil =>
          rw [List.append_nil] at hc
          obtain ⟨rest, rfl⟩ := ih (a := []) hb.symm
          refine ⟨rest, ?_⟩
          simp [hc]
        | cons x c =>
          obtain ⟨rfl, -⟩ := List.cons.inj hb
          have howed : due w = true := hdue _ v w (by rw [hc]; exact List.mem_append_right _ List.mem_cons_self)
          rw [hw] at howed
          cases howed

/-- **Ended in the clear.** Where no write anything waits on was due, the writes made lack only writes nothing waits on. -/
theorem take (h : Framed apply due dues s ws) (hdue : ∀ s w, ∀ d ∈ dues s w, due d = true) {k : ℕ}
    (hclear : Clear due pays (ws.drop k)) :
    ∃ missing, (∀ w ∈ missing, pays w = false ∧ due w = true) ∧ Framed apply due dues s (ws.take k ++ missing) := by
  induction h generalizing k with
  | nil s => exact ⟨[], nofun, by rw [List.take_nil]; exact .nil s⟩
  | @cons s v ws hv _ ih =>
    cases k with
    | zero => exact ⟨[], nofun, .nil s⟩
    | succ m =>
      rw [List.drop_succ_cons] at hclear
      rw [List.take_succ_cons]
      rcases Nat.lt_or_ge (dues (apply s v) v).length m with hm | hm
      · rw [List.drop_append, List.drop_of_length_le hm.le, List.nil_append] at hclear
        obtain ⟨missing, hmissing, hframed⟩ := ih hclear
        refine ⟨missing, hmissing, ?_⟩
        rw [List.take_append, List.take_of_length_le hm.le, List.cons_append, List.append_assoc]
        exact .cons s v hv hframed
      · have hall : ∀ w ∈ (dues (apply s v) v).drop m, due w = true := fun w hw => hdue _ v w (List.mem_of_mem_drop hw)
        refine ⟨(dues (apply s v) v).drop m, fun w hw => ⟨hclear w ?_, hall w hw⟩, ?_⟩
        · rw [List.drop_append_of_le_length hm, List.takeWhile_append_of_pos hall]
          exact List.mem_append_left _ hw
        · rw [List.take_append_of_le_length hm, List.cons_append, List.take_append_drop]
          have hcons : Framed apply due dues s (v :: (dues (apply s v) v ++ [])) := .cons s v hv (.nil _)
          rwa [List.append_nil] at hcons

theorem upTo (h : Framed apply due dues s ws) (hdue : ∀ s w, ∀ d ∈ dues s w, due d = true) {ended : Option ℕ}
    (hclear : Clear due pays (pending ended ws)) :
    ∃ missing, (∀ w ∈ missing, pays w = false ∧ due w = true) ∧ Framed apply due dues s (Owed.upTo ended ws ++ missing) := by
  cases ended with
  | none => exact ⟨[], nofun, by rwa [Owed.upTo, List.append_nil]⟩
  | some k => exact h.take hdue hclear

/-- **Nothing owed.** -/
theorem balanced (h : Framed apply due dues s ws) {owes makes : ω → List β}
    (hpaid : ∀ s w, due w = false → makes w ++ (dues s w).flatMap makes = owes w ++ (dues s w).flatMap owes) :
    ws.flatMap makes = ws.flatMap owes := by
  induction h with
  | nil s => rfl
  | cons s w hw _ ih =>
    rw [List.flatMap_cons, List.flatMap_append, ih, ← List.append_assoc, hpaid _ w hw, List.append_assoc, ← List.flatMap_append,
      ← List.flatMap_cons]

end Framed

end OnePipeline.Owed
