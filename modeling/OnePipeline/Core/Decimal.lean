/-
Numbers spelled in decimal: at a fixed width, padded with zeros on the left, and the order of text made of such fields; and
at their own width, read back with a sign and leading zeros let by.

Results:
- `pad_spec`: a number below a power of ten is spelled in as many digits, which read back to it;
- `pad_value`: digits of a width are the spelling of the number they read to;
- `value_lt_iff`, `pad_lt_iff`: spellings of one width are ordered as their numbers;
- `append_lt_iff`: text is ordered by a first part of one length, and then by the rest;
- `parse_toDigits`: a number spelled reads back to it.

Nothing in this file names the program.
-/
import Mathlib.Tactic

namespace OnePipeline.Decimal

def Digits (l : List Char) : Prop := ∀ c ∈ l, 48 ≤ c.toNat ∧ c.toNat ≤ 57

/-- the number that digits spell -/
def value (l : List Char) : ℕ := Nat.ofDigitChars 10 l 0

/-- a number in at least `width` digits, zeros in front of it -/
def pad (width n : ℕ) : List Char := List.leftpad width '0' (Nat.toDigits 10 n)

variable {c : Char} {l l' x y : List Char} {width n n' : ℕ}

theorem Digits.tail (h : Digits (c :: l)) : Digits l := fun d hd => h d (List.mem_cons_of_mem _ hd)

theorem value_cons (c : Char) (l : List Char) : value (c :: l) = 10 ^ l.length * (c.toNat - 48) + value l := by
  rw [value, Nat.ofDigitChars_cons, Nat.ofDigitChars_eq_ofDigitChars_zero, Nat.mul_zero, Nat.zero_add]
  rfl

theorem value_lt (h : Digits l) : value l < 10 ^ l.length := by
  induction l with
  | nil => simp [value]
  | cons c l ih =>
    have hc := h c List.mem_cons_self
    have hl := ih h.tail
    have hdigit : 10 ^ l.length * (c.toNat - 48) ≤ 10 ^ l.length * 9 := Nat.mul_le_mul_left _ (by omega)
    rw [value_cons, List.length_cons, Nat.pow_succ]
    omega

theorem toNat_lt_iff {c d : Char} : c < d ↔ c.toNat < d.toNat := Char.lt_def

theorem value_lt_iff (hl : Digits l) (hl' : Digits l') (hlen : l.length = l'.length) : value l < value l' ↔ l < l' := by
  induction l generalizing l' with
  | nil =>
    rw [List.length_eq_zero_iff.mp hlen.symm]
    simp
  | cons c l ih =>
    cases l' with
    | nil => cases hlen
    | cons d l' =>
      have hlen' : l.length = l'.length := by simpa using hlen
      have hrest := ih hl.tail hl'.tail hlen'
      have hlow := value_lt hl.tail
      have hlow' := value_lt hl'.tail
      have hc := hl c List.mem_cons_self
      have hd := hl' d List.mem_cons_self
      rw [value_cons, value_cons, List.cons_lt_cons_iff, toNat_lt_iff, ← hrest, hlen']
      rw [hlen'] at hlow
      rcases Nat.lt_trichotomy c.toNat d.toNat with hlt | heq | hgt
      · have hstep : 10 ^ l'.length * (c.toNat - 48) + 10 ^ l'.length ≤ 10 ^ l'.length * (d.toNat - 48) := by
          rw [← Nat.mul_succ]
          exact Nat.mul_le_mul_left _ (by omega)
        exact ⟨fun _ => .inl hlt, fun _ => by omega⟩
      · have hsame : c = d := Char.toNat_inj.mp heq
        simp [hsame]
      · have hstep : 10 ^ l'.length * (d.toNat - 48) + 10 ^ l'.length ≤ 10 ^ l'.length * (c.toNat - 48) := by
          rw [← Nat.mul_succ]
          exact Nat.mul_le_mul_left _ (by omega)
        constructor
        · intro h
          omega
        · rintro (h | ⟨h, -⟩)
          · omega
          · rw [h] at hgt
            omega

theorem value_inj (hl : Digits l) (hl' : Digits l') (hlen : l.length = l'.length) (h : value l = value l') : l = l' := by
  have hle : ¬l' < l := fun hlt => by
    have := (value_lt_iff hl' hl hlen.symm).mpr hlt
    omega
  have hge : ¬l < l' := fun hlt => by
    have := (value_lt_iff hl hl' hlen).mpr hlt
    omega
  exact List.le_antisymm hle hge

/-! ## Spelling -/

/-- **Spelled and read back.** -/
theorem pad_spec (hwidth : 0 < width) (h : n < 10 ^ width) :
    (pad width n).length = width ∧ Digits (pad width n) ∧ value (pad width n) = n := by
  have hlen := (@Nat.length_toDigits_le_iff 10 n width (by decide) hwidth).mpr h
  refine ⟨?_, fun c hc => ?_, ?_⟩
  · rw [pad, List.leftpad, List.length_append, List.length_replicate]
    omega
  · rw [pad, List.leftpad, List.mem_append] at hc
    rcases hc with hc | hc
    · rw [List.eq_of_mem_replicate hc]
      decide
    · have hdigit : c.isDigit = true := Nat.isDigit_of_mem_toDigits (by decide) (by decide) hc
      simpa [Char.isDigit, UInt32.le_iff_toNat_le] using hdigit
  · rw [value, pad, List.leftpad, Nat.ofDigitChars_append, Nat.ofDigitChars_replicate_zero, Nat.mul_zero,
      Nat.ofDigitChars_ten_toDigits]

/-- digits of a width are the spelling of the number they read to -/
theorem pad_value (hwidth : 0 < l.length) (hl : Digits l) : pad l.length (value l) = l := by
  obtain ⟨hlen, hdigits, hvalue⟩ := pad_spec hwidth (value_lt hl)
  exact value_inj hdigits hl hlen hvalue

theorem pad_lt_iff (hwidth : 0 < width) (h : n < 10 ^ width) (h' : n' < 10 ^ width) : pad width n < pad width n' ↔ n < n' := by
  obtain ⟨hlen, hdigits, hvalue⟩ := pad_spec hwidth h
  obtain ⟨hlen', hdigits', hvalue'⟩ := pad_spec hwidth h'
  rw [← value_lt_iff hdigits hdigits' (hlen.trans hlen'.symm), hvalue, hvalue']

theorem pad_inj (hwidth : 0 < width) (h : n < 10 ^ width) (h' : n' < 10 ^ width) (heq : pad width n = pad width n') : n = n' := by
  rw [← (pad_spec hwidth h).2.2, heq, (pad_spec hwidth h').2.2]

/-- text is ordered by a first part of one length, and then by the rest -/
theorem append_lt_iff (hlen : l.length = l'.length) : l ++ x < l' ++ y ↔ l < l' ∨ l = l' ∧ x < y := by
  induction l generalizing l' with
  | nil =>
    rw [List.length_eq_zero_iff.mp hlen.symm]
    simp
  | cons c l ih =>
    cases l' with
    | nil => cases hlen
    | cons d l' =>
      have hlen' : l.length = l'.length := by simpa using hlen
      rw [List.cons_append, List.cons_append, List.cons_lt_cons_iff, List.cons_lt_cons_iff, ih hlen', List.cons.injEq]
      tauto

/-! ## Reading -/

/-- the number text spells: digits, with a plus sign in front of them or none -/
def parse (l : List Char) : Option ℕ :=
  let digits := if l.head? = some '+' then l.tail else l
  if digits ≠ [] ∧ digits.all Char.isDigit then some (value digits) else none

theorem isDigit_toDigits (n : ℕ) : ∀ c ∈ Nat.toDigits 10 n, c.isDigit = true := fun _ hc =>
  Nat.isDigit_of_mem_toDigits (by decide) (by decide) hc

/-- **Spelled and read back**, at its own width. -/
theorem parse_toDigits (n : ℕ) : parse (Nat.toDigits 10 n) = some n := by
  have hplus : (Nat.toDigits 10 n).head? ≠ some '+' := by
    intro h
    have hin : '+' ∈ Nat.toDigits 10 n := List.mem_of_mem_head? h
    have hdigit := isDigit_toDigits n '+' hin
    revert hdigit
    decide
  have hsome : Nat.toDigits 10 n ≠ [] := List.ne_nil_of_length_pos Nat.length_toDigits_pos
  have hall : (Nat.toDigits 10 n).all Char.isDigit = true := List.all_eq_true.mpr (isDigit_toDigits n)
  rw [parse]
  simp only [if_neg hplus]
  rw [if_pos ⟨hsome, hall⟩, value, Nat.ofDigitChars_ten_toDigits]

end OnePipeline.Decimal
