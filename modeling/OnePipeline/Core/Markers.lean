/-
Text with one block of it between two markers, written over and over: where the block is, what stands around it, and how the
search for it meets what people write beside it.

Markers hold no line break, and a block opens and closes with its marker on a line of its own.

Results:
- `splitOnce_cut`: a character outside what is searched for cuts the search in two;
- `splitOnce_grown`: what is found first is found first however the text goes on;
- `cut_of_replaced`: a block written over the block found is found in its place;
- `cut_of_appended`: a block appended to text with no opening marker is found at its end;
- `cut_of_stray`: appended to text whose opening marker nothing closes, it is found from that marker on.

Nothing in this file names the program.
-/
import Mathlib.Tactic
import OnePipeline.Core.Text

namespace OnePipeline.Markers

open Text

section Search

variable {sep a b l rest : List Char} {c : Char}

theorem startsWith_eq (sep l : List Char) : startsWith sep l = decide (l.take sep.length = sep) := by
  induction sep generalizing l with
  | nil => simp [startsWith, stripPrefix]
  | cons s sep ih =>
    cases l with
    | nil => simp [startsWith, stripPrefix]
    | cons c l =>
      have hrest := ih l
      simp only [startsWith] at hrest
      by_cases hc : s = c
      · simp [startsWith, stripPrefix, hc, hrest]
      · simp [startsWith, stripPrefix, hc, Ne.symm hc]

/-- what a text starts with is read off as many of its characters -/
theorem startsWith_congr {l l' : List Char} (h : l.take sep.length = l'.take sep.length) :
    startsWith sep l = startsWith sep l' := by
  rw [startsWith_eq, startsWith_eq, h]

/-- what is found first is found first however the text goes on -/
theorem splitOnce_grown (hsep : sep ≠ []) (h : splitOnce sep l = some (a, b)) (rest : List Char) :
    splitOnce sep (a ++ sep ++ rest) = some (a, rest) := by
  induction l generalizing a with
  | nil =>
    have hempty := splitOnce_eq_some h
    simp [hsep] at hempty
  | cons c l ih =>
    have htext := splitOnce_eq_some h
    cases hstarts : startsWith sep (c :: l) with
    | true =>
      obtain ⟨after, hafter⟩ := Option.isSome_iff_exists.mp hstarts
      rw [splitOnce, hafter] at h
      cases h
      exact splitOnce_prefix hsep rest
    | false =>
      rw [splitOnce_cons hstarts] at h
      obtain ⟨⟨a', b'⟩, hsplit, heq⟩ := Option.map_eq_some_iff.mp h
      cases heq
      have hlen : sep.length ≤ (c :: (a' ++ sep)).length := by
        simp only [List.length_cons, List.length_append]
        omega
      have hsame : startsWith sep (c :: (a' ++ sep ++ rest)) = false := by
        rw [← hstarts, htext]
        refine startsWith_congr ?_
        show ((c :: (a' ++ sep)) ++ rest).take sep.length = ((c :: (a' ++ sep)) ++ b').take sep.length
        rw [List.take_append_of_le_length hlen, List.take_append_of_le_length hlen]
      rw [List.cons_append, List.cons_append]
      rw [splitOnce_cons hsame, ih hsplit]
      rfl

/-- a character outside what is searched for cuts the search in two -/
theorem splitOnce_cut (hc : c ∉ sep) (ha : contains sep a = false) (b : List Char) :
    splitOnce sep (a ++ c :: b) = (splitOnce sep b).map fun p => (a ++ c :: p.1, p.2) := by
  have hstart (a : List Char) (h : startsWith sep a = false) : startsWith sep (a ++ c :: b) = false := by
    rw [startsWith_eq, decide_eq_false_iff_not] at h ⊢
    intro htake
    by_cases hlen : sep.length ≤ a.length
    · exact h (by rwa [List.take_append_of_le_length hlen] at htake)
    · -- the search would run over the character that cuts it
      refine hc ?_
      rw [← htake, List.take_append, List.mem_append]
      right
      have hpos : sep.length - a.length = (sep.length - a.length - 1) + 1 := by omega
      rw [hpos, List.take_succ_cons]
      exact List.mem_cons_self
  induction a with
  | nil => exact splitOnce_cons (hstart [] ha)
  | cons x a ih =>
    rw [contains, Bool.or_eq_false_iff] at ha
    have hx : startsWith sep (x :: (a ++ c :: b)) = false := hstart (x :: a) ha.1
    rw [List.cons_append, splitOnce_cons hx, ih ha.2, Option.map_map]
    rfl

theorem contains_cut (hc : c ∉ sep) (a b : List Char) : contains sep (a ++ c :: b) = (contains sep a || contains sep b) := by
  cases ha : contains sep a with
  | false =>
    rw [Bool.false_or]
    cases hb : contains sep b with
    | false =>
      rw [← splitOnce_eq_none, splitOnce_cut hc ha, splitOnce_eq_none.mpr hb]
      rfl
    | true =>
      by_contra hnone
      rw [Bool.not_eq_true, ← splitOnce_eq_none, splitOnce_cut hc ha, Option.map_eq_none_iff, splitOnce_eq_none, hb] at hnone
      cases hnone
  | true =>
    rw [Bool.true_or]
    by_contra hnone
    rw [Bool.not_eq_true] at hnone
    induction a with
    | nil =>
      rw [contains, startsWith_eq] at ha
      have hnil : sep = [] := by simpa using ha
      rw [hnil] at hnone
      simp [contains, startsWith, stripPrefix] at hnone
    | cons x a ih =>
      rw [List.cons_append, contains, Bool.or_eq_false_iff] at hnone
      rw [contains, Bool.or_eq_true] at ha
      rcases ha with ha | ha
      · have hlong : startsWith sep (x :: (a ++ c :: b)) = true := by
          obtain ⟨after, hafter⟩ := Option.isSome_iff_exists.mp ha
          rw [← List.cons_append, stripPrefix_eq_some hafter, List.append_assoc]
          simp [startsWith, stripPrefix_append]
        rw [hnone.1] at hlong
        cases hlong
      · exact ih ha hnone.2

/-- line breaks after a text hold nothing it does not -/
theorem contains_lines (hsep : sep ≠ []) (hc : c ∉ sep) {cs : List Char} (hcs : ∀ x ∈ cs, x = c) (a : List Char) :
    contains sep (a ++ cs) = contains sep a := by
  have hnil : contains sep [] = false := by
    rw [contains, startsWith_eq]
    simpa using hsep.symm
  induction cs generalizing a with
  | nil => rw [List.append_nil]
  | cons x cs ih =>
    have hrest := fun a => ih (fun x hx => hcs x (List.mem_cons_of_mem _ hx)) a
    rw [hcs x List.mem_cons_self, contains_cut hc, ← List.nil_append cs, hrest [], hnil, Bool.or_false]

end Search

/-! ## The block -/

variable (op cl : List Char)

/-- what stands before and after the block a text holds: from its first opening marker to the first closing one after it -/
def cut (l : List Char) : Option (List Char × List Char) :=
  match splitOnce op l with
  | some (before, rest) => (splitOnce cl (op ++ rest)).map fun p => (before, p.2)
  | none => none

/-- text that opens a block and nowhere closes it -/
def Stray (l : List Char) : Prop := contains op l = true ∧ cut op cl l = none

/-- two markers which no line break runs through -/
structure Marks (nl : Char) : Prop where
  op_line : nl ∉ op
  cl_line : nl ∉ cl
  op_stated : op ≠ []
  cl_stated : cl ≠ []
  apart : contains cl op = false

/-- a block: each marker on a line of its own, and text with no closing marker between -/
def IsBlock (nl : Char) (x : List Char) : Prop := ∃ t, contains cl t = false ∧ x = op ++ nl :: (t ++ nl :: cl)

variable {op cl} {nl : Char} {l a b x sep : List Char}

theorem Marks.split_block (hm : Marks op cl nl) (hx : IsBlock op cl nl x) (rest : List Char) :
    ∃ after, x = op ++ after ∧ splitOnce cl (op ++ (after ++ rest)) = some (x.take (x.length - cl.length), rest) := by
  obtain ⟨t, ht, rfl⟩ := hx
  refine ⟨nl :: (t ++ nl :: cl), rfl, ?_⟩
  rw [List.cons_append, splitOnce_cut hm.cl_line hm.apart, List.append_assoc, List.cons_append, splitOnce_cut hm.cl_line ht,
    splitOnce_prefix hm.cl_stated]
  simp only [Option.map_some, Option.some.injEq, Prod.mk.injEq, and_true]
  have hsplit : op ++ nl :: (t ++ nl :: cl) = (op ++ nl :: (t ++ [nl])) ++ cl := by simp
  rw [hsplit, List.length_append, Nat.add_sub_cancel, List.take_left]

/-- **Written over.** A block in the place of the block found is found there. -/
theorem cut_of_replaced (hm : Marks op cl nl) (hx : IsBlock op cl nl x) (h : cut op cl l = some (a, b)) :
    cut op cl (a ++ x ++ b) = some (a, b) := by
  unfold cut at h
  cases hop : splitOnce op l with
  | none => simp [hop] at h
  | some p =>
    obtain ⟨before, rest⟩ := p
    simp only [hop, Option.map_eq_some_iff, Prod.mk.injEq] at h
    obtain ⟨q, -, rfl, -⟩ := h
    obtain ⟨after, hafter, hclose⟩ := hm.split_block hx b
    have hopen : splitOnce op (before ++ x ++ b) = some (before, after ++ b) := by
      rw [hafter, ← List.append_assoc, List.append_assoc]
      exact splitOnce_grown hm.op_stated hop (after ++ b)
    unfold cut
    rw [hopen]
    simp only [hclose, Option.map_some]

/-- text that is empty, or ends with a line break -/
def EndsLine (nl : Char) (l : List Char) : Prop := l = [] ∨ ∃ u, l = u ++ [nl]

/-- **Appended.** To text with no opening marker, a block is the one found. -/
theorem cut_of_appended (hm : Marks op cl nl) (hx : IsBlock op cl nl x) (hend : EndsLine nl l) (h : contains op l = false) :
    cut op cl (l ++ x) = some (l, []) := by
  obtain ⟨after, hafter, hclose⟩ := hm.split_block hx []
  rw [List.append_nil] at hclose
  have hopen : splitOnce op (l ++ x) = some (l, after) := by
    rcases hend with rfl | ⟨u, rfl⟩
    · rw [List.nil_append, hafter, splitOnce_prefix hm.op_stated]
    · have hu : contains op u = false := by
        rw [contains_cut hm.op_line] at h
        exact (Bool.or_eq_false_iff.mp h).1
      rw [List.append_assoc, List.singleton_append, splitOnce_cut hm.op_line hu, hafter, splitOnce_prefix hm.op_stated]
      rfl
  unfold cut
  rw [hopen]
  simp only [hclose, Option.map_some]

/-- **Appended past a stray marker.** The block found begins there, and everything after it is taken for the block's. -/
theorem cut_of_stray (hm : Marks op cl nl) (hx : IsBlock op cl nl x) (h : Stray op cl l) {nls : List Char}
    (hend : EndsLine nl (l ++ nls)) (hnls : ∀ c ∈ nls, c = nl) :
    ∃ before, before ++ op <+: l ∧ cut op cl (l ++ nls ++ x) = some (before, []) := by
  obtain ⟨hop, hcut⟩ := h
  obtain ⟨⟨before, rest⟩, hopen⟩ : ∃ p, splitOnce op l = some p := by
    rw [← Option.isSome_iff_exists, ← Option.ne_none_iff_isSome, ne_eq, splitOnce_eq_none, hop]
    decide
  have htext := splitOnce_eq_some hopen
  have hunclosed : contains cl (op ++ rest) = false := by
    rw [cut, hopen] at hcut
    simpa [splitOnce_eq_none] using hcut
  refine ⟨before, ⟨rest, htext.symm⟩, ?_⟩
  have hgrown : splitOnce op (l ++ nls ++ x) = some (before, rest ++ nls ++ x) := by
    rw [htext, List.append_assoc, List.append_assoc, ← List.append_assoc rest]
    exact splitOnce_grown hm.op_stated hopen _
  obtain ⟨after, hafter, hclose⟩ := hm.split_block hx []
  rw [List.append_nil, ← hafter] at hclose
  -- the text from the stray marker on ends its line, so the search goes on into the block
  obtain ⟨w, hw⟩ : ∃ w, op ++ rest ++ nls = w ++ [nl] := by
    rcases hend with hnil | ⟨u, hu⟩
    · simp [htext, hm.op_stated] at hnil
    · have hlast : (op ++ rest ++ nls).getLast? = some nl := by
        have hwhole : (before ++ (op ++ rest ++ nls)).getLast? = some nl := by
          rw [← List.append_assoc, ← List.append_assoc, ← htext, hu, List.getLast?_concat]
        rwa [List.getLast?_append_of_ne_nil _ (by simp [hm.op_stated])] at hwhole
      exact ⟨_, (List.dropLast_append_getLast? nl hlast).symm⟩
  have hw' : contains cl w = false := by
    have hstill := contains_lines hm.cl_stated hm.cl_line hnls (op ++ rest)
    rw [hw, hunclosed, contains_cut hm.cl_line] at hstill
    exact (Bool.or_eq_false_iff.mp hstill).1
  have hclosed : splitOnce cl (op ++ (rest ++ nls ++ x)) = some (w ++ nl :: x.take (x.length - cl.length), []) := by
    rw [← List.append_assoc, ← List.append_assoc, hw, List.append_assoc, List.singleton_append, splitOnce_cut hm.cl_line hw', hclose]
    rfl
  unfold cut
  rw [hgrown]
  simp only [hclosed, Option.map_some]

end OnePipeline.Markers
