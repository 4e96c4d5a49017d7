/-
An appended record is whole, once, and never lost (`src/ledger.rs`).

Results:
- `healTail_eq`: what a heal leaves, and the bytes it answers;
- `append_line`: one call, by what the host does of it;
- `append_lines`: along any calls, by any number of processes.
-/
import OnePipeline.Model.Ledger

namespace OnePipeline.Ledger

open Tail

variable {file line fragment : Bytes} {lines : List Bytes} {calls : List Call} {fate : Fate}

/-- a heal leaves a file's lines, and answers the bytes of its fragment -/
theorem healTail_eq (h : Holds newline file lines fragment) :
    (healTail file).2 = ended newline lines ∧ (((healTail file).1.map TornTail.bytes).getD 0 = fragment.length) := by
  unfold healTail
  cases hlast : file.getLast? with
  | none =>
    obtain rfl := List.getLast?_eq_none_iff.mp hlast
    obtain ⟨rfl, rfl⟩ := h.unique .nil
    exact ⟨rfl, rfl⟩
  | some last =>
    obtain ⟨before, rfl⟩ := List.getLast?_eq_some_iff.mp hlast
    by_cases hnew : last = newline
    · simp only [if_pos hnew]
      obtain ⟨hended, rfl⟩ := h.of_last (a := before) (b := []) (by rw [hnew]) (by simp)
      exact ⟨hnew ▸ hended.symm, rfl⟩
    · simp only [if_neg hnew]
      rw [boundary_eq (show 0 < chunk by decide) h, h.eq]
      simp

/-- what one call leaves of a file -/
theorem append_line (h : Holds newline file lines fragment) (hline : newline ∉ line) :
    ∃ left, Holds newline (appendLineHealed file line fate).1 (lines ++ ((Call.mk line fate).committed).toList) left ∧
      (left = [] ∨ left = fragment ∨ ∃ reached, fate = .died reached ∧ left = (recordOf line).take reached) := by
  obtain ⟨hhealed, -⟩ := healTail_eq h
  have hbare : Holds newline (ended newline lines) lines [] := by
    have hnil : Holds newline (ended newline lines ++ (ended newline [] ++ [])) (lines ++ []) [] := h.append (by simp) (by simp)
    simpa using hnil
  have hwhole : Holds newline (ended newline lines ++ recordOf line) (lines ++ [line]) [] := by
    have hone : Holds newline (ended newline lines ++ (ended newline [line] ++ [])) (lines ++ [line]) [] :=
      h.append (by simpa using hline) (by simp)
    simpa [recordOf] using hone
  cases fate with
  | refused => exact ⟨fragment, by simpa [appendLineHealed, Call.committed] using h, .inr (.inl rfl)⟩
  | diedUnhealed => exact ⟨fragment, by simpa [appendLineHealed, Call.committed] using h, .inr (.inl rfl)⟩
  | refusedHealed => exact ⟨[], by simpa [appendLineHealed, writeRecord, Call.committed, hhealed] using hbare, .inl rfl⟩
  | written => exact ⟨[], by simpa [appendLineHealed, writeRecord, Call.committed, hhealed] using hwhole, .inl rfl⟩
  | failed reached => exact ⟨[], by simpa [appendLineHealed, writeRecord, Call.committed, hhealed] using hbare, .inl rfl⟩
  | died reached =>
    have hfile : (appendLineHealed file line (.died reached)).1 = ended newline lines ++ (recordOf line).take reached := by
      simp [appendLineHealed, writeRecord, hhealed]
    rw [hfile]
    by_cases hall : (recordOf line).length ≤ reached
    · refine ⟨[], ?_, .inl rfl⟩
      rw [List.take_of_length_le hall]
      simpa [Call.committed, hall] using hwhole
    · refine ⟨(recordOf line).take reached, ?_, .inr (.inr ⟨reached, rfl, rfl⟩)⟩
      have htorn : newline ∉ (recordOf line).take reached := by
        intro hin
        have hshort : reached ≤ line.length := by
          simp only [recordOf, List.length_append, List.length_singleton] at hall
          omega
        rw [recordOf, List.take_append_of_le_length hshort] at hin
        exact hline (List.mem_of_mem_take hin)
      simpa [Call.committed, hall] using h.append (l := []) (by simp) htorn

/-- a call that returns: an error leaves the file as found but for its fragment, and a success the record after its lines -/
structure Returns (found : Bytes) (call : Call) : Prop where
  error : (appendLineHealed found call.line call.fate).2 = .error → ∀ lines fragment, Holds newline found lines fragment →
    (appendLineHealed found call.line call.fate).1 = found ∨ (appendLineHealed found call.line call.fate).1 = ended newline lines
  ok : ∀ n, (appendLineHealed found call.line call.fate).2 = .ok n → ∀ lines fragment, Holds newline found lines fragment →
    n = fragment.length ∧ (appendLineHealed found call.line call.fate).1 = ended newline lines ++ recordOf call.line

theorem returns (found : Bytes) (call : Call) : Returns found call := by
  obtain ⟨line, fate⟩ := call
  constructor
  · intro herror lines fragment h
    obtain ⟨hhealed, -⟩ := healTail_eq h
    cases fate with
    | refused => exact .inl rfl
    | diedUnhealed => exact .inl rfl
    | refusedHealed => exact .inr hhealed
    | written => cases herror
    | failed reached => exact .inr (by simp [appendLineHealed, writeRecord, hhealed])
    | died reached => cases herror
  · intro n hok lines fragment h
    obtain ⟨hhealed, hbytes⟩ := healTail_eq h
    cases fate with
    | written =>
      refine ⟨?_, by simp [appendLineHealed, writeRecord, hhealed]⟩
      rw [← hbytes]
      injection hok with hn
      exact hn.symm
    | refused => cases hok
    | diedUnhealed => cases hok
    | refusedHealed => cases hok
    | failed reached => cases hok
    | died reached => cases hok

/-- **Appends.** After any calls, of lines with no newline, each meeting any fate: the file holds the lines it held and those the calls
committed, each once and in the order of the lock, then at most one fragment, of the file as it was or of one dead writer; and each call
that returned left the file it found, its fragment off, or its record after it, and answered the bytes its heal discarded. -/
theorem append_lines (file : Bytes) (lines : List Bytes) (fragment : Bytes) (hfile : Holds newline file lines fragment)
    (calls : List Call) (hlines : ∀ call ∈ calls, newline ∉ call.line) :
    (∃ left, Holds newline (ran file calls) (lines ++ calls.filterMap Call.committed) left ∧
      (left = [] ∨ left = fragment ∨
        ∃ call ∈ calls, ∃ reached, call.fate = .died reached ∧ left = (recordOf call.line).take reached)) ∧
      ∀ before call after, calls = before ++ call :: after → Returns (ran file before) call := by
  refine ⟨?_, fun before call after _ => returns _ call⟩
  induction calls using List.reverseRecOn with
  | nil => exact ⟨fragment, by simpa [ran] using hfile, .inr (.inl rfl)⟩
  | append_singleton calls call ih =>
    obtain ⟨left, hheld, hleft⟩ := ih fun c hc => hlines c (List.mem_append_left _ hc)
    obtain ⟨left', hheld', hleft'⟩ := @append_line _ _ _ _ call.fate hheld (hlines call (by simp))
    have hran : ran file (calls ++ [call]) = (appendLineHealed (ran file calls) call.line call.fate).1 := List.foldl_append
    refine ⟨left', ?_, ?_⟩
    · rw [hran, List.filterMap_append, ← List.append_assoc]
      cases hcommitted : call.committed <;> simpa [hcommitted] using hheld'
    · rcases hleft' with hnil | rfl | ⟨reached, hfate, hleft'⟩
      · exact .inl hnil
      · refine hleft.imp_right (Or.imp_right ?_)
        rintro ⟨c, hc, rest⟩
        exact ⟨c, List.mem_append_left _ hc, rest⟩
      · exact .inr (.inr ⟨call, by simp, reached, hfate, hleft'⟩)

/-- an empty journal, a record, a writer that dies in its second, and a third -/
theorem append_lines_torn : ∃ left, Holds newline
    (ran [] [⟨[97, 98], .written⟩, ⟨[99, 100], .died 1⟩, ⟨[101], .written⟩]) [[97, 98], [101]] left ∧ left = [] := by
  have hlines : ∀ call ∈ [Call.mk [97, 98] .written, ⟨[99, 100], .died 1⟩, ⟨[101], .written⟩], newline ∉ call.line := by decide
  obtain ⟨⟨left, hheld, -⟩, -⟩ := append_lines [] [] [] .nil _ hlines
  refine ⟨left, hheld, ?_⟩
  have hran : ran [] [⟨[97, 98], .written⟩, ⟨[99, 100], .died 1⟩, ⟨[101], .written⟩] = ended newline [[97, 98], [101]] := by
    decide
  have heq := hheld.eq
  rw [hran] at heq
  exact List.append_right_eq_self.mp heq.symm

end OnePipeline.Ledger
