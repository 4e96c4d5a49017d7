/-
The planner context as a list of carried notes.

A node's carried notes are kept in one string, each set off from the one before it by a blank line; a withdrawal cuts
the string back into its entries and takes one out, found by counting from the end. The abstract side is the text the
node started with and the list of notes still standing (`listing`); the concrete side is `withCarried` and
`withoutCarried` (`step`).

Results:
- `contains_entry`, `entry_last`: a note's entry holds no separator, and ends in a character that is no space;
- `split_pieces`: a context whose start ends in an even run of line breaks is cut into the entries it was joined from;
- `alike_counted`: counting back past the entries alike finds the withdrawn one;
- `step_listed`: carrying and withdrawing keep the context equal to the list;
- `carried_listed_iff`: every run does so exactly when the start is blank or ends in an even run of line breaks;
- `broken_start`: after a text that ends in one line break, a withdrawn note stays.
-/
import OnePipeline.Core.Doubled
import OnePipeline.Core.Runs
import OnePipeline.Model.Replay

namespace OnePipeline.Carried

open OnePipeline.Text

/-! ## Notes carried and withdrawn -/

/-- a note's text: the type it is read with refuses a blank one -/
structure NoteText where
  text : String
  visible : isBlank text = false

/-- the entry a note's text is written as -/
def NoteText.entry (t : NoteText) : List Char := entryOf t.text

def readsAlike (one other : NoteText) : Bool := one.entry = other.entry

/-- a node's planner context, and the carried notes that still stand in it -/
structure State where
  context : Option String
  notes : List NoteText

inductive Change where
  | carry (text : NoteText)
  | withdraw (i : ℕ)

/-- the context a withdrawal leaves, told how many of the notes carried after the withdrawn one read alike -/
def withdrawn (context : Option String) (t : NoteText) (after : List NoteText) : Option String :=
  context.bind fun c => withoutCarried c t.text (after.countP (readsAlike t))

def step (s : State) : Change → State
  | .carry t => { context := some (withCarried s.context t.text), notes := s.notes ++ [t] }
  | .withdraw i =>
    match s.notes[i]? with
    | none => s
    | some t => { context := withdrawn s.context t (s.notes.drop (i + 1)), notes := s.notes.eraseIdx i }

def run (c : Option String) (changes : List Change) : State := changes.foldl step { context := c, notes := [] }

/-- the context as the next note carried and the rendered task read it: a blank one is none -/
def kept (c : Option String) : Option String := c.filter fun c => !isBlank c

/-- the starting context and the entries of the notes after it, in the order they were carried -/
def texts (c : Option String) (notes : List NoteText) : List (List Char) :=
  (kept c).toList.map String.toList ++ notes.map NoteText.entry

/-- the context that lists them, each set off by the separator -/
def listing (c : Option String) (notes : List NoteText) : Option String :=
  if texts c notes = [] then none else some (String.ofList (join carriedSeparator (texts c notes)))

/-- whatever is carried and withdrawn, the context left is the start followed by the notes not withdrawn -/
def Listed (c : Option String) : Prop := ∀ changes, kept (run c changes).context = listing c (run c changes).notes

/-! ## What the run's record applies -/

theorem context_apply_delivered (serde : NodeSerde) {g : Graph} {id text : String} {n : Node} (h : g.get id = some n) (addressee : Addressee)
    (criterion reason : Option String) (envelope : Option UInt64) (index : Option UInt32) :
    ((apply serde g (.noteDelivered id addressee text criterion (.carried reason) envelope index)).get id).map Node.context =
      some (some (withCarried n.context text)) := by
  rw [apply, Graph.get_modify, if_pos rfl, h]
  rfl

theorem context_apply_withdrawn (serde : NodeSerde) {g : Graph} {id text : String} {n : Node} (h : g.get id = some n) (envelope : UInt64)
    (index : UInt32) (alikeAfter : ℕ) :
    ((apply serde g (.noteWithdrawn id envelope index .carried text alikeAfter)).get id).map Node.context =
      some (n.context.bind fun c => withoutCarried c text alikeAfter) := by
  rw [apply, Graph.get_modify, if_pos rfl, h]
  rfl

/-! ## Blank texts -/

/-- a text a reader sees something of -/
def Visible (l : List Char) : Prop := ∃ c ∈ l, isWhitespace c = false

theorem getLast?_trimChars {l : List Char} {c : Char} (h : (trimChars l).getLast? = some c) : isWhitespace c = false := by
  rw [trimChars, trimEndChars, List.getLast?_reverse] at h
  obtain ⟨m, hm⟩ := List.head?_eq_some_iff.mp h
  exact not_of_dropWhile hm

theorem isBlank_ofList (l : List Char) : isBlank (String.ofList l) = (trimChars l).isEmpty := by
  rw [isBlank, trim, String.toList_ofList, ← trimChars, Bool.eq_iff_iff, decide_eq_true_eq, List.isEmpty_iff,
    ← String.toList_inj, String.toList_ofList]
  rfl

theorem not_blank_iff {s : String} : isBlank s = false ↔ Visible s.toList := by
  constructor
  · intro h
    rw [← String.ofList_toList (s := s), isBlank_ofList] at h
    obtain ⟨c, hc⟩ := List.getLast?_isSome.mpr (List.isEmpty_eq_false_iff.mp h) |> Option.isSome_iff_exists.mp
    have hmem : c ∈ trimStartChars s.toList := (trimEndChars_initial _).subset (List.mem_of_getLast? hc)
    exact ⟨c, (List.dropWhile_suffix _).subset hmem, getLast?_trimChars hc⟩
  · rintro ⟨c, hc, hvisible⟩
    exact isBlank_eq_false hc hvisible

theorem kept_eq_some {c : Option String} {t : String} : kept c = some t ↔ c = some t ∧ isBlank t = false := by
  simp [kept, Option.filter_eq_some_iff]

theorem kept_of_visible {l : List Char} (h : Visible l) : kept (some (String.ofList l)) = some (String.ofList l) :=
  kept_eq_some.mpr ⟨rfl, not_blank_iff.mpr (by rwa [String.toList_ofList])⟩

theorem visible_join {sep : List Char} {ls : List (List Char)} {l : List Char} (hl : l ∈ ls) (h : Visible l) :
    Visible (join sep ls) := by
  obtain ⟨c, hc, hvisible⟩ := h
  refine ⟨c, ?_, hvisible⟩
  induction ls with
  | nil => cases hl
  | cons m ls ih =>
    cases hrest : ls with
    | nil =>
      rw [hrest, List.mem_singleton] at hl
      rwa [← hl]
    | cons p ps =>
      rw [join_cons (by simp), ← hrest]
      rcases List.mem_cons.mp hl with rfl | hmem
      · simp [hc]
      · simp [ih hmem]

/-! ## Entries -/

theorem carriedSeparator_eq : carriedSeparator = ['\n', '\n'] := by decide

theorem contains_unseparated {fuel : ℕ} {l : List Char} (h : pairs '\n' l ≤ fuel) :
    contains carriedSeparator (unseparated fuel l) = false := by
  induction fuel generalizing l with
  | zero =>
    rw [unseparated, carriedSeparator_eq, Bool.eq_false_iff]
    intro hcontains
    have hlt := pairs_replace_lt (b := ' ') (by decide) hcontains
    omega
  | succ fuel ih =>
    rw [unseparated]
    split_ifs with hcontains
    · apply ih
      rw [carriedSeparator_eq] at hcontains ⊢
      have hlt := pairs_replace_lt (b := ' ') (by decide) hcontains
      exact Nat.le_of_lt_succ (Nat.lt_of_lt_of_le hlt h)
    · exact Bool.eq_false_iff.mpr hcontains

theorem getLast?_unseparated (fuel : ℕ) (l : List Char) : (unseparated fuel l).getLast? = l.getLast? := by
  induction fuel generalizing l with
  | zero => rfl
  | succ fuel ih =>
    rw [unseparated]
    split_ifs
    · rw [ih]
      exact getLast?_replace ' ' l
    · rfl

theorem contains_entry (t : NoteText) : contains carriedSeparator t.entry = false :=
  contains_unseparated pairs_le_length

theorem entry_last (t : NoteText) : ∃ c, t.entry.getLast? = some c ∧ isWhitespace c = false := by
  have hblank := t.visible
  rw [← String.ofList_toList (s := t.text), isBlank_ofList] at hblank
  obtain ⟨c, hc⟩ := List.getLast?_isSome.mpr (List.isEmpty_eq_false_iff.mp hblank) |> Option.isSome_iff_exists.mp
  refine ⟨c, ?_, getLast?_trimChars hc⟩
  rw [NoteText.entry, entryOf, getLast?_unseparated]
  exact hc

theorem visible_entry (t : NoteText) : Visible t.entry := by
  obtain ⟨c, hc, hvisible⟩ := entry_last t
  exact ⟨c, List.mem_of_getLast? hc, hvisible⟩

theorem even_entry (t : NoteText) : Even (trailing '\n' t.entry) := by
  obtain ⟨c, hc, hvisible⟩ := entry_last t
  rw [trailing_eq_zero]
  · exact Even.zero
  · rw [hc]
    intro heq
    rw [Option.some.inj heq] at hvisible
    exact absurd hvisible (by decide)

theorem split_entry (t : NoteText) : split carriedSeparator t.entry = [t.entry] :=
  split_of_not_contains (by decide) (contains_entry t)

/-! ## A context cut into its pieces -/

theorem split_append_even {l : List Char} (h : Even (trailing '\n' l)) (rest : List Char) :
    split carriedSeparator (l ++ carriedSeparator ++ rest) = split carriedSeparator l ++ split carriedSeparator rest := by
  rw [carriedSeparator_eq]
  exact split_append_pair rest h

theorem split_entries {notes : List NoteText} (h : notes ≠ []) :
    split carriedSeparator (join carriedSeparator (notes.map NoteText.entry)) = notes.map NoteText.entry := by
  induction notes with
  | nil => exact absurd rfl h
  | cons t notes ih =>
    by_cases hnil : notes = []
    · rw [hnil]
      exact split_entry t
    · rw [List.map_cons, join_cons (by simpa using hnil), split_append_even (even_entry t), split_entry, ih hnil]
      rfl

/-- the context's entries as a withdrawal sees them: the start's own, and one for each note -/
def pieces (c : Option String) (notes : List NoteText) : List (List Char) :=
  ((kept c).map fun t => split carriedSeparator t.toList).getD [] ++ notes.map NoteText.entry

/-- what decides whether the start is cut where the first note was set off from it -/
def Level (c : Option String) : Prop := ∀ t, kept c = some t → Even (trailing '\n' t.toList)

section

variable {c : Option String} {notes : List NoteText}

theorem pieces_eq_nil : pieces c notes = [] ↔ texts c notes = [] := by
  rw [pieces, texts]
  cases kept c with
  | none => rfl
  | some t => simp [split_ne_nil (show carriedSeparator ≠ [] by decide)]

theorem join_pieces : join carriedSeparator (pieces c notes) = join carriedSeparator (texts c notes) := by
  rw [pieces, texts]
  cases kept c with
  | none => rfl
  | some t =>
    have hsep : carriedSeparator ≠ [] := by decide
    change join carriedSeparator (split carriedSeparator t.toList ++ notes.map NoteText.entry) =
      join carriedSeparator (t.toList :: notes.map NoteText.entry)
    by_cases hnil : notes = []
    · rw [hnil, List.map_nil, List.append_nil, join_split hsep]
      rfl
    · have hentries : notes.map NoteText.entry ≠ [] := by simpa using hnil
      rw [join_append (split_ne_nil hsep _) hentries, join_split hsep, join_cons hentries]

theorem split_pieces (hlevel : Level c) (h : texts c notes ≠ []) :
    split carriedSeparator (join carriedSeparator (texts c notes)) = pieces c notes := by
  rw [texts] at h ⊢
  rw [pieces]
  cases hkept : kept c with
  | none =>
    rw [hkept] at h
    exact split_entries (by simpa using h)
  | some t =>
    change split carriedSeparator (join carriedSeparator (t.toList :: notes.map NoteText.entry)) =
      split carriedSeparator t.toList ++ notes.map NoteText.entry
    by_cases hnil : notes = []
    · rw [hnil, List.map_nil, List.append_nil]
      rfl
    · rw [join_cons (by simpa using hnil), split_append_even (hlevel t hkept), split_entries hnil]

theorem listing_nil : listing c [] = kept c := by
  rw [listing, texts]
  cases hkept : kept c with
  | none => rfl
  | some t => simp [join]

/-- a listed context is never blank -/
theorem kept_listing : kept (listing c notes) = listing c notes := by
  rw [listing]
  split_ifs with h
  · rfl
  · apply kept_of_visible
    obtain ⟨l, hl⟩ := List.exists_mem_of_ne_nil _ h
    refine visible_join hl ?_
    rw [texts, List.mem_append, List.mem_map, List.mem_map] at hl
    rcases hl with ⟨t, ht, rfl⟩ | ⟨t, -, rfl⟩
    · exact not_blank_iff.mp (kept_eq_some.mp (Option.mem_toList.mp ht)).2
    · exact visible_entry t

theorem kept_join_pieces :
    kept (some (String.ofList (join carriedSeparator (pieces c notes)))) = listing c notes := by
  rw [join_pieces]
  by_cases h : texts c notes = []
  · rw [listing, if_pos h, h]
    decide
  · rw [← kept_listing, listing, if_neg h]

end

/-! ## Counting back -/

section

variable {x : List Char}

/-- the places the entry is written at, from `k` on -/
theorem length_alike_from (l : List (List Char)) (k : ℕ) :
    ((l.zipIdx k).filterMap fun p => if p.1 = x then some p.2 else none).length = l.count x := by
  induction l generalizing k with
  | nil => rfl
  | cons y l ih =>
    rw [List.zipIdx_cons, List.filterMap_cons]
    by_cases hy : y = x
    · rw [hy, List.count_cons_self, if_pos rfl]
      exact congrArg (· + 1) (ih (k + 1))
    · rw [List.count_cons_of_ne hy, if_neg hy]
      exact ih (k + 1)

/-- past as many from the end as come after it, the entry's own place -/
theorem alike_counted (l m : List (List Char)) : (alike x (l ++ x :: m)).reverse[m.count x]? = some l.length := by
  rw [alike, List.zipIdx_append, List.filterMap_append, List.zipIdx_cons, List.filterMap_cons]
  simp only [if_true, List.reverse_append, List.reverse_cons, Nat.zero_add, List.append_assoc]
  rw [List.getElem?_append_right (by rw [List.length_reverse, length_alike_from]), List.length_reverse, length_alike_from,
    Nat.sub_self]
  rfl

end

theorem count_entries (t : NoteText) (notes : List NoteText) :
    (notes.map NoteText.entry).count t.entry = notes.countP (readsAlike t) := by
  rw [List.count, List.countP_map]
  refine List.countP_congr fun u _ => ?_
  simp only [Function.comp_apply, beq_iff_eq, readsAlike, decide_eq_true_eq]
  exact eq_comm

/-! ## One change -/

theorem kept_unless_blank (l : List Char) :
    kept (if (trimChars l).isEmpty then none else some (String.ofList l)) = kept (some (String.ofList l)) := by
  split_ifs with h
  · rw [kept, kept, Option.filter_some, isBlank_ofList, h]
    rfl
  · rfl

theorem withCarried_eq (context : Option String) (text : String) :
    withCarried context text =
      match kept context with
      | some c => String.ofList (c.toList ++ carriedSeparator ++ entryOf text)
      | none => String.ofList (entryOf text) := by
  cases context with
  | none => rfl
  | some c => cases hblank : isBlank c <;> simp [withCarried, kept, Option.filter_some, hblank]

section

variable {c context : Option String} {notes : List NoteText}

theorem carry_listed (h : kept context = listing c notes) (t : NoteText) :
    kept (some (withCarried context t.text)) = listing c (notes ++ [t]) := by
  have htexts : texts c (notes ++ [t]) = texts c notes ++ [t.entry] := by simp [texts]
  have hlisting : some (withCarried context t.text) = listing c (notes ++ [t]) := by
    have hne : texts c notes ++ [t.entry] ≠ [] := by simp
    rw [withCarried_eq, h, listing, listing, htexts, if_neg hne]
    by_cases hnil : texts c notes = []
    · rw [if_pos hnil, hnil]
      rfl
    · rw [if_neg hnil, join_append hnil (by simp)]
      simp only [String.toList_ofList]
      rfl
  rw [hlisting, kept_listing]

theorem withdraw_listed (hlevel : Level c) {l m : List NoteText} {t : NoteText} (h : kept context = listing c (l ++ t :: m)) :
    kept (withdrawn context t m) = listing c (l ++ m) := by
  have hnil : texts c (l ++ t :: m) ≠ [] := by simp [texts]
  rw [listing, if_neg hnil] at h
  obtain ⟨rfl, -⟩ := kept_eq_some.mp h
  -- the entries the context is cut into, with the withdrawn one between
  have hsplit := split_pieces hlevel hnil
  have hpieces : pieces c (l ++ t :: m) = pieces c l ++ t.entry :: m.map NoteText.entry := by simp [pieces]
  have hplace := alike_counted (x := t.entry) (pieces c l) (m.map NoteText.entry)
  rw [count_entries] at hplace
  have herase : (pieces c (l ++ t :: m)).eraseIdx (pieces c l).length = pieces c (l ++ m) := by
    rw [hpieces, List.eraseIdx_append_of_length_le (Nat.le_refl _), Nat.sub_self]
    simp [pieces]
  rw [withdrawn, Option.bind_some, withoutCarried]
  simp only [String.toList_ofList, hsplit]
  rw [hpieces] at herase ⊢
  have hentry : entryOf t.text = t.entry := rfl
  rw [hentry, hplace]
  simp only [herase]
  rw [kept_unless_blank, kept_join_pieces]

end

/-- carrying a note and withdrawing one keep the context equal to the list -/
theorem step_listed {c : Option String} (hlevel : Level c) {s : State} (h : kept s.context = listing c s.notes)
    (change : Change) : kept (step s change).context = listing c (step s change).notes := by
  cases change with
  | carry t => exact carry_listed h t
  | withdraw i =>
    rw [step]
    cases hget : s.notes[i]? with
    | none => exact h
    | some t =>
      obtain ⟨hi, rfl⟩ := List.getElem?_eq_some_iff.mp hget
      have hnotes : s.notes = s.notes.take i ++ s.notes[i] :: s.notes.drop (i + 1) := by simp
      rw [hnotes] at h
      simp only [List.eraseIdx_eq_take_drop_succ]
      exact withdraw_listed hlevel h

theorem run_listed {c : Option String} (hlevel : Level c) : Listed c := by
  intro changes
  have hrun : ∀ (changes : List Change) (s : State), kept s.context = listing c s.notes →
      kept (changes.foldl step s).context = listing c (changes.foldl step s).notes := by
    intro changes
    induction changes with
    | nil => exact fun s h => h
    | cons change changes ih => exact fun s h => ih (step s change) (step_listed hlevel h change)
  exact hrun changes _ listing_nil.symm

/-! ## A start that ends in an odd run -/

def aNote : NoteText := ⟨"x", by decide⟩

theorem entry_aNote : entryOf aNote.text = ['x'] := by decide

/-- the place a withdrawal finds holds the entry it looks for -/
theorem getElem?_of_alike {x : List Char} {l : List (List Char)} {k i : ℕ} (h : (alike x l).reverse[k]? = some i) :
    l[i]? = some x := by
  have hmem := List.mem_reverse.mp (List.mem_of_getElem? h)
  obtain ⟨⟨y, j⟩, hp, heq⟩ := List.mem_filterMap.mp hmem
  split_ifs at heq with hy
  cases heq
  rw [List.mem_zipIdx_iff_getElem?] at hp
  rw [hp]
  exact congrArg some hy

theorem getLast?_join {sep : List Char} {ls : List (List Char)} {l : List Char} (hl : l ≠ []) :
    (join sep (ls ++ [l])).getLast? = l.getLast? := by
  by_cases hnil : ls = []
  · rw [hnil]
    rfl
  · rw [join_append hnil (by simp), List.getLast?_append_of_ne_nil _ (by simpa [join] using hl)]
    rfl

/-- what a withdrawal leaves of entries it finds none of its own last among ends as they do -/
theorem getLast?_withoutCarried {context : String} {text : String} {k : ℕ} {ls : List (List Char)} {l : List Char}
    (hsplit : split carriedSeparator context.toList = ls ++ [l]) (hl : l ≠ []) (hne : l ≠ entryOf text) {s : String}
    (h : withoutCarried context text k = some s) : s.toList.getLast? = l.getLast? := by
  have hwhole : context.toList.getLast? = l.getLast? := by
    rw [← join_split (show carriedSeparator ≠ [] by decide) context.toList, hsplit, getLast?_join hl]
  rw [withoutCarried] at h
  simp only [hsplit] at h
  cases hplace : (alike (entryOf text) (ls ++ [l])).reverse[k]? with
  | none =>
    rw [hplace] at h
    cases h
    exact hwhole
  | some i =>
    rw [hplace] at h
    simp only [] at h
    split_ifs at h
    cases h
    have hget := getElem?_of_alike hplace
    have hi : i < ls.length := by
      by_contra hge
      rw [List.getElem?_append_right (Nat.le_of_not_lt hge), List.getElem?_singleton] at hget
      split_ifs at hget
      exact hne (Option.some.inj hget)
    rw [String.toList_ofList, List.eraseIdx_append_of_lt_length hi, getLast?_join hl]

theorem context_taken_back (c : Option String) (t : NoteText) :
    (run c [.carry t, .withdraw 0]).context = withoutCarried (withCarried c t.text) t.text 0 := by
  simp [run, step, withdrawn]

theorem notes_taken_back (c : Option String) (t : NoteText) : (run c [.carry t, .withdraw 0]).notes = [] := by
  simp [run, step]

/-- the note is set off by the last two of an odd run and is cut with the one before them -/
theorem split_after_odd {t : String} {m : List Char} (hkept : kept (some t) = some t) (hm : t.toList = m ++ ['\n'])
    (heven : Even (trailing '\n' m)) :
    split carriedSeparator (withCarried (some t) aNote.text).toList = split carriedSeparator m ++ [['\n', 'x']] := by
  rw [withCarried_eq, hkept]
  simp only [String.toList_ofList]
  rw [entry_aNote, hm, carriedSeparator_eq, split_append_odd heven]
  rfl

theorem getLast?_taken_back {t s : String} {m : List Char} (hkept : kept (some t) = some t) (hm : t.toList = m ++ ['\n'])
    (heven : Even (trailing '\n' m)) (h : (run (some t) [.carry aNote, .withdraw 0]).context = some s) :
    s.toList.getLast? = some 'x' := by
  have hother : ['\n', 'x'] ≠ entryOf aNote.text := by simp [entry_aNote]
  rw [context_taken_back] at h
  exact getLast?_withoutCarried (split_after_odd hkept hm heven) (by simp) hother h

theorem level_of_listed {c : Option String} (h : Listed c) : Level c := by
  intro t hkept
  by_contra hodd
  obtain ⟨m, hm, heven⟩ := odd_trailing hodd
  obtain ⟨rfl, -⟩ := kept_eq_some.mp hkept
  have hend := h [.carry aNote, .withdraw 0]
  have hlist : listing (some t) (run (some t) [.carry aNote, .withdraw 0]).notes = some t := by
    rw [notes_taken_back, listing_nil, hkept]
  rw [hlist] at hend
  have hlast := getLast?_taken_back hkept hm heven (kept_eq_some.mp hend).1
  rw [hm, List.getLast?_concat] at hlast
  exact absurd hlast (by decide)

/-- **The context is the list, from which starts.** Every run of notes carried and withdrawn leaves the text the node
started with followed by the entries of the notes not withdrawn, if and only if that text is blank or ends in an even
run of line breaks. -/
theorem carried_listed_iff (c : Option String) :
    Listed c ↔ ∀ t, c = some t → isBlank t = false → Even (trailing '\n' t.toList) := by
  have hlevel : Level c ↔ ∀ t, c = some t → isBlank t = false → Even (trailing '\n' t.toList) := by
    simp only [Level, kept_eq_some, and_imp]
  rw [← hlevel]
  exact ⟨level_of_listed, run_listed⟩

/-- after a start that ends in one line break, the note withdrawn is still there -/
theorem broken_start :
    (run (some "one\n") [.carry aNote, .withdraw 0]).context = some "one\n\n\nx" ∧ ¬Listed (some "one\n") := by
  have hcontext : (run (some "one\n") [.carry aNote, .withdraw 0]).context = some "one\n\n\nx" := by decide
  refine ⟨hcontext, fun h => ?_⟩
  have hend := h [.carry aNote, .withdraw 0]
  rw [hcontext] at hend
  exact absurd hend (by decide)

end OnePipeline.Carried
