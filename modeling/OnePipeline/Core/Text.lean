/-
The text operations the model reads strings with, as Rust's standard library defines them: `char::is_whitespace`,
`str::trim`, `str::strip_prefix`, `str::split_once`, `str::split` and `str::replace` over a non-empty separator.

They work on the characters of a string, because each one is a question about characters: a Rust string is compared
and cut on UTF-8 boundaries, and every separator used here is ASCII. Nothing in this file names the program.

Results:
- `isBlank_eq_false`: a text with a character that is no space is not blank;
- `trim_trim`: a trimmed text is trimmed already;
- `split_eq`, `split_prefix`, `split_cons`: how a text is split;
- `join_split`: the pieces of a text joined are the text.
-/
import Mathlib.Tactic

namespace OnePipeline.Text

/-- `char::is_whitespace`: the code points with the Unicode property `White_Space` -/
def isWhitespace (c : Char) : Bool :=
  let n := c.toNat
  (9 ≤ n && n ≤ 13) || n == 0x20 || n == 0x85 || n == 0xA0 || n == 0x1680 || (0x2000 ≤ n && n ≤ 0x200A) ||
    n == 0x2028 || n == 0x2029 || n == 0x202F || n == 0x205F || n == 0x3000

/-- `char::is_control`: the general category `Cc` -/
def isControl (c : Char) : Bool := c.toNat < 32 || (127 ≤ c.toNat && c.toNat < 160)

def trimStartChars (l : List Char) : List Char := l.dropWhile isWhitespace

def trimEndChars (l : List Char) : List Char := (l.reverse.dropWhile isWhitespace).reverse

/-- `str::trim` -/
def trim (s : String) : String := String.ofList (trimEndChars (trimStartChars s.toList))

/-- `str::trim_end` -/
def trimEnd (s : String) : String := String.ofList (trimEndChars s.toList)

/-- `s.trim().is_empty()` -/
def isBlank (s : String) : Bool := trim s = ""

/-- `str::strip_prefix`, over characters -/
def stripPrefix : List Char → List Char → Option (List Char)
  | [], l => some l
  | p :: ps, c :: cs => if p = c then stripPrefix ps cs else none
  | _ :: _, [] => none

/-- `str::starts_with`, over characters -/
def startsWith (p l : List Char) : Bool := (stripPrefix p l).isSome

/-- `str::contains` of a substring, over characters -/
def contains (p : List Char) : List Char → Bool
  | [] => startsWith p []
  | c :: cs => startsWith p (c :: cs) || contains p cs

/-- `str::split_once` at a separator: what is before its first occurrence, and what is after -/
def splitOnce (sep : List Char) : List Char → Option (List Char × List Char)
  | [] => (stripPrefix sep []).map fun rest => ([], rest)
  | c :: cs =>
    match stripPrefix sep (c :: cs) with
    | some rest => some ([], rest)
    | none => (splitOnce sep cs).map fun p => (c :: p.1, p.2)

/-- `str::rsplit_once` at a character: what is before its last occurrence, and what is after -/
def rsplitOnce (c : Char) (l : List Char) : Option (List Char × List Char) :=
  (splitOnce [c] l.reverse).map fun p => (p.2.reverse, p.1.reverse)

/-- the pieces of `str::split`, taking at most `fuel` separators out -/
def splitFuel (sep : List Char) : ℕ → List Char → List (List Char)
  | 0, l => [l]
  | fuel + 1, l =>
    match splitOnce sep l with
    | none => [l]
    | some (a, b) => a :: splitFuel sep fuel b

/-- `str::split` at a non-empty separator: a text of `n` characters holds at most `n` of it -/
def split (sep : List Char) (l : List Char) : List (List Char) := splitFuel sep l.length l

/-- `[_]::join` of a separator -/
def join (sep : List Char) : List (List Char) → List Char
  | [] => []
  | [l] => l
  | l :: ls => l ++ sep ++ join sep ls

/-- `str::replace`: every piece between occurrences of the separator, joined by what replaces it -/
def replace (sep by_ l : List Char) : List Char := join by_ (split sep l)

def hexDigits (n : ℕ) : List Char := Nat.toDigits 16 n

/-- one character as `{:?}` writes it inside a quoted string -/
def escape (c : Char) : List Char :=
  if c = '"' ∨ c = '\\' then ['\\', c]
  else if c = '\n' then ['\\', 'n']
  else if c = '\r' then ['\\', 'r']
  else if c = '\t' then ['\\', 't']
  else if c.toNat = 0 then ['\\', '0']
  else if isControl c then "\\u\x7b".toList ++ hexDigits c.toNat ++ "\x7d".toList
  else [c]

/-- `{:?}` of a string; the printable characters `escape_debug` writes as they are -/
def debug (s : String) : String := "\"" ++ String.ofList (s.toList.flatMap escape) ++ "\""

/-! ## Trimming -/

theorem mem_dropWhile {p : Char → Bool} {l : List Char} {c : Char} (hc : c ∈ l) (hp : p c = false) : c ∈ l.dropWhile p := by
  induction l with
  | nil => cases hc
  | cons a l ih =>
    rw [List.dropWhile_cons]
    split_ifs with ha
    · rcases List.mem_cons.mp hc with rfl | hc
      · rw [hp] at ha
        cases ha
      · exact ih hc
    · exact hc

theorem not_of_dropWhile {p : Char → Bool} {l m : List Char} {a : Char} (h : l.dropWhile p = a :: m) : p a = false := by
  induction l with
  | nil => cases h
  | cons b l ih =>
    rw [List.dropWhile_cons] at h
    split_ifs at h with hb
    · exact ih h
    · cases h
      exact Bool.eq_false_iff.mpr hb

/-- a text with a character that is no space is not blank -/
theorem isBlank_eq_false {s : String} {c : Char} (hc : c ∈ s.toList) (hw : isWhitespace c = false) : isBlank s = false := by
  have hstart : c ∈ trimStartChars s.toList := mem_dropWhile hc hw
  have hend : c ∈ trimEndChars (trimStartChars s.toList) :=
    List.mem_reverse.mpr (mem_dropWhile (List.mem_reverse.mpr hstart) hw)
  refine decide_eq_false fun h => ?_
  have hnil := congrArg String.toList h
  rw [trim, String.toList_ofList] at hnil
  rw [hnil] at hend
  cases hend

theorem stripPrefix_append (p l : List Char) : stripPrefix p (p ++ l) = some l := by
  induction p with
  | nil => rfl
  | cons c p ih => simp [stripPrefix, ih]

/-- text that starts with more starts with less -/
theorem startsWith_of_append {p q l : List Char} (h : startsWith (p ++ q) l = true) : startsWith p l = true := by
  induction p generalizing l with
  | nil => rfl
  | cons c p ih =>
    cases l with
    | nil => cases h
    | cons a l =>
      simp only [startsWith, List.cons_append, stripPrefix] at h ⊢
      split_ifs at h ⊢ with hc
      · exact ih h
      · cases h

/-- text split at the first of a character it holds -/
theorem splitOnce_append {p : List Char} {c : Char} (h : c ∉ p) (l : List Char) : splitOnce [c] (p ++ c :: l) = some (p, l) := by
  induction p with
  | nil => simp [splitOnce, stripPrefix]
  | cons a p ih =>
    rw [List.mem_cons, not_or] at h
    simp [splitOnce, stripPrefix, h.1, ih h.2]

/-! ## Splitting -/

section Split

variable {sep l : List Char}

theorem stripPrefix_eq_some {p l rest : List Char} (h : stripPrefix p l = some rest) : l = p ++ rest := by
  induction p generalizing l with
  | nil =>
    cases h
    rfl
  | cons c p ih =>
    cases l with
    | nil => cases h
    | cons a l =>
      simp only [stripPrefix] at h
      split_ifs at h with hc
      rw [ih h, hc]
      rfl

theorem splitOnce_eq_some {a b : List Char} (h : splitOnce sep l = some (a, b)) : l = a ++ sep ++ b := by
  induction l generalizing a with
  | nil =>
    obtain ⟨rest, hrest, heq⟩ := Option.map_eq_some_iff.mp h
    cases heq
    exact stripPrefix_eq_some hrest
  | cons c l ih =>
    rw [splitOnce] at h
    cases hstrip : stripPrefix sep (c :: l) with
    | some rest =>
      rw [hstrip] at h
      cases h
      exact stripPrefix_eq_some hstrip
    | none =>
      rw [hstrip] at h
      obtain ⟨⟨a', b'⟩, hsplit, heq⟩ := Option.map_eq_some_iff.mp h
      cases heq
      rw [ih hsplit]
      rfl

theorem splitOnce_prefix (hsep : sep ≠ []) (l : List Char) : splitOnce sep (sep ++ l) = some ([], l) := by
  obtain ⟨c, sep, rfl⟩ := List.exists_cons_of_ne_nil hsep
  have hstrip : stripPrefix (c :: sep) (c :: (sep ++ l)) = some l := stripPrefix_append (c :: sep) l
  rw [List.cons_append, splitOnce, hstrip]

theorem splitOnce_cons {c : Char} (h : startsWith sep (c :: l) = false) :
    splitOnce sep (c :: l) = (splitOnce sep l).map fun p => (c :: p.1, p.2) := by
  unfold startsWith at h
  rw [splitOnce, Option.isSome_eq_false_iff.mp h |> Option.isNone_iff_eq_none.mp]

theorem splitOnce_eq_none : splitOnce sep l = none ↔ contains sep l = false := by
  induction l with
  | nil =>
    rw [splitOnce, contains, startsWith, Option.map_eq_none_iff]
    cases stripPrefix sep [] <;> simp
  | cons c l ih =>
    rw [contains, Bool.or_eq_false_iff]
    cases hstarts : startsWith sep (c :: l) with
    | true =>
      obtain ⟨rest, hrest⟩ := Option.isSome_iff_exists.mp hstarts
      rw [splitOnce, hrest]
      simp
    | false =>
      rw [splitOnce_cons hstarts, Option.map_eq_none_iff, ih]
      simp

/-- fuel past a text's length takes every separator out -/
theorem splitFuel_eq (hsep : sep ≠ []) {fuel : ℕ} (hfuel : l.length ≤ fuel) : splitFuel sep fuel l = split sep l := by
  have hone : ∀ (n : ℕ) (l : List Char), l.length ≤ n → splitFuel sep n l = splitFuel sep l.length l := by
    intro n
    induction n using Nat.strong_induction_on with
    | _ n ih =>
      intro l hl
      cases n with
      | zero =>
        rw [List.length_eq_zero_iff.mp (Nat.le_zero.mp hl)]
        rfl
      | succ n =>
        cases hlength : l.length with
        | zero =>
          have hnil := List.length_eq_zero_iff.mp hlength
          subst hnil
          have hnone : splitOnce sep [] = none := by
            obtain ⟨c, sep, rfl⟩ := List.exists_cons_of_ne_nil hsep
            rfl
          simp only [splitFuel, hnone]
        | succ m =>
          rw [splitFuel, splitFuel]
          cases hsplit : splitOnce sep l with
          | none => rfl
          | some p =>
            obtain ⟨a, b⟩ := p
            have hshort : b.length < l.length := by
              rw [splitOnce_eq_some hsplit]
              have hpos := List.length_pos_of_ne_nil hsep
              simp only [List.length_append]
              omega
            simp only []
            rw [ih n (by omega) b (by omega), ih m (by omega) b (by omega)]
  exact hone fuel l hfuel

/-- a text split: whole, or cut at the first separator and the rest split -/
theorem split_eq (hsep : sep ≠ []) (l : List Char) :
    split sep l = match splitOnce sep l with
      | none => [l]
      | some (a, b) => a :: split sep b := by
  cases hsplit : splitOnce sep l with
  | none =>
    unfold split
    cases l.length with
    | zero => rfl
    | succ n => rw [splitFuel, hsplit]
  | some p =>
    obtain ⟨a, b⟩ := p
    have hwhole := splitOnce_eq_some hsplit
    have hpos := List.length_pos_of_ne_nil hsep
    obtain ⟨n, hn⟩ : ∃ n, l.length = n + 1 := ⟨l.length - 1, by rw [hwhole]; simp only [List.length_append]; omega⟩
    rw [split, hn, splitFuel, hsplit]
    simp only []
    rw [splitFuel_eq hsep]
    rw [hwhole] at hn
    simp only [List.length_append] at hn
    omega

theorem split_of_not_contains (hsep : sep ≠ []) (h : contains sep l = false) : split sep l = [l] := by
  rw [split_eq hsep, splitOnce_eq_none.mpr h]

theorem split_prefix (hsep : sep ≠ []) (l : List Char) : split sep (sep ++ l) = [] :: split sep l := by
  rw [split_eq hsep, splitOnce_prefix hsep]

theorem split_ne_nil (hsep : sep ≠ []) (l : List Char) : split sep l ≠ [] := by
  rw [split_eq hsep]
  cases splitOnce sep l with
  | none => simp
  | some p => simp

/-- a character no separator starts at goes to the first piece -/
theorem split_cons (hsep : sep ≠ []) {c : Char} (h : startsWith sep (c :: l) = false) :
    split sep (c :: l) = (c :: (split sep l).headD []) :: (split sep l).tail := by
  rw [split_eq hsep, split_eq hsep l, splitOnce_cons h]
  cases splitOnce sep l with
  | none => rfl
  | some p => rfl

theorem join_cons {p : List Char} {pieces : List (List Char)} (h : pieces ≠ []) : join sep (p :: pieces) = p ++ sep ++ join sep pieces := by
  cases pieces with
  | nil => exact absurd rfl h
  | cons q pieces => rfl

theorem join_append {pieces rest : List (List Char)} (hpieces : pieces ≠ []) (hrest : rest ≠ []) :
    join sep (pieces ++ rest) = join sep pieces ++ sep ++ join sep rest := by
  induction pieces with
  | nil => exact absurd rfl hpieces
  | cons p pieces ih =>
    by_cases hnil : pieces = []
    · rw [hnil, List.singleton_append, join_cons hrest]
      rfl
    · rw [List.cons_append, join_cons (by simp [hnil]), ih hnil, join_cons hnil]
      simp only [List.append_assoc]

/-- the pieces of a text joined again -/
theorem join_split (hsep : sep ≠ []) (l : List Char) : join sep (split sep l) = l := by
  induction hn : l.length using Nat.strong_induction_on generalizing l with
  | _ n ih =>
    rw [split_eq hsep]
    cases hsplit : splitOnce sep l with
    | none => rfl
    | some p =>
      obtain ⟨a, b⟩ := p
      have hwhole := splitOnce_eq_some hsplit
      have hpos := List.length_pos_of_ne_nil hsep
      have hshort : b.length < n := by
        rw [← hn, hwhole]
        simp only [List.length_append]
        omega
      simp only []
      rw [join_cons (split_ne_nil hsep b), ih b.length hshort b rfl]
      exact hwhole.symm

theorem rsplitOnce_append {a b : List Char} {c : Char} (h : c ∉ b) : rsplitOnce c (a ++ c :: b) = some (a, b) := by
  have hreverse : (a ++ c :: b).reverse = b.reverse ++ c :: a.reverse := by simp
  rw [rsplitOnce, hreverse, splitOnce_append (by simpa using h)]
  simp

theorem rsplitOnce_eq_some {a b : List Char} {c : Char} (h : rsplitOnce c l = some (a, b)) : l = a ++ c :: b := by
  obtain ⟨⟨b', a'⟩, hsplit, heq⟩ := Option.map_eq_some_iff.mp h
  cases heq
  rw [← List.reverse_inj, splitOnce_eq_some hsplit]
  simp

theorem contains_singleton {c : Char} : contains [c] l = true ↔ c ∈ l := by
  induction l with
  | nil => simp [contains, startsWith, stripPrefix]
  | cons a l ih =>
    rw [contains, Bool.or_eq_true, ih, List.mem_cons]
    simp [startsWith, stripPrefix]

/-- joined pieces split again, where none holds the separator -/
theorem split_join {c : Char} {pieces : List (List Char)} (h : pieces ≠ []) (hc : ∀ p ∈ pieces, c ∉ p) :
    split [c] (join [c] pieces) = pieces := by
  induction pieces with
  | nil => exact absurd rfl h
  | cons p pieces ih =>
    have hp : c ∉ p := hc p List.mem_cons_self
    by_cases hnil : pieces = []
    · subst hnil
      refine split_of_not_contains (List.cons_ne_nil c []) ?_
      rw [← Bool.not_eq_true, contains_singleton]
      exact hp
    · rw [join_cons hnil, List.append_assoc, List.singleton_append, split_eq (List.cons_ne_nil c []), splitOnce_append hp]
      simp only []
      rw [ih hnil fun q hq => hc q (List.mem_cons_of_mem _ hq)]

end Split

theorem trimEndChars_initial (l : List Char) : trimEndChars l <+: l := by
  have hsuffix : l.reverse.dropWhile isWhitespace <:+ l.reverse := List.dropWhile_suffix _
  rw [trimEndChars, ← List.reverse_suffix, List.reverse_reverse]
  exact hsuffix

theorem trim_trim (s : String) : trim (trim s) = trim s := by
  have hstart : trimStartChars (trimEndChars (trimStartChars s.toList)) = trimEndChars (trimStartChars s.toList) := by
    cases ht : trimEndChars (trimStartChars s.toList) with
    | nil => rfl
    | cons a l =>
      -- what is left starts as the text with its leading spaces off does
      obtain ⟨m, hm⟩ := trimEndChars_initial (trimStartChars s.toList)
      rw [ht, List.cons_append] at hm
      have ha : isWhitespace a = false := not_of_dropWhile hm.symm
      rw [trimStartChars, List.dropWhile_cons, if_neg (by rw [ha]; exact Bool.false_ne_true)]
  have hend (l : List Char) : trimEndChars (trimEndChars l) = trimEndChars l := by
    rw [trimEndChars, trimEndChars, List.reverse_reverse]
    cases hd : l.reverse.dropWhile isWhitespace with
    | nil => rfl
    | cons a m => rw [List.dropWhile_cons, if_neg (by rw [not_of_dropWhile hd]; exact Bool.false_ne_true)]
  rw [trim, trim, String.toList_ofList, hstart, hend]

/-! ## Replacing -/

theorem mem_join {sep : List Char} {pieces : List (List Char)} {c : Char} (h : c ∈ join sep pieces) : c ∈ sep ∨ ∃ p ∈ pieces, c ∈ p := by
  induction pieces with
  | nil => cases h
  | cons p pieces ih =>
    by_cases hnil : pieces = []
    · rw [hnil] at h
      exact .inr ⟨p, List.mem_cons_self, h⟩
    · rw [join_cons hnil, List.mem_append, List.mem_append] at h
      obtain (h | h) | h := h
      · exact .inr ⟨p, List.mem_cons_self, h⟩
      · exact .inl h
      · exact (ih h).imp_right fun ⟨q, hq, hin⟩ => ⟨q, List.mem_cons_of_mem _ hq, hin⟩

theorem mem_join_of_mem {sep : List Char} {pieces : List (List Char)} {c : Char} {p : List Char} (hp : p ∈ pieces) (hc : c ∈ p) :
    c ∈ join sep pieces := by
  induction pieces with
  | nil => cases hp
  | cons q pieces ih =>
    by_cases hnil : pieces = []
    · rw [hnil, List.mem_singleton] at hp
      rw [hnil, ← hp]
      exact hc
    · rw [join_cons hnil]
      obtain rfl | hp := List.mem_cons.mp hp
      · exact List.mem_append_left _ (List.mem_append_left _ hc)
      · exact List.mem_append_right _ (ih hp)

/-- a replacement holds nothing but what the text did and what was put in -/
theorem mem_replace {sep by_ l : List Char} (hsep : sep ≠ []) {c : Char} (h : c ∈ replace sep by_ l) : c ∈ by_ ∨ c ∈ l := by
  refine (mem_join h).imp_right ?_
  rintro ⟨p, hp, hc⟩
  rw [← join_split hsep l]
  exact mem_join_of_mem hp hc

/-- a character no separator starts at is left where it is -/
theorem replace_cons {sep by_ l : List Char} (hsep : sep ≠ []) {c : Char} (h : startsWith sep (c :: l) = false) :
    replace sep by_ (c :: l) = c :: replace sep by_ l := by
  rw [replace, replace, split_cons hsep h]
  obtain ⟨first, rest, hsplit⟩ := List.exists_cons_of_ne_nil (split_ne_nil hsep l)
  rw [hsplit]
  cases rest <;> rfl

end OnePipeline.Text
