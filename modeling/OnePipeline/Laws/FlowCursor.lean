/-
A flow watch's cursors, printed and read back.

Results:
- `placeRun_eq_ok`, `placeLanding_eq_ok`: what one place of a token is read as;
- `folds_eq_ok`: what a half of a token is read as, each name at most once;
- `resume_cursorOf`: a cursor printed is read back as the places it was printed of;
- `spelled_of_resume`: a token read is of one of the two spellings, whatever the bytes' signs and leading zeros.
-/
import Mathlib.Tactic
import OnePipeline.Core.Maps
import OnePipeline.Model.FlowCursor

namespace OnePipeline.FlowWatch

open Checks

/-! ## Bytes -/

theorem parseU64_eq_some {l : List Char} {n : ℕ} : parseU64 l = some n ↔ Decimal.parse l = some n ∧ n < 2 ^ 64 := by
  rw [parseU64, Option.filter_eq_some_iff, decide_eq_true_eq]

theorem parseU64_digits {n : ℕ} (h : n < 2 ^ 64) : parseU64 (digits n) = some n :=
  parseU64_eq_some.mpr ⟨Decimal.parse_toDigits n, h⟩

/-- a byte's text is digits, and a sign -/
theorem mem_of_parse {l : List Char} {n : ℕ} (h : parseU64 l = some n) {c : Char} (hc : c ∈ l) : c.isDigit = true ∨ c = '+' := by
  have hparse := (parseU64_eq_some.mp h).1
  rw [Decimal.parse] at hparse
  simp only [Option.ite_none_right_eq_some] at hparse
  obtain ⟨⟨-, hall⟩, -⟩ := hparse
  split_ifs at hall with hplus
  · obtain ⟨a, l, rfl⟩ := List.exists_cons_of_ne_nil (List.ne_nil_of_mem hc)
    obtain rfl : a = '+' := by simpa using hplus
    rcases List.mem_cons.mp hc with rfl | hc
    · exact .inr rfl
    · exact .inl (List.all_eq_true.mp hall c hc)
  · exact .inl (List.all_eq_true.mp hall c hc)

theorem not_mem_of_parse {l : List Char} {n : ℕ} (h : parseU64 l = some n) {c : Char} (hc : c ∈ ['/', ':', '@']) : c ∉ l := by
  intro hin
  have hchar := mem_of_parse h hin
  revert hchar
  simp only [List.mem_cons, List.not_mem_nil, or_false] at hc
  rcases hc with rfl | rfl | rfl <;> decide

/-! ## Journals -/

/-- a journal's start, or the end of one of its finished records -/
def Ends (journal : Journal) (place : ℕ) : Prop := place = 0 ∨ (0 < place ∧ journal.endsARecord place = true)

theorem endsARecord_le {journal : Journal} {place : ℕ} (hpos : 0 < place) (h : journal.endsARecord place = true) :
    place ≤ journal.bytes.length := by
  rw [Journal.endsARecord, decide_eq_true_eq] at h
  obtain ⟨hlt, -⟩ := List.getElem?_eq_some_iff.mp h
  omega

/-- the end of a finished record is no later than the last one's -/
theorem le_endOf {journal : Journal} {place : ℕ} (hpos : 0 < place) (h : journal.endsARecord place = true) :
    place ≤ journal.endOf := by
  have hle := endsARecord_le hpos h
  rw [Journal.endsARecord, decide_eq_true_eq] at h
  generalize hbytes : journal.bytes = bytes at h hle
  have hat : bytes.reverse[bytes.length - place]? = some newline := by
    rw [List.getElem?_reverse (by omega)]
    rw [show bytes.length - 1 - (bytes.length - place) = place - 1 by omega]
    exact h
  have hshort : (bytes.reverse.takeWhile fun b => b ≠ newline).length ≤ bytes.length - place := by
    by_contra hlong
    push Not at hlong
    have hne := List.all_eq_true.mp List.all_takeWhile _ (List.getElem_mem hlong)
    have hprefix : (bytes.reverse.takeWhile fun b => b ≠ newline) <+: bytes.reverse := List.takeWhile_prefix _
    have hsome := List.getElem?_eq_getElem (hlong.trans_le hprefix.length_le)
    rw [hat, Option.some.injEq, ← hprefix.getElem hlong] at hsome
    rw [← hsome] at hne
    simp at hne
  rw [Journal.endOf, hbytes]
  omega

theorem onARecordBoundary_iff {journal : Journal} {place : ℕ} : journal.onARecordBoundary place = true ↔ Ends journal place := by
  rw [Journal.onARecordBoundary, Ends]
  by_cases hzero : place = 0
  · simp [hzero]
  · have hpos : 0 < place := Nat.pos_of_ne_zero hzero
    rw [if_neg hzero]
    constructor
    · intro h
      split_ifs at h
      exact .inr ⟨hpos, h⟩
    · rintro (h | ⟨-, h⟩)
      · exact absurd h hzero
      · rw [if_neg (not_lt.mpr (le_endOf hpos h))]
        exact h

/-! ## Places -/

/-- a run cursor's token, read -/
theorem parseCursor_eq_ok {run : String} {byte : List Char} {cursor : Cursor} :
    parseCursor (String.ofList (watchCursorVersion.toList ++ ':' :: run.toList ++ ':' :: byte)) = .ok cursor ↔
      ∃ name rest place, Text.rsplitOnce ':' (run.toList ++ ':' :: byte) = some (name, rest) ∧ name ≠ [] ∧
        parseU64 rest = some place ∧ cursor = ⟨String.ofList name, place⟩ := by
  have hfirst : Text.splitOnce [':'] (watchCursorVersion.toList ++ ':' :: run.toList ++ ':' :: byte) =
      some (watchCursorVersion.toList, run.toList ++ ':' :: byte) := by
    rw [List.append_assoc, List.cons_append]
    exact Text.splitOnce_append (by decide) _
  simp only [parseCursor, String.toList_ofList, hfirst, bind_eq_ok, need_eq_ok, refuseIf_eq_ok, pure_eq_ok,
    Option.some.injEq, exists_unit, exists_eq_left']
  constructor
  · rintro ⟨-, ⟨name, rest⟩, hsplit, hname, place, hplace, rfl⟩
    exact ⟨name, rest, place, hsplit, hname, hplace, rfl⟩
  · rintro ⟨name, rest, place, hsplit, hname, hplace, rfl⟩
    exact ⟨by simp, ⟨name, rest⟩, hsplit, hname, place, hplace, rfl⟩

/-- a run cursor read from a place of a flow's -/
theorem resolveCursor_eq_ok {run : String} {journal : Journal} {byte : List Char} {cursor : Cursor} :
    resolveCursor run journal (String.ofList (watchCursorVersion.toList ++ ':' :: run.toList ++ ':' :: byte)) = .ok cursor ↔
      run ≠ "" ∧ (∀ why, journal ≠ .unreadable why) ∧ ∃ place, parseU64 byte = some place ∧ Ends journal place ∧
        cursor = ⟨run, place⟩ := by
  simp only [resolveCursor, bind_eq_ok, mapError_eq_ok, refuseIf_eq_ok, pure_eq_ok, exists_unit, parseCursor_eq_ok]
  constructor
  · rintro ⟨cursor', ⟨name, rest, place, hsplit, hname, hplace, rfl⟩, hrun, held, hheld, hle, hends, rfl⟩
    have hname' : String.ofList name = run := not_not.mp hrun
    obtain rfl : name = run.toList := by rw [← hname', String.toList_ofList]
    have hrest := Text.rsplitOnce_eq_some hsplit
    obtain rfl : byte = rest := by simpa using hrest
    refine ⟨fun hempty => hname (by rw [hempty]; rfl), fun why hjournal => ?_, place, hplace, ?_, by rw [hname']⟩
    · rw [hjournal] at hheld
      cases hheld
    · rcases Nat.eq_zero_or_pos place with hzero | hpos
      · exact .inl hzero
      · exact .inr ⟨hpos, by simpa [hpos] using hends⟩
  · rintro ⟨hrun, hread, place, hplace, hends, rfl⟩
    have hcolon : ':' ∉ byte := not_mem_of_parse hplace (by simp)
    obtain ⟨held, hheld, hle⟩ : ∃ held, journal.length = .ok held ∧ place ≤ held := by
      cases journal with
      | missing =>
        refine ⟨0, rfl, ?_⟩
        rcases hends with rfl | ⟨-, hends⟩
        · exact le_refl 0
        · cases hends
      | unreadable why => exact absurd rfl (hread why)
      | held bytes =>
        refine ⟨bytes.length, rfl, ?_⟩
        rcases hends with rfl | ⟨hpos, hends⟩
        · exact Nat.zero_le _
        · exact endsARecord_le hpos hends
    refine ⟨⟨run, place⟩, ⟨run.toList, byte, place, Text.rsplitOnce_append hcolon, ?_, hplace, by simp⟩, by simp, held,
      hheld, not_lt.mpr hle, ?_, rfl⟩
    · exact fun h => hrun (String.toList_inj.mp h)
    · rintro ⟨hpos, hnot⟩
      rcases hends with hzero | ⟨-, hends⟩
      · exact absurd hzero (Nat.pos_iff_ne_zero.mp hpos)
      · rw [hends] at hnot
        cases hnot

/-- a name that holds no separator of a token's places, and text that reads as a byte -/
theorem rsplitOnce_spelled {name : String} {byte : List Char} {place : ℕ} (h : parseU64 byte = some place) :
    Text.rsplitOnce '@' (spelled name byte) = some (name.toList, byte) :=
  Text.rsplitOnce_append (not_mem_of_parse h (by simp))

section

variable {flow : Flow} {token : String} {piece : List Char}

/-- a run a place of a token may name, and what the place is read as -/
def ReadsRun (flow : Flow) (members : List String) (run : String) (byte : List Char) (cursor : Cursor) : Prop :=
  run ∈ members ∧ run ≠ "" ∧ (∀ why, flow.runJournal run ≠ .unreadable why) ∧
    ∃ place, parseU64 byte = some place ∧ Ends (flow.runJournal run) place ∧ cursor = ⟨run, place⟩

/-- a landing a place of a token may name, and what the place is read as -/
def ReadsLanding (flow : Flow) (landings : List String) (landing : String) (byte : List Char) (place : ℕ) : Prop :=
  landing ∈ landings ∧ parseU64 byte = some place ∧ Ends (flow.landingJournal landing) place

theorem placeRun_eq_ok {members : List String} {known known' : StrMap Cursor} :
    placeRun flow token members known piece = .ok known' ↔ ∃ run byte cursor, piece = spelled run byte ∧
      ReadsRun flow members run byte cursor ∧ run ∉ known ∧ known' = known.insert run cursor := by
  simp only [placeRun, bind_eq_ok, need_eq_ok, refuseIf_eq_ok, pure_eq_ok, exists_unit, not_not]
  constructor
  · rintro ⟨⟨name, byte⟩, hsplit, hmember, cursor, hcursor, hnew, rfl⟩
    rw [resolveCursor_eq_ok] at hcursor
    refine ⟨String.ofList name, byte, cursor, ?_, ⟨hmember, hcursor⟩, hnew, rfl⟩
    rw [spelled, String.toList_ofList, Text.rsplitOnce_eq_some hsplit]
  · rintro ⟨run, byte, cursor, rfl, ⟨hmember, hcursor⟩, hnew, rfl⟩
    obtain ⟨-, -, place, hplace, -⟩ := id hcursor
    refine ⟨(run.toList, byte), rsplitOnce_spelled hplace, ?_⟩
    rw [String.ofList_toList]
    exact ⟨hmember, cursor, resolveCursor_eq_ok.mpr hcursor, hnew, rfl⟩

theorem placeLanding_eq_ok {landings : List String} {known known' : StrMap ℕ} :
    placeLanding flow token landings known piece = .ok known' ↔ ∃ landing byte place, piece = spelled landing byte ∧
      ReadsLanding flow landings landing byte place ∧ landing ∉ known ∧ known' = known.insert landing place := by
  simp only [placeLanding, bind_eq_ok, need_eq_ok, refuseIf_eq_ok, pure_eq_ok, exists_unit, not_not, Bool.not_eq_false,
    onARecordBoundary_iff]
  constructor
  · rintro ⟨⟨name, byte⟩, hsplit, hmember, place, hplace, hends, hnew, rfl⟩
    refine ⟨String.ofList name, byte, place, ?_, ⟨hmember, hplace, hends⟩, hnew, rfl⟩
    rw [spelled, String.toList_ofList, Text.rsplitOnce_eq_some hsplit]
  · rintro ⟨landing, byte, place, rfl, ⟨hmember, hplace, hends⟩, hnew, rfl⟩
    refine ⟨(landing.toList, byte), rsplitOnce_spelled hplace, ?_⟩
    rw [String.ofList_toList]
    exact ⟨hmember, place, hplace, hends, hnew, rfl⟩

end

/-! ## The halves of a token -/

section

variable {ν : Type} {step : StrMap ν → List Char → Except String (StrMap ν)} {reads : String → List Char → ν → Prop}

/-- a place of a token: the name, the byte's text, and what the place is read as -/
structure Place (ν : Type) where
  name : String
  byte : List Char
  value : ν

def Place.text (p : Place ν) : List Char := spelled p.name p.byte

/-- a half of a token is read place by place, each name at most once -/
theorem folds_eq_ok (hstep : ∀ m piece m', step m piece = .ok m' ↔ ∃ name byte value, piece = spelled name byte ∧
      reads name byte value ∧ name ∉ m ∧ m' = m.insert name value) {pieces : List (List Char)} {m m' : StrMap ν} :
    pieces.foldlM step m = .ok m' ↔ ∃ l : List (Place ν), pieces = l.map Place.text ∧
      (∀ p ∈ l, reads p.name p.byte p.value ∧ p.name ∉ m) ∧ (l.map Place.name).Nodup ∧
      m' = Maps.insertAll m (l.map fun p => (p.name, p.value)) := by
  induction pieces generalizing m with
  | nil =>
    constructor
    · intro h
      obtain rfl := Except.ok.inj h
      exact ⟨[], rfl, fun p hp => (by cases hp), List.nodup_nil, rfl⟩
    · rintro ⟨l, hl, -, -, rfl⟩
      rw [List.map_eq_nil_iff.mp hl.symm]
      rfl
  | cons piece pieces ih =>
    rw [List.foldlM_cons, bind_eq_ok]
    constructor
    · rintro ⟨m₁, hfirst, hrest⟩
      obtain ⟨name, byte, value, rfl, hreads, hnew, rfl⟩ := (hstep _ _ _).mp hfirst
      obtain ⟨l, rfl, hall, hnodup, rfl⟩ := ih.mp hrest
      have hapart (p : Place ν) (hp : p ∈ l) : name ≠ p.name ∧ p.name ∉ m := by
        have hnot := (hall p hp).2
        rw [Std.ExtTreeMap.mem_insert, Std.LawfulEqCmp.compare_eq_iff_eq, not_or] at hnot
        exact hnot
      refine ⟨⟨name, byte, value⟩ :: l, rfl, fun p hp => ?_, ?_, rfl⟩
      · rcases List.mem_cons.mp hp with rfl | hp
        · exact ⟨hreads, hnew⟩
        · exact ⟨(hall p hp).1, (hapart p hp).2⟩
      · refine List.nodup_cons.mpr ⟨fun hin => ?_, hnodup⟩
        obtain ⟨p, hp, heq⟩ := List.mem_map.mp hin
        exact (hapart p hp).1 heq.symm
    · rintro ⟨l, hl, hall, hnodup, rfl⟩
      cases l with
      | nil => cases hl
      | cons p l =>
        obtain ⟨rfl, rfl⟩ := List.cons.inj hl
        obtain ⟨hreads, hnew⟩ := hall p List.mem_cons_self
        obtain ⟨hnot, hrest⟩ := List.nodup_cons.mp hnodup
        refine ⟨m.insert p.name p.value, (hstep _ _ _).mpr ⟨_, _, _, rfl, hreads, hnew, rfl⟩, ih.mpr ⟨l, rfl, fun q hq => ?_,
          hrest, rfl⟩⟩
        refine ⟨(hall q (List.mem_cons_of_mem _ hq)).1, fun hin => ?_⟩
        rw [Std.ExtTreeMap.mem_insert, Std.LawfulEqCmp.compare_eq_iff_eq] at hin
        rcases hin with heq | hin
        · exact hnot (heq ▸ List.mem_map_of_mem hq)
        · exact (hall q (List.mem_cons_of_mem _ hq)).2 hin

end

/-- the pieces of a half, joined -/
theorem join_pieces (places : List Char) : Text.join ['/'] (pieces places) = places := by
  unfold pieces
  split_ifs with hnil
  · exact hnil.symm
  · exact Text.join_split (List.cons_ne_nil _ _) places

/-- pieces joined, and cut again -/
theorem pieces_join {l : List (List Char)} (h : ∀ p ∈ l, p ≠ [] ∧ '/' ∉ p) : pieces (Text.join ['/'] l) = l := by
  cases l with
  | nil => rfl
  | cons p l =>
    have hne : Text.join ['/'] (p :: l) ≠ [] := by
      have hp := (h p List.mem_cons_self).1
      cases l with
      | nil => exact hp
      | cons q l =>
        rw [Text.join_cons (List.cons_ne_nil q l)]
        simp
    rw [pieces, if_neg hne]
    exact Text.split_join (List.cons_ne_nil p l) fun q hq => (h q hq).2

/-! ## A token read -/

/-- a token of this build's spelling -/
def spelledPlaced (flow : String) (landings : List (Place ℕ)) (runs : List (Place Cursor)) : List Char :=
  opening landingCursorVersion ++ (flow.toList ++ ':' :: (Text.join ['/'] (landings.map Place.text) ++
    ':' :: Text.join ['/'] (runs.map Place.text)))

/-- a token of the spelling before landings -/
def spelledLegacy (flow : String) (runs : List (Place Cursor)) : List Char :=
  opening watchCursorVersion ++ (flow.toList ++ ':' :: Text.join ['/'] (runs.map Place.text))

/-- what a token is read as, place by place: each run and each landing at most once -/
structure Read (flow : Flow) (landings : List (Place ℕ)) (runs : List (Place Cursor)) (known : Known) : Prop where
  members : ∃ members, flow.members = .ok members ∧ ∀ p ∈ runs, ReadsRun flow members p.name p.byte p.value
  registered : ∃ registered, flow.landings = .ok registered ∧ ∀ p ∈ landings, ReadsLanding flow registered p.name p.byte p.value
  runsOnce : (runs.map Place.name).Nodup
  landingsOnce : (landings.map Place.name).Nodup
  runs : known.runs = Maps.insertAll ∅ (runs.map fun p => (p.name, p.value))

/-- the ways a token is spelled that is read as some places -/
inductive Spelled (flow : Flow) (token : String) (known : Known) : Prop
  | placed (landings : List (Place ℕ)) (runs : List (Place Cursor)) (is : token.toList = spelledPlaced flow.id landings runs)
      (read : Read flow landings runs known)
      (places : known.landings = Maps.insertAll ∅ (landings.map fun p => (p.name, p.value)))
      (unnamed : known.unnamed = .fromStart)
  | legacy (runs : List (Place Cursor)) (is : token.toList = spelledLegacy flow.id runs) (read : Read flow [] runs known)
      (unnamed : known.unnamed = .fromEnd)

section

variable {flow : Flow} {token : String} {known : Known}

theorem versioned_eq_ok {rest : List Char} {placed : Bool} (h : versioned token = .ok (rest, placed)) :
    token.toList = opening (if placed then landingCursorVersion else watchCursorVersion) ++ rest := by
  unfold versioned at h
  cases hplaced : Text.stripPrefix (opening landingCursorVersion) token.toList with
  | some rest' =>
    rw [hplaced] at h
    cases h
    exact Text.stripPrefix_eq_some hplaced
  | none =>
    rw [hplaced] at h
    simp only [map_eq_ok, need_eq_ok, Prod.mk.injEq] at h
    obtain ⟨rest', hlegacy, rfl, rfl⟩ := h
    exact Text.stripPrefix_eq_some hlegacy

theorem pieces_eq_map {ν : Type} {places : List Char} {l : List (Place ν)} (h : pieces places = l.map Place.text) :
    places = Text.join ['/'] (l.map Place.text) := by
  rw [← h, join_pieces]

/-- **A token read.** It is of one of the two spellings. -/
theorem spelled_of_resume (h : resume flow token = .ok known) : Spelled flow token known := by
  simp only [resume, bind_eq_ok, need_eq_ok, refuseIf_eq_ok, pure_eq_ok, exists_unit, not_not, mapError_eq_ok] at h
  obtain ⟨⟨rest, placed⟩, hversion, ⟨named, rest'⟩, hnamed, ⟨landingPlaces, places⟩, hhalves, rfl, members, hmembers, runs, hruns,
    registered, hregistered, placedLandings, hlandings, rfl⟩ := h
  have htoken := versioned_eq_ok hversion
  have hrest : rest = flow.id.toList ++ [':'] ++ rest' := Text.splitOnce_eq_some hnamed
  obtain ⟨runPlaces, hrunPieces, hreadRuns, hrunsOnce, hrunsAre⟩ := (folds_eq_ok fun _ _ _ => placeRun_eq_ok).mp hruns
  obtain ⟨landingL, hlandingPieces, hreadLandings, hlandingsOnce, hlandingsAre⟩ :=
    (folds_eq_ok fun _ _ _ => placeLanding_eq_ok).mp hlandings
  have hread (known : Known) (hknown : known.runs = runs) : Read flow landingL runPlaces known :=
    { members := ⟨members, hmembers, fun p hp => (hreadRuns p hp).1⟩
      registered := ⟨registered, hregistered, fun p hp => (hreadLandings p hp).1⟩
      runsOnce := hrunsOnce
      landingsOnce := hlandingsOnce
      runs := hknown.trans hrunsAre }
  cases placed with
  | true =>
    simp only [halves, if_true, need_eq_ok] at hhalves
    have hcut : rest' = landingPlaces ++ [':'] ++ places := Text.splitOnce_eq_some hhalves
    have hfirst : landingPlaces = _ := pieces_eq_map hlandingPieces
    have hsecond : places = _ := pieces_eq_map hrunPieces
    refine .placed landingL runPlaces ?_ (hread _ rfl) hlandingsAre rfl
    rw [htoken, hrest, hcut, hfirst, hsecond, spelledPlaced]
    simp
  | false =>
    simp only [halves, Bool.false_eq_true, if_false, pure_eq_ok, Prod.mk.injEq] at hhalves
    obtain ⟨rfl, rfl⟩ := hhalves
    have hnone : landingL = [] := List.map_eq_nil_iff.mp hlandingPieces.symm
    subst hnone
    have hplaces : rest' = _ := pieces_eq_map hrunPieces
    refine .legacy runPlaces ?_ (hread _ rfl) rfl
    rw [htoken, hrest, hplaces, spelledLegacy]
    simp

/-! ## A cursor printed -/

/-- a character outside the alphabet of flow ids is in none -/
theorem not_mem_of_isValidFlowId {id : String} (h : isValidFlowId id = true) {c : Char} (hc : c ∈ ['/', ':', '@']) :
    c ∉ id.toList := by
  intro hin
  rw [isValidFlowId, Bool.and_eq_true] at h
  have hchar := List.all_eq_true.mp h.2 c hin
  revert hchar
  simp only [List.mem_cons, List.not_mem_nil, or_false] at hc
  rcases hc with rfl | rfl | rfl <;> decide

theorem not_mem_join {c : Char} (hc : c ≠ '/') {l : List (List Char)} (h : ∀ p ∈ l, c ∉ p) : c ∉ Text.join ['/'] l := by
  induction l with
  | nil => exact List.not_mem_nil
  | cons p l ih =>
    by_cases hnil : l = []
    · subst hnil
      exact h p List.mem_cons_self
    · rw [Text.join_cons hnil, List.mem_append, List.mem_append, List.mem_singleton, not_or, not_or]
      exact ⟨⟨h p List.mem_cons_self, hc⟩, ih fun q hq => h q (List.mem_cons_of_mem _ hq)⟩

/-- places a flow's watch may know: members and landings of the flow, each at its journal's start or at the end of a
finished record of it -/
structure Places (flow : Flow) (known : Known) : Prop where
  id : isValidFlowId flow.id = true
  members : ∃ members, flow.members = .ok members ∧ ∀ run : String, run ∈ known.runs → run ∈ members
  registered : ∃ registered, flow.landings = .ok registered ∧ ∀ landing : String, landing ∈ known.landings → landing ∈ registered
  run : ∀ (run : String) (cursor : Cursor), known.runs[run]? = some cursor → run ≠ "" ∧ '/' ∉ run.toList ∧
    (∀ why, flow.runJournal run ≠ .unreadable why) ∧ cursor.run = run ∧ cursor.place < 2 ^ 64 ∧
    Ends (flow.runJournal run) cursor.place
  landing : ∀ (landing : String) (place : ℕ), known.landings[landing]? = some place → isValidFlowId landing = true ∧
    place < 2 ^ 64 ∧ Ends (flow.landingJournal landing) place

/-- the places of a map, as a cursor spells them -/
def placesOf {ν : Type} (place : ν → ℕ) (m : StrMap ν) : List (Place ν) := m.toList.map fun p => ⟨p.1, digits (place p.2), p.2⟩

theorem placesOf_spec {ν : Type} (place : ν → ℕ) (m : StrMap ν) :
    ((placesOf place m).map Place.name).Nodup ∧ m = Maps.insertAll ∅ ((placesOf place m).map fun p => (p.name, p.value)) ∧
      ∀ p ∈ placesOf place m, m[p.name]? = some p.value ∧ p.byte = digits (place p.value) := by
  refine ⟨?_, ?_, fun p hp => ?_⟩
  · rw [placesOf, List.map_map]
    exact List.pairwise_map.mpr (Std.ExtTreeMap.distinct_keys_toList.imp fun hne heq =>
      hne (Std.LawfulEqCmp.compare_eq_iff_eq.mpr heq))
  · have hlist : (placesOf place m).map (fun p => (p.name, p.value)) = m.toList := by
      rw [placesOf, List.map_map]
      exact List.map_id _
    refine Std.ExtTreeMap.ext_getElem? fun k => ?_
    rw [hlist, Maps.get_insertAll]
    simp
  · obtain ⟨q, hq, rfl⟩ := List.mem_map.mp hp
    exact ⟨Std.ExtTreeMap.mem_toList_iff_getElem?_eq_some.mp hq, rfl⟩

theorem cursorOf_toList : (cursorOf flow.id known).toList =
    spelledPlaced flow.id (placesOf (fun place => place) known.landings) (placesOf Cursor.place known.runs) := by
  rw [cursorOf, String.toList_ofList, spelledPlaced, placesOf, placesOf, List.map_map, List.map_map]
  simp only [List.append_assoc, List.cons_append]
  rfl

/-- **A cursor printed and read back.** -/
theorem resume_cursorOf (h : Places flow known) :
    resume flow (cursorOf flow.id known) = .ok { known with unnamed := .fromStart } := by
  obtain ⟨members, hmembers, hmember⟩ := h.members
  obtain ⟨registered, hregistered, hlanding⟩ := h.registered
  obtain ⟨hrunsOnce, hruns, hrunPlaces⟩ := placesOf_spec Cursor.place known.runs
  obtain ⟨hlandingsOnce, hlandings, hlandingPlaces⟩ := placesOf_spec (fun place : ℕ => place) known.landings
  have htoken : (cursorOf flow.id known).toList = _ := cursorOf_toList
  generalize placesOf Cursor.place known.runs = runs at *
  generalize placesOf (fun place : ℕ => place) known.landings = landings at *
  have hrun (p : Place Cursor) (hp : p ∈ runs) : ReadsRun flow members p.name p.byte p.value ∧ '/' ∉ p.text := by
    obtain ⟨hat, hbyte⟩ := hrunPlaces p hp
    obtain ⟨hname, hslash, hread, hown, hlt, hends⟩ := h.run p.name p.value hat
    have hplace : parseU64 p.byte = some p.value.place := by rw [hbyte, parseU64_digits hlt]
    refine ⟨⟨hmember _ (Maps.mem_iff.mpr ⟨_, hat⟩), hname, hread, p.value.place, hplace, hends, by rw [← hown]⟩, ?_⟩
    rw [Place.text, spelled, List.mem_append, List.mem_cons, not_or, not_or]
    exact ⟨hslash, by decide, not_mem_of_parse hplace (by simp)⟩
  have hland (p : Place ℕ) (hp : p ∈ landings) :
      ReadsLanding flow registered p.name p.byte p.value ∧ '/' ∉ p.text ∧ ':' ∉ p.text := by
    obtain ⟨hat, hbyte⟩ := hlandingPlaces p hp
    obtain ⟨hid, hlt, hends⟩ := h.landing p.name p.value hat
    have hplace : parseU64 p.byte = some p.value := by rw [hbyte, parseU64_digits hlt]
    have hnot (c : Char) (hc : c ∈ ['/', ':']) : c ∉ p.text := by
      have hin : c ∈ ['/', ':', '@'] := List.mem_of_mem_dropLast (l := ['/', ':', '@']) hc
      have hat : c ≠ '@' := by
        rintro rfl
        revert hc
        decide
      rw [Place.text, spelled, List.mem_append, List.mem_cons, not_or, not_or]
      exact ⟨not_mem_of_isValidFlowId hid hin, hat, not_mem_of_parse hplace hin⟩
    exact ⟨⟨hlanding _ (Maps.mem_iff.mpr ⟨_, hat⟩), hplace, hends⟩, hnot '/' (by simp), hnot ':' (by simp)⟩
  have htext {ν : Type} (p : Place ν) : p.text ≠ [] := by simp [Place.text, spelled]
  -- each half is cut back into the places it was joined of
  have hrunPieces : pieces (Text.join ['/'] (runs.map Place.text)) = runs.map Place.text := by
    refine pieces_join fun t ht => ?_
    obtain ⟨p, hp, rfl⟩ := List.mem_map.mp ht
    exact ⟨htext p, (hrun p hp).2⟩
  have hlandingPieces : pieces (Text.join ['/'] (landings.map Place.text)) = landings.map Place.text := by
    refine pieces_join fun t ht => ?_
    obtain ⟨p, hp, rfl⟩ := List.mem_map.mp ht
    exact ⟨htext p, (hland p hp).2.1⟩
  have hcolon : ':' ∉ Text.join ['/'] (landings.map Place.text) := by
    refine not_mem_join (by decide) fun t ht => ?_
    obtain ⟨p, hp, rfl⟩ := List.mem_map.mp ht
    exact (hland p hp).2.2
  have hhalves (after : List Char) : halves (cursorOf flow.id known) true
      (Text.join ['/'] (landings.map Place.text) ++ ':' :: after) = .ok (Text.join ['/'] (landings.map Place.text), after) := by
    rw [halves, if_pos rfl]
    exact need_eq_ok.mpr (Text.splitOnce_append hcolon after)
  simp only [resume, bind_eq_ok, need_eq_ok, refuseIf_eq_ok, pure_eq_ok, exists_unit, not_not, mapError_eq_ok]
  refine ⟨(_, true), ?_, (flow.id.toList, _), Text.splitOnce_append (not_mem_of_isValidFlowId h.id (by simp)) _,
    (_, _), hhalves (Text.join ['/'] (runs.map Place.text)), rfl, members, hmembers, known.runs, ?_, registered, hregistered, known.landings, ?_, ?_⟩
  · rw [versioned, htoken, spelledPlaced, Text.stripPrefix_append]
    rfl
  · refine (folds_eq_ok fun _ _ _ => placeRun_eq_ok).mpr ⟨runs, hrunPieces, fun p hp => ⟨(hrun p hp).1, by simp⟩, hrunsOnce, hruns⟩
  · refine (folds_eq_ok fun _ _ _ => placeLanding_eq_ok).mpr
      ⟨landings, hlandingPieces, fun p hp => ⟨(hland p hp).1, by simp⟩, hlandingsOnce, hlandings⟩
  · rfl

end

/-- a flow of one run and no landing, nothing of which is written yet -/
def newFlow : Flow :=
  { id := "plan", members := .ok ["draft"], landings := .ok [], runJournal := fun _ => .missing, landingJournal := fun _ => .missing }

/-- what the flow's watch knows when it starts -/
def newKnown : Known := { runs := (∅ : StrMap Cursor).insert "draft" ⟨"draft", 0⟩ }

theorem newFlow_places : Places newFlow newKnown := by
  have honly {run : String} {cursor : Cursor} (h : newKnown.runs[run]? = some cursor) : run = "draft" ∧ cursor = ⟨"draft", 0⟩ := by
    rw [newKnown, Maps.get_insert] at h
    split_ifs at h with hrun
    · exact ⟨hrun, (Option.some.inj h).symm⟩
    · simp at h
  refine ⟨by decide, ⟨["draft"], rfl, fun run hrun => ?_⟩, ⟨[], rfl, fun landing h => ?_⟩, fun run cursor h => ?_, fun landing place h => ?_⟩
  · obtain ⟨cursor, h⟩ := Maps.mem_iff.mp hrun
    simp [(honly h).1]
  · simp [newKnown] at h
  · obtain ⟨rfl, rfl⟩ := honly h
    exact ⟨by decide, by decide, fun why h => (by cases h), rfl, by decide, .inl rfl⟩
  · simp [newKnown] at h

/-- text whose last byte is spelled as a cursor spells it -/
theorem spelled_last {l : List (String × ℕ)} (h : l ≠ []) :
    ∃ before n, Text.join ['/'] (l.map fun p => spelled p.1 (digits p.2)) = before ++ '@' :: digits n := by
  induction l with
  | nil => exact absurd rfl h
  | cons p l ih =>
    by_cases hnil : l = []
    · subst hnil
      exact ⟨p.1.toList, p.2, rfl⟩
    · obtain ⟨before, n, hbefore⟩ := ih hnil
      rw [List.map_cons, Text.join_cons (by simpa using hnil), hbefore]
      exact ⟨spelled p.1 (digits p.2) ++ ['/'] ++ before, n, by simp⟩

end OnePipeline.FlowWatch
