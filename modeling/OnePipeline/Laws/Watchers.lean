/-
What readers find of a run's watches, and what sweeps take away.

Results:
- `Kept`: whose each file is, what a walk has read, and where a lease may stand without terms;
- `kept_step`: one operation of a watch or of a reader, where no terms go from under a reader that judged their lease live;
- `live_read_with_terms`: over every run of such operations no sweep removes a file of a running process, every lease has
  its terms beside it or a running watch between the two removals, and a lease answered live is answered with its own terms;
- `live_read_without_terms`: a lease judged live whose watch returns before its terms are opened.
-/
import Mathlib.Tactic
import OnePipeline.Core.Runs
import OnePipeline.Model.Watchers

namespace OnePipeline.Watchers

open Runs

variable {W R : Type}

/-! ## What may happen -/

namespace State

/-- the record a walk judges next -/
def Walk.judges : Walk → Option (String × WatcherRecord)
  | .judging ((name, some record) :: _) => some (name, record)
  | _ => none

/-- the record a sweep judges next, the name whose terms it is to remove, and the one whose lease -/
def Phase.judges : Phase → Option (String × WatcherRecord)
  | .sweeping walk => Walk.judges walk
  | _ => none

def Phase.terms : Phase → Option String
  | .removingTerms name _ => some name
  | _ => none

def Phase.lease : Phase → Option String
  | .removingLease name _ => some name
  | _ => none

/-- the record a reader judges next, and the name of a lease it judged live and has the terms of to open -/
def Reader.judges : Reader → Option (String × WatcherRecord)
  | .walking walk _ => Walk.judges walk
  | _ => none

def Reader.opens : Reader → Option String
  | .opening name _ .live _ _ => some name
  | _ => none

/-- the events that may come: a dead process does nothing, a directory lists as it stands, and a process this host proves
gone is gone -/
def Allowed (desk : Desk W) (s : State W R) : Event W R → Prop
  | .arms w listing => s.phase w = .unborn ∧ listing.Perm s.watchers.keys
  | .acts w host => s.alive w = true ∧ ∀ judged ∈ Phase.judges (s.phase w),
      (standingOf host desk.run judged.2).provedGone = true →
        ∀ v, desk.record v = judged.2 → s.phase v ≠ .unborn → s.alive v = false
  | .drops w => s.alive w = true ∧ s.phase w = .armed
  | .dies w => s.alive w = true
  | .lists r listing => s.reader r = .idle ∧ listing.Perm s.watchers.keys
  | .reads _ _ => True

/-- whether a reader that judged the lease at a name live has its terms to open yet -/
def Opening (s : State W R) (name : String) : Prop := ∃ r, Reader.opens (s.reader r) = some name

/-- the events no live lease is read without its terms over: a lease is judged live while its terms stand, no terms go
while a reader that judged their lease live has them to open, and no watch dies between the two removals of a sweep -/
def Steady (desk : Desk W) (s : State W R) : Event W R → Prop
  | .acts w _ => (∀ name ∈ Phase.terms (s.phase w), ¬s.Opening name) ∧ (s.phase w = .dropping → ¬s.Opening (desk.name w))
  | .dies w => Phase.lease (s.phase w) = none
  | .reads r host => ∀ judged ∈ Reader.judges (s.reader r), standingOf host desk.run judged.2 = .live → judged.1 ∈ s.watchTerms
  | .arms _ _ | .drops _ | .lists _ _ => True

/-! ## What holds -/

/-- what the claim of a reader and of a sweep comes to -/
structure Sound (desk : Desk W) (s : State W R) : Prop where
  /-- a sweep removes files of a process that is not running -/
  swept : ∀ w name rest, s.phase w = .removingTerms name rest ∨ s.phase w = .removingLease name rest →
    ∀ v, name = desk.name v ∨ name = desk.temp v → s.alive v = false
  /-- a lease has its terms beside it, or a running watch is between the two removals of it -/
  beside : ∀ v, desk.name v ∈ s.watchers → desk.name v ∈ s.watchTerms ∨
    ∃ w rest, s.alive w = true ∧ s.phase w = .removingLease (desk.name v) rest
  /-- a lease answered live is answered with the terms its watch wrote -/
  answered : ∀ r answers, (s.reader r = .done answers ∨ (∃ walk, s.reader r = .walking walk answers) ∨
      ∃ name record standing rest, s.reader r = .opening name record standing rest answers) →
    ∀ answer ∈ answers, answer.standing = .live →
      ∃ v, answer.name = desk.name v ∧ answer.record = desk.record v ∧ answer.terms = .read (desk.terms v)

/-- whose a record under a name is -/
def Wrote (desk : Desk W) (s : State W R) (name : String) (record : WatcherRecord) : Prop :=
  ∃ v, (name = desk.name v ∨ name = desk.temp v) ∧ record = desk.record v ∧ s.phase v ≠ .unborn

/-- the entries a walk has read -/
def Walk.entries : Walk → List Read
  | .reading _ read => read
  | .judging todo => todo

/-- the entries a watch has yet to judge, or has judged -/
def Phase.entries : Phase → List Read
  | .sweeping walk => Walk.entries walk
  | .removingTerms _ rest | .removingLease _ rest => rest
  | _ => []

def Reader.entries : Reader → List Read
  | .walking walk _ => Walk.entries walk
  | .opening _ _ _ rest _ => rest
  | .idle | .done _ => []

def Reader.answers : Reader → List Answer
  | .walking _ answers | .opening _ _ _ _ answers | .done answers => answers
  | .idle => []

/-- whether a watch's terms are written, and its guard is not through taking them away -/
def Phase.placed : Phase → Bool
  | .staging | .filling | .publishing | .armed | .dropping => true
  | _ => false

/-- whether a watch's guard took its lease away -/
def Phase.left : Phase → Bool
  | .dropping | .returned => true
  | _ => false

structure Kept (desk : Desk W) (s : State W R) : Prop where
  files : ∀ name record, s.watchers[name]? = some (.written record) → s.Wrote desk name record
  terms : ∀ (name : String) terms, s.watchTerms[name]? = some terms → ∃ v, name = desk.name v ∧ terms = desk.terms v
  walked : ∀ w name record, (name, some record) ∈ Phase.entries (s.phase w) → s.Wrote desk name record
  read : ∀ r name record, (name, some record) ∈ Reader.entries (s.reader r) → s.Wrote desk name record
  gone : ∀ w name rest, s.phase w = .removingTerms name rest ∨ s.phase w = .removingLease name rest →
    ∀ v, name = desk.name v ∨ name = desk.temp v → s.phase v ≠ .unborn ∧ s.alive v = false
  placed : ∀ v, s.alive v = true → Phase.placed (s.phase v) = true → desk.name v ∈ s.watchTerms
  left : ∀ v, Phase.left (s.phase v) = true → desk.name v ∉ s.watchers
  beside : ∀ v, desk.name v ∈ s.watchers → desk.name v ∈ s.watchTerms ∨
    ∃ w rest, s.alive w = true ∧ s.phase w = .removingLease (desk.name v) rest
  opening : ∀ r name record rest answers, s.reader r = .opening name record .live rest answers →
    name ∈ s.watchTerms ∧ ∃ v, (name = desk.name v ∨ name = desk.temp v) ∧ record = desk.record v
  answered : ∀ r, ∀ answer ∈ Reader.answers (s.reader r), answer.standing = .live →
    ∃ v, answer.name = desk.name v ∧ answer.record = desk.record v ∧ answer.terms = .read (desk.terms v)

variable {desk : Desk W} {s : State W R}

theorem Kept.sound (h : s.Kept desk) : s.Sound desk where
  swept := fun w name rest hphase v hname => (h.gone w name rest hphase v hname).2
  beside := h.beside
  answered := fun r answers hreader answer hin hlive => by
    refine h.answered r answer ?_ hlive
    rcases hreader with hdone | ⟨walk, hwalking⟩ | ⟨name, record, standing, rest, hopening⟩
    · rw [hdone]
      exact hin
    · rw [hwalking]
      exact hin
    · rw [hopening]
      exact hin

theorem kept_start : ({} : State W R).Kept desk where
  files := fun name record h => by
    rw [Std.ExtTreeMap.getElem?_empty] at h
    cases h
  terms := fun name terms h => by
    rw [Std.ExtTreeMap.getElem?_empty] at h
    cases h
  walked := fun _ _ _ h => (List.not_mem_nil h).elim
  read := fun _ _ _ h => (List.not_mem_nil h).elim
  gone := fun _ _ _ h => by rcases h with h | h <;> cases h
  placed := fun _ h => by cases h
  left := fun _ h => by cases h
  beside := fun _ h => absurd h Std.ExtTreeMap.not_mem_empty
  opening := fun _ _ _ _ _ h => by cases h
  answered := fun _ _ h => (List.not_mem_nil h).elim

/-! ## One operation -/

theorem walk_entries_read {walk : Walk} {watchers : StrMap Content} {name : String} {record : WatcherRecord}
    (h : (name, some record) ∈ Walk.entries (walk.read watchers)) :
    (name, some record) ∈ Walk.entries walk ∨ watchers[name]? = some (.written record) := by
  match walk with
  | .judging todo => exact .inl h
  | .reading [] read => exact .inl ((List.mem_insertionSort _).mp h)
  | .reading (first :: todo) read =>
    rcases List.mem_append.mp h with hold | hnew
    · exact .inl hold
    · obtain ⟨rfl, hread⟩ := Prod.mk.inj (List.mem_singleton.mp hnew)
      refine .inr ?_
      rw [recordAt] at hread
      split at hread
      · rename_i hget
        rw [hget, Option.some.inj hread]
      · cases hread

theorem owner_unique {name : String} {v w : W} (hv : name = desk.name v ∨ name = desk.temp v)
    (hw : name = desk.name w ∨ name = desk.temp w) : v = w := by
  rcases hv with hv | hv <;> rcases hw with hw | hw
  · exact desk.names v w (hv.symm.trans hw)
  · exact absurd (hv.symm.trans hw) (desk.apart v w)
  · exact absurd (hw.symm.trans hv) (desk.apart w v)
  · exact desk.temps v w (hv.symm.trans hw)

variable [DecidableEq W]

/-- what a watch's operation may do to the directories, and where it may leave the watch -/
structure Moves (desk : Desk W) (s : State W R) (w : W) (φ : Phase) (watchers : StrMap Content) (watchTerms : StrMap WatchTerms) :
    Prop where
  born : φ ≠ .unborn
  files : ∀ name record, watchers[name]? = some (.written record) →
    s.watchers[name]? = some (.written record) ∨ ((name = desk.name w ∨ name = desk.temp w) ∧ record = desk.record w)
  terms : ∀ (name : String) terms, watchTerms[name]? = some terms →
    s.watchTerms[name]? = some terms ∨ (name = desk.name w ∧ terms = desk.terms w)
  entries : ∀ name record, (name, some record) ∈ Phase.entries φ → s.Wrote desk name record
  gone : ∀ name rest, φ = .removingTerms name rest ∨ φ = .removingLease name rest →
    ∀ v, name = desk.name v ∨ name = desk.temp v → s.phase v ≠ .unborn ∧ s.alive v = false
  placed : s.alive w = true → Phase.placed φ = true → desk.name w ∈ watchTerms
  others : ∀ v, v ≠ w → s.alive v = true → desk.name v ∈ s.watchTerms → desk.name v ∈ watchTerms
  left : Phase.left φ = true → desk.name w ∉ watchers
  leases : ∀ v, v ≠ w → desk.name v ∈ watchers → desk.name v ∈ s.watchers
  beside : ∀ v, desk.name v ∈ watchers → desk.name v ∈ watchTerms ∨
    ∃ u rest, s.alive u = true ∧ Function.update s.phase w φ u = .removingLease (desk.name v) rest
  opening : ∀ name, s.Opening name → name ∈ s.watchTerms → name ∈ watchTerms

theorem Kept.moved (h : s.Kept desk) {w : W} {φ : Phase} {watchers : StrMap Content} {watchTerms : StrMap WatchTerms}
    (hm : s.Moves desk w φ watchers watchTerms) : ({ s with watchers, watchTerms }.setPhase w φ).Kept desk := by
  have hborn {v : W} (hv : s.phase v ≠ .unborn) : Function.update s.phase w φ v ≠ .unborn := by
    by_cases hvw : v = w
    · rw [hvw, Function.update_self]
      exact hm.born
    · rw [Function.update_of_ne hvw]
      exact hv
  have hself : Function.update s.phase w φ w ≠ .unborn := by
    rw [Function.update_self]
    exact hm.born
  have hwrote {name : String} {record : WatcherRecord} (hw : s.Wrote desk name record) :
      ({ s with watchers, watchTerms }.setPhase w φ).Wrote desk name record := by
    obtain ⟨v, hname, hrecord, hv⟩ := hw
    exact ⟨v, hname, hrecord, hborn hv⟩
  refine ⟨fun name record hfile => ?_, fun name terms hterms => ?_, fun v name record hin => ?_,
    fun r name record hin => hwrote (h.read r name record hin), fun v name rest hphase u hu => ?_, fun v hv hplaced => ?_,
    fun v hleft => ?_, fun v hlease => hm.beside v hlease, fun r name record rest answers hreader => ?_, h.answered⟩
  · rcases hm.files name record hfile with hold | ⟨hname, hrecord⟩
    · exact hwrote (h.files name record hold)
    · exact ⟨w, hname, hrecord, hself⟩
  · rcases hm.terms name terms hterms with hold | ⟨hname, hnew⟩
    · exact h.terms name terms hold
    · exact ⟨w, hname, hnew⟩
  · by_cases hvw : v = w
    · simp only [setPhase, hvw, Function.update_self] at hin
      exact hwrote (hm.entries name record hin)
    · simp only [setPhase, Function.update_of_ne hvw] at hin
      exact hwrote (h.walked v name record hin)
  · have hold : s.phase u ≠ .unborn ∧ s.alive u = false := by
      by_cases hvw : v = w
      · simp only [setPhase, hvw, Function.update_self] at hphase
        exact hm.gone name rest hphase u hu
      · simp only [setPhase, Function.update_of_ne hvw] at hphase
        exact h.gone v name rest hphase u hu
    exact ⟨hborn hold.1, hold.2⟩
  · by_cases hvw : v = w
    · simp only [setPhase, hvw, Function.update_self] at hplaced
      rw [hvw] at hv ⊢
      exact hm.placed hv hplaced
    · simp only [setPhase, Function.update_of_ne hvw] at hplaced
      exact hm.others v hvw hv (h.placed v hv hplaced)
  · by_cases hvw : v = w
    · simp only [setPhase, hvw, Function.update_self] at hleft
      rw [hvw]
      exact hm.left hleft
    · simp only [setPhase, Function.update_of_ne hvw] at hleft
      exact fun hin => h.left v hleft (hm.leases v hvw hin)
  · obtain ⟨hterms, howner⟩ := h.opening r name record rest answers hreader
    exact ⟨hm.opening name ⟨r, congrArg Reader.opens hreader⟩ hterms, howner⟩

/-- a watch that touches no file -/
theorem Kept.stays (h : s.Kept desk) {w : W} {φ : Phase} (hborn : φ ≠ .unborn)
    (hentries : ∀ name record, (name, some record) ∈ Phase.entries φ → s.Wrote desk name record)
    (hgone : ∀ name rest, φ = .removingTerms name rest ∨ φ = .removingLease name rest →
      ∀ v, name = desk.name v ∨ name = desk.temp v → s.phase v ≠ .unborn ∧ s.alive v = false)
    (hplaced : Phase.placed φ = false) (hleft : Phase.left φ = false)
    (hnot : ∀ name rest, s.phase w ≠ .removingLease name rest) : (s.setPhase w φ).Kept desk := by
  refine h.moved (w := w) ⟨hborn, fun _ _ hfile => .inl hfile, fun _ _ hterms => .inl hterms, hentries, hgone, fun _ hp => ?_,
    fun _ _ _ hin => hin, fun hl => ?_, fun _ _ hin => hin, fun v hlease => ?_, fun _ _ hin => hin⟩
  · rw [hplaced] at hp
    cases hp
  · rw [hleft] at hl
    cases hl
  · refine (h.beside v hlease).imp_right fun ⟨u, rest, hu, hphase⟩ => ⟨u, rest, hu, ?_⟩
    have huw : u ≠ w := by
      rintro rfl
      exact hnot _ _ hphase
    rw [Function.update_of_ne huw]
    exact hphase

/-- a lease without terms stays between the removals of a watch that is elsewhere -/
theorem Kept.besides (h : s.Kept desk) {w v : W} {φ : Phase} (hlease : desk.name v ∈ s.watchers)
    (hnot : ∀ name rest, s.phase w = .removingLease name rest → name ≠ desk.name v) : desk.name v ∈ s.watchTerms ∨
      ∃ u rest, s.alive u = true ∧ Function.update s.phase w φ u = .removingLease (desk.name v) rest := by
  refine (h.beside v hlease).imp_right fun ⟨u, rest, hu, hphase⟩ => ⟨u, rest, hu, ?_⟩
  have huw : u ≠ w := by
    rintro rfl
    exact hnot _ _ hphase rfl
  rw [Function.update_of_ne huw]
  exact hphase

/-- the sweep's two removals -/
theorem Kept.removesTerms (h : s.Kept desk) {w : W} {name : String} {rest : List Read} (hphase : s.phase w = .removingTerms name rest)
    (halive : s.alive w = true) (hopening : ¬s.Opening name) :
    ({ s with watchTerms := s.watchTerms.erase name }.setPhase w (.removingLease name rest)).Kept desk := by
  have hkeeps {k : String} (hne : k ≠ name) (hin : k ∈ s.watchTerms) : k ∈ s.watchTerms.erase name := by
    obtain ⟨terms, hget⟩ := Maps.mem_iff.mp hin
    exact Maps.mem_iff.mpr ⟨terms, by rw [Maps.get_erase, if_neg hne, hget]⟩
  have hdead := h.gone w name rest (.inl hphase)
  refine h.moved (w := w) ⟨nofun, fun _ _ hfile => .inl hfile, fun k terms hterms => ?_, fun k record hin => ?_,
    fun k rest' hφ v hv => ?_, fun _ hp => (by cases hp), fun v _ hv hin => ?_, fun hl => (by cases hl), fun _ _ hin => hin,
    fun v hlease => ?_, fun k hopen hin => ?_⟩
  · rw [Maps.get_erase] at hterms
    split_ifs at hterms
    exact .inl hterms
  · exact h.walked w k record (by rw [hphase]; exact hin)
  · rcases hφ with hφ | hφ
    · cases hφ
    · cases hφ
      exact hdead v hv
  · refine hkeeps (fun heq => ?_) hin
    rw [(hdead v (.inl heq.symm)).2] at hv
    cases hv
  · by_cases hname : desk.name v = name
    · refine .inr ⟨w, rest, halive, ?_⟩
      rw [Function.update_self, hname]
    · refine (h.besides hlease fun _ _ hlease' => ?_).imp_left (hkeeps hname)
      rw [hphase] at hlease'
      cases hlease'
  · exact hkeeps (fun heq => hopening (heq ▸ hopen)) hin

theorem Kept.removesLease (h : s.Kept desk) {w : W} {name : String} {rest : List Read}
    (hphase : s.phase w = .removingLease name rest) :
    ({ s with watchers := s.watchers.erase name }.setPhase w (.sweeping (.judging rest))).Kept desk := by
  have hsub {k : String} (hin : k ∈ s.watchers.erase name) : k ≠ name ∧ k ∈ s.watchers := by
    obtain ⟨content, hget⟩ := Maps.mem_iff.mp hin
    rw [Maps.get_erase] at hget
    split_ifs at hget with heq
    exact ⟨heq, Maps.mem_iff.mpr ⟨content, hget⟩⟩
  refine h.moved (w := w) ⟨nofun, fun k record hfile => ?_, fun _ _ hterms => .inl hterms, fun k record hin => ?_,
    fun k rest' hφ => (by rcases hφ with hφ | hφ <;> cases hφ), fun _ hp => (by cases hp), fun _ _ _ hin => hin,
    fun hl => (by cases hl), fun _ _ hin => (hsub hin).2, fun v hlease => ?_, fun _ _ hin => hin⟩
  · rw [Maps.get_erase] at hfile
    split_ifs at hfile
    exact .inl hfile
  · exact h.walked w k record (by rw [hphase]; exact hin)
  · refine h.besides (hsub hlease).2 fun name' rest' hlease' => ?_
    rw [hphase] at hlease'
    cases hlease'
    exact (hsub hlease).1.symm

/-- a watch writes its terms, stages its lease and publishes it -/
theorem Kept.writesTerms (h : s.Kept desk) {w : W} (hphase : s.phase w = .writingTerms) :
    ({ s with watchTerms := s.watchTerms.insert (desk.name w) (desk.terms w) }.setPhase w .staging).Kept desk := by
  have hkeeps {k : String} (hin : k ∈ s.watchTerms) : k ∈ s.watchTerms.insert (desk.name w) (desk.terms w) :=
    Maps.mem_insert_iff.mpr (.inr hin)
  refine h.moved (w := w) ⟨nofun, fun _ _ hfile => .inl hfile, fun k terms hterms => ?_, fun _ _ hin => (List.not_mem_nil hin).elim,
    fun k rest' hφ => (by rcases hφ with hφ | hφ <;> cases hφ), fun _ _ => Maps.mem_insert_iff.mpr (.inl rfl),
    fun _ _ _ hin => hkeeps hin, fun hl => (by cases hl), fun _ _ hin => hin, fun v hlease => ?_, fun _ _ hin => hkeeps hin⟩
  · rw [Maps.get_insert] at hterms
    split_ifs at hterms with heq
    · exact .inr ⟨heq, (Option.some.inj hterms).symm⟩
    · exact .inl hterms
  · refine (h.besides hlease fun _ _ hlease' => ?_).imp_left hkeeps
    rw [hphase] at hlease'
    cases hlease'

theorem Kept.stages (h : s.Kept desk) {w : W} {content : Content} {φ : Phase} (hφ : φ = .filling ∨ φ = .publishing)
    (hphase : Phase.placed (s.phase w) = true) (hcontent : ∀ record, content = .written record → record = desk.record w) :
    ({ s with watchers := s.watchers.insert (desk.temp w) content }.setPhase w φ).Kept desk := by
  have hlease {v : W} (hin : desk.name v ∈ s.watchers.insert (desk.temp w) content) : desk.name v ∈ s.watchers :=
    (Maps.mem_insert_iff.mp hin).resolve_left (desk.apart v w)
  have hentries : Phase.entries φ = [] := by rcases hφ with rfl | rfl <;> rfl
  have hleft : Phase.left φ = false := by rcases hφ with rfl | rfl <;> rfl
  refine h.moved (w := w) ⟨(by rcases hφ with rfl | rfl <;> nofun), fun k record hfile => ?_, fun _ _ hterms => .inl hterms,
    fun k record hin => ?_, fun k rest' hgone => ?_, fun halive _ => h.placed w halive hphase, fun _ _ _ hin => hin,
    fun hl => ?_, fun _ _ hin => hlease hin, fun v hin => ?_, fun _ _ hin => hin⟩
  · rw [Maps.get_insert] at hfile
    split_ifs at hfile with heq
    · exact .inr ⟨.inr heq, hcontent record (Option.some.inj hfile)⟩
    · exact .inl hfile
  · rw [hentries] at hin
    exact (List.not_mem_nil hin).elim
  · rcases hφ with rfl | rfl <;> rcases hgone with hgone | hgone <;> cases hgone
  · rw [hleft] at hl
    cases hl
  · refine h.besides (hlease hin) fun _ _ hlease' => ?_
    rw [hlease'] at hphase
    cases hphase

theorem Kept.publishes (h : s.Kept desk) {w : W} (hphase : s.phase w = .publishing) (halive : s.alive w = true) :
    ({ s with watchers := (s.watchers.erase (desk.temp w)).insert (desk.name w) (.written (desk.record w)) }.setPhase w .armed).Kept
      desk := by
  have hlease {v : W} (hvw : desk.name v ≠ desk.name w)
      (hin : desk.name v ∈ (s.watchers.erase (desk.temp w)).insert (desk.name w) (.written (desk.record w))) :
      desk.name v ∈ s.watchers := by
    obtain ⟨content, hget⟩ := Maps.mem_iff.mp ((Maps.mem_insert_iff.mp hin).resolve_left hvw)
    rw [Maps.get_erase, if_neg (desk.apart v w)] at hget
    exact Maps.mem_iff.mpr ⟨content, hget⟩
  have hterms : desk.name w ∈ s.watchTerms := h.placed w halive (by rw [hphase]; rfl)
  refine h.moved (w := w) ⟨nofun, fun k record hfile => ?_, fun _ _ hterms => .inl hterms,
    fun _ _ hin => (List.not_mem_nil hin).elim, fun k rest' hφ => (by rcases hφ with hφ | hφ <;> cases hφ), fun _ _ => hterms,
    fun _ _ _ hin => hin, fun hl => (by cases hl), fun v hvw hin => hlease (fun heq => hvw (desk.names v w heq)) hin,
    fun v hin => ?_, fun _ _ hin => hin⟩
  · rw [Maps.get_insert] at hfile
    split_ifs at hfile with heq
    · cases hfile
      exact .inr ⟨.inl heq, rfl⟩
    · rw [Maps.get_erase] at hfile
      split_ifs at hfile
      exact .inl hfile
  · by_cases hname : desk.name v = desk.name w
    · exact .inl (hname ▸ hterms)
    · refine h.besides (hlease hname hin) fun _ _ hlease' => ?_
      rw [hphase] at hlease'
      cases hlease'

/-- a watch's guard takes its lease away, and then its terms -/
theorem Kept.dropsLease (h : s.Kept desk) {w : W} (hphase : s.phase w = .armed) :
    ({ s with watchers := s.watchers.erase (desk.name w) }.setPhase w .dropping).Kept desk := by
  have hsub {k : String} (hin : k ∈ s.watchers.erase (desk.name w)) : k ≠ desk.name w ∧ k ∈ s.watchers := by
    obtain ⟨content, hget⟩ := Maps.mem_iff.mp hin
    rw [Maps.get_erase] at hget
    split_ifs at hget with heq
    exact ⟨heq, Maps.mem_iff.mpr ⟨content, hget⟩⟩
  refine h.moved (w := w) ⟨nofun, fun k record hfile => ?_, fun _ _ hterms => .inl hterms,
    fun _ _ hin => (List.not_mem_nil hin).elim, fun k rest' hφ => (by rcases hφ with hφ | hφ <;> cases hφ),
    fun halive _ => h.placed w halive (by rw [hphase]; rfl), fun _ _ _ hin => hin, fun _ hin => (hsub hin).1 rfl,
    fun _ _ hin => (hsub hin).2, fun v hin => ?_, fun _ _ hin => hin⟩
  · rw [Maps.get_erase] at hfile
    split_ifs at hfile
    exact .inl hfile
  · refine h.besides (hsub hin).2 fun _ _ hlease' => ?_
    rw [hphase] at hlease'
    cases hlease'

theorem Kept.dropsTerms (h : s.Kept desk) {w : W} (hphase : s.phase w = .dropping) (hopening : ¬s.Opening (desk.name w)) :
    ({ s with watchTerms := s.watchTerms.erase (desk.name w) }.setPhase w .returned).Kept desk := by
  have hkeeps {k : String} (hne : k ≠ desk.name w) (hin : k ∈ s.watchTerms) : k ∈ s.watchTerms.erase (desk.name w) := by
    obtain ⟨terms, hget⟩ := Maps.mem_iff.mp hin
    exact Maps.mem_iff.mpr ⟨terms, by rw [Maps.get_erase, if_neg hne, hget]⟩
  have hleft : desk.name w ∉ s.watchers := h.left w (by rw [hphase]; rfl)
  refine h.moved (w := w) ⟨nofun, fun _ _ hfile => .inl hfile, fun k terms hterms => ?_,
    fun _ _ hin => (List.not_mem_nil hin).elim, fun k rest' hφ => (by rcases hφ with hφ | hφ <;> cases hφ),
    fun _ hp => (by cases hp), fun v hvw _ hin => hkeeps (fun heq => hvw (desk.names v w heq)) hin, fun _ => hleft,
    fun _ _ hin => hin, fun v hin => ?_, fun k hopen hin => hkeeps (fun heq => hopening (heq ▸ hopen)) hin⟩
  · rw [Maps.get_erase] at hterms
    split_ifs at hterms
    exact .inl hterms
  · have hname : desk.name v ≠ desk.name w := fun heq => hleft (heq ▸ hin)
    refine (h.besides hin fun _ _ hlease' => ?_).imp_left (hkeeps hname)
    rw [hphase] at hlease'
    cases hlease'

omit [DecidableEq W] in
/-- a walk of the directory, a step further -/
theorem Kept.wrote_read (h : s.Kept desk) (walk : Walk)
    (hwalk : ∀ name record, (name, some record) ∈ Walk.entries walk → s.Wrote desk name record) {name : String}
    {record : WatcherRecord} (hin : (name, some record) ∈ Walk.entries (walk.read s.watchers)) : s.Wrote desk name record :=
  (walk_entries_read hin).elim (hwalk name record) (h.files name record)

/-- **One operation of a watch.** -/
theorem Kept.act (h : s.Kept desk) {w : W} {host : HostSays} (hallowed : s.Allowed desk (.acts w host))
    (hsteady : s.Steady desk (.acts w host)) : (s.act desk w host).Kept desk := by
  obtain ⟨halive, hjudges⟩ := hallowed
  obtain ⟨hsweeps, hdrops⟩ := hsteady
  cases hphase : s.phase w with
  | unborn | armed | returned =>
    simp only [State.act, hphase]
    exact h
  | sweeping walk =>
    have hwalked : ∀ name record, (name, some record) ∈ Walk.entries walk → s.Wrote desk name record := fun name record hin =>
      h.walked w name record (by rw [hphase]; exact hin)
    have hnot : ∀ name rest, s.phase w ≠ .removingLease name rest := fun _ _ hlease => by
      rw [hphase] at hlease
      cases hlease
    match walk with
    | .reading todo read =>
      simp only [State.act, hphase]
      refine h.stays nofun (fun name record hin => h.wrote_read (.reading todo read) hwalked hin) (fun _ _ hφ => ?_) rfl rfl hnot
      rcases hφ with hφ | hφ <;> cases hφ
    | .judging [] =>
      simp only [State.act, hphase]
      refine h.stays nofun (fun _ _ hin => (List.not_mem_nil hin).elim) (fun _ _ hφ => ?_) rfl rfl hnot
      rcases hφ with hφ | hφ <;> cases hφ
    | .judging ((name, none) :: rest) =>
      simp only [State.act, hphase]
      refine h.stays nofun (fun k record hin => hwalked k record (List.mem_cons_of_mem _ hin)) (fun _ _ hφ => ?_) rfl rfl hnot
      rcases hφ with hφ | hφ <;> cases hφ
    | .judging ((name, some record) :: rest) =>
      simp only [State.act, hphase]
      by_cases hgone : (standingOf host desk.run record).provedGone = true
      · rw [if_pos hgone]
        refine h.stays nofun (fun k record hin => hwalked k record (List.mem_cons_of_mem _ hin)) (fun k rest' hφ v hv => ?_) rfl rfl
          hnot
        obtain ⟨owner, hname, hrecord, hborn⟩ := hwalked name record List.mem_cons_self
        rcases hφ with hφ | hφ
        · cases hφ
          cases owner_unique hv hname
          exact ⟨hborn, hjudges (name, record) (by rw [hphase]; rfl) hgone v hrecord.symm hborn⟩
        · cases hφ
      · rw [if_neg hgone]
        refine h.stays nofun (fun k record hin => hwalked k record (List.mem_cons_of_mem _ hin)) (fun _ _ hφ => ?_) rfl rfl hnot
        rcases hφ with hφ | hφ <;> cases hφ
  | removingTerms name rest =>
    simp only [State.act, hphase]
    exact h.removesTerms hphase halive (hsweeps name (by rw [hphase]; rfl))
  | removingLease name rest =>
    simp only [State.act, hphase]
    exact h.removesLease hphase
  | writingTerms =>
    simp only [State.act, hphase]
    exact h.writesTerms hphase
  | staging =>
    simp only [State.act, hphase]
    exact h.stages (.inl rfl) (by rw [hphase]; rfl) fun _ hcontent => by cases hcontent
  | filling =>
    simp only [State.act, hphase]
    exact h.stages (.inr rfl) (by rw [hphase]; rfl) fun _ hcontent => by cases hcontent; rfl
  | publishing =>
    simp only [State.act, hphase]
    exact h.publishes hphase halive
  | dropping =>
    simp only [State.act, hphase]
    exact h.dropsTerms hphase (hdrops hphase)

/-- a watch that begins to arm, and one that dies -/
theorem Kept.arms (h : s.Kept desk) {w : W} {listing : List String} (hborn : s.phase w = .unborn) :
    ({ s with alive := Function.update s.alive w true }.setPhase w (.sweeping (.reading listing []))).Kept desk := by
  have hborn' : ({ s with alive := Function.update s.alive w true } : State W R).Kept desk := by
    refine ⟨h.files, h.terms, h.walked, h.read, fun v name rest hphase u hu => ?_, fun v hv hplaced => ?_, h.left,
      fun v hlease => ?_, h.opening, h.answered⟩
    · obtain ⟨hu', hdead⟩ := h.gone v name rest hphase u hu
      have huw : u ≠ w := fun heq => hu' (heq ▸ hborn)
      exact ⟨hu', (Function.update_of_ne huw _ _).trans hdead⟩
    · have hvw : v ≠ w := by
        rintro rfl
        rw [hborn] at hplaced
        cases hplaced
      exact h.placed v ((Function.update_of_ne hvw _ _).symm.trans hv) hplaced
    · refine (h.beside v hlease).imp_right fun ⟨u, rest, hu, hphase⟩ => ⟨u, rest, ?_, hphase⟩
      have huw : u ≠ w := by
        rintro rfl
        rw [hborn] at hphase
        cases hphase
      exact (Function.update_of_ne huw _ _).trans hu
  refine hborn'.stays nofun (fun _ _ hin => (List.not_mem_nil hin).elim) (fun _ _ hφ => ?_) rfl rfl fun _ _ hlease => ?_
  · rcases hφ with hφ | hφ <;> cases hφ
  · rw [hborn] at hlease
    cases hlease

theorem Kept.dies (h : s.Kept desk) {w : W} (hnot : ∀ name rest, s.phase w ≠ .removingLease name rest) :
    ({ s with alive := Function.update s.alive w false } : State W R).Kept desk := by
  have hstill {v : W} (hv : Function.update s.alive w false v = true) : s.alive v = true := by
    by_cases hvw : v = w
    · rw [hvw, Function.update_self] at hv
      cases hv
    · rwa [Function.update_of_ne hvw] at hv
  refine ⟨h.files, h.terms, h.walked, h.read, fun v name rest hphase u hu => ?_, fun v hv => h.placed v (hstill hv), h.left,
    fun v hlease => ?_, h.opening, h.answered⟩
  · obtain ⟨hborn, hdead⟩ := h.gone v name rest hphase u hu
    refine ⟨hborn, ?_⟩
    by_cases huw : u = w
    · rw [huw]
      exact Function.update_self _ _ _
    · exact (Function.update_of_ne huw _ _).trans hdead
  · refine (h.beside v hlease).imp_right fun ⟨u, rest, hu, hphase⟩ => ⟨u, rest, ?_, hphase⟩
    have huw : u ≠ w := by
      rintro rfl
      exact hnot _ _ hphase
    exact (Function.update_of_ne huw _ _).trans hu

variable [DecidableEq R]

omit [DecidableEq W] in
/-- a reader that moves on -/
theorem Kept.setReader (h : s.Kept desk) {r : R} {ρ : Reader}
    (hentries : ∀ name record, (name, some record) ∈ Reader.entries ρ → s.Wrote desk name record)
    (hopening : ∀ name record rest answers, ρ = .opening name record .live rest answers →
      name ∈ s.watchTerms ∧ ∃ v, (name = desk.name v ∨ name = desk.temp v) ∧ record = desk.record v)
    (hanswers : ∀ answer ∈ Reader.answers ρ, answer.standing = .live →
      ∃ v, answer.name = desk.name v ∧ answer.record = desk.record v ∧ answer.terms = .read (desk.terms v)) :
    (s.setReader r ρ).Kept desk := by
  refine ⟨h.files, h.terms, h.walked, fun q name record hin => ?_, h.gone, h.placed, h.left, h.beside,
    fun q name record rest answers hreader => ?_, fun q answer hin => ?_⟩
  · by_cases hqr : q = r
    · simp only [State.setReader, hqr, Function.update_self] at hin
      exact hentries name record hin
    · simp only [State.setReader, Function.update_of_ne hqr] at hin
      exact h.read q name record hin
  · by_cases hqr : q = r
    · simp only [State.setReader, hqr, Function.update_self] at hreader
      exact hopening name record rest answers hreader
    · simp only [State.setReader, Function.update_of_ne hqr] at hreader
      exact h.opening q name record rest answers hreader
  · by_cases hqr : q = r
    · simp only [State.setReader, hqr, Function.update_self] at hin
      exact hanswers answer hin
    · simp only [State.setReader, Function.update_of_ne hqr] at hin
      exact h.answered q answer hin

omit [DecidableEq W] in
/-- **One operation of a reader.** -/
theorem Kept.reads (h : s.Kept desk) {r : R} {host : HostSays} (hsteady : s.Steady desk (.reads r host)) :
    (s.read desk r host).Kept desk := by
  have hentries : ∀ name record, (name, some record) ∈ Reader.entries (s.reader r) → s.Wrote desk name record := h.read r
  have hanswers := h.answered r
  cases hreader : s.reader r with
  | idle | done answers =>
    simp only [State.read, hreader]
    exact h
  | walking walk answers =>
    rw [hreader] at hentries hanswers
    match walk with
    | .reading todo read =>
      simp only [State.read, hreader]
      exact h.setReader (fun name record hin => h.wrote_read (.reading todo read) hentries hin) (fun _ _ _ _ hρ => by cases hρ) hanswers
    | .judging [] =>
      simp only [State.read, hreader]
      exact h.setReader (fun _ _ hin => (List.not_mem_nil hin).elim) (fun _ _ _ _ hρ => by cases hρ) hanswers
    | .judging ((name, none) :: rest) =>
      simp only [State.read, hreader]
      exact h.setReader (fun k record hin => hentries k record (List.mem_cons_of_mem _ hin)) (fun _ _ _ _ hρ => by cases hρ) hanswers
    | .judging ((name, some record) :: rest) =>
      simp only [State.read, hreader]
      refine h.setReader (fun k record hin => hentries k record (List.mem_cons_of_mem _ hin)) (fun k found rest' answers' hρ => ?_)
        hanswers
      obtain ⟨rfl, rfl, hlive, rfl, rfl⟩ := Reader.opening.inj hρ
      obtain ⟨owner, hname, hrecord, -⟩ := hentries name record List.mem_cons_self
      exact ⟨hsteady (name, record) (by rw [hreader]; rfl) hlive, owner, hname, hrecord⟩
  | opening name record standing rest answers =>
    rw [hreader] at hentries hanswers
    simp only [State.read, hreader]
    refine h.setReader hentries (fun _ _ _ _ hρ => by cases hρ) fun answer hin hlive => ?_
    rcases List.mem_append.mp hin with hold | hnew
    · exact hanswers answer hold hlive
    · rw [List.mem_singleton.mp hnew] at hlive ⊢
      simp only at hlive
      rw [hlive] at hreader
      obtain ⟨hterms, owner, hname, hrecord⟩ := h.opening r name record rest answers hreader
      obtain ⟨terms, hget⟩ := Maps.mem_iff.mp hterms
      obtain ⟨v, hv, rfl⟩ := h.terms name terms hget
      obtain rfl : v = owner := owner_unique (.inl hv) hname
      exact ⟨v, hv, hrecord, by simp only [termsBeside, hget]⟩

/-- **One step.** -/
theorem kept_step (h : s.Kept desk) {event : Event W R} (hallowed : s.Allowed desk event) (hsteady : s.Steady desk event) :
    (s.step desk event).Kept desk := by
  cases event with
  | arms w listing => exact h.arms hallowed.1
  | acts w host => exact h.act hallowed hsteady
  | drops w => exact h.dropsLease hallowed.2
  | dies w =>
    refine h.dies fun name rest hphase => ?_
    rw [State.Steady, hphase] at hsteady
    cases hsteady
  | lists r listing =>
    exact h.setReader (fun _ _ hin => (List.not_mem_nil hin).elim) (fun _ _ _ _ hρ => by cases hρ)
      fun _ hin => (List.not_mem_nil hin).elim
  | reads r host => exact h.reads hsteady

/-- **With its terms.** Over every run of watches arming, returning and dying and of readers beside them: no sweep removes a
file of a running process, no sweep leaves a lease without its terms, and a lease answered live is answered with the terms
its watch wrote. -/
theorem live_read_with_terms (desk : Desk W) (events : List (Event W R))
    (h : Admits (State.step desk) (fun s event => s.Allowed desk event ∧ s.Steady desk event) {} events) :
    (events.foldl (State.step desk) {}).Sound desk :=
  (h.invariant (I := fun s : State W R => s.Kept desk) (fun _ _ hkept hevent => kept_step hkept hevent.1 hevent.2)
    kept_start).sound

/-! ## Runs that can be checked -/

instance [Fintype R] (name : String) : Decidable (s.Opening name) := inferInstanceAs (Decidable (∃ _, _))

instance [Fintype W] (event : Event W R) : Decidable (s.Allowed desk event) :=
  match event with
  | .arms _ _ | .acts _ _ | .drops _ | .lists _ _ => inferInstanceAs (Decidable (_ ∧ _))
  | .dies _ => inferInstanceAs (Decidable (_ = _))
  | .reads _ _ => inferInstanceAs (Decidable True)

instance [Fintype R] (event : Event W R) : Decidable (s.Steady desk event) :=
  match event with
  | .acts _ _ => inferInstanceAs (Decidable (_ ∧ _))
  | .dies _ => inferInstanceAs (Decidable (_ = _))
  | .reads _ _ => inferInstanceAs (Decidable (∀ _ ∈ _, _))
  | .arms _ _ | .drops _ | .lists _ _ => inferInstanceAs (Decidable True)

end State

/-! ### A lease judged live, and its watch returned -/

/-- one watch of a run -/
def oneWatch : Desk Unit where
  run := "run"
  record := fun _ => { runId := "run", pid := 7, host := "host", started := "1", beganAt := "2026-01-01T00:00:00.000Z" }
  terms := fun _ => { runId := "run", pid := 7, started := "1", deadline := none, «until» := ["surface"], session := none }
  name := fun _ => "7-a.json"
  temp := fun _ => "7-a.tmp.7.1"
  names := fun _ _ _ => rfl
  temps := fun _ _ _ => rfl
  apart := fun _ _ => by decide

/-- a host on which the process that took a pid runs -/
def running : HostSays where
  hostname := "host"
  mayBeLive := fun _ => true
  awaitingParent := fun _ => false
  startToken := fun _ => some fun recorded => recorded = "1"

/-- the watch armed, and a reader that lists its lease, reads it and judges it -/
def judgedLive : List (Event Unit Unit) :=
  .arms () [] :: List.replicate 6 (.acts () running) ++ [.lists () ["7-a.json"]] ++ List.replicate 3 (.reads () running)

/-- the terms opened, and the watch returned after -/
def returnedAfter : List (Event Unit Unit) := judgedLive ++ List.replicate 2 (.reads () running) ++ [.drops (), .acts () running]

/-- the watch returned, and the terms opened after -/
def returnedBefore : List (Event Unit Unit) := judgedLive ++ [.drops (), .acts () running] ++ List.replicate 2 (.reads () running)

/-- a lease read while its temporary is whole -/
def readAsTemporary : List (Event Unit Unit) :=
  .arms () [] :: List.replicate 5 (.acts () running) ++ [.lists () ["7-a.tmp.7.1"]] ++ List.replicate 5 (.reads () running)

/-- **Live, with no terms.** A reader judges the lease live, and the watch returns before its terms are opened; another reads
the temporary a lease is published from. -/
theorem live_read_without_terms :
    (¬∀ events : List (Event Unit Unit), Admits (State.step oneWatch) (State.Allowed oneWatch) {} events →
      (events.foldl (State.step oneWatch) {}).Sound oneWatch) ∧
      Admits (State.step oneWatch) (State.Allowed oneWatch) {} readAsTemporary ∧
      (readAsTemporary.foldl (State.step oneWatch) {}).reader () =
        .done [⟨"7-a.tmp.7.1", oneWatch.record (), .live, .absent⟩] := by
  refine ⟨fun hall => ?_, by decide, by decide⟩
  have hanswered : (returnedBefore.foldl (State.step oneWatch) {}).reader () =
      .done [⟨"7-a.json", oneWatch.record (), .live, .absent⟩] := by decide
  obtain ⟨v, -, -, hterms⟩ := (hall returnedBefore (by decide)).answered () _ (.inl hanswered) _ List.mem_cons_self rfl
  cases hterms

/-- a watch that returns once its terms are read -/
theorem live_read_with_terms_after : (returnedAfter.foldl (State.step oneWatch) {}).Sound oneWatch :=
  State.live_read_with_terms oneWatch returnedAfter (by decide)

end OnePipeline.Watchers
