/-
A run has one writer.

A dead holder's record is replaced by a rename, which excludes nobody; what excludes is the numbered entries made under the
record's key. An entry is taken away only once the lock has left its record, so while it has not they only grow, and every
number below the highest is of a process that is gone.

Results:
- `fits_act`: each file operation keeps what every process relies on where it stands, `Sound`;
- `one_writer`: where no two claims make different records of one key, in every state of every run each live holder's record
  is the one in the lock, and there is at most one;
- `shared_key_admits_two`: two records that differ in nothing their key spells, one process's own, let two reclaimers in.
-/
import Mathlib.Tactic
import OnePipeline.Core.Runs
import OnePipeline.Model.Ownership

namespace OnePipeline.Ownership

open Runs

section

variable {P : Type} {m : Machine P} {s s' : State P} {p q : P} {r dead body : LockRecord} {number : ℕ}

/-! ## Who made a record -/

variable (author : String → Option (P × LockRecord)) (m s)

/-- the process a record was made by, once: the only record of its key -/
def Made (p : P) (r : LockRecord) : Prop := author (reclaimKey r) = some (p, r) ∧ m.pid p = r.pid

/-- a record of a process that was born -/
def Known (r : LockRecord) : Prop := ∃ p, Made m author p r ∧ s.life p ≠ .unborn

/-- a record of a process that is gone -/
def Gone (r : LockRecord) : Prop := ∃ p, Made m author p r ∧ s.life p = .dead

/-- every number below one is an entry of a process that is gone; the first is 1 -/
structure Below (dead : LockRecord) (number : ℕ) : Prop where
  pos : 1 ≤ number
  gone : ∀ j, 1 ≤ j → j < number → ∃ r, s.entries (reclaimKey dead) j = .record r ∧ Gone m s author r

/-- what a process at a number relies on while the lock holds the record it reclaims -/
def Stepped (dead : LockRecord) (number : ℕ) : Prop := s.lock = .record dead → Below m s author dead number

/-- what a process relies on where it stands -/
def Fits (p : P) : Phase → Prop
  | .idle => True
  | .linking body | .reading body => Made m author p body
  | .judging body held => Made m author p body ∧ Known m s author held
  | .entering body dead number | .looking body dead number | .weighing body dead number =>
    Made m author p body ∧ Gone m s author dead ∧ Stepped m s author dead number
  | .rereading body dead number =>
    Made m author p body ∧ Gone m s author dead ∧ Stepped m s author dead number ∧
      (s.lock = .record dead → s.entries (reclaimKey dead) number = .record body)
  | .replacing body dead number =>
    Made m author p body ∧ Gone m s author dead ∧ s.lock = .record dead ∧ Below m s author dead number ∧
      s.entries (reclaimKey dead) number = .record body
  | .sweeping body dead _ _ outcome =>
    Made m author p body ∧ Gone m s author dead ∧ s.lock ≠ .record dead ∧ (outcome = .won → s.lock = .record body)
  | .doubting body dead number reclaimer =>
    Made m author p body ∧ Gone m s author dead ∧ Known m s author reclaimer ∧ Stepped m s author dead number ∧
      (s.lock = .record dead → s.entries (reclaimKey dead) number = .record reclaimer)
  | .holding body => Made m author p body ∧ s.lock = .record body

/-- what every process relies on, and who made what the files hold -/
structure Sound : Prop where
  unborn : ∀ p, s.life p = .unborn → s.phase p = .idle
  fits : ∀ p, s.life p = .live → Fits m s author p (s.phase p)
  lock : ∀ r, s.lock = .record r → Known m s author r
  entries : ∀ key number r, s.entries key number = .record r → Known m s author r

variable {author m s}

theorem Made.unique (hp : Made m author p r) (hq : Made m author q r) : p = q := by
  have heq := hp.1.symm.trans hq.1
  exact congrArg Prod.fst (Option.some.inj heq)

theorem Made.same_record {r' : LockRecord} (h : Made m author p r) (h' : Made m author q r')
    (hkey : reclaimKey r = reclaimKey r') : r = r' := by
  have heq := h.1.symm.trans ((congrArg author hkey).trans h'.1)
  exact congrArg Prod.snd (Option.some.inj heq)

/-- a record of a process that is gone is no live process's -/
theorem Gone.not_live (h : Gone m s author r) (hmade : Made m author p r) : s.life p ≠ .live := by
  obtain ⟨q, hq, hdead⟩ := h
  rw [hmade.unique hq, hdead]
  exact fun h => by cases h

/-- a process the host proves gone, of a record some process made -/
theorem Known.gone (h : Known m s author r) (hgone : ∀ q, m.pid q = r.pid → s.life q ≠ .live) : Gone m s author r := by
  obtain ⟨q, hq, hborn⟩ := h
  refine ⟨q, hq, ?_⟩
  cases hlife : s.life q with
  | unborn => exact absurd hlife hborn
  | live => exact absurd hlife (hgone q hq.2)
  | dead => rfl

/-! ## What a step leaves the others -/

/-- lives that only move on -/
def Ages (s s' : State P) : Prop := ∀ p, (s.life p ≠ .unborn → s'.life p ≠ .unborn) ∧ (s.life p = .dead → s'.life p = .dead)

theorem Known.ages (h : Known m s author r) (hages : Ages s s') : Known m s' author r := by
  obtain ⟨q, hq, hborn⟩ := h
  exact ⟨q, hq, (hages q).1 hborn⟩

theorem Gone.ages (h : Gone m s author r) (hages : Ages s s') : Gone m s' author r := by
  obtain ⟨q, hq, hdead⟩ := h
  exact ⟨q, hq, (hages q).2 hdead⟩

theorem Below.grows (h : Below m s author dead number) (hages : Ages s s')
    (hentries : ∀ n r, s.entries (reclaimKey dead) n = .record r → s'.entries (reclaimKey dead) n = .record r) :
    Below m s' author dead number := by
  refine ⟨h.pos, fun j hone hlt => ?_⟩
  obtain ⟨r, hr, hgone⟩ := h.gone j hone hlt
  exact ⟨r, hentries j r hr, hgone.ages hages⟩

/-- a step that leaves the lock, and the entries of the record in it -/
structure Frames (s s' : State P) : Prop where
  ages : Ages s s'
  lock : s'.lock = s.lock
  entries : ∀ dead, s.lock = .record dead → ∀ n r, s.entries (reclaimKey dead) n = .record r →
    s'.entries (reclaimKey dead) n = .record r

theorem Stepped.frames (h : Stepped m s author dead number) (hf : Frames s s') : Stepped m s' author dead number := by
  intro hlock
  rw [hf.lock] at hlock
  exact (h hlock).grows hf.ages (hf.entries dead hlock)

theorem Fits.frames {phase : Phase} (h : Fits m s author p phase) (hf : Frames s s') : Fits m s' author p phase := by
  cases phase with
  | idle => trivial
  | linking body | reading body => exact h
  | judging body held => exact ⟨h.1, h.2.ages hf.ages⟩
  | entering body dead number | looking body dead number | weighing body dead number =>
    exact ⟨h.1, h.2.1.ages hf.ages, h.2.2.frames hf⟩
  | rereading body dead number =>
    obtain ⟨hmade, hgone, hstepped, hentry⟩ := h
    refine ⟨hmade, hgone.ages hf.ages, hstepped.frames hf, fun hlock => ?_⟩
    rw [hf.lock] at hlock
    exact hf.entries dead hlock number body (hentry hlock)
  | replacing body dead number =>
    obtain ⟨hmade, hgone, hlock, hbelow, hentry⟩ := h
    exact ⟨hmade, hgone.ages hf.ages, hf.lock.trans hlock, hbelow.grows hf.ages (hf.entries dead hlock),
      hf.entries dead hlock number body hentry⟩
  | sweeping body dead number done outcome =>
    obtain ⟨hmade, hgone, hleft, hwon⟩ := h
    exact ⟨hmade, hgone.ages hf.ages, by rwa [hf.lock], fun ho => by rw [hf.lock, hwon ho]⟩
  | doubting body dead number reclaimer =>
    obtain ⟨hmade, hgone, hknown, hstepped, hentry⟩ := h
    refine ⟨hmade, hgone.ages hf.ages, hknown.ages hf.ages, hstepped.frames hf, fun hlock => ?_⟩
    rw [hf.lock] at hlock
    exact hf.entries dead hlock number reclaimer (hentry hlock)
  | holding body => exact ⟨h.1, hf.lock.trans h.2⟩

/-- a live process's own record put where nothing, or a record nobody live relies on, was -/
theorem Fits.moved {phase : Phase} (h : Fits m s author p phase) (hages : Ages s s') {file : LockFile} (hlock : s'.lock = file)
    (hnew : ∀ dead, Gone m s author dead → file ≠ .record dead)
    (hfree : ∀ body, s.lock = .record body → Made m author p body → s.life p = .live → False) (hlive : s.life p = .live)
    (hreplacing : ∀ body dead number, phase ≠ .replacing body dead number) : Fits m s' author p phase := by
  have hstepped (dead : LockRecord) (number : ℕ) (hgone : Gone m s author dead) : Stepped m s' author dead number :=
    fun h => absurd (hlock.symm.trans h) (hnew dead hgone)
  cases phase with
  | idle => trivial
  | linking body | reading body => exact h
  | judging body held => exact ⟨h.1, h.2.ages hages⟩
  | entering body dead number | looking body dead number | weighing body dead number =>
    exact ⟨h.1, h.2.1.ages hages, hstepped dead number h.2.1⟩
  | rereading body dead number =>
    obtain ⟨hmade, hgone, -, -⟩ := h
    exact ⟨hmade, hgone.ages hages, hstepped dead number hgone, fun h => absurd (hlock.symm.trans h) (hnew dead hgone)⟩
  | replacing body dead number => exact absurd rfl (hreplacing body dead number)
  | sweeping body dead number done outcome =>
    obtain ⟨hmade, hgone, hleft, hwon⟩ := h
    refine ⟨hmade, hgone.ages hages, fun h => hnew dead hgone (hlock.symm.trans h), fun ho => ?_⟩
    exact (hfree body (hwon ho) hmade hlive).elim
  | doubting body dead number reclaimer =>
    obtain ⟨hmade, hgone, hknown, -, -⟩ := h
    exact ⟨hmade, hgone.ages hages, hknown.ages hages, hstepped dead number hgone,
      fun h => absurd (hlock.symm.trans h) (hnew dead hgone)⟩
  | holding body => exact (hfree body h.2 h.1 hlive).elim

/-! ## One file operation -/

theorem Ages.refl (s : State P) : Ages s s := fun _ => ⟨fun h => h, fun h => h⟩

theorem Frames.refl (s : State P) : Frames s s := ⟨.refl s, rfl, fun _ _ _ _ h => h⟩

/-- a live process's own record is the record of no process that is gone -/
theorem Made.ne_gone (hmade : Made m author p body) (hlive : s.life p = .live) (dead : LockRecord) (hgone : Gone m s author dead) :
    LockFile.record body ≠ .record dead := by
  intro heq
  cases heq
  exact hgone.not_live hmade hlive

/-- a record of a process that is gone is known -/
theorem Gone.known (h : Gone m s author r) : Known m s author r := by
  obtain ⟨q, hq, hdead⟩ := h
  exact ⟨q, hq, by rw [hdead]; exact fun h => by cases h⟩

theorem Made.known (h : Made m author p r) (hlive : s.life p = .live) : Known m s author r :=
  ⟨p, h, by rw [hlive]; exact fun h => by cases h⟩

/-- **One replaces.** Two live processes that have both read the dead record again with their entries made are one. -/
theorem Sound.one_replaces (h : Sound m s author) (hp : s.life p = .live) (hq : s.life q = .live) {body' dead' : LockRecord}
    {number' : ℕ} (hpφ : s.phase p = .replacing body dead number) (hqφ : s.phase q = .replacing body' dead' number') : p = q := by
  have hfp := h.fits p hp
  have hfq := h.fits q hq
  rw [hpφ] at hfp
  rw [hqφ] at hfq
  obtain ⟨hmade, hgone, hlock, hbelow, hentry⟩ := hfp
  obtain ⟨hmade', hgone', hlock', hbelow', hentry'⟩ := hfq
  rw [hlock] at hlock'
  cases hlock'
  -- each has the entry of its own number, and a lower number is of a process that is gone
  have hlower {p : P} {body : LockRecord} {number number' : ℕ} (hp : s.life p = .live)
      (hmade : Made m author p body) (hentry : s.entries (reclaimKey dead) number = .record body)
      (hbelow : Below m s author dead number) (hbelow' : Below m s author dead number') : ¬number < number' := by
    intro hlt
    obtain ⟨r, hr, hgone⟩ := hbelow'.gone number hbelow.pos hlt
    rw [hentry] at hr
    cases hr
    exact hgone.not_live hmade hp
  have heq : number = number' :=
    le_antisymm (not_lt.mp (hlower hq hmade' hentry' hbelow' hbelow))
      (not_lt.mp (hlower hp hmade hentry hbelow hbelow'))
  subst heq
  rw [hentry] at hentry'
  cases hentry'
  exact hmade.unique hmade'

/-! ## Who writes -/

/-- the claims a run begins, each by its process with the record it would leave -/
def claims (m : Machine P) (events : List (Event P)) : List (P × LockRecord) :=
  events.filterMap fun
    | .acquire p acquiredAt verb => some (p, State.recordOf m p acquiredAt verb)
    | _ => none

theorem mem_claims {events : List (Event P)} {acquiredAt verb : String} (h : .acquire p acquiredAt verb ∈ events) :
    (p, State.recordOf m p acquiredAt verb) ∈ claims m events :=
  List.mem_filterMap.mpr ⟨.acquire p acquiredAt verb, h, rfl⟩

/-- a claim is begun with the only record of its key -/
def Authored (m : Machine P) (author : String → Option (P × LockRecord)) : Event P → Prop
  | .acquire p acquiredAt verb => Made m author p (State.recordOf m p acquiredAt verb)
  | _ => True

theorem sound_empty (m : Machine P) (author : String → Option (P × LockRecord)) : Sound m {} author :=
  ⟨fun _ _ => rfl, fun _ h => (by cases h), fun _ h => (by cases h), fun _ _ _ h => (by cases h)⟩

/-- each live holder's record is the one in the lock, and there is at most one -/
structure State.OneWriter (s : State P) : Prop where
  kept : ∀ p body, s.Holds p body → s.lock = .record body
  one : ∀ p q body body', s.Holds p body → s.Holds q body' → p = q

theorem oneWriter_of_sound (h : Sound m s author) : s.OneWriter := by
  have hfits (p : P) (body : LockRecord) (hp : s.Holds p body) : Made m author p body ∧ s.lock = .record body := by
    have hfits := h.fits p hp.1
    rw [hp.2] at hfits
    exact hfits
  refine ⟨fun p body hp => (hfits p body hp).2, fun p q body body' hp hq => ?_⟩
  obtain ⟨hmade, hlock⟩ := hfits p body hp
  obtain ⟨hmade', hlock'⟩ := hfits q body' hq
  rw [hlock] at hlock'
  cases hlock'
  exact hmade.unique hmade'

/-- where every key is one claim's, each claim's record is the only one of its key -/
theorem exists_author {events : List (Event P)} (hkeys : ((claims m events).map fun c => reclaimKey c.2).Nodup) :
    ∃ author : String → Option (P × LockRecord), ∀ c ∈ claims m events, author (reclaimKey c.2) = some c := by
  have hone (key : String) : ∃ a : Option (P × LockRecord), ∀ c ∈ claims m events, reclaimKey c.2 = key → a = some c := by
    by_cases hany : ∃ c ∈ claims m events, reclaimKey c.2 = key
    · obtain ⟨c, hc, rfl⟩ := hany
      exact ⟨some c, fun c' hc' hkey => congrArg some (List.inj_on_of_nodup_map hkeys hc hc' hkey.symm)⟩
    · exact ⟨none, fun c hc hkey => absurd ⟨c, hc, hkey⟩ hany⟩
  choose author hauthor using hone
  exact ⟨author, fun c hc => hauthor _ c hc rfl⟩

/-! ## The operations -/

variable [DecidableEq P]

@[simp] theorem phase_enter (s : State P) (p : P) (φ : Phase) : (s.enter p φ).phase p = φ := Function.update_self ..

theorem frames_enter (s : State P) (p : P) (φ : Phase) : Frames s (s.enter p φ) := ⟨.refl s, rfl, fun _ _ _ _ h => h⟩

theorem phase_enter_of_ne (s : State P) (φ : Phase) (h : q ≠ p) : (s.enter p φ).phase q = s.phase q :=
  Function.update_of_ne h ..

/-- what one process's step keeps of everyone, where it frames the others -/
theorem Sound.step (h : Sound m s author) (hlive : s.life p = .live) (t : State P) (hlife : t.life = s.life)
    (hphase : t.phase = s.phase) (hf : Frames s t)
    (hentries : ∀ key n r, t.entries key n = .record r → s.entries key n = .record r ∨ Known m s author r) {φ : Phase}
    (hφ : Fits m t author p φ) : Sound m (t.enter p φ) author := by
  have hknown (r : LockRecord) (hr : Known m s author r) : Known m (t.enter p φ) author r := hr.ages hf.ages
  refine ⟨fun q hq => ?_, fun q hq => ?_, fun r hr => hknown r (h.lock r (hf.lock.symm.trans hr)), fun key n r hr => ?_⟩
  · have hlife' : s.life q = .unborn := by rw [← hlife]; exact hq
    have hne : q ≠ p := by
      rintro rfl
      rw [hlive] at hlife'
      cases hlife'
    rw [phase_enter_of_ne t φ hne, hphase]
    exact h.unborn q hlife'
  · have hlife' : s.life q = .live := by rw [← hlife]; exact hq
    by_cases hqp : q = p
    · subst hqp
      rw [phase_enter]
      exact hφ.frames (frames_enter _ q φ)
    · rw [phase_enter_of_ne t φ hqp, hphase]
      have hf' : Frames s (t.enter p φ) := ⟨hf.ages, hf.lock, hf.entries⟩
      exact (h.fits q hlife').frames hf'
  · exact (hentries key n r hr).elim (fun hr => hknown r (h.entries key n r hr)) (hknown r)

/-- a process moving on without touching a file -/
theorem Sound.move (h : Sound m s author) (hlive : s.life p = .live) {φ : Phase} (hφ : Fits m s author p φ) :
    Sound m (s.enter p φ) author :=
  h.step hlive s rfl rfl (.refl s) (fun _ _ _ hr => .inl hr) hφ

/-- the lock changed by one process, where no other live one is about to replace what it held, or holds it -/
theorem Sound.relock (h : Sound m s author) (hlive : s.life p = .live) {file : LockFile} {φ : Phase}
    (hnew : ∀ dead, Gone m s author dead → file ≠ .record dead)
    (hfile : ∀ r, file = .record r → Known m s author r)
    (hfree : ∀ q body, q ≠ p → s.lock = .record body → Made m author q body → s.life q = .live → False)
    (hreplacing : ∀ q body dead number, q ≠ p → s.life q = .live → s.phase q ≠ .replacing body dead number)
    (hφ : Fits m { s with lock := file } author p φ) : Sound m ({ s with lock := file }.enter p φ) author := by
  refine ⟨fun q hq => ?_, fun q hq => ?_, hfile, h.entries⟩
  · have hne : q ≠ p := by
      rintro rfl
      rw [show s.life q = .unborn from hq] at hlive
      cases hlive
    rw [phase_enter_of_ne _ φ hne]
    exact h.unborn q hq
  · by_cases hqp : q = p
    · subst hqp
      rw [phase_enter]
      exact hφ.frames (frames_enter _ q φ)
    · rw [phase_enter_of_ne _ φ hqp]
      have hages : Ages s ({ s with lock := file }.enter p φ) := .refl s
      exact (h.fits q hq).moved hages rfl hnew (fun body => hfree q body hqp) hq
        fun body dead number => hreplacing q body dead number hqp hq

/-- a lock nobody holds, taken -/
theorem sound_take (h : Sound m s author) (hlive : s.life p = .live) (hmade : Made m author p body) (hfree : s.lock = .absent) :
    Sound m ({ s with lock := .record body }.enter p (.holding body)) author := by
  refine h.relock hlive (hmade.ne_gone hlive) (fun r hr => ?_) (fun q b hq hlock => ?_) (fun q b d n hq hqlive hphase => ?_)
    ⟨hmade, rfl⟩
  · cases hr
    exact hmade.known hlive
  · rw [hfree] at hlock
    cases hlock
  · have hfits := h.fits q hqlive
    rw [hphase] at hfits
    obtain ⟨-, -, heq, -, -⟩ := hfits
    rw [hfree] at heq
    cases heq

/-- a dead holder's record replaced -/
theorem sound_replace (h : Sound m s author) (hlive : s.life p = .live) (hphase : s.phase p = .replacing body dead number) :
    Sound m ({ s with lock := .record body }.enter p (.sweeping body dead number 1 .won)) author := by
  have hfits := h.fits p hlive
  rw [hphase] at hfits
  obtain ⟨hmade, hgone, hlock, -, -⟩ := hfits
  refine h.relock hlive (hmade.ne_gone hlive) (fun r hr => ?_) (fun q b hq hlock' hmade' hqlive => ?_)
    (fun q b d n hq hqlive hqphase => hq (h.one_replaces hqlive hlive hqphase hphase))
    ⟨hmade, hgone, hmade.ne_gone hlive dead hgone, fun _ => rfl⟩
  · cases hr
    exact hmade.known hlive
  · -- the record replaced is of a process that is gone, so nobody live holds by it
    rw [hlock] at hlock'
    cases hlock'
    exact hgone.not_live hmade' hqlive

/-- a reclaim entry made where there was none -/
theorem sound_create (h : Sound m s author) (hlive : s.life p = .live) (hphase : s.phase p = .entering body dead number)
    (hfree : s.entries (reclaimKey dead) number = .absent) :
    Sound m ((s.setEntry (reclaimKey dead) number (.record body)).enter p (.rereading body dead number)) author := by
  have hfits := h.fits p hlive
  rw [hphase] at hfits
  obtain ⟨hmade, hgone, hstepped⟩ := hfits
  have hentry (key : String) (n : ℕ) : (s.setEntry (reclaimKey dead) number (.record body)).entries key n =
      if key = reclaimKey dead ∧ n = number then .record body else s.entries key n := rfl
  have hframes : Frames s (s.setEntry (reclaimKey dead) number (.record body)) := by
    refine ⟨.refl s, rfl, fun d _ n r hr => ?_⟩
    rw [hentry]
    split_ifs with hat
    · rw [hat.1, hat.2, hfree] at hr
      cases hr
    · exact hr
  refine h.step hlive (s.setEntry (reclaimKey dead) number (.record body)) rfl rfl hframes (fun key n r hr => ?_)
    ⟨hmade, hgone.ages hframes.ages, hstepped.frames hframes, fun _ => if_pos ⟨rfl, rfl⟩⟩
  rw [hentry] at hr
  split_ifs at hr with hat
  · cases hr
    exact .inr (hmade.known hlive)
  · exact .inl hr

/-- an entry taken away, once the lock has left the record it was made under -/
theorem sound_sweep (h : Sound m s author) (hlive : s.life p = .live) {done : ℕ} {outcome : Reclaimed}
    (hphase : s.phase p = .sweeping body dead number done outcome) :
    Sound m ((s.setEntry (reclaimKey dead) done .absent).enter p
      (if done < number then .sweeping body dead number (done + 1) outcome else .after body outcome)) author := by
  have hfits := h.fits p hlive
  rw [hphase] at hfits
  obtain ⟨hmade, hgone, hleft, hwon⟩ := hfits
  have hentry (key : String) (n : ℕ) : (s.setEntry (reclaimKey dead) done .absent).entries key n =
      if key = reclaimKey dead ∧ n = done then .absent else s.entries key n := rfl
  have hframes : Frames s (s.setEntry (reclaimKey dead) done .absent) := by
    refine ⟨.refl s, rfl, fun d hlock n r hr => ?_⟩
    rw [hentry, if_neg]
    · exact hr
    · -- an entry under the key of the lock's own record is of no record but it
      rintro ⟨hkey, -⟩
      obtain ⟨q, hq, -⟩ := h.lock d hlock
      obtain ⟨q', hq', -⟩ := hgone
      rw [hq.same_record hq' hkey] at hlock
      exact hleft hlock
  refine h.step hlive (s.setEntry (reclaimKey dead) done .absent) rfl rfl hframes (fun key n r hr => ?_) ?_
  · rw [hentry] at hr
    split_ifs at hr with hat
    exact .inl hr
  · split_ifs
    · exact ⟨hmade, hgone, hleft, hwon⟩
    · cases outcome with
      | won => exact ⟨hmade, hwon rfl⟩
      | released => exact hmade
      | heldBy holder | unreadable => trivial

/-- the lock let go by its holder -/
theorem sound_release (h : Sound m s author) (hlive : s.life p = .live) (hphase : s.phase p = .holding body) :
    Sound m ({ s with lock := .absent }.enter p .idle) author := by
  have hfits := h.fits p hlive
  rw [hphase] at hfits
  obtain ⟨hmade, hlock⟩ := hfits
  refine h.relock hlive (fun _ _ heq => by cases heq) (fun _ hr => by cases hr) (fun q b hq hlock' hmade' _ => ?_)
    (fun q b d n hq hqlive hqphase => ?_) trivial
  · rw [hlock] at hlock'
    cases hlock'
    exact hq (hmade'.unique hmade)
  · have hfits := h.fits q hqlive
    rw [hqphase] at hfits
    obtain ⟨-, hgone, heq, -, -⟩ := hfits
    rw [hlock] at heq
    cases heq
    exact hgone.not_live hmade hlive

/-- **One file operation.** -/
theorem fits_act (h : Sound m s author) {gone patient : Bool} (hallowed : s.Allowed m (.act p gone patient)) :
    Sound m (s.act m p gone patient) author := by
  obtain ⟨hlive, hhost⟩ := hallowed
  have hfits := h.fits p hlive
  unfold State.act
  split
  · exact h
  · exact h
  · next body hphase =>
    rw [hphase] at hfits
    split
    · next hlock => exact sound_take h hlive hfits hlock
    · exact h.move hlive hfits
  · next body hphase =>
    rw [hphase] at hfits
    split
    · next held hlock => exact h.move hlive ⟨hfits, h.lock held hlock⟩
    · exact h.move hlive hfits
    · exact h.move hlive trivial
  · next body held hphase =>
    rw [hphase] at hfits
    split_ifs with hgone
    · refine h.move hlive ⟨hfits.1, hfits.2.gone (hhost hgone.2 held (by rw [hphase]; rfl)), fun _ => ⟨le_rfl, fun j hone hlt => ?_⟩⟩
      omega
    · exact h.move hlive trivial
  · next body dead number hphase =>
    rw [hphase] at hfits
    split
    · next hfree => exact sound_create h hlive hphase hfree
    · exact h.move hlive hfits
  · next body dead number hphase =>
    rw [hphase] at hfits
    obtain ⟨hmade, hgone, hstepped, hentry⟩ := hfits
    refine h.move hlive ?_
    unfold State.reread
    split
    · next now hlock =>
      split_ifs with heq
      · rw [heq] at hlock
        exact ⟨hmade, hgone, hlock, hstepped hlock, hentry hlock⟩
      · refine ⟨hmade, hgone, fun hdead => heq ?_, fun ho => by cases ho⟩
        rw [hlock] at hdead
        cases hdead
        rfl
    · next hlock => exact ⟨hmade, hgone, hlock.symm ▸ fun h => (by cases h), fun ho => (by cases ho)⟩
    · next hlock => exact ⟨hmade, hgone, hlock.symm ▸ fun h => (by cases h), fun ho => (by cases ho)⟩
  · next body dead number hphase => exact sound_replace h hlive hphase
  · next body dead number done outcome hphase => exact sound_sweep h hlive hphase
  · next body dead number hphase =>
    rw [hphase] at hfits
    split
    · split_ifs
      · exact h.move hlive hfits
      · exact h.move hlive trivial
    · exact h.move hlive hfits.1
    · exact h.move hlive trivial
  · next body dead number hphase =>
    rw [hphase] at hfits
    obtain ⟨hmade, hgone, hstepped⟩ := hfits
    split
    · next reclaimer hentry => exact h.move hlive ⟨hmade, hgone, h.entries _ _ _ hentry, hstepped, fun _ => hentry⟩
    · exact h.move hlive ⟨hmade, hgone, hstepped⟩
    · exact h.move hlive trivial
  · next body dead number reclaimer hphase =>
    rw [hphase] at hfits
    obtain ⟨hmade, hgone, hknown, hstepped, hentry⟩ := hfits
    split_ifs with hproved
    · -- the entry it read still stands while the lock does, so its maker's death clears this number
      have hreclaimer := hknown.gone (hhost hproved.2 reclaimer (by rw [hphase]; rfl))
      refine h.move hlive ⟨hmade, hgone, fun hlock => ⟨by omega, fun j hone hlt => ?_⟩⟩
      rcases Nat.lt_succ_iff_lt_or_eq.mp hlt with hlt | rfl
      · exact (hstepped hlock).gone j hone hlt
      · exact ⟨reclaimer, hentry hlock, hreclaimer⟩
    · exact h.move hlive ⟨hmade, hgone, hstepped⟩
    · exact h.move hlive trivial

/-! ## Runs -/

/-- a life moving on, where a process being born stands nowhere -/
theorem sound_setLife (h : Sound m s author) {life : Life} (hborn : s.life p ≠ .unborn → life = .dead) (hlife : life ≠ .unborn)
    (hdead : s.life p ≠ .dead) : Sound m (s.setLife p life) author := by
  have hself : (s.setLife p life).life p = life := Function.update_self ..
  have hother {q : P} (hq : q ≠ p) : (s.setLife p life).life q = s.life q := Function.update_of_ne hq ..
  have hages : Ages s (s.setLife p life) := by
    intro q
    by_cases hq : q = p
    · subst hq
      rw [hself]
      exact ⟨fun _ => hlife, fun h => absurd h hdead⟩
    · rw [hother hq]
      exact ⟨fun h => h, fun h => h⟩
  have hframes : Frames s (s.setLife p life) := ⟨hages, rfl, fun _ _ _ _ h => h⟩
  refine ⟨fun q hq => ?_, fun q hq => ?_, fun r hr => (h.lock r hr).ages hages, fun k n r hr => (h.entries k n r hr).ages hages⟩
  · by_cases hqp : q = p
    · rw [hqp, hself] at hq
      exact absurd hq hlife
    · rw [hother hqp] at hq
      exact h.unborn q hq
  · by_cases hqp : q = p
    · subst hqp
      rw [hself] at hq
      cases hwas : s.life q with
      | unborn =>
        show Fits m _ author q (s.phase q)
        rw [h.unborn q hwas]
        trivial
      | live | dead =>
        rw [hborn (by rw [hwas]; exact fun h => by cases h)] at hq
        cases hq
    · rw [hother hqp] at hq
      exact (h.fits q hq).frames hframes

/-- **One step.** -/
theorem sound_step (h : Sound m s author) {event : Event P} (hallowed : s.Allowed m event) (hauthored : Authored m author event) :
    Sound m (s.step m event) author := by
  cases event with
  | born p =>
    have hwas : s.life p = .unborn := hallowed
    exact sound_setLife h (fun h => absurd hwas h) (fun h => by cases h) (by rw [hwas]; exact fun h => by cases h)
  | acquire p acquiredAt verb => exact h.move hallowed.1 hauthored
  | act p gone patient => exact fits_act h hallowed
  | release p =>
    show Sound m (s.release p) author
    unfold State.release
    split
    · next body hphase => exact sound_release h hallowed hphase
    · exact h
  | abandon p =>
    show Sound m (s.abandon p) author
    unfold State.abandon
    split
    · exact h.move hallowed trivial
    · exact h
  | dies p =>
    have hwas : s.life p = .live := hallowed
    exact sound_setLife h (fun _ => rfl) (fun h => by cases h) (by rw [hwas]; exact fun h => by cases h)

/-- **A run has one writer.** Where no two claims make records of one key, in every state of every run each live holder's
record is in the lock, and one process at most holds it. -/
theorem one_writer (m : Machine P) (events : List (Event P)) (hrun : Admits (State.step m) (State.Allowed m) {} events)
    (hkeys : ((claims m events).map fun c => reclaimKey c.2).Nodup) : (events.foldl (State.step m) {}).OneWriter := by
  obtain ⟨author, hauthor⟩ := exists_author hkeys
  have hauthored : ∀ e ∈ events, Authored m author e := by
    intro e he
    cases e with
    | acquire p acquiredAt verb =>
      exact ⟨hauthor (p, State.recordOf m p acquiredAt verb) (mem_claims he), rfl⟩
    | _ => trivial
  have hsound : Sound m (events.foldl (State.step m) {}) author :=
    (hrun.and_forall hauthored).invariant (I := fun s => Sound m s author) (fun s e hs he => sound_step hs he.1 he.2)
      (sound_empty m author)
  exact oneWriter_of_sound hsound

end

/-! ## One key, two records -/

instance {P : Type} [DecidableEq P] [Fintype P] (m : Machine P) (s : State P) : ∀ e, Decidable (s.Allowed m e)
  | .born p => inferInstanceAs (Decidable (s.life p = .unborn))
  | .acquire p _ _ => inferInstanceAs (Decidable (s.life p = .live ∧ s.phase p = .idle))
  | .act p gone _ =>
    decidable_of_iff (s.life p = .live ∧ (gone = true → ∀ held ∈ (s.phase p).subject, ∀ q, m.pid q = held.pid → s.life q ≠ .live))
      Iff.rfl
  | .release p | .abandon p | .dies p => inferInstanceAs (Decidable (s.life p = .live))

instance {P : Type} [DecidableEq P] (s : State P) (p : P) (body : LockRecord) : Decidable (s.Holds p body) :=
  inferInstanceAs (Decidable (s.life p = .live ∧ s.phase p = .holding body))

/-- four processes of one host that says no start token -/
def four : Machine (Fin 4) := { hostname := "h", pid := fun p => p, token := fun _ => "" }

/-- a holder dies, and of two that read its record one steps over the other, which died with its entry made -/
def steppedOver : List (Event (Fin 4)) :=
  [.born 0, .born 1, .born 2, .acquire 0 "t" driveVerb, .act 0 false false, .dies 0,
    .acquire 1 "u" replyVerb, .act 1 false false, .act 1 false false, .act 1 true false, .act 1 false false, .dies 1,
    .acquire 2 "v" driveVerb, .act 2 false false, .act 2 false false, .act 2 true false, .act 2 false false,
    .act 2 false false, .act 2 false false, .act 2 true false, .act 2 false false, .act 2 false false, .act 2 false false,
    .act 2 false false, .act 2 false false]

theorem steppedOver_has_one_writer :
    (steppedOver.foldl (State.step four) {}).Holds 2 (State.recordOf four 2 "v" driveVerb) ∧
      (steppedOver.foldl (State.step four) {}).OneWriter :=
  ⟨by decide, one_writer four steppedOver (by decide) (by decide)⟩

/-- the first process takes the lock twice in one instant, once to reply and once to drive, and dies; the second read the
first record, the others the one in the lock -/
def sharedKey : List (Event (Fin 4)) :=
  [.born 0, .born 1, .born 2, .born 3, .acquire 0 "t" replyVerb, .act 0 false false,
    .acquire 1 "s" driveVerb, .act 1 false false, .act 1 false false,
    .release 0, .acquire 0 "t" driveVerb, .act 0 false false, .dies 0, .act 1 true false,
    .acquire 2 "u" driveVerb, .act 2 false false, .act 2 false false, .act 2 true false,
    -- the second makes an entry under the key of both, and the third finds it
    .act 1 false false, .act 1 false false, .act 2 false false, .act 2 false false, .act 2 false false,
    -- the second takes it away and dies, and the fourth makes it again
    .act 1 false false, .dies 1, .acquire 3 "v" driveVerb, .act 3 false false, .act 3 false false, .act 3 true false,
    .act 3 false false, .act 3 false false,
    -- the third steps over the second, which is gone, and both come to replace the dead record
    .act 2 true false, .act 2 false false, .act 2 false false,
    .act 3 false false, .act 3 false false, .act 2 false false, .act 2 false false, .act 2 false false]

/-- **Two writers.** No two of the records are equal, and two live processes hold the run. -/
theorem shared_key_admits_two :
    ¬∀ events : List (Event (Fin 4)), Admits (State.step four) (State.Allowed four) {} events →
      ((claims four events).map Prod.snd).Nodup → (events.foldl (State.step four) {}).OneWriter := by
  intro hall
  have hwriter := hall sharedKey (by decide) (by decide)
  have hthird : (sharedKey.foldl (State.step four) {}).Holds 2 (State.recordOf four 2 "u" driveVerb) := by decide
  have hfourth : (sharedKey.foldl (State.step four) {}).Holds 3 (State.recordOf four 3 "v" driveVerb) := by decide
  exact absurd (hwriter.one 2 3 _ _ hthird hfourth) (by decide)

end OnePipeline.Ownership
