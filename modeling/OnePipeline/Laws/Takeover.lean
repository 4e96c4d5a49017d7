/-
At most one driver of a project publishes at a time, while no step hides a publication under way.

The two keys are written unconditionally, so a third driver can lose sight of a publication: it takes over from a driver
that was itself still waiting (`takeover_of_a_waiting_driver`), or a fence is written over another driver's, or an
acknowledgement over a newer claim or beside a publication it is not about. `HidesNothing` says of a step, on the state
before it, that it does none of that.

Results:
- `Held`: the invariant, on the driver whose claim stands; `held_step` keeps it over every step that hides nothing;
- `publishing_step_subset`: only a driver's own read before it publishes adds to what it publishes;
- `one_publishes`: a publication starts only where no other driver has one under way.
-/
import Mathlib.Tactic
import OnePipeline.Core.Runs
import OnePipeline.Model.Takeover

namespace OnePipeline.Takeover

open Runs

/-! ## What a step may hide -/

/-- whether the claim that stands is of a driver still waiting in its hand-over -/
def Waits (s : State) : Prop := ∃ c a, s.store.claim = some (c, a) ∧ (s.drivers c.name).standing = .waiting

/-- whether a fence names a driver -/
def NamedBy (publishing : Option Publishing) (n : DriverName) : Prop := ∃ p, publishing = some p ∧ p.name = n

/-- whether a pass of a driver writes its fence -/
def WritesFence (d : Driver) : Prop :=
  (d.standing = .driving ∨ isSuperseded d = true ∧ d.nodes ≠ ∅) ∧ d.pass = .idle ∧ covered d d.nodes = false

/--
A step that hides no publication under way:
- a takeover's claim is written where every publication under way is the displaced driver's, and the fence names it;
- while a takeover waits, a fence is written or cleared only where no other driver has a publication under way, and an
  acknowledgement only where none has;
- an acknowledgement is written while the claim it acknowledges stands.
-/
def HidesNothing (s : State) : Op → Prop
  | .claim n true => (s.drivers n).standing = .launching → ∀ e, (s.drivers e).publishing ≠ ∅ →
      (∃ c, (s.drivers n).displaced = some c ∧ c.name = e) ∧ NamedBy s.store.publishing e
  | .fence n true => Waits s → WritesFence (s.drivers n) → ∀ e, e ≠ n → (s.drivers e).publishing = ∅
  | .clearFence n true => Waits s → (s.drivers n).pass = .clearing → ∀ e, e ≠ n → (s.drivers e).publishing = ∅
  | .acknowledge n true => ∀ c, (s.drivers n).standing = .superseded c true →
      s.store.claim.map Prod.fst = some c ∧ (Waits s → ∀ e, (s.drivers e).publishing = ∅)
  | _ => True

/-! ## The invariant -/

/-- a driver past the write of its claim -/
def Claimed (d : Driver) : Prop := d.standing ≠ .absent ∧ d.standing ≠ .launching

/-- a driver waiting or driving -/
def Active (d : Driver) : Prop := d.standing = .waiting ∨ d.standing = .driving

structure Held (s : State) : Prop where
  /-- the claim that stands is of a driver waiting or driving -/
  holder : ∃ c a, s.store.claim = some (c, a) ∧ (s.drivers c.name).mine = c ∧ Active (s.drivers c.name)
  mine : ∀ n, (s.drivers n).standing ≠ .absent → (s.drivers n).mine.name = n
  /-- a launch took over from a claim written before -/
  displaced : ∀ n c, (s.drivers n).displaced = some c → Claimed (s.drivers c.name) ∧ (s.drivers c.name).mine = c
  /-- no driver waiting or driving took over from the claim that stands -/
  later : ∀ n c a, Active (s.drivers n) → s.store.claim = some (c, a) → (s.drivers n).displaced ≠ some c
  clearing : ∀ n, (s.drivers n).pass = .clearing → (s.drivers n).publishing = ∅
  /-- while a takeover waits, what is under way is the displaced driver's and the fence names it -/
  waiting : ∀ c a, s.store.claim = some (c, a) → (s.drivers c.name).standing = .waiting →
    (∀ e, (s.drivers e).publishing ≠ ∅ →
      (∃ c', (s.drivers c.name).displaced = some c' ∧ c'.name = e) ∧ NamedBy s.store.publishing e) ∧
      (a.isSome → ∀ e, (s.drivers e).publishing = ∅)
  /-- once it drives, nothing of another driver's is -/
  driving : ∀ c a, s.store.claim = some (c, a) → (s.drivers c.name).standing = .driving →
    ∀ e, e ≠ c.name → (s.drivers e).publishing = ∅

variable {s : State} {n : DriverName}

@[simp] theorem set_store (s : State) (n : DriverName) (d : Driver) : (s.set n d).store = s.store := rfl

theorem set_drivers (s : State) (n e : DriverName) (d : Driver) :
    (s.set n d).drivers e = if e = n then d else s.drivers e := Function.update_apply _ _ _ _

@[simp] theorem set_self (s : State) (n : DriverName) (d : Driver) : (s.set n d).drivers n = d := Function.update_self _ _ _

@[simp] theorem set_ne (s : State) {n e : DriverName} (h : e ≠ n) (d : Driver) : (s.set n d).drivers e = s.drivers e :=
  Function.update_of_ne h _ _

/-- a change of one driver that neither takes its claim back nor adds to what it publishes -/
structure Touches (s : State) (n : DriverName) (d : Driver) : Prop where
  mine : d.mine = (s.drivers n).mine
  displaced : d.displaced = (s.drivers n).displaced
  claimed : Claimed (s.drivers n) → Claimed d
  active : Active d → Active (s.drivers n)
  present : d.standing ≠ .absent → (s.drivers n).standing ≠ .absent
  publishing : d.publishing ⊆ (s.drivers n).publishing
  clearing : d.pass = .clearing → d.publishing = ∅
  /-- the driver whose claim stands goes on waiting or driving, and starts where nothing is under way -/
  holder : ∀ c a, s.store.claim = some (c, a) → c.name = n → Active d ∧
    (d.standing = .waiting → (s.drivers n).standing = .waiting) ∧
    (d.standing = .driving → (s.drivers n).standing = .driving ∨ ∀ e, (s.drivers e).publishing = ∅)

theorem Held.touch (h : Held s) {d : Driver} (t : Touches s n d) : Held (s.set n d) := by
  have hpub (e : DriverName) (he : (s.drivers e).publishing = ∅) : ((s.set n d).drivers e).publishing = ∅ := by
    rw [set_drivers]
    split_ifs with hen
    · exact Finset.subset_empty.mp ((hen ▸ he) ▸ t.publishing)
    · exact he
  have hclaimed (e : DriverName) (he : Claimed (s.drivers e)) : Claimed ((s.set n d).drivers e) := by
    rw [set_drivers]
    split_ifs with hen
    · exact t.claimed (hen ▸ he)
    · exact he
  have hmine (e : DriverName) : ((s.set n d).drivers e).mine = (s.drivers e).mine := by
    rw [set_drivers]
    split_ifs with hen
    · rw [hen, t.mine]
    · rfl
  have hdisp (e : DriverName) : ((s.set n d).drivers e).displaced = (s.drivers e).displaced := by
    rw [set_drivers]
    split_ifs with hen
    · rw [hen, t.displaced]
    · rfl
  refine ⟨?_, fun e he => ?_, fun e c hc => ?_, fun e c a he hc => ?_, fun e he => ?_, fun c a hc hw => ?_,
    fun c a hc hd e hne => ?_⟩
  · obtain ⟨c, a, hc, hm, hs⟩ := h.holder
    refine ⟨c, a, hc, (hmine _).trans hm, ?_⟩
    rw [set_drivers]
    split_ifs with hcn
    · exact (t.holder c a hc hcn).1
    · exact hs
  · rw [hmine]
    refine h.mine e fun habsent => ?_
    rw [set_drivers] at he
    split_ifs at he with hen
    · exact t.present he (hen ▸ habsent)
    · exact he habsent
  · rw [hdisp] at hc
    rw [hmine]
    exact ⟨hclaimed _ (h.displaced e c hc).1, (h.displaced e c hc).2⟩
  · rw [hdisp]
    refine h.later e c a ?_ hc
    rw [set_drivers] at he
    split_ifs at he with hen
    · exact hen ▸ t.active he
    · exact he
  · rw [set_drivers] at he ⊢
    split_ifs at he ⊢
    · exact t.clearing he
    · exact h.clearing e he
  · have hwaited : (s.drivers c.name).standing = .waiting := by
      rw [set_drivers] at hw
      split_ifs at hw with hcn
      · rw [hcn]
        exact (t.holder c a hc hcn).2.1 hw
      · exact hw
    obtain ⟨hnamed, hack⟩ := h.waiting c a hc hwaited
    refine ⟨fun e he => ?_, fun ha e => hpub e (hack ha e)⟩
    rw [hdisp]
    exact hnamed e fun hnone => he (hpub e hnone)
  · rw [set_drivers] at hd
    split_ifs at hd with hcn
    · rcases (t.holder c a hc hcn).2.2 hd with hdrove | hnone
      · exact hpub e (h.driving c a hc (hcn ▸ hdrove) e hne)
      · exact hpub e (hnone e)
    · exact hpub e (h.driving c a hc hd e hne)

/-- the fence replaced, where it goes on naming whatever is under way beside a waiting takeover -/
theorem Held.refence (h : Held s) {p : Option Publishing}
    (hp : Waits s → ∀ e, (s.drivers e).publishing ≠ ∅ → NamedBy p e) :
    Held { s with store := { s.store with publishing := p } } where
  holder := h.holder
  mine := h.mine
  displaced := h.displaced
  later := h.later
  clearing := h.clearing
  waiting c a hc hw := by
    obtain ⟨hnamed, hack⟩ := h.waiting c a hc hw
    exact ⟨fun e he => ⟨(hnamed e he).1, hp ⟨c, a, hc, hw⟩ e he⟩, hack⟩
  driving := h.driving

/-! ## The steps -/

theorem held_launched (mine : DriverClaim) : Held (launched mine) := by
  have hdrivers (e : DriverName) : (launched mine).drivers e =
      if e = mine.name then { standing := .driving, mine } else { mine := default } := by
    simp only [launched, Function.update_apply]
  refine ⟨⟨mine, none, rfl, ?_, ?_⟩, fun e he => ?_, fun e c hc => ?_, fun e c a _ _ hc => ?_, fun e he => ?_,
    fun c a hc hw => ?_, fun c a hc hd e _ => ?_⟩
  · rw [hdrivers, if_pos rfl]
  · rw [hdrivers, if_pos rfl]
    exact Or.inr rfl
  · rw [hdrivers] at he ⊢
    split_ifs at he ⊢ with hen
    · exact hen.symm
    · exact absurd rfl he
  · rw [hdrivers] at hc
    split_ifs at hc
  · rw [hdrivers] at hc
    split_ifs at hc
  · rw [hdrivers]
    split_ifs <;> rfl
  · cases hc
    rw [hdrivers, if_pos rfl] at hw
    cases hw
  · rw [hdrivers]
    split_ifs <;> rfl

/-- a driver the standing claim does not name is not waiting or driving by it -/
theorem Held.not_holder (h : Held s) (hn : ¬Active (s.drivers n)) (c : DriverClaim) (a : Option Acknowledgement) (hc : s.store.claim = some (c, a)) : c.name ≠ n := by
  obtain ⟨c', a', hc', -, hor⟩ := h.holder
  rw [hc] at hc'
  cases hc'
  intro hcn
  exact hn (hcn ▸ hor)

theorem held_launch (h : Held s) (mine : DriverClaim) : Held (launch s mine) := by
  obtain ⟨c, a, hc, hm, hor⟩ := h.holder
  have hclaimed : Claimed (s.drivers c.name) := by
    rcases hor with hw | hd
    · exact ⟨by simp [hw], by simp [hw]⟩
    · exact ⟨by simp [hd], by simp [hd]⟩
  unfold launch
  rw [hc]
  cases habsent : (s.drivers mine.name).standing with
  | absent =>
    have hne : c.name ≠ mine.name := h.not_holder (by simp [Active, habsent]) c a hc
    refine ⟨⟨c, a, hc, ?_, ?_⟩, fun e he => ?_, fun e c' hc' => ?_, fun e c' a' he hc' => ?_, fun e he => ?_,
      fun c' a' hc' hw => ?_, fun c' a' hc' hd e he => ?_⟩
    · rw [set_ne s hne]
      exact hm
    · rw [set_ne s hne]
      exact hor
    · rw [set_drivers] at he ⊢
      split_ifs at he ⊢ with hen
      · exact hen.symm
      · exact h.mine e he
    · have hin : Claimed (s.drivers c'.name) ∧ (s.drivers c'.name).mine = c' := by
        rw [set_drivers] at hc'
        split_ifs at hc' with hen
        · cases hc'
          exact ⟨hclaimed, hm⟩
        · exact h.displaced e c' hc'
      have hne' : c'.name ≠ mine.name := fun heq => hin.1.1 (heq ▸ habsent)
      rw [set_ne s hne']
      exact hin
    · by_cases hen : e = mine.name
      · rw [hen, set_self] at he
        rcases he with he | he <;> cases he
      · rw [set_ne s hen] at he ⊢
        exact h.later e c' a' he hc'
    · by_cases hen : e = mine.name
      · rw [hen, set_self] at he
        cases he
      · rw [set_ne s hen] at he ⊢
        exact h.clearing e he
    · have hcc : c' = c := by
        rw [set_store, hc] at hc'
        cases hc'
        rfl
      rw [hcc, set_ne s hne] at hw ⊢
      obtain ⟨hnamed, hack⟩ := h.waiting c a hc hw
      refine ⟨fun e he => ?_, fun ha e => ?_⟩
      · rw [set_drivers] at he
        split_ifs at he
        · exact absurd rfl he
        · exact hnamed e he
      · rw [set_store, hc] at hc'
        cases hc'
        rw [set_drivers]
        split_ifs
        · rfl
        · exact hack ha e
    · have hcc : c' = c := by
        rw [set_store, hc] at hc'
        cases hc'
        rfl
      rw [hcc, set_ne s hne] at hd
      rw [hcc] at he
      rw [set_drivers]
      split_ifs
      · rfl
      · exact h.driving c a hc hd e he
  | launching => exact h
  | waiting => exact h
  | driving => exact h
  | superseded c' owed => exact h
  | gone => exact h

theorem held_claim (h : Held s) (lands : Bool) (hhides : HidesNothing s (.claim n lands)) : Held (claim s n lands) := by
  unfold claim
  simp only
  split_ifs with hlaunch hlands
  · subst hlands
    have hmine : (s.drivers n).mine.name = n := h.mine n (by simp [hlaunch])
    have hunclaimed : ¬Claimed (s.drivers n) := fun hc => hc.2 hlaunch
    set d : Driver := { s.drivers n with standing := .waiting } with hd
    have hpub (e : DriverName) : ((s.set n d).drivers e).publishing = (s.drivers e).publishing := by
      rw [set_drivers]
      split_ifs with hen
      · rw [hen, hd]
      · rfl
    have hdisp (e : DriverName) : ((s.set n d).drivers e).displaced = (s.drivers e).displaced := by
      rw [set_drivers]
      split_ifs with hen
      · rw [hen, hd]
      · rfl
    -- a claim a driver took over from was written before this one
    have hbefore {e : DriverName} {c : DriverClaim} (hc : (s.drivers e).displaced = some c) : c.name ≠ n := by
      intro hcn
      have hin := (h.displaced e c hc).1
      rw [hcn] at hin
      exact hunclaimed hin
    refine ⟨⟨(s.drivers n).mine, none, rfl, ?_, ?_⟩, fun e he => ?_, fun e c hc => ?_, fun e c a he hc hdc => ?_,
      fun e he => ?_, fun c a hc hw => ?_, fun c a hc hdr e hne => ?_⟩
    · change ((s.set n d).drivers (s.drivers n).mine.name).mine = (s.drivers n).mine
      rw [hmine, set_self]
    · change Active ((s.set n d).drivers (s.drivers n).mine.name)
      rw [hmine, set_self]
      exact Or.inl rfl
    · change ((s.set n d).drivers e).standing ≠ .absent at he
      change ((s.set n d).drivers e).mine.name = e
      rw [set_drivers] at he ⊢
      split_ifs at he ⊢ with hen
      · rw [hen]
        exact hmine
      · exact h.mine e he
    · change ((s.set n d).drivers e).displaced = some c at hc
      rw [hdisp] at hc
      change Claimed ((s.set n d).drivers c.name) ∧ ((s.set n d).drivers c.name).mine = c
      rw [set_ne s (hbefore hc)]
      exact h.displaced e c hc
    · change ((s.set n d).drivers e).displaced = some c at hdc
      rw [hdisp] at hdc
      cases hc
      exact hbefore hdc hmine
    · change ((s.set n d).drivers e).publishing = ∅
      change ((s.set n d).drivers e).pass = .clearing at he
      rw [hpub]
      refine h.clearing e ?_
      rw [set_drivers] at he
      split_ifs at he with hen
      · rw [hen]
        exact he
      · exact he
    · cases hc
      refine ⟨fun e he => ?_, fun ha => by cases ha⟩
      change ((s.set n d).drivers e).publishing ≠ ∅ at he
      rw [hpub] at he
      obtain ⟨hwho, hnamed⟩ := hhides hlaunch e he
      refine ⟨?_, hnamed⟩
      change ∃ c', ((s.set n d).drivers (s.drivers n).mine.name).displaced = some c' ∧ c'.name = e
      rw [hdisp, hmine]
      exact hwho
    · cases hc
      change ((s.set n d).drivers (s.drivers n).mine.name).standing = .driving at hdr
      rw [hmine, set_self] at hdr
      cases hdr
  · exact h.touch
      { mine := rfl, displaced := rfl, publishing := Finset.Subset.refl _
        claimed := fun _ => ⟨by simp, by simp⟩
        active := fun hactive => by rcases hactive with hactive | hactive <;> cases hactive
        present := fun _ => by simp [hlaunch]
        clearing := h.clearing n
        holder := fun c a hc hcn => absurd hcn (h.not_holder (by simp [Active, hlaunch]) c a hc) }
  · exact h

/-- a change of one driver that leaves its standing alone -/
theorem Held.touch_within (h : Held s) {d : Driver} (hmine : d.mine = (s.drivers n).mine)
    (hdisp : d.displaced = (s.drivers n).displaced) (hstand : d.standing = (s.drivers n).standing)
    (hpub : d.publishing ⊆ (s.drivers n).publishing) (hclear : d.pass = .clearing → d.publishing = ∅) :
    Held (s.set n d) := by
  refine h.touch
    { mine := hmine, displaced := hdisp, publishing := hpub, clearing := hclear
      claimed := fun hc => ?_, active := fun ha => ?_, present := fun hp => hstand ▸ hp
      holder := fun c a hc hcn => ⟨?_, fun hw => hstand ▸ hw, fun hd => Or.inl (hstand ▸ hd)⟩ }
  · rw [Claimed, hstand]
    exact hc
  · rw [Active, ← hstand]
    exact ha
  · obtain ⟨c', a', hc', -, hor⟩ := h.holder
    rw [hc] at hc'
    cases hc'
    rw [Active, hstand, ← hcn]
    exact hor

/-- a driver the standing claim does not name lets go -/
theorem Held.touch_stopped (h : Held s) {standing : Standing} (hne : ∀ c a, s.store.claim = some (c, a) → c.name ≠ n)
    (hclaimed : Claimed (s.drivers n)) (hstand : standing ≠ .absent ∧ standing ≠ .launching)
    (hactive : standing ≠ .waiting ∧ standing ≠ .driving) {fenced : Option (Finset String)} {due : Finset String} :
    Held (s.set n { s.drivers n with standing, fenced, due, pass := .idle }) :=
  h.touch
    { mine := rfl, displaced := rfl, publishing := Finset.Subset.refl _
      claimed := fun _ => hstand
      active := fun ha => ha.elim (fun hw => absurd hw hactive.1) fun hd => absurd hd hactive.2
      present := fun _ => hclaimed.1
      clearing := fun hpass => by cases hpass
      holder := fun c a hc hcn => absurd hcn (hne c a hc) }

/-- the driver whose claim stands starts where nothing is under way -/
theorem Held.touch_starts (h : Held s) (hw : (s.drivers n).standing = .waiting)
    (hnone : ∀ e, (s.drivers e).publishing = ∅) : Held (s.set n { s.drivers n with standing := .driving }) :=
  h.touch
    { mine := rfl, displaced := rfl, publishing := Finset.Subset.refl _
      claimed := fun _ => ⟨by simp, by simp⟩
      active := fun _ => Or.inl hw
      present := fun _ => by simp [hw]
      clearing := h.clearing n
      holder := fun c a _ _ => ⟨Or.inr rfl, fun hwait => (by cases hwait), fun _ => Or.inr hnone⟩ }

theorem held_handOver (h : Held s) (answered past : Bool) : Held (handOver s n answered past) := by
  obtain ⟨c, a, hc, hm, -⟩ := h.holder
  unfold handOver
  simp only [hc, Bool.and_eq_true, decide_eq_true_eq]
  split_ifs with hwaits hmine hack hpast
  · -- acknowledged: nothing was under way when it was
    have hnone := (h.waiting c a hc (hmine.1 ▸ hwaits.1)).2 hack
    exact h.touch_starts hwaits.1 hnone
  · -- past its wait, with no fence of the displaced driver's: what is under way would be under that fence
    refine h.touch_starts hwaits.1 fun e => ?_
    by_contra hunder
    obtain ⟨⟨c', hdisp, hname⟩, p, hp, hpn⟩ := (h.waiting c a hc (hmine.1 ▸ hwaits.1)).1 e hunder
    have hstands : fenceStands s (s.drivers n) = true := by
      rw [hmine.1] at hdisp
      simp [fenceStands, hp, hdisp, hname, hpn]
    simp [hstands] at hpast
  · exact h
  · have hne : c.name ≠ n := by
      intro hcn
      rw [hcn] at hm
      exact hmine ⟨hcn, by rw [hm]⟩
    exact h.touch
      { mine := rfl, displaced := rfl, publishing := Finset.Subset.refl _
        claimed := fun _ => ⟨by simp, by simp⟩
        active := fun _ => Or.inl hwaits.1
        present := fun _ => by simp [hwaits.1]
        clearing := h.clearing n
        holder := fun c' a' hc' hcn => by
          rw [hc] at hc'
          cases hc'
          exact absurd hcn hne }
  · exact h

theorem held_due (h : Held s) (node : String) : Held (step s (.due n node)) := by
  simp only [step]
  split_ifs
  · exact h.touch_within rfl rfl rfl (Finset.Subset.refl _) (h.clearing n)
  · exact h

theorem held_settled (h : Held s) (node : String) : Held (step s (.settled n node)) := by
  simp only [step]
  split_ifs
  · refine h.touch_within rfl rfl rfl (Finset.erase_subset _ _) fun hpass => ?_
    rw [h.clearing n hpass, Finset.erase_empty]
  · exact h

theorem held_landed (h : Held s) (node : String) : Held (step s (.landed n node)) := by
  simp only [step]
  split_ifs
  · exact h.touch_within rfl rfl rfl (Finset.Subset.refl _) (h.clearing n)
  · exact h

/-- a fence over what a driver has under way names it where it has anything -/
theorem namedBy_of (n : DriverName) {d : Driver} (h : d.publishing ≠ ∅) : NamedBy (Publishing.of n d.nodes) n := by
  have hnodes : d.nodes ≠ ∅ := by
    intro hempty
    rw [Driver.nodes, Finset.union_eq_empty, Finset.union_eq_empty] at hempty
    exact h hempty.1.1
  exact ⟨_, if_neg hnodes, rfl⟩

theorem held_fence (h : Held s) (lands : Bool) (hhides : HidesNothing s (.fence n lands)) : Held (fence s n lands) := by
  unfold fence
  simp only
  have hidle {d : Driver} : afterFence d = .clearing → False := by
    unfold afterFence
    split_ifs <;> simp
  split_ifs with hpass hcovered hlands
  · exact h.touch_within rfl rfl rfl (Finset.Subset.refl _) fun hclear => (hidle hclear).elim
  · subst hlands
    have htouched : Held (s.set n { s.drivers n with
        fenced := some (s.drivers n).nodes, pass := afterFence (s.drivers n) }) :=
      h.touch_within rfl rfl rfl (Finset.Subset.refl _) fun hclear => (hidle hclear).elim
    refine htouched.refence fun hwaits e he => ?_
    have hunder : (s.drivers e).publishing ≠ ∅ := by
      rw [set_drivers] at he
      split_ifs at he with hen
      · exact hen ▸ he
      · exact he
    have hwaited : Waits s := by
      obtain ⟨c, a, hc, hw⟩ := hwaits
      refine ⟨c, a, hc, ?_⟩
      rw [set_drivers] at hw
      split_ifs at hw with hcn
      · exact hcn ▸ hw
      · exact hw
    by_cases hen : e = n
    · rw [hen] at hunder ⊢
      exact namedBy_of n hunder
    · have hwrites : WritesFence (s.drivers n) := by
        simpa [WritesFence, hcovered] using hpass
      exact absurd (hhides hwaited hwrites e hen) hunder
  · exact h.touch_within rfl rfl rfl (Finset.Subset.refl _) (h.clearing n)
  · exact h

theorem held_readFence (h : Held s) (answered : Bool) : Held (readFence s n answered) := by
  unfold readFence
  simp only
  split_ifs with hread hnone
  · exact h.touch_within rfl rfl rfl (Finset.Subset.refl _) fun hpass => by cases hpass
  · refine h.touch_within rfl rfl rfl (Finset.Subset.refl _) fun _ => ?_
    simp only [Bool.and_eq_true, decide_eq_true_eq, Driver.nodes, Finset.union_eq_empty] at hread
    exact hread.1.1.1.2.1.1
  · exact h

theorem held_clearFence (h : Held s) (lands : Bool) (hhides : HidesNothing s (.clearFence n lands)) :
    Held (clearFence s n lands) := by
  unfold clearFence
  simp only
  split_ifs with hpass hlands
  · subst hlands
    have htouched : Held (s.set n { s.drivers n with fenced := some ∅, pass := .idle }) :=
      h.touch_within rfl rfl rfl (Finset.Subset.refl _) fun hclear => by cases hclear
    refine htouched.refence fun hwaits e he => ?_
    have hwaited : Waits s := by
      obtain ⟨c, a, hc, hw⟩ := hwaits
      refine ⟨c, a, hc, ?_⟩
      rw [set_drivers] at hw
      split_ifs at hw with hcn
      · exact hcn ▸ hw
      · exact hw
    rw [set_drivers] at he
    split_ifs at he with hen
    · exact absurd (h.clearing n hpass) he
    · exact absurd (hhides hwaited hpass e hen) he
  · exact h.touch_within rfl rfl rfl (Finset.Subset.refl _) fun hclear => by cases hclear
  · exact h

/-- a driving driver that is not superseded is the one whose claim stands -/
theorem Held.holder_of_publishes (h : Held s) (hd : (s.drivers n).standing = .driving) {c : DriverClaim}
    {a : Option Acknowledgement} (hc : s.store.claim = some (c, a)) (hs : supersedes n (s.drivers n) c = false) :
    c.name = n := by
  by_contra hne
  have hlater := h.later n c a (Or.inr hd) hc
  simp [supersedes, hne, hlater] at hs

/-- the driving driver whose claim stands may publish -/
theorem Held.publishes (h : Held s) {c : DriverClaim} {a : Option Acknowledgement} (hc : s.store.claim = some (c, a))
    (hcn : c.name = n) (hd : (s.drivers n).standing = .driving) {fenced : Option (Finset String)}
    {publishing due : Finset String} :
    Held (s.set n { s.drivers n with fenced, publishing, due, pass := .idle }) := by
  set d : Driver := { s.drivers n with fenced, publishing, due, pass := .idle } with hdef
  have hstand (e : DriverName) : ((s.set n d).drivers e).standing = (s.drivers e).standing := by
    rw [set_drivers]
    split_ifs with hen
    · rw [hen, hdef]
    · rfl
  have hmine (e : DriverName) : ((s.set n d).drivers e).mine = (s.drivers e).mine := by
    rw [set_drivers]
    split_ifs with hen
    · rw [hen, hdef]
    · rfl
  have hdisp (e : DriverName) : ((s.set n d).drivers e).displaced = (s.drivers e).displaced := by
    rw [set_drivers]
    split_ifs with hen
    · rw [hen, hdef]
    · rfl
  refine ⟨?_, fun e he => ?_, fun e c' hc' => ?_, fun e c' a' he hc' => ?_, fun e he => ?_, fun c' a' hc' hw => ?_,
    fun c' a' hc' hdr e hne => ?_⟩
  · obtain ⟨c', a', hc', hm, hor⟩ := h.holder
    refine ⟨c', a', hc', (hmine _).trans hm, ?_⟩
    rw [Active, hstand]
    exact hor
  · rw [hstand] at he
    rw [hmine]
    exact h.mine e he
  · rw [hdisp] at hc'
    rw [Claimed, hstand, hmine]
    exact h.displaced e c' hc'
  · rw [Active, hstand] at he
    rw [hdisp]
    exact h.later e c' a' he hc'
  · by_cases hen : e = n
    · rw [hen, set_self, hdef] at he
      cases he
    · rw [set_ne s hen] at he ⊢
      exact h.clearing e he
  · rw [set_store, hc] at hc'
    cases hc'
    rw [hstand, hcn, hd] at hw
    cases hw
  · rw [set_store, hc] at hc'
    cases hc'
    rw [set_ne s (hcn ▸ hne)]
    exact h.driving c a hc (hcn ▸ hd) e hne

theorem held_beforePublishing (h : Held s) (answered : Bool) : Held (beforePublishing s n answered) := by
  obtain ⟨c, a, hc, -, -⟩ := h.holder
  unfold beforePublishing
  simp only [hc, Bool.and_eq_true, decide_eq_true_eq]
  split_ifs with hpass hanswered hsuper
  · refine h.touch_stopped (fun c' a' hc' hcn => ?_) ⟨by simp [hpass.1], by simp [hpass.1]⟩ ⟨by simp, by simp⟩
      ⟨by simp, by simp⟩
    rw [hc] at hc'
    cases hc'
    simp [supersedes, hcn] at hsuper
  · -- the driver that publishes is the one whose claim stands, and it drives
    have hcn : c.name = n := h.holder_of_publishes hpass.1 hc (by simpa using hsuper)
    exact h.publishes hc hcn hpass.1
  · exact h.touch_within rfl rfl rfl (Finset.Subset.refl _) fun hclear => by cases hclear
  · exact h

/-- the standing claim acknowledged, where nothing is under way beside a waiting takeover -/
theorem Held.acked (h : Held s) {c : DriverClaim} {a a' : Option Acknowledgement} (hc : s.store.claim = some (c, a))
    (hnone : Waits s → ∀ e, (s.drivers e).publishing = ∅) :
    Held { s with store := { s.store with claim := some (c, a') } } where
  holder := by
    obtain ⟨c', b, hc', hm, hor⟩ := h.holder
    rw [hc] at hc'
    cases hc'
    exact ⟨c, a', rfl, hm, hor⟩
  mine := h.mine
  displaced := h.displaced
  later e c' b he hc' := by
    cases hc'
    exact h.later e c a he hc
  clearing := h.clearing
  waiting c' b hc' hw := by
    cases hc'
    exact ⟨(h.waiting c a hc hw).1, fun _ => hnone ⟨c, a, hc, hw⟩⟩
  driving c' b hc' hd := by
    cases hc'
    exact h.driving c a hc hd

theorem held_acknowledge (h : Held s) (lands : Bool) (hhides : HidesNothing s (.acknowledge n lands)) :
    Held (acknowledge s n lands) := by
  unfold acknowledge
  simp only
  split
  · rename_i c hstand
    have hacknowledged : Held (s.set n { s.drivers n with standing := .superseded c false }) :=
      h.touch
        { mine := rfl, displaced := rfl, publishing := Finset.Subset.refl _
          claimed := fun _ => ⟨by simp, by simp⟩
          active := fun ha => ha.elim (fun hw => by cases hw) fun hd => by cases hd
          present := fun _ => by simp [hstand]
          clearing := h.clearing n
          holder := fun c' a hc hcn => absurd hcn (h.not_holder (by simp [Active, hstand]) c' a hc) }
    split_ifs with hdone hlands
    · subst hlands
      obtain ⟨hclaim, hnone⟩ := hhides c hstand
      rw [Option.map_eq_some_iff] at hclaim
      obtain ⟨⟨c', a⟩, hc, rfl⟩ := hclaim
      refine hacknowledged.acked hc fun hwaits e => ?_
      have hwaited : Waits s := by
        obtain ⟨c, a, hc, hw⟩ := hwaits
        refine ⟨c, a, hc, ?_⟩
        rw [set_drivers] at hw
        split_ifs at hw with hcn
        exact hw
      rw [set_drivers]
      split_ifs with hen
      · exact hnone hwaited n
      · exact hnone hwaited e
    · exact hacknowledged
    · exact h
  · exact h

/-- every step that hides nothing keeps what is held -/
theorem held_step (s : State) (op : Op) (h : Held s) (hhides : HidesNothing s op) : Held (step s op) := by
  cases op with
  | launch mine => exact held_launch h mine
  | claim n lands => exact held_claim h lands hhides
  | handOver n answered past => exact held_handOver h answered past
  | due n node => exact held_due h node
  | fence n lands => exact held_fence h lands hhides
  | readFence n answered => exact held_readFence h answered
  | clearFence n lands => exact held_clearFence h lands hhides
  | beforePublishing n answered => exact held_beforePublishing h answered
  | settled n node => exact held_settled h node
  | landed n node => exact held_landed h node
  | acknowledge n lands => exact held_acknowledge h lands hhides

/-! ## One publication's driver -/

/-- a step gives a driver's publication the verdict to publish -/
def Publishes (s : State) (op : Op) (n : DriverName) : Prop :=
  ∃ node, node ∉ (s.drivers n).publishing ∧ node ∈ ((step s op).drivers n).publishing

theorem set_publishing_subset {m : DriverName} {d : Driver} (h : d.publishing ⊆ (s.drivers m).publishing) (n : DriverName) :
    ((s.set m d).drivers n).publishing ⊆ (s.drivers n).publishing := by
  rw [set_drivers]
  split_ifs with hnm
  · exact hnm ▸ h
  · exact Finset.Subset.refl _

/-- only a read before publishing adds to what a driver publishes -/
theorem publishing_step_subset (s : State) (op : Op) (n : DriverName)
    (hop : ∀ answered, op ≠ .beforePublishing n answered) :
    ((step s op).drivers n).publishing ⊆ (s.drivers n).publishing := by
  have hsame (m : DriverName) : (s.drivers m).publishing ⊆ (s.drivers m).publishing := Finset.Subset.refl _
  have hset {m : DriverName} {d : Driver} (h : d.publishing = (s.drivers m).publishing) :
      ((s.set m d).drivers n).publishing ⊆ (s.drivers n).publishing := set_publishing_subset h.subset n
  cases op with
  | launch mine =>
    simp only [step, launch]
    split
    · exact set_publishing_subset (Finset.empty_subset _) n
    · exact hsame n
  | claim m lands =>
    simp only [step, claim]
    split_ifs
    · exact hset rfl
    · exact hset rfl
    · exact hsame n
  | handOver m answered past =>
    simp only [step, handOver]
    split_ifs
    · split
      · split_ifs <;> first | exact hsame n | exact hset rfl
      · exact hset rfl
    · split
      · split_ifs <;> first | exact hsame n | exact hset rfl
      · exact hsame n
    · exact hsame n
  | due m node =>
    simp only [step]
    split_ifs
    · exact hset rfl
    · exact hsame n
  | fence m lands =>
    simp only [step, fence]
    split_ifs
    · exact hset rfl
    · exact hset rfl
    · exact hset rfl
    · exact hsame n
  | readFence m answered =>
    simp only [step, readFence]
    split_ifs
    · exact hset rfl
    · exact hset rfl
    · exact hsame n
  | clearFence m lands =>
    simp only [step, clearFence]
    split_ifs
    · exact hset rfl
    · exact hset rfl
    · exact hsame n
  | beforePublishing m answered =>
    have hne : n ≠ m := fun hnm => hop answered (by rw [hnm])
    simp only [step, beforePublishing]
    split_ifs
    · split
      · split_ifs
        · rw [set_ne s hne]
        · rw [set_ne s hne]
      · rw [set_ne s hne]
    · rw [set_ne s hne]
    · exact hsame n
  | settled m node =>
    simp only [step]
    split_ifs
    · exact set_publishing_subset (Finset.erase_subset _ _) n
    · exact hsame n
  | landed m node =>
    simp only [step]
    split_ifs
    · exact hset rfl
    · exact hsame n
  | acknowledge m lands =>
    simp only [step, acknowledge]
    split
    · split_ifs
      · exact hset rfl
      · exact hset rfl
      · exact hsame n
    · exact hsame n

/-- where the invariant holds, a driver starts a publication only where no other has one under way -/
theorem Held.exclusive (h : Held s) {op : Op} (hp : Publishes s op n) : ∀ e, e ≠ n → (s.drivers e).publishing = ∅ := by
  obtain ⟨node, hnew, hin⟩ := hp
  obtain ⟨answered, rfl⟩ : ∃ answered, op = .beforePublishing n answered := by
    by_contra hno
    exact hnew (publishing_step_subset s op n (fun answered heq => hno ⟨answered, heq⟩) hin)
  obtain ⟨c, a, hc, -, -⟩ := h.holder
  simp only [step, beforePublishing, hc, Bool.and_eq_true, decide_eq_true_eq] at hin
  split_ifs at hin with hpass hanswered hsuper
  · rw [set_self] at hin
    exact absurd hin hnew
  · have hcn : c.name = n := h.holder_of_publishes hpass.1 hc (by simpa using hsuper)
    intro e hne
    exact h.driving c a hc (hcn ▸ hpass.1) e (hcn ▸ hne)
  · rw [set_self] at hin
    exact absurd hin hnew
  · exact absurd hin hnew

/-- a claim of a run on one host -/
def claimOf (run : String) : DriverClaim :=
  { run, host := "host", pid := 1, claimedAt := "2026-01-01T00:00:00.000Z", lease := some ⟨300, 30⟩ }

/-- a driver publishing, a second waiting for it, and a third that takes over from the second and reads, past its wait,
a fence of the first's -/
def overlapping : List Op :=
  [.due (claimOf "a").name "x", .fence (claimOf "a").name true, .beforePublishing (claimOf "a").name true,
   .launch (claimOf "b"), .claim (claimOf "b").name true,
   .launch (claimOf "c"), .claim (claimOf "c").name true, .handOver (claimOf "c").name true true,
   .due (claimOf "c").name "y", .fence (claimOf "c").name true]

end OnePipeline.Takeover
