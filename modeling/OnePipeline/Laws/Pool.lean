/-
The paced reads of the workspace pool (`src/pool.rs`), over passes of the loop.

A refusal is dropped only by asking for its node again, and `next_read` counts every refusal and the last read whatever they are
of: a refused node that is not asked for again leaves the loop no wait, and so does an old read beside a newer refusal
(`pool_spins`).

Results:
- `readsOrDrops_iff`: when the asks of a pass read an identity or drop a refusal;
- `get_refused_asked`: which refusals are left after it;
- `pool_paced`: along any run of passes, exactly when no wait is skipped and no due refusal outlasts a pass.
-/
import OnePipeline.Model.Pool

namespace OnePipeline

namespace Workspaces

variable {w : Workspaces} {ask : Ask} {asks : List Ask} {node : String} {now : ℕ}

/-! ## One ask -/

/-- a refusal of a node is past its pace -/
def Due (w : Workspaces) (node : String) (now : ℕ) : Prop :=
  ∃ since reading, w.refused[node]? = some (since, reading) ∧ w.every ≤ now - since

theorem standing_eq_none : w.standing node now = none ↔ node ∉ w.refused ∨ w.Due node now := by
  unfold standing Due
  cases h : w.refused[node]? with
  | none => simp [Maps.not_mem_iff, h]
  | some p =>
    obtain ⟨since, reading⟩ := p
    simp [Maps.mem_iff, h]

/-- an identity is read for a node -/
def Reads (w : Workspaces) (ask : Ask) : Prop := w.standing ask.node ask.at' = none ∧ ∃ capacity, ask.capacity = .ok capacity

/-- a node's refusal is dropped -/
def Drops (w : Workspaces) (ask : Ask) : Prop := ask.node ∈ w.refused ∧ ask.node ∉ (w.admitNode ask).1.refused

@[simp] theorem every_hold (reading : PoolReading) : (w.hold node reading).every = w.every := rfl

@[simp] theorem refused_hold (reading : PoolReading) : (w.hold node reading).refused = w.refused := rfl

theorem every_admitNode : (w.admitNode ask).1.every = w.every := by
  unfold admitNode
  cases w.standing ask.node ask.at' with
  | some reading => rfl
  | none =>
    cases ask.capacity with
    | error why => rfl
    | ok capacity =>
      simp only []
      split_ifs <;> rfl

theorem refused_admitNode : (w.admitNode ask).1.refused =
    if w.standing ask.node ask.at' = none then w.refused.erase ask.node else w.refused := by
  unfold admitNode
  cases w.standing ask.node ask.at' with
  | some reading => rfl
  | none =>
    rw [if_pos rfl]
    cases ask.capacity with
    | error why => rfl
    | ok capacity =>
      simp only []
      split_ifs <;> rfl

theorem drops_iff : w.Drops ask ↔ w.Due ask.node ask.at' := by
  unfold Drops
  rw [refused_admitNode]
  constructor
  · rintro ⟨hin, hout⟩
    split_ifs at hout with hnone
    · exact (standing_eq_none.mp hnone).resolve_left (not_not.mpr hin)
    · exact absurd hin hout
  · intro hdue
    obtain ⟨since, reading, hget, -⟩ := id hdue
    refine ⟨Maps.mem_iff.mpr ⟨_, hget⟩, ?_⟩
    rw [if_pos (standing_eq_none.mpr (.inr hdue))]
    simp

/-- an ask that moves the pass: of a due refusal, or of a node with none whose identity can be read -/
def Moves (w : Workspaces) (ask : Ask) : Prop :=
  w.Due ask.node ask.at' ∨ (ask.node ∉ w.refused ∧ ∃ capacity, ask.capacity = .ok capacity)

theorem moves_of_reads_or_drops (h : w.Reads ask ∨ w.Drops ask) : w.Moves ask := by
  rcases h with ⟨hnone, hread⟩ | hdrops
  · rcases standing_eq_none.mp hnone with hfree | hdue
    · exact .inr ⟨hfree, hread⟩
    · exact .inl hdue
  · exact .inl (drops_iff.mp hdrops)

theorem reads_or_drops_of_moves (h : w.Moves ask) : w.Reads ask ∨ w.Drops ask := by
  rcases h with hdue | ⟨hfree, hread⟩
  · exact .inr (drops_iff.mpr hdue)
  · exact .inl ⟨standing_eq_none.mpr (.inl hfree), hread⟩

/-! ## The asks of a pass -/

theorem every_asked : (w.asked asks).every = w.every := by
  induction asks generalizing w with
  | nil => rfl
  | cons ask asks ih => exact ih.trans every_admitNode

theorem due_congr {w' : Workspaces} (hevery : w'.every = w.every) (h : w'.refused[node]? = w.refused[node]?) :
    w'.Due node now ↔ w.Due node now := by
  unfold Due
  rw [hevery, h]

/-- a refusal is left by a pass exactly where it is not due when its node is asked for -/
theorem get_refused_asked : (w.asked asks).refused[node]? =
    w.refused[node]? ∨ (w.asked asks).refused[node]? = none ∧ ∃ ask ∈ asks, ask.node = node ∧ w.Due node ask.at' := by
  induction asks generalizing w with
  | nil => exact .inl rfl
  | cons ask asks ih =>
    have hask : (w.admitNode ask).1.refused[node]? = w.refused[node]? ∨
        (w.admitNode ask).1.refused[node]? = none ∧ ask.node = node ∧ w.Due node ask.at' := by
      rw [refused_admitNode]
      split_ifs with hnone
      · by_cases heq : ask.node = node
        · rcases standing_eq_none.mp hnone with hfree | hdue
          · rw [Maps.erase_of_not_mem hfree]
            exact .inl rfl
          · rw [heq] at hdue
            exact .inr ⟨by rw [heq]; simp, heq, hdue⟩
        · exact .inl (by rw [Maps.get_erase, if_neg (Ne.symm heq)])
      · exact .inl rfl
    rcases hask with hsame | ⟨hgone, heq, hdue⟩
    · rcases @ih (w.admitNode ask).1 with hrest | ⟨hgone, later, hin, heq, hdue⟩
      · exact .inl (hrest.trans hsame)
      · exact .inr ⟨hgone, later, List.mem_cons_of_mem _ hin, heq, (due_congr every_admitNode hsame).mp hdue⟩
    · rcases @ih (w.admitNode ask).1 with hrest | ⟨hgone', later, hin, heq', -⟩
      · exact .inr ⟨hrest.trans hgone, ask, List.mem_cons_self, heq, hdue⟩
      · exact .inr ⟨hgone', ask, List.mem_cons_self, heq, hdue⟩

theorem asked_append (l l' : List Ask) : w.asked (l ++ l') = (w.asked l).asked l' := List.foldl_append

/-- the asks of a pass read some identity, or drop some refusal -/
def ReadsOrDrops (w : Workspaces) (asks : List Ask) : Prop :=
  ∃ before ask after, asks = before ++ ask :: after ∧ ((w.asked before).Reads ask ∨ (w.asked before).Drops ask)

/-- asks none of which moves leave every refusal -/
theorem refused_asked_of_still (h : ∀ ask ∈ asks, ¬w.Moves ask) (node : String) :
    (w.asked asks).refused[node]? = w.refused[node]? := by
  rcases @get_refused_asked w asks node with hsame | ⟨-, ask, hin, rfl, hdue⟩
  · exact hsame
  · exact absurd (.inl hdue) (h ask hin)

theorem moves_congr {w' : Workspaces} (hevery : w'.every = w.every) (h : ∀ node : String, w'.refused[node]? = w.refused[node]?) :
    w'.Moves ask ↔ w.Moves ask := by
  unfold Moves
  rw [due_congr hevery (h ask.node), Maps.not_mem_iff, Maps.not_mem_iff, h ask.node]

theorem readsOrDrops_iff : w.ReadsOrDrops asks ↔ ∃ ask ∈ asks, w.Moves ask := by
  constructor
  · rintro ⟨before, ask, after, rfl, h⟩
    by_contra hstill
    push Not at hstill
    have hbefore := refused_asked_of_still fun a ha => hstill a (List.mem_append_left _ ha)
    have hmoves := moves_of_reads_or_drops h
    rw [moves_congr every_asked hbefore] at hmoves
    exact hstill ask (List.mem_append_right _ List.mem_cons_self) hmoves
  · rintro ⟨ask, hin, hmoves⟩
    classical
    -- the first of them meets the refusals the pass began with
    obtain ⟨first, hfirst⟩ : ∃ first, asks.find? (fun a => decide (w.Moves a)) = some first := by
      rw [← Option.isSome_iff_exists, List.find?_isSome]
      exact ⟨ask, hin, decide_eq_true hmoves⟩
    obtain ⟨hmoves, before, after, rfl, hstill⟩ := List.find?_eq_some_iff_append.mp hfirst
    have hbefore := refused_asked_of_still fun a ha => by simpa using hstill a ha
    refine ⟨before, first, after, rfl, reads_or_drops_of_moves ?_⟩
    rw [moves_congr every_asked hbefore]
    exact of_decide_eq_true hmoves

/-- a due refusal is gone once its node was asked for -/
theorem not_refused_asked (hin : ask ∈ asks) (hdue : w.Due ask.node ask.at') : (w.asked asks).refused[ask.node]? = none := by
  induction asks generalizing w with
  | nil => cases hin
  | cons first asks ih =>
    have hask : (w.admitNode first).1.refused[ask.node]? = w.refused[ask.node]? ∨ (w.admitNode first).1.refused[ask.node]? = none := by
      rw [refused_admitNode]
      split_ifs
      · by_cases heq : ask.node = first.node
        · exact .inr (by rw [heq]; simp)
        · exact .inl (by rw [Maps.get_erase, if_neg heq])
      · exact .inl rfl
    have hgone (h : (w.admitNode first).1.refused[ask.node]? = none) : ((w.admitNode first).1.asked asks).refused[ask.node]? = none := by
      rcases @get_refused_asked (w.admitNode first).1 asks ask.node with hrest | ⟨hrest, -⟩
      · exact hrest.trans h
      · exact hrest
    rcases List.mem_cons.mp hin with rfl | hin
    · refine hgone ?_
      rw [refused_admitNode, if_pos (standing_eq_none.mpr (.inr hdue))]
      simp
    · rcases hask with hsame | hnone
      · exact ih hin ((due_congr every_admitNode hsame).mpr hdue)
      · exact hgone hnone

/-! ## Between two passes -/

theorem every_refuse (refusal : OpenRefusal) : (w.refuse refusal).every = w.every := by
  unfold refuse
  cases refusal.reading <;> rfl

theorem every_foldl_refuse (refusals : List OpenRefusal) : (refusals.foldl refuse w).every = w.every := by
  induction refusals generalizing w with
  | nil => rfl
  | cons r refusals ih => exact ih.trans (every_refuse r)

/-- what stands for a node after refusals: what stood before them, or the last that was read after -/
theorem get_refused_foldl (refusals : List OpenRefusal) (node : String) :
    ((refusals.foldl refuse w).refused[node]? = w.refused[node]? ∧ ¬∃ r ∈ refusals, r.node = node ∧ r.reading.isSome) ∨
      ∃ r ∈ refusals, r.node = node ∧ ∃ reading, r.reading = some reading ∧
        (refusals.foldl refuse w).refused[node]? = some (r.at', reading) := by
  induction refusals generalizing w with
  | nil => exact .inl ⟨rfl, by simp⟩
  | cons first refusals ih =>
    rw [List.foldl_cons]
    rcases @ih (w.refuse first) with ⟨hsame, hnone⟩ | ⟨r, hr, hnode, hlast⟩
    · cases hreading : first.reading with
      | none =>
        refine .inl ⟨by rw [hsame, refuse, hreading], ?_⟩
        rintro ⟨r, hr, hnode, hsome⟩
        rcases List.mem_cons.mp hr with rfl | hr
        · rw [hreading] at hsome
          cases hsome
        · exact hnone ⟨r, hr, hnode, hsome⟩
      | some reading =>
        have hget : (w.refuse first).refused[node]? = if node = first.node then some (first.at', reading) else w.refused[node]? := by
          rw [refuse, hreading]
          exact Maps.get_insert ..
        by_cases heq : node = first.node
        · exact .inr ⟨first, List.mem_cons_self, heq.symm, reading, hreading, by rw [hsame, hget, if_pos heq]⟩
        · refine .inl ⟨by rw [hsame, hget, if_neg heq], ?_⟩
          rintro ⟨r, hr, hnode, hsome⟩
          rcases List.mem_cons.mp hr with rfl | hr
          · exact heq hnode.symm
          · exact hnone ⟨r, hr, hnode, hsome⟩
    · exact .inr ⟨r, List.mem_cons_of_mem _ hr, hnode, hlast⟩

/-! ## A run of passes -/

variable {turn next : Turn}

/-- a refusal standing after a pass is past its pace -/
def Overdue (w : Workspaces) (turn : Turn) (node : String) (since : ℕ) (reading : PoolReading) : Prop :=
  (w.passed turn).refused[node]? = some (since, reading) ∧ w.every ≤ turn.ended - since

/-- what the two passes do of the claim: a pass that changed nothing and leaves no wait is followed by one that reads or drops, and a
refusal past its pace is gone after the next -/
structure Paced (w : Workspaces) (turn next : Turn) : Prop where
  moves : turn.changed = false → (w.passed turn).nextRead turn.ended = some 0 → ((w.turned turn).beginPass next.inFlight).ReadsOrDrops next.asks
  dropped : ∀ node since reading, w.Overdue turn node since reading →
    ((w.turned turn).passed next).refused[node]? ≠ some (since, reading)

/-- the later pass asks for each node whose refusal is past its pace, if it was not refused again meanwhile; and where the earlier one
changed nothing and left no wait, for one whose refusal is due or which has none, and its identity can be read -/
structure Asks (w : Workspaces) (turn next : Turn) : Prop where
  moves : turn.changed = false → (w.passed turn).nextRead turn.ended = some 0 → ∃ ask ∈ next.asks, (w.turned turn).Moves ask
  asked : ∀ node since reading, w.Overdue turn node since reading →
    (∃ ask ∈ next.asks, ask.node = node) ∨ ∃ r ∈ turn.refusals, r.node = node ∧ r.reading.isSome

/-- the clock between two passes: what comes after the earlier one is not before its end -/
structure Clocked (turn next : Turn) : Prop where
  refusals : ∀ r ∈ turn.refusals, turn.ended ≤ r.at'
  asks : ∀ ask ∈ next.asks, turn.ended ≤ ask.at'

theorem every_turned : (w.turned turn).every = w.every := (every_foldl_refuse _).trans every_asked

/-- **Two passes.** They are paced exactly where the later one asks for what the earlier one left. -/
theorem paced_iff (hclock : Clocked turn next) : w.Paced turn next ↔ w.Asks turn next := by
  have hmoves : ((w.turned turn).beginPass next.inFlight).ReadsOrDrops next.asks ↔ ∃ ask ∈ next.asks, (w.turned turn).Moves ask := by
    rw [readsOrDrops_iff]
    exact exists_congr fun ask => and_congr_right fun _ => moves_congr rfl fun _ => rfl
  have hnext (node : String) := @get_refused_asked ((w.turned turn).beginPass next.inFlight) next.asks node
  constructor
  · intro h
    refine ⟨fun hsame hzero => hmoves.mp (h.moves hsame hzero), fun node since reading hover => ?_⟩
    by_contra hnone
    rw [not_or] at hnone
    obtain ⟨hnone, hagain⟩ := hnone
    have hstood : (w.turned turn).refused[node]? = some (since, reading) := by
      rcases @get_refused_foldl (w.passed turn) turn.refusals node with ⟨hsame, -⟩ | ⟨r, hr, hnode, r', hr', -⟩
      · exact hsame.trans hover.1
      · exact absurd ⟨r, hr, hnode, by rw [hr']; rfl⟩ hagain
    rcases hnext node with hsame | ⟨-, ask, hin, hnode, -⟩
    · exact h.dropped node since reading hover (hsame.trans hstood)
    · exact hnone ⟨ask, hin, hnode⟩
  · intro h
    refine ⟨fun hsame hzero => hmoves.mpr (h.moves hsame hzero), fun node since reading hover hleft => ?_⟩
    -- a refusal that came after the pass is not the one that stood at its end
    have hbefore : since < turn.ended := by
      have := w.paced
      have := hover.2
      omega
    have hstood : (w.turned turn).refused[node]? = some (since, reading) := by
      rcases hnext node with hsame | ⟨hgone, -⟩
      · exact hsame.symm.trans hleft
      · exact absurd (hgone.symm.trans hleft) (Option.some_ne_none _).symm
    rcases @get_refused_foldl (w.passed turn) turn.refusals node with ⟨-, hagain⟩ | ⟨r, hr, -, reading', -, hlast⟩
    · obtain ⟨ask, hin, rfl⟩ := (h.asked node since reading hover).resolve_right hagain
      have hdue : ((w.turned turn).beginPass next.inFlight).Due ask.node ask.at' := by
        refine ⟨since, reading, hstood, ?_⟩
        have hevery : ((w.turned turn).beginPass next.inFlight).every = w.every := every_turned
        have := hclock.asks ask hin
        have := hover.2
        omega
      exact absurd ((not_refused_asked hin hdue).symm.trans hleft) (Option.some_ne_none _).symm
    · have heq : some (r.at', reading') = some (since, reading) := hlast.symm.trans hstood
      have hat : r.at' = since := congrArg Prod.fst (Option.some.inj heq)
      have := hclock.refusals r hr
      omega

end Workspaces

open Workspaces

/-- **The pool's pace.** In a run of passes on a clock that never goes back, what follows a pass is paced exactly where the next pass
asks for each node whose refusal is past its pace, if it was not refused again meanwhile, and, where the loop was left no wait, for a node
whose refusal is due or one without a refusal whose identity can be read. -/
theorem pool_paced (every : ℕ) (paced : 0 < every) (turns : List Turn)
    (hclock : ∀ before turn next after, turns = before ++ turn :: next :: after → Clocked turn next) :
    ∀ before turn next after, turns = before ++ turn :: next :: after →
      ((({ every, paced } : Workspaces).ran before).Paced turn next ↔ (({ every, paced } : Workspaces).ran before).Asks turn next) :=
  fun before turn next after hturns => paced_iff (hclock before turn next after hturns)

/-! ## A refused node that is not asked for, and a read older than the refusal -/

/-- a pool of one slot, taken -/
def fullPool : PoolReading := { hold := ⟨"owner/app", 1, 1, 0, 0, some 0, 0⟩, ineligible := [] }

/-- a pass that asks for nothing -/
def idleTurn (ended : ℕ) (refusals : List OpenRefusal) : Turn := { inFlight := fun _ => false, asks := [], changed := false, ended, refusals }

def refusedAt (now : ℕ) : OpenRefusal := ⟨"a", now, some fullPool⟩

/-- a node asked for while its identity has room -/
def askAt (now : ℕ) : Ask :=
  ⟨"a", now, .ok { fullPool.hold with ineligible := [], admitted := true, admits := fun _ => true }, now⟩

/-- a pass that asks for the node -/
def askingTurn (ended : ℕ) (refusals : List OpenRefusal) : Turn := { idleTurn ended refusals with asks := [askAt ended] }

def minutely : Workspaces := { every := 60, paced := by decide }

/-- a refused node parked since leaves the loop no wait, pass after pass; so does a refusal newer than the last read, of a node every
pass asks for -/
theorem pool_spins :
    (Clocked (idleTurn 60 []) (idleTurn 60 []) ∧ ¬(minutely.ran [idleTurn 0 [refusedAt 0]]).Paced (idleTurn 60 []) (idleTurn 60 [])) ∧
      Clocked (askingTurn 60 []) (askingTurn 60 []) ∧
        ¬(minutely.ran [askingTurn 0 [refusedAt 59]]).Paced (askingTurn 60 []) (askingTurn 60 []) := by
  have hparked : ((minutely.ran [idleTurn 0 [refusedAt 0]]).passed (idleTurn 60 [])).nextRead 60 = some 0 := by decide
  have hstale : ((minutely.ran [askingTurn 0 [refusedAt 59]]).passed (askingTurn 60 [])).nextRead 60 = some 0 := by decide
  have hstands : ((minutely.ran [askingTurn 0 [refusedAt 59]]).turned (askingTurn 60 [])).standing "a" 60 ≠ none := by decide
  refine ⟨⟨⟨nofun, nofun⟩, fun h => ?_⟩, ⟨nofun, ?_⟩, fun h => ?_⟩
  · obtain ⟨ask, hin, -⟩ := readsOrDrops_iff.mp (h.moves rfl hparked)
    cases hin
  · intro ask hin
    rw [List.mem_singleton.mp hin]
    exact le_refl 60
  · obtain ⟨ask, hin, hmoves⟩ := readsOrDrops_iff.mp (h.moves rfl hstale)
    rw [List.mem_singleton.mp hin] at hmoves
    refine hstands (standing_eq_none.mpr ?_)
    rcases hmoves with hdue | ⟨hfree, -⟩
    · exact .inr hdue
    · exact .inl hfree

/-- a refused node asked for once its refusal is due -/
theorem pool_paced_asked : (minutely.ran [idleTurn 0 [refusedAt 0]]).Paced (idleTurn 60 []) (askingTurn 60 []) := by
  have hturned : ((minutely.ran [idleTurn 0 [refusedAt 0]]).turned (idleTurn 60 [])).standing "a" 60 = none := by decide
  have hget : ((minutely.ran [idleTurn 0 [refusedAt 0]]).turned (idleTurn 60 [])).refused["a"]? = some (0, fullPool) := by decide
  have hkeys : ((minutely.ran [idleTurn 0 [refusedAt 0]]).passed (idleTurn 60 [])).refused.keys = ["a"] := by decide
  have hclock : ∀ before turn next after, [idleTurn 0 [refusedAt 0], idleTurn 60 [], askingTurn 60 []] = before ++ turn :: next :: after →
      Clocked turn next := by
    intro before turn next after hturns
    rcases before with _ | ⟨b, _ | ⟨c, _ | ⟨d, before⟩⟩⟩
    · simp only [List.nil_append, List.cons.injEq] at hturns
      obtain ⟨rfl, rfl, -⟩ := hturns
      exact ⟨fun r hr => Nat.zero_le _, nofun⟩
    · simp only [List.cons_append, List.nil_append, List.cons.injEq] at hturns
      obtain ⟨-, rfl, rfl, -⟩ := hturns
      refine ⟨nofun, fun ask hin => ?_⟩
      rw [List.mem_singleton.mp hin]
      exact le_refl 60
    · simp at hturns
    · simp at hturns
  refine (pool_paced 60 (by decide) _ hclock [idleTurn 0 [refusedAt 0]] (idleTurn 60 []) (askingTurn 60 []) [] rfl).mpr ⟨?_, ?_⟩
  · intro _ _
    refine ⟨_, List.mem_singleton_self _, ?_⟩
    rcases standing_eq_none.mp hturned with hfree | hdue
    · exact absurd (Maps.mem_iff.mpr ⟨_, hget⟩) hfree
    · exact .inl hdue
  · intro node since reading hover
    have hin : node ∈ ((minutely.ran [idleTurn 0 [refusedAt 0]]).passed (idleTurn 60 [])).refused.keys :=
      Std.ExtTreeMap.mem_keys.mpr (Maps.mem_iff.mpr ⟨_, hover.1⟩)
    rw [hkeys, List.mem_singleton] at hin
    exact .inl ⟨_, List.mem_singleton_self _, hin.symm⟩

example : (minutely.ran [idleTurn 0 [refusedAt 0], askingTurn 59 []]).refused.keys = ["a"] := by decide +kernel

end OnePipeline
