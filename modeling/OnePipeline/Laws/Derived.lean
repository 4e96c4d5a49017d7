/-
What the derivation of statuses comes to (`graph::derive`): when it ends, which nodes are ready, and where it depends on the order
the plan wrote its nodes in.

A pass freezes a node the first time any of its dependencies answers. A dependency that is skipped only down a chain may answer
after one that waits, and the node is then `blocked` for good where another order of the plan has it `skipped`.

Results:
- `deriveLoop_stops`: the loop ends with a pass that changes nothing, however much longer it might run;
- `dispatch_safe`: exactly the graph's nodes have a status, and a node is ready exactly where each of its dependencies is clear;
- `derive_final`: where no node clashes, each status is the graph's own, whatever the order;
- `order_free_iff`: an acyclic graph derives alike in every order exactly where no node of it clashes;
- `skipped_late`: a node blocked in one order of its plan and skipped in another.
-/
import Mathlib.Tactic
import OnePipeline.Laws.Freshness

namespace OnePipeline

open Relation

section Derive

variable {graph : Graph} {settled : StrMap Settled} {resolved : String → Option NodeStatus} {m m' : StrMap NodeStatus} {n : Node}
  {dep : String}

/-! ## What one dependency adds -/

variable (graph settled resolved) in
/-- what one dependency adds to a node -/
def gateOf (m : StrMap NodeStatus) (dep : String) : Gates := eligibilityOf graph settled resolved m {} dep

theorem add_eq (g : Gates) (reached : Settled) :
    g.add reached = { allDone := g.allDone && (({} : Gates).add reached).allDone, failed := g.failed || (({} : Gates).add reached).failed,
                      gated := g.gated || (({} : Gates).add reached).gated } := by
  cases reached with
  | «at» status => cases status <;> simp [Gates.add, Settled.holdsDependents, Settled.skipsDependents, Settled.status]
  | reachedTheOrigin => simp [Gates.add, Settled.holdsDependents]
  | reachedItsBase => simp [Gates.add]

theorem eligibilityOf_eq (m : StrMap NodeStatus) (g : Gates) (dep : String) :
    eligibilityOf graph settled resolved m g dep =
      { allDone := g.allDone && (gateOf graph settled resolved m dep).allDone
        failed := g.failed || (gateOf graph settled resolved m dep).failed
        gated := g.gated || (gateOf graph settled resolved m dep).gated } := by
  unfold gateOf eligibilityOf
  split_ifs
  · cases resolved dep with
    | none => simp
    | some status => exact add_eq g _
  · cases m[dep]? with
    | none => simp
    | some status => exact add_eq g _
  · simp

theorem gates_foldl (m : StrMap NodeStatus) (deps : List String) (g : Gates) :
    deps.foldl (eligibilityOf graph settled resolved m) g =
      { allDone := g.allDone && deps.all fun dep => (gateOf graph settled resolved m dep).allDone
        failed := g.failed || deps.any fun dep => (gateOf graph settled resolved m dep).failed
        gated := g.gated || deps.any fun dep => (gateOf graph settled resolved m dep).gated } := by
  induction deps generalizing g with
  | nil => simp
  | cons dep deps ih =>
    rw [List.foldl_cons, ih, eligibilityOf_eq]
    simp [Bool.and_assoc, Bool.or_assoc]

/-- a dependency that fails or holds a node is not done -/
theorem gateOf_not_clear (h : (gateOf graph settled resolved m dep).failed = true ∨ (gateOf graph settled resolved m dep).gated = true) :
    (gateOf graph settled resolved m dep).allDone = false := by
  have hadd (reached : Settled) : (({} : Gates).add reached).failed = true ∨ (({} : Gates).add reached).gated = true →
      (({} : Gates).add reached).allDone = false := by
    cases reached with
    | «at» status => cases status <;> simp [Gates.add, Settled.holdsDependents, Settled.skipsDependents, Settled.status]
    | reachedTheOrigin => simp [Gates.add, Settled.holdsDependents]
    | reachedItsBase => simp [Gates.add]
  unfold gateOf eligibilityOf at h ⊢
  split_ifs at h ⊢
  · cases hres : resolved dep with
    | none => rfl
    | some status =>
      rw [hres] at h
      exact hadd _ h
  · cases hm : m[dep]? with
    | none => rfl
    | some status =>
      rw [hm] at h
      exact hadd _ h
  · simp at h

/-- how a node nothing seeds is judged: by the first of four things its dependencies add -/
inductive Judged (gate : String → Gates) (n : Node) : Option NodeStatus → Prop
  | skipped (dep : String) (hdep : dep ∈ n.deps) (h : (gate dep).failed = true) : Judged gate n (some .skipped)
  | blocked (hnone : ∀ dep ∈ n.deps, (gate dep).failed = false) (dep : String) (hdep : dep ∈ n.deps) (h : (gate dep).gated = true) :
      Judged gate n (some .blocked)
  | undecided (hfailed : ∀ dep ∈ n.deps, (gate dep).failed = false) (hgated : ∀ dep ∈ n.deps, (gate dep).gated = false)
      (dep : String) (hdep : dep ∈ n.deps) (h : (gate dep).allDone = false) : Judged gate n none
  | readied (h : ∀ dep ∈ n.deps, (gate dep).allDone = true) : Judged gate n (some (readied n))

theorem eligibility_judged (hparked : n.parked = false) (m : StrMap NodeStatus) :
    Judged (gateOf graph settled resolved m) n (eligibility graph settled resolved n m) := by
  unfold eligibility
  rw [gates_foldl]
  simp only [Bool.true_and, Bool.false_or]
  by_cases hfailed : (n.deps.any fun dep => (gateOf graph settled resolved m dep).failed) = true
  · rw [if_pos hfailed]
    obtain ⟨dep, hdep, h⟩ := List.any_eq_true.mp hfailed
    exact .skipped dep hdep h
  rw [if_neg hfailed]
  have hnone : ∀ dep ∈ n.deps, (gateOf graph settled resolved m dep).failed = false := by
    simpa using hfailed
  by_cases hgated : (n.deps.any fun dep => (gateOf graph settled resolved m dep).gated) = true
  · rw [if_pos hgated]
    obtain ⟨dep, hdep, h⟩ := List.any_eq_true.mp hgated
    exact .blocked hnone dep hdep h
  rw [if_neg hgated]
  by_cases hdone : (n.deps.all fun dep => (gateOf graph settled resolved m dep).allDone) = true
  · rw [if_neg (by simp [hdone]), if_neg (by simp [hparked])]
    have hready : (if n.kind = NodeKind.human then some NodeStatus.waiting else some NodeStatus.ready) = some (readied n) := by
      unfold readied
      split_ifs <;> rfl
    rw [hready]
    exact .readied (List.all_eq_true.mp hdone)
  · rw [if_pos (by simp [hdone])]
    obtain ⟨dep, hdep, h⟩ : ∃ dep ∈ n.deps, (gateOf graph settled resolved m dep).allDone = false := by simpa using hdone
    exact .undecided hnone (by simpa using hgated) dep hdep h

/-- a dependency not derived adds nothing but that it is not done -/
theorem gateOf_none (hcross : isCrossDag dep = false) (hin : dep ∈ graph.ids) (hm : m[dep]? = none) :
    gateOf graph settled resolved m dep = { allDone := false } := by
  unfold gateOf eligibilityOf
  rw [if_neg (by simp [hcross]), if_pos (Graph.contains_iff.mpr hin), hm]

theorem gateOf_some {status : NodeStatus} (hcross : isCrossDag dep = false) (hin : dep ∈ graph.ids) (hm : m[dep]? = some status) :
    gateOf graph settled resolved m dep = ({} : Gates).add (reachedBy status settled[dep]?) := by
  unfold gateOf eligibilityOf
  rw [if_neg (by simp [hcross]), if_pos (Graph.contains_iff.mpr hin), hm]

/-- a dependency of another run, or of no node of the graph, adds the same whatever is derived -/
theorem gateOf_outside (h : isCrossDag dep = true ∨ dep ∉ graph.ids) :
    gateOf graph settled resolved m dep = gateOf graph settled resolved m' dep := by
  unfold gateOf eligibilityOf
  by_cases hcross : isCrossDag dep = true
  · rw [if_pos hcross, if_pos hcross]
  · have hout := Graph.contains_eq_false.mpr (h.resolve_left hcross)
    rw [if_neg hcross, if_neg hcross, hout]
    rfl

theorem gateOf_congr (h : m[dep]? = m'[dep]?) : gateOf graph settled resolved m dep = gateOf graph settled resolved m' dep := by
  unfold gateOf eligibilityOf
  rw [h]

/-- a dependency derived at a status no settlement is recorded at adds that status alone -/
theorem gateOf_derived {status : NodeStatus} (hcross : isCrossDag dep = false) (hin : dep ∈ graph.ids) (hm : m[dep]? = some status)
    (hstatus : status ≠ .failed) : gateOf graph settled resolved m dep = ({} : Gates).add (.at status) := by
  rw [gateOf_some hcross hin hm]
  unfold reachedBy
  split
  · rw [if_neg hstatus]
  · rw [if_neg hstatus]
  · rfl

/-- what is derived over more statuses adds at least as much -/
theorem gateOf_mono (h : ∀ s, m[dep]? = some s → m'[dep]? = some s) :
    gateOf graph settled resolved m dep = gateOf graph settled resolved m' dep ∨
      gateOf graph settled resolved m dep = { allDone := false } := by
  by_cases hout : isCrossDag dep = true ∨ dep ∉ graph.ids
  · exact .inl (gateOf_outside hout)
  · obtain ⟨hcross, hin⟩ : isCrossDag dep = false ∧ dep ∈ graph.ids := by simpa using hout
    cases hm : m[dep]? with
    | none => exact .inr (gateOf_none hcross hin hm)
    | some status => exact .inl (gateOf_congr (hm.trans (h status hm).symm))

/-! ## What the graph itself says -/

variable (graph settled) in
/-- a node of the graph which nothing seeds, among another's dependencies -/
def Needs (n d : Node) : Prop := d ∈ graph.iter ∧ seedOf settled d = none ∧ d.id ∈ n.deps ∧ isCrossDag d.id = false

variable (needs : Node → Node → Prop) (gate : String → Gates)

/-- a node with a failed dependency, or one that is itself doomed -/
inductive Doomed : Node → Prop
  | here {n : Node} {dep : String} (hdep : dep ∈ n.deps) (h : (gate dep).failed = true) : Doomed n
  | through {n d : Node} (hneeds : needs n d) (h : Doomed d) : Doomed n

/-- a node that comes to wait: on its own person, or, not doomed, on a dependency that holds it or comes to wait -/
inductive Waits : Node → Prop
  | asked {n : Node} (hkind : n.kind = .human) (h : ∀ dep ∈ n.deps, (gate dep).allDone = true) : Waits n
  | here {n : Node} {dep : String} (hdoomed : ¬Doomed needs gate n) (hdep : dep ∈ n.deps) (h : (gate dep).gated = true) : Waits n
  | through {n d : Node} (hdoomed : ¬Doomed needs gate n) (hneeds : needs n d) (h : Waits d) : Waits n

/-- a node skipped only down a chain, and held beside it -/
structure Clashes (n : Node) : Prop where
  unfailed : ∀ dep ∈ n.deps, (gate dep).failed = false
  doomed : ∃ d, needs n d ∧ Doomed needs gate d
  held : (∃ dep ∈ n.deps, (gate dep).gated = true) ∨ ∃ d, needs n d ∧ Waits needs gate d

variable {needs gate}

/-- a node whose every dependency is clear is not doomed, where the ones it needs are not clear -/
theorem not_doomed_of_clear (hclear : ∀ dep ∈ n.deps, (gate dep).allDone = true)
    (hfails : ∀ dep, (gate dep).failed = true → (gate dep).allDone = false)
    (hneeds : ∀ d, needs n d → d.id ∈ n.deps ∧ (gate d.id).allDone = false) : ¬Doomed needs gate n := by
  rintro (⟨hdep, h⟩ | ⟨hneed, -⟩)
  · exact Bool.false_ne_true ((hfails _ h).symm.trans (hclear _ hdep))
  · exact Bool.false_ne_true ((hneeds _ hneed).2.symm.trans (hclear _ (hneeds _ hneed).1))

/-! ## What a derivation settles -/

theorem seeded_get (hn : n ∈ graph.iter) : (seeded graph settled)[n.id]? = seedOf settled n := by
  rw [seeded, get_foldl_seed (l := graph.iter) graph.nodup_ids _ hn]
  simp

theorem seeded_none {k : String} (hk : k ∉ graph.ids) : (seeded graph settled)[k]? = none := by
  rw [seeded, get_foldl_seed_of_not_mem (l := graph.iter) _ hk]
  simp

theorem readied_cases (n : Node) : readied n = .waiting ∨ readied n = .ready := by
  unfold readied
  split_ifs
  · exact .inl rfl
  · exact .inr rfl

theorem readied_ne_failed : readied n ≠ .failed := by
  rcases readied_cases n with h | h <;> rw [h] <;> decide

theorem readied_ne_skipped : readied n ≠ .skipped := by
  rcases readied_cases n with h | h <;> rw [h] <;> decide

variable (graph settled resolved) in
/-- what a dependency adds before anything is derived -/
def seedGate (dep : String) : Gates := gateOf graph settled resolved (seeded graph settled) dep

variable (graph settled resolved) in
/-- no node is skipped only down a chain and held beside it -/
def Unclashed : Prop := ∀ n ∈ graph.iter, seedOf settled n = none → ¬Clashes (Needs graph settled) (seedGate graph settled resolved) n

variable (graph settled resolved) in
/-- how a node nothing seeds comes by a status -/
inductive Origin (n : Node) : NodeStatus → Prop
  | skipped (h : Doomed (Needs graph settled) (seedGate graph settled resolved) n) : Origin n .skipped
  | blocked (dep : String) (hdep : dep ∈ n.deps) (hclear : (seedGate graph settled resolved dep).allDone = false)
      (h : Unclashed graph settled resolved → Waits (Needs graph settled) (seedGate graph settled resolved) n) : Origin n .blocked
  | readied (h : ∀ dep ∈ n.deps, (seedGate graph settled resolved dep).allDone = true) : Origin n (readied n)

variable (graph settled resolved) in
/-- statuses on the way to a derivation -/
structure Sound (m : StrMap NodeStatus) : Prop where
  seeds : ∀ (k : String) s, (seeded graph settled)[k]? = some s → m[k]? = some s
  derived : ∀ n ∈ graph.iter, seedOf settled n = none → ∀ s, m[n.id]? = some s → Origin graph settled resolved n s

theorem needs_unclear {d : Node} (h : Needs graph settled n d) : seedGate graph settled resolved d.id = { allDone := false } := by
  obtain ⟨hd, hseed, -, hcross⟩ := h
  exact gateOf_none hcross (Graph.mem_ids.mpr ⟨d, hd, rfl⟩) ((seeded_get hd).trans hseed)

theorem not_doomed (hclear : ∀ dep ∈ n.deps, (seedGate graph settled resolved dep).allDone = true) :
    ¬Doomed (Needs graph settled) (seedGate graph settled resolved) n :=
  not_doomed_of_clear hclear (fun _ h => gateOf_not_clear (.inl h)) fun d hd => ⟨hd.2.2.1, by rw [needs_unclear hd]⟩

theorem Waits.not_doomed (h : Waits (Needs graph settled) (seedGate graph settled resolved) n) :
    ¬Doomed (Needs graph settled) (seedGate graph settled resolved) n := by
  cases h with
  | asked _ hclear => exact OnePipeline.not_doomed hclear
  | here hdoomed _ _ => exact hdoomed
  | through hdoomed _ _ => exact hdoomed

/-- a node that waits with every dependency clear waits on its person -/
theorem Waits.human (h : Waits (Needs graph settled) (seedGate graph settled resolved) n)
    (hclear : ∀ dep ∈ n.deps, (seedGate graph settled resolved dep).allDone = true) : n.kind = .human := by
  cases h with
  | asked hkind _ => exact hkind
  | @here _ dep _ hdep h =>
    have hunclear : (seedGate graph settled resolved dep).allDone = false := gateOf_not_clear (.inr h)
    rw [hclear dep hdep] at hunclear
    cases hunclear
  | @through _ d _ hneeds _ =>
    have hdone := hclear d.id hneeds.2.2.1
    rw [needs_unclear hneeds] at hdone
    cases hdone

/-- what a dependency adds to a sound derivation: what it added before, or, of a node derived since, that it is skipped or waits -/
theorem Sound.gate_cases (hm : Sound graph settled resolved m) (hdep : dep ∈ n.deps) :
    gateOf graph settled resolved m dep = seedGate graph settled resolved dep ∨
      ∃ d, Needs graph settled n d ∧ d.id = dep ∧
        (gateOf graph settled resolved m dep = { allDone := false, failed := true } ∧ m[d.id]? = some .skipped ∨
          gateOf graph settled resolved m dep = { allDone := false, gated := true } ∧
            (Unclashed graph settled resolved → Waits (Needs graph settled) (seedGate graph settled resolved) d)) := by
  by_cases hout : isCrossDag dep = true ∨ dep ∉ graph.ids
  · exact .inl (gateOf_outside hout)
  obtain ⟨hcross, hin⟩ : isCrossDag dep = false ∧ dep ∈ graph.ids := by simpa using hout
  obtain ⟨d, hd, rfl⟩ := Graph.mem_ids.mp hin
  cases hseed : seedOf settled d with
  | some s =>
    have hseeds : (seeded graph settled)[d.id]? = some s := (seeded_get hd).trans hseed
    exact .inl (gateOf_congr ((hm.seeds d.id s hseeds).trans hseeds.symm))
  | none =>
    cases hstatus : m[d.id]? with
    | none => exact .inl (gateOf_congr (hstatus.trans ((seeded_get hd).trans hseed).symm))
    | some status =>
      have hneeds : Needs graph settled n d := ⟨hd, hseed, hdep, hcross⟩
      cases hm.derived d hd hseed status hstatus with
      | skipped h =>
        refine .inr ⟨d, hneeds, rfl, .inl ⟨?_, hstatus⟩⟩
        rw [gateOf_derived hcross hin hstatus (by decide)]
        rfl
      | blocked other hother hclear h =>
        refine .inr ⟨d, hneeds, rfl, .inr ⟨?_, h⟩⟩
        rw [gateOf_derived hcross hin hstatus (by decide)]
        rfl
      | readied h =>
        cases hkind : d.kind with
        | human =>
          refine .inr ⟨d, hneeds, rfl, .inr ⟨?_, fun _ => .asked hkind h⟩⟩
          rw [gateOf_derived hcross hin hstatus readied_ne_failed]
          unfold readied
          rw [if_pos hkind]
          rfl
        | agent =>
          refine .inl ?_
          rw [gateOf_derived hcross hin hstatus readied_ne_failed, needs_unclear hneeds]
          unfold readied
          rw [hkind]
          rfl

namespace Sound

variable (hm : Sound graph settled resolved m)

include hm

/-- a dependency that failed at the start fails still, and one that held holds -/
theorem keeps_gate (dep : String) : gateOf graph settled resolved m dep = seedGate graph settled resolved dep ∨
    seedGate graph settled resolved dep = { allDone := false } := by
  rcases @gateOf_mono graph settled resolved _ _ dep (hm.seeds dep) with h | h
  · exact .inl h.symm
  · exact .inr h

theorem failed (hdep : dep ∈ n.deps) (h : (gateOf graph settled resolved m dep).failed = true) :
    (seedGate graph settled resolved dep).failed = true ∨ ∃ d, Needs graph settled n d ∧ d.id = dep ∧ m[d.id]? = some .skipped := by
  rcases hm.gate_cases hdep with hsame | ⟨d, hneeds, hid, ⟨-, hskipped⟩ | ⟨hgate, -⟩⟩
  · exact .inl (hsame ▸ h)
  · exact .inr ⟨d, hneeds, hid, hskipped⟩
  · rw [hgate] at h
    cases h

theorem gated (hdep : dep ∈ n.deps) (h : (gateOf graph settled resolved m dep).gated = true) :
    (seedGate graph settled resolved dep).gated = true ∨ ∃ d, Needs graph settled n d ∧
      (Unclashed graph settled resolved → Waits (Needs graph settled) (seedGate graph settled resolved) d) := by
  rcases hm.gate_cases hdep with hsame | ⟨d, hneeds, -, ⟨hgate, -⟩ | ⟨-, hwaits⟩⟩
  · exact .inl (hsame ▸ h)
  · rw [hgate] at h
    cases h
  · exact .inr ⟨d, hneeds, hwaits⟩

theorem clear (hdep : dep ∈ n.deps) (h : (gateOf graph settled resolved m dep).allDone = true) :
    (seedGate graph settled resolved dep).allDone = true := by
  rcases hm.gate_cases hdep with hsame | ⟨d, -, -, ⟨hgate, -⟩ | ⟨hgate, -⟩⟩
  · exact hsame ▸ h
  · rw [hgate] at h
    cases h
  · rw [hgate] at h
    cases h

theorem doomed_of_skipped {d : Node} (hd : Needs graph settled n d) (h : m[d.id]? = some .skipped) :
    Doomed (Needs graph settled) (seedGate graph settled resolved) d := by
  have horigin := hm.derived d hd.1 hd.2.1 .skipped h
  generalize hs : NodeStatus.skipped = s at horigin
  cases horigin with
  | skipped h => exact h
  | blocked => cases hs
  | readied => exact absurd hs.symm readied_ne_skipped

end Sound

theorem parked_of_unseeded (h : seedOf settled n = none) : n.parked = false := by
  unfold seedOf at h
  split_ifs at h with hparked
  simpa using hparked

theorem sound_seeded : Sound graph settled resolved (seeded graph settled) := by
  refine ⟨fun _ _ h => h, fun n hn hseed s hs => ?_⟩
  rw [seeded_get hn, hseed] at hs
  cases hs

/-- **A pass's turn** at a node keeps a derivation sound. -/
theorem passStep_sound {p : StrMap NodeStatus × Bool} (hm : Sound graph settled resolved p.1) (hn : n ∈ graph.iter) :
    Sound graph settled resolved (passStep graph settled resolved p n).1 := by
  unfold passStep
  split_ifs with hin
  · exact hm
  cases helig : eligibility graph settled resolved n p.1 with
  | none => exact hm
  | some status =>
    have hseed : seedOf settled n = none := by
      by_contra hsome
      obtain ⟨s, hs⟩ := Option.ne_none_iff_exists'.mp hsome
      exact hin (Maps.mem_iff.mpr ⟨s, hm.seeds n.id s ((seeded_get hn).trans hs)⟩)
    have horigin : Origin graph settled resolved n status := by
      have hjudged := @eligibility_judged graph settled resolved n (parked_of_unseeded hseed) p.1
      rw [helig] at hjudged
      cases hjudged with
      | skipped dep hdep h =>
        refine .skipped ?_
        rcases hm.failed hdep h with hfailed | ⟨d, hneeds, -, hskipped⟩
        · exact .here hdep hfailed
        · exact .through hneeds (hm.doomed_of_skipped hneeds hskipped)
      | blocked hnone dep hdep h =>
        have hunfailed : ∀ dep ∈ n.deps, (seedGate graph settled resolved dep).failed = false := by
          intro dep hdep
          rcases hm.keeps_gate dep with hsame | hnothing
          · rw [← hsame]
            exact hnone dep hdep
          · rw [hnothing]
        have hunclear : (seedGate graph settled resolved dep).allDone = false := by
          rcases hm.keeps_gate dep with hsame | hnothing
          · rw [← hsame]
            exact gateOf_not_clear (.inr h)
          · rw [hnothing]
        refine .blocked dep hdep hunclear fun hfree => ?_
        have hheld : (∃ dep ∈ n.deps, (seedGate graph settled resolved dep).gated = true) ∨
            ∃ d, Needs graph settled n d ∧ Waits (Needs graph settled) (seedGate graph settled resolved) d := by
          rcases hm.gated hdep h with hgated | ⟨d, hneeds, hwaits⟩
          · exact .inl ⟨dep, hdep, hgated⟩
          · exact .inr ⟨d, hneeds, hwaits hfree⟩
        have hdoomed : ¬Doomed (Needs graph settled) (seedGate graph settled resolved) n := by
          rintro (⟨hdep', h'⟩ | ⟨hneeds, hd⟩)
          · exact Bool.false_ne_true ((hunfailed _ hdep').symm.trans h')
          · exact hfree n hn hseed ⟨hunfailed, ⟨_, hneeds, hd⟩, hheld⟩
        rcases hheld with ⟨dep', hdep', hgated⟩ | ⟨d, hneeds, hwaits⟩
        · exact .here hdoomed hdep' hgated
        · exact .through hdoomed hneeds hwaits
      | readied h => exact .readied fun dep hdep => hm.clear hdep (h dep hdep)
    refine ⟨fun k s hs => ?_, fun a ha hseeda s hs => ?_⟩
    · have hne : k ≠ n.id := by
        rintro rfl
        rw [seeded_get hn, hseed] at hs
        cases hs
      rw [Maps.get_insert, if_neg hne]
      exact hm.seeds k s hs
    · rw [Maps.get_insert] at hs
      split_ifs at hs with hid
      · cases hs
        rw [graph.nodes.eq_of_key_eq ha hn hid]
        exact horigin
      · exact hm.derived a ha hseeda s hs

theorem foldl_passStep_sound {l : List Node} {p : StrMap NodeStatus × Bool} (hm : Sound graph settled resolved p.1)
    (hl : ∀ n ∈ l, n ∈ graph.iter) : Sound graph settled resolved (l.foldl (passStep graph settled resolved) p).1 := by
  induction l generalizing p with
  | nil => exact hm
  | cons n l ih => exact ih (passStep_sound hm (hl n List.mem_cons_self)) fun a ha => hl a (List.mem_cons_of_mem _ ha)

theorem deriveLoop_sound (fuel : ℕ) (hm : Sound graph settled resolved m) :
    Sound graph settled resolved (deriveLoop graph settled resolved fuel m) := by
  induction fuel generalizing m with
  | zero => exact hm
  | succ fuel ih =>
    have hpass : Sound graph settled resolved (pass graph settled resolved m).1 := foldl_passStep_sound hm fun _ h => h
    unfold deriveLoop
    simp only []
    split_ifs
    · exact ih hpass
    · exact hpass

/-! ## The loop ends -/

variable (graph settled resolved) in
/-- a derivation no pass adds to -/
def Final (m : StrMap NodeStatus) : Prop := ∀ n ∈ graph.iter, n.id ∉ m → eligibility graph settled resolved n m = none

/-- how many nodes of a list nothing has derived yet -/
def underived (l : List Node) (m : StrMap NodeStatus) : ℕ := l.countP fun n => n.id ∉ m

theorem foldl_passStep_changed {l : List Node} {p : StrMap NodeStatus × Bool} (h : p.2 = true) :
    (l.foldl (passStep graph settled resolved) p).2 = true := by
  induction l generalizing p with
  | nil => exact h
  | cons n l ih =>
    refine ih ?_
    unfold passStep
    split_ifs
    · exact h
    · cases eligibility graph settled resolved n p.1 with
      | none => exact h
      | some status => rfl

/-- a pass that changes nothing leaves what it found, and nothing to add -/
theorem foldl_passStep_unchanged {l : List Node} (h : (l.foldl (passStep graph settled resolved) (m, false)).2 = false) :
    (l.foldl (passStep graph settled resolved) (m, false)).1 = m ∧
      ∀ n ∈ l, n.id ∉ m → eligibility graph settled resolved n m = none := by
  induction l with
  | nil => exact ⟨rfl, fun _ hn => (nomatch hn)⟩
  | cons a l ih =>
    have hstep : passStep graph settled resolved (m, false) a = (m, false) ∧
        (a.id ∉ m → eligibility graph settled resolved a m = none) := by
      by_cases hin : a.id ∈ m
      · exact ⟨if_pos hin, fun hout => absurd hin hout⟩
      · cases helig : eligibility graph settled resolved a m with
        | none =>
          refine ⟨?_, fun _ => rfl⟩
          unfold passStep
          rw [if_neg hin, helig]
        | some status =>
          have hchanged : (l.foldl (passStep graph settled resolved) (m.insert a.id status, true)).2 = true := foldl_passStep_changed rfl
          rw [List.foldl_cons, passStep_of_eligible hin helig, hchanged] at h
          cases h
    rw [List.foldl_cons, hstep.1] at h ⊢
    obtain ⟨hsame, hrest⟩ := ih h
    refine ⟨hsame, fun n hn hout => ?_⟩
    rcases List.mem_cons.mp hn with rfl | hn
    · exact hstep.2 hout
    · exact hrest n hn hout

theorem underived_insert {l : List Node} (status : NodeStatus) (hn : n ∈ l) (hout : n.id ∉ m) :
    underived l (m.insert n.id status) < underived l m := by
  unfold underived
  obtain ⟨l₁, l₂, rfl⟩ := List.append_of_mem hn
  rw [List.countP_append, List.countP_append, List.countP_cons, List.countP_cons]
  have hle (l : List Node) : l.countP (fun a => a.id ∉ m.insert n.id status) ≤ l.countP fun a => a.id ∉ m := by
    refine List.countP_mono_left fun a _ ha => ?_
    simp only [decide_eq_true_eq, Maps.mem_insert_iff, not_or] at ha ⊢
    exact ha.2
  have h₁ := hle l₁
  have h₂ := hle l₂
  have hnew : decide (n.id ∉ m.insert n.id status) = false := by simp
  have hold : decide (n.id ∉ m) = true := by simp [hout]
  rw [hnew, hold]
  simp only [Bool.false_eq_true, if_false, if_true]
  omega

theorem passStep_underived {l : List Node} {p : StrMap NodeStatus × Bool} (hn : n ∈ l) :
    passStep graph settled resolved p n = p ∨ underived l (passStep graph settled resolved p n).1 < underived l p.1 := by
  unfold passStep
  split_ifs with hin
  · exact .inl rfl
  · cases eligibility graph settled resolved n p.1 with
    | none => exact .inl rfl
    | some status => exact .inr (underived_insert status hn hin)

/-- a pass that changes something derives a node -/
theorem pass_underived (m : StrMap NodeStatus) : (pass graph settled resolved m).2 = false ∨
    underived graph.iter (pass graph settled resolved m).1 < underived graph.iter m := by
  have hfold : ∀ (l : List Node) (p : StrMap NodeStatus × Bool), (∀ n ∈ l, n ∈ graph.iter) →
      l.foldl (passStep graph settled resolved) p = p ∨
        underived graph.iter (l.foldl (passStep graph settled resolved) p).1 < underived graph.iter p.1 := by
    intro l
    induction l with
    | nil => exact fun p _ => .inl rfl
    | cons n l ih =>
      intro p hl
      rw [List.foldl_cons]
      have hrest := ih (passStep graph settled resolved p n) fun a ha => hl a (List.mem_cons_of_mem _ ha)
      rcases @passStep_underived graph settled resolved n graph.iter p (hl n List.mem_cons_self) with hstep | hstep
      · rw [hstep] at hrest ⊢
        exact hrest
      · rcases hrest with hsame | hless
        · rw [hsame]
          exact .inr hstep
        · exact .inr (hless.trans hstep)
  rcases hfold graph.iter (m, false) fun _ h => h with hsame | hless
  · refine .inl ?_
    unfold pass
    rw [hsame]
  · exact .inr hless

/-- **The loop ends** with a pass that changes nothing, once its passes outnumber the nodes not derived. -/
theorem deriveLoop_final {fuel : ℕ} (hfuel : underived graph.iter m < fuel) :
    (pass graph settled resolved (deriveLoop graph settled resolved fuel m)).2 = false := by
  induction fuel generalizing m with
  | zero => omega
  | succ fuel ih =>
    unfold deriveLoop
    simp only []
    split_ifs with hchanged
    · refine ih ?_
      have hless := (pass_underived m).resolve_left (by rw [hchanged]; decide)
      omega
    · have hunchanged : (pass graph settled resolved m).2 = false := by simpa using hchanged
      rw [show (pass graph settled resolved m).1 = m from (foldl_passStep_unchanged hunchanged).1]
      exact hunchanged

/-- however much longer the loop might run -/
theorem deriveLoop_stops {fuel more : ℕ} (hfuel : underived graph.iter m < fuel) :
    deriveLoop graph settled resolved (fuel + more) m = deriveLoop graph settled resolved fuel m := by
  induction fuel generalizing m with
  | zero => omega
  | succ fuel ih =>
    rw [Nat.add_right_comm]
    unfold deriveLoop
    simp only []
    split_ifs with hchanged
    · refine ih ?_
      have hless := (pass_underived m).resolve_left (by rw [hchanged]; decide)
      omega
    · rfl

variable (graph settled resolved) in
/-- the statuses the passes leave -/
def passed : StrMap NodeStatus := deriveLoop graph settled resolved (graph.iter.length + 1) (seeded graph settled)

theorem underived_lt (m : StrMap NodeStatus) : underived graph.iter m < graph.iter.length + 1 :=
  Nat.lt_succ_of_le List.countP_le_length

theorem passed_sound : Sound graph settled resolved (passed graph settled resolved) := deriveLoop_sound _ sound_seeded

theorem passed_final : Final graph settled resolved (passed graph settled resolved) :=
  (foldl_passStep_unchanged (deriveLoop_final (underived_lt _))).2

theorem passed_outside {k : String} (hk : k ∉ graph.ids) : (passed graph settled resolved)[k]? = none := by
  have hpass (m : StrMap NodeStatus) (hm : m[k]? = none) : (pass graph settled resolved m).1[k]? = none :=
    (get_foldl_passStep_of_ne (l := graph.iter) (m, false) hk).trans hm
  have hloop : ∀ (fuel : ℕ) (m : StrMap NodeStatus), m[k]? = none → (deriveLoop graph settled resolved fuel m)[k]? = none := by
    intro fuel
    induction fuel with
    | zero => exact fun m hm => hm
    | succ fuel ih =>
      intro m hm
      unfold deriveLoop
      simp only []
      split_ifs
      · exact ih _ (hpass m hm)
      · exact hpass m hm
  exact hloop _ _ (seeded_none hk)

theorem get_derive_passed {k : String} (hk : k ∈ graph.ids) :
    (derive graph settled resolved)[k]? = (passed graph settled resolved)[k]?.or (some .pending) := by
  rw [get_derive, if_pos hk]
  rfl

/-- exactly the nodes of the graph have a status -/
theorem mem_derive {k : String} : k ∈ derive graph settled resolved ↔ k ∈ graph.ids := by
  rw [Maps.mem_iff, get_derive]
  split_ifs with hk
  · simp [hk]
  · refine ⟨fun ⟨s, hs⟩ => ?_, fun h => absurd h hk⟩
    rw [show (deriveLoop graph settled resolved (graph.iter.length + 1) (seeded graph settled))[k]? = none from passed_outside hk] at hs
    cases hs

/-! ## Dispatch -/

variable (graph settled resolved) in
/-- a dependency a node does not wait for: done in its own run, recorded done or on its base here and not parked, or no longer in
the graph -/
def ClearDep (dep : String) : Prop :=
  if isCrossDag dep then resolved dep = some .done
  else (∃ d ∈ graph.iter, d.id = dep ∧ d.parked = false ∧ (settled[dep]? = some (.at .done) ∨ settled[dep]? = some .reachedItsBase)) ∨
    dep ∉ graph.ids

theorem add_at_clear {status : NodeStatus} : (({} : Gates).add (.at status)).allDone = true ↔ status = .done := by
  cases status <;> simp [Gates.add, Settled.holdsDependents, Settled.skipsDependents, Settled.status]

theorem seedGate_clear : (seedGate graph settled resolved dep).allDone = true ↔ ClearDep graph settled resolved dep := by
  unfold ClearDep
  by_cases hcross : isCrossDag dep = true
  · rw [if_pos hcross]
    unfold seedGate gateOf eligibilityOf
    rw [if_pos hcross]
    cases resolved dep with
    | none => simp
    | some status => simpa using add_at_clear
  rw [if_neg hcross]
  have hcross : isCrossDag dep = false := by simpa using hcross
  by_cases hin : dep ∈ graph.ids
  · obtain ⟨d, hd, rfl⟩ := Graph.mem_ids.mp hin
    have hgraph : (∃ a ∈ graph.iter, a.id = d.id ∧ a.parked = false ∧
          (settled[d.id]? = some (.at .done) ∨ settled[d.id]? = some .reachedItsBase)) ∨ d.id ∉ graph.ids ↔
        d.parked = false ∧ (settled[d.id]? = some (.at .done) ∨ settled[d.id]? = some .reachedItsBase) := by
      constructor
      · rintro (⟨a, ha, hid, hparked, hsettled⟩ | hout)
        · rw [graph.nodes.eq_of_key_eq ha hd hid] at hparked
          exact ⟨hparked, hsettled⟩
        · exact absurd hin hout
      · exact fun h => .inl ⟨d, hd, rfl, h⟩
    rw [hgraph]
    unfold seedGate
    have hseed : (seeded graph settled)[d.id]? = seedOf settled d := seeded_get hd
    unfold seedOf at hseed
    cases hparked : d.parked with
    | true =>
      rw [hparked, if_pos rfl] at hseed
      rw [gateOf_derived hcross hin hseed (by decide)]
      simp [add_at_clear]
    | false =>
      rw [hparked, if_neg Bool.false_ne_true] at hseed
      cases hsettled : settled[d.id]? with
      | none =>
        rw [hsettled] at hseed
        rw [gateOf_none hcross hin hseed]
        simp
      | some recorded =>
        rw [hsettled, Option.map_some, Option.filter_some] at hseed
        cases hgate : recorded.status.isGate with
        | true =>
          rw [hgate] at hseed
          rw [gateOf_none hcross hin hseed]
          cases recorded with
          | «at» status => cases status <;> simp_all [NodeStatus.isGate, Settled.status]
          | reachedTheOrigin => cases hgate
          | reachedItsBase => cases hgate
        | false =>
          rw [hgate] at hseed
          rw [gateOf_some hcross hin hseed, hsettled]
          cases recorded with
          | «at» status => simp [reachedBy, add_at_clear, Settled.status]
          | reachedTheOrigin => simp [reachedBy, Settled.status, Gates.add, Settled.holdsDependents]
          | reachedItsBase => simp [reachedBy, Settled.status, Gates.add]
  · have hgate : seedGate graph settled resolved dep = {} := by
      unfold seedGate gateOf eligibilityOf
      rw [if_neg (by simp [hcross]), Graph.contains_eq_false.mpr hin]
      rfl
    rw [hgate]
    simp [hin]

theorem unseeded_of_gate (hparked : n.parked = false) (hrecorded : ∀ r, settled[n.id]? = some r → r.status.isGate = true) :
    seedOf settled n = none := by
  unfold seedOf
  rw [hparked, if_neg Bool.false_ne_true, Option.filter_eq_none_iff]
  intro status hstatus
  obtain ⟨r, hr, rfl⟩ := Option.map_eq_some_iff.mp hstatus
  simp [hrecorded r hr]

/-- a sound derivation no pass adds to readies a node exactly where every dependency is clear -/
theorem ready_iff (hm : Sound graph settled resolved m) (hfinal : Final graph settled resolved m) (hn : n ∈ graph.iter)
    (hseed : seedOf settled n = none) :
    m[n.id]? = some (readied n) ↔ ∀ dep ∈ n.deps, (seedGate graph settled resolved dep).allDone = true := by
  constructor
  · intro h
    have horigin := hm.derived n hn hseed _ h
    generalize hs : readied n = s at horigin
    have hready : s = .waiting ∨ s = .ready := hs ▸ readied_cases n
    cases horigin with
    | skipped => simp at hready
    | blocked => simp at hready
    | readied h => exact h
  · intro hclear
    have hclear' : ∀ dep ∈ n.deps, (gateOf graph settled resolved m dep).allDone = true := by
      intro dep hdep
      rcases hm.keeps_gate dep with hsame | hnothing
      · rw [hsame]
        exact hclear dep hdep
      · have hdone := hclear dep hdep
        rw [hnothing] at hdone
        cases hdone
    by_cases hin : n.id ∈ m
    · obtain ⟨s, hs⟩ := Maps.mem_iff.mp hin
      cases hm.derived n hn hseed s hs with
      | skipped h => exact absurd h (not_doomed hclear)
      | blocked dep hdep hunclear =>
        rw [hclear dep hdep] at hunclear
        cases hunclear
      | readied => exact hs
    · have hjudged := @eligibility_judged graph settled resolved n (parked_of_unseeded hseed) m
      rw [hfinal n hn hin] at hjudged
      cases hjudged with
      | undecided _ _ dep hdep hunclear =>
        rw [hclear' dep hdep] at hunclear
        cases hunclear

variable (graph settled resolved) in
/-- **Dispatch safety.** The derivation ends, exactly the graph's nodes have a status, and one neither parked nor settled is ready,
or waits on its person, exactly where every dependency of it is clear. -/
theorem dispatch_safe :
    (pass graph settled resolved (passed graph settled resolved)).2 = false ∧
      (∀ more, deriveLoop graph settled resolved (graph.iter.length + 1 + more) (seeded graph settled) =
        passed graph settled resolved) ∧
      (∀ id, id ∈ derive graph settled resolved ↔ id ∈ graph.ids) ∧
      ∀ n ∈ graph.iter, n.parked = false → (∀ r, settled[n.id]? = some r → r.status.isGate = true) →
        ((derive graph settled resolved)[n.id]? = some (readied n) ↔ ∀ dep ∈ n.deps, ClearDep graph settled resolved dep) := by
  refine ⟨deriveLoop_final (underived_lt _), fun more => deriveLoop_stops (underived_lt _), fun id => mem_derive,
    fun n hn hparked hrecorded => ?_⟩
  have hseed := unseeded_of_gate hparked hrecorded
  have hready := @ready_iff graph settled resolved _ n passed_sound passed_final hn hseed
  simp only [seedGate_clear] at hready
  rw [← hready, get_derive_passed (Graph.mem_ids.mpr ⟨n, hn, rfl⟩)]
  cases hstatus : (passed graph settled resolved)[n.id]? with
  | some s => simp
  | none =>
    have hne : NodeStatus.pending ≠ readied n := by
      rcases readied_cases n with h | h <;> rw [h] <;> decide
    simp [hne]

/-! ## The graph's own statuses -/

open Classical in
/-- the status of a node nothing seeds, of what the graph says of its dependencies -/
noncomputable def finalOf (needs : Node → Node → Prop) (gate : String → Gates) (n : Node) : NodeStatus :=
  if Doomed needs gate n then .skipped
  else if ∀ dep ∈ n.deps, (gate dep).allDone = true then readied n
  else if Waits needs gate n then .blocked
  else .pending

theorem held_of_status {d : Node} {s : NodeStatus} (hneeds : Needs graph settled n d) (hstatus : m[d.id]? = some s)
    (hs : s = .waiting ∨ s = .blocked) : (gateOf graph settled resolved m d.id).gated = true := by
  rcases hs with rfl | rfl
  · rw [gateOf_derived hneeds.2.2.2 (Graph.mem_ids.mpr ⟨d, hneeds.1, rfl⟩) hstatus (by decide)]
    rfl
  · rw [gateOf_derived hneeds.2.2.2 (Graph.mem_ids.mpr ⟨d, hneeds.1, rfl⟩) hstatus (by decide)]
    rfl

section Settling

variable (hfree : Unclashed graph settled resolved) (hm : Sound graph settled resolved m)

include hfree hm

/-- what a sound derivation derives is the graph's own status -/
theorem finalOf_of_mem (hn : n ∈ graph.iter) (hseed : seedOf settled n = none) {s : NodeStatus} (hs : m[n.id]? = some s) :
    s = finalOf (Needs graph settled) (seedGate graph settled resolved) n := by
  unfold finalOf
  cases hm.derived n hn hseed s hs with
  | skipped h => rw [if_pos h]
  | blocked dep hdep hunclear h =>
    have hnot : ¬∀ dep ∈ n.deps, (seedGate graph settled resolved dep).allDone = true := by
      intro hall
      rw [hall dep hdep] at hunclear
      cases hunclear
    rw [if_neg (h hfree).not_doomed, if_neg hnot, if_pos (h hfree)]
  | readied h => rw [if_neg (not_doomed h), if_pos h]

variable (hfinal : Final graph settled resolved m)

include hfinal

omit hfree hm in
/-- a node left out has no dependency that fails or holds it -/
theorem left_out (hn : n ∈ graph.iter) (hseed : seedOf settled n = none) (hout : n.id ∉ m) (hdep : dep ∈ n.deps) :
    (gateOf graph settled resolved m dep).failed = false ∧ (gateOf graph settled resolved m dep).gated = false := by
  have hjudged := @eligibility_judged graph settled resolved n (parked_of_unseeded hseed) m
  rw [hfinal n hn hout] at hjudged
  cases hjudged with
  | undecided hfailed hgated => exact ⟨hfailed dep hdep, hgated dep hdep⟩

theorem doomed_derived (hn : n ∈ graph.iter) (hseed : seedOf settled n = none)
    (h : Doomed (Needs graph settled) (seedGate graph settled resolved) n) : n.id ∈ m := by
  induction h with
  | @here n dep hdep h =>
    by_contra hout
    have hunfailed := (left_out hfinal hn hseed hout hdep).1
    rcases hm.keeps_gate dep with hsame | hnothing
    · rw [hsame, h] at hunfailed
      cases hunfailed
    · rw [hnothing] at h
      cases h
  | @through n d hneeds hd ih =>
    by_contra hout
    obtain ⟨s, hs⟩ := Maps.mem_iff.mp (ih hneeds.1 hneeds.2.1)
    have hskipped := finalOf_of_mem hfree hm hneeds.1 hneeds.2.1 hs
    unfold finalOf at hskipped
    rw [if_pos hd] at hskipped
    subst hskipped
    have hunfailed := (left_out hfinal hn hseed hout hneeds.2.2.1).1
    rw [gateOf_derived hneeds.2.2.2 (Graph.mem_ids.mpr ⟨d, hneeds.1, rfl⟩) hs (by decide)] at hunfailed
    cases hunfailed

theorem waits_derived (hn : n ∈ graph.iter) (hseed : seedOf settled n = none)
    (h : Waits (Needs graph settled) (seedGate graph settled resolved) n) : n.id ∈ m := by
  induction h with
  | @asked n hkind hclear => exact Maps.mem_iff.mpr ⟨_, (ready_iff hm hfinal hn hseed).mpr hclear⟩
  | @here n dep hdoomed hdep h =>
    by_contra hout
    have hungated := (left_out hfinal hn hseed hout hdep).2
    rcases hm.keeps_gate dep with hsame | hnothing
    · rw [hsame, h] at hungated
      cases hungated
    · rw [hnothing] at h
      cases h
  | @through n d hdoomed hneeds hd ih =>
    by_contra hout
    obtain ⟨s, hs⟩ := Maps.mem_iff.mp (ih hneeds.1 hneeds.2.1)
    have hstatus : s = .waiting ∨ s = .blocked := by
      rw [finalOf_of_mem hfree hm hneeds.1 hneeds.2.1 hs]
      unfold finalOf
      rw [if_neg hd.not_doomed]
      split_ifs with hclear
      · exact .inl (if_pos (hd.human hclear))
      · exact .inr rfl
    have hungated := (left_out hfinal hn hseed hout hneeds.2.2.1).2
    rw [held_of_status hneeds hs hstatus] at hungated
    cases hungated

end Settling

/-- **The graph's own statuses.** Where no node clashes, a node nothing seeds derives at the status the graph alone gives it. -/
theorem derive_final (hfree : Unclashed graph settled resolved) (hn : n ∈ graph.iter) (hseed : seedOf settled n = none) :
    (derive graph settled resolved)[n.id]? = some (finalOf (Needs graph settled) (seedGate graph settled resolved) n) := by
  rw [get_derive_passed (Graph.mem_ids.mpr ⟨n, hn, rfl⟩)]
  cases hstatus : (passed graph settled resolved)[n.id]? with
  | some s =>
    rw [finalOf_of_mem hfree passed_sound hn hseed hstatus]
    rfl
  | none =>
    have hout : n.id ∉ passed graph settled resolved := Maps.not_mem_iff.mpr hstatus
    unfold finalOf
    rw [if_neg fun h => hout (doomed_derived hfree passed_sound passed_final hn hseed h),
      if_neg fun h => hout (Maps.mem_iff.mpr ⟨_, (ready_iff passed_sound passed_final hn hseed).mpr h⟩),
      if_neg fun h => hout (waits_derived hfree passed_sound passed_final hn hseed h)]
    rfl

/-! ## Orders of a plan -/

section Perm

variable {graph' : Graph} (hperm : graph'.iter.Perm graph.iter)

include hperm

theorem ids_perm {k : String} : k ∈ graph'.ids ↔ k ∈ graph.ids := (hperm.map Node.id).mem_iff

theorem seeded_perm : seeded graph' settled = seeded graph settled := by
  refine Std.ExtTreeMap.ext_getElem? fun k => ?_
  by_cases hk : k ∈ graph.ids
  · obtain ⟨n, hn, rfl⟩ := Graph.mem_ids.mp hk
    rw [seeded_get hn, seeded_get (hperm.mem_iff.mpr hn)]
  · rw [seeded_none hk, seeded_none (mt (ids_perm hperm).mp hk)]

theorem contains_perm (k : String) : graph'.contains k = graph.contains k := by
  rw [Bool.eq_iff_iff, Graph.contains_iff, Graph.contains_iff]
  exact ids_perm hperm

theorem eligibilityOf_perm : eligibilityOf graph' settled resolved = eligibilityOf graph settled resolved := by
  funext m g dep
  unfold eligibilityOf
  rw [contains_perm hperm]

theorem seedGate_perm : seedGate graph' settled resolved = seedGate graph settled resolved := by
  funext dep
  unfold seedGate gateOf
  rw [eligibilityOf_perm hperm, seeded_perm hperm]

theorem needs_perm : Needs graph' settled = Needs graph settled := by
  funext n d
  unfold Needs
  rw [hperm.mem_iff]

theorem unclashed_perm : Unclashed graph' settled resolved ↔ Unclashed graph settled resolved := by
  unfold Unclashed
  rw [seedGate_perm hperm, needs_perm hperm]
  exact forall_congr' fun n => by rw [hperm.mem_iff]

theorem passStep_perm : passStep graph' settled resolved = passStep graph settled resolved := by
  funext p n
  unfold passStep eligibility
  rw [eligibilityOf_perm hperm]

end Perm

variable (graph settled resolved) in
/-- every order of the graph's nodes derives each the same status -/
def OrderFree : Prop :=
  ∀ graph' : Graph, graph'.iter.Perm graph.iter → ∀ id : String,
    (derive graph' settled resolved)[id]? = (derive graph settled resolved)[id]?

variable (graph settled resolved) in
/-- a node nothing seeds is skipped wherever a dependency of it in the graph ends failed or skipped, and did not reach the origin -/
def SkipsFirst : Prop :=
  ∀ n ∈ graph.iter, seedOf settled n = none → ∀ d ∈ graph.iter, d.id ∈ n.deps → isCrossDag d.id = false →
    ((derive graph settled resolved)[d.id]? = some .failed ∨ (derive graph settled resolved)[d.id]? = some .skipped) →
    settled[d.id]? ≠ some .reachedTheOrigin → settled[d.id]? ≠ some .reachedItsBase →
    (derive graph settled resolved)[n.id]? = some .skipped

theorem orderFree_of_unclashed (hfree : Unclashed graph settled resolved) : OrderFree graph settled resolved := by
  intro graph' hperm id
  by_cases hid : id ∈ graph.ids
  · obtain ⟨n, hn, rfl⟩ := Graph.mem_ids.mp hid
    have hn' := hperm.mem_iff.mpr hn
    cases hseed : seedOf settled n with
    | some s => rw [derive_seeded hn hseed, derive_seeded hn' hseed]
    | none =>
      rw [derive_final hfree hn hseed, derive_final ((unclashed_perm hperm).mpr hfree) hn' hseed, needs_perm hperm,
        seedGate_perm hperm]
  · have hout : id ∉ derive graph settled resolved := mt mem_derive.mp hid
    have hout' : id ∉ derive graph' settled resolved := mt (mem_derive.trans (ids_perm hperm)).mp hid
    rw [Maps.not_mem_iff.mp hout, Maps.not_mem_iff.mp hout']

/-- a node nothing seeds never derives as failed -/
theorem finalOf_ne_failed {needs : Node → Node → Prop} {gate : String → Gates} : finalOf needs gate n ≠ .failed := by
  unfold finalOf
  split_ifs
  · decide
  · exact readied_ne_failed
  · decide
  · decide

theorem skipsFirst_of_unclashed (hfree : Unclashed graph settled resolved) : SkipsFirst graph settled resolved := by
  intro n hn hseed d hd hdep hcross hstatus horigin hbase
  have hdoomed : Doomed (Needs graph settled) (seedGate graph settled resolved) n := by
    cases hseedd : seedOf settled d with
    | none =>
      rw [derive_final hfree hd hseedd] at hstatus
      refine .through ⟨hd, hseedd, hdep, hcross⟩ ?_
      rcases hstatus with hfailed | hskipped
      · exact absurd (Option.some.inj hfailed) finalOf_ne_failed
      · by_contra hnot
        unfold finalOf at hskipped
        rw [if_neg hnot] at hskipped
        split_ifs at hskipped with hclear
        · exact readied_ne_skipped (Option.some.inj hskipped)
        · cases hskipped
        · cases hskipped
    | some s =>
      rw [derive_seeded hd hseedd] at hstatus
      have hin : d.id ∈ graph.ids := Graph.mem_ids.mpr ⟨d, hd, rfl⟩
      refine .here hdep ?_
      unfold seedGate
      rw [gateOf_some hcross hin ((seeded_get hd).trans hseedd)]
      have hreached : reachedBy s settled[d.id]? = .at s := by
        unfold reachedBy
        split
        · exact absurd ‹_› horigin
        · exact absurd ‹_› hbase
        · rfl
      rw [hreached]
      rcases hstatus with h | h
      · rw [Option.some.inj h]
        rfl
      · rw [Option.some.inj h]
        rfl
  rw [derive_final hfree hn hseed]
  unfold finalOf
  rw [if_pos hdoomed]

/-! ## A clash, and two orders -/

variable (graph settled) in
/-- no node depends on itself, through nodes nothing seeds -/
def Acyclic : Prop := ∀ n, ¬TransGen (Needs graph settled) n n

theorem acyclic_of_rank (rank : String → ℕ)
    (h : ∀ n ∈ graph.iter, ∀ d ∈ graph.iter, d.id ∈ n.deps → rank d.id < rank n.id) : Acyclic graph settled := by
  have hdown : ∀ a b, TransGen (Needs graph settled) a b → a ∈ graph.iter → rank b.id < rank a.id := by
    intro a b hab
    induction hab with
    | single hneeds => exact fun ha => h a ha _ hneeds.1 hneeds.2.2.1
    | @tail b c hab hneeds ih =>
      intro ha
      have hb : b ∈ graph.iter := by
        cases hab with
        | single hneeds => exact hneeds.1
        | tail _ hneeds => exact hneeds.1
      exact (h b hb c hneeds.1 hneeds.2.2.1).trans (ih ha)
  intro n hcycle
  have hn : n ∈ graph.iter := by
    cases hcycle with
    | single hneeds => exact hneeds.1
    | tail _ hneeds => exact hneeds.1
  exact Nat.lt_irrefl _ (hdown n n hcycle hn)

variable (graph settled) in
/-- nodes to derive first: of the graph, each once, nothing seeding them -/
structure Front (l : List Node) : Prop where
  nodup : l.Nodup
  mem : ∀ a ∈ l, a ∈ graph.iter
  unseeded : ∀ a ∈ l, seedOf settled a = none

theorem front_nil : Front graph settled [] := ⟨List.nodup_nil, fun _ h => (nomatch h), fun _ h => (nomatch h)⟩

variable (graph settled resolved) in
/-- what a first pass derives of its first nodes -/
def fronted (l : List Node) : StrMap NodeStatus := (l.foldl (passStep graph settled resolved) (seeded graph settled, false)).1

variable {l : List Node}

theorem fronted_sound (hl : Front graph settled l) : Sound graph settled resolved (fronted graph settled resolved l) :=
  foldl_passStep_sound sound_seeded hl.mem

theorem fronted_outside (hl : Front graph settled l) (hn : n ∈ graph.iter) (hout : n ∉ l) :
    (fronted graph settled resolved l)[n.id]? = seedOf settled n := by
  rw [← seeded_get hn]
  refine get_foldl_passStep_of_ne (seeded graph settled, false) fun hin => hout ?_
  obtain ⟨a, ha, hid⟩ := List.mem_map.mp hin
  rwa [graph.nodes.eq_of_key_eq (hl.mem a ha) hn hid] at ha

/-- the next node, with what it derives at -/
theorem fronted_append (hl : Front graph settled l) (hn : n ∈ graph.iter) (hseed : seedOf settled n = none) (hout : n ∉ l) {s : NodeStatus}
    (helig : eligibility graph settled resolved n (fronted graph settled resolved l) = some s) :
    Front graph settled (l ++ [n]) ∧ (fronted graph settled resolved (l ++ [n]))[n.id]? = some s := by
  refine ⟨⟨?_, ?_, ?_⟩, ?_⟩
  · exact List.Nodup.append hl.nodup (List.nodup_singleton n) (by simpa using hout)
  · intro a ha
    rcases List.mem_append.mp ha with ha | ha
    · exact hl.mem a ha
    · rwa [List.mem_singleton.mp ha]
  · intro a ha
    rcases List.mem_append.mp ha with ha | ha
    · exact hl.unseeded a ha
    · rwa [List.mem_singleton.mp ha]
  · have hnone : n.id ∉ fronted graph settled resolved l := by
      rw [Maps.not_mem_iff, fronted_outside hl hn hout, hseed]
    unfold fronted
    rw [List.foldl_append, List.foldl_cons, List.foldl_nil, passStep_of_eligible hnone helig, Maps.get_insert, if_pos rfl]

/-- an order of the graph that derives its first nodes first -/
theorem order_of_front (hl : Front graph settled l) :
    ∃ graph' : Graph, graph'.iter.Perm graph.iter ∧ ∀ (k : String) s, (fronted graph settled resolved l)[k]? = some s →
      (derive graph' settled resolved)[k]? = some s := by
  classical
  have hperm : (l ++ graph.iter.filter fun a => a ∉ l).Perm graph.iter := by
    have hnodup : graph.iter.Nodup := graph.nodup_ids.of_map _
    refine (List.perm_ext_iff_of_nodup ?_ hnodup).mpr fun a => ?_
    · refine List.Nodup.append hl.nodup (hnodup.filter _) fun a ha hfilter => ?_
      exact of_decide_eq_true (List.mem_filter.mp hfilter).2 ha
    · by_cases ha : a ∈ l
      · simp [ha, hl.mem a ha]
      · simp [ha]
  let graph' : Graph := ⟨⟨l ++ graph.iter.filter fun a => a ∉ l, (hperm.map Node.id).nodup_iff.mpr graph.nodup_ids⟩, graph.concurrency⟩
  have hperm' : graph'.iter.Perm graph.iter := hperm
  refine ⟨graph', hperm', fun k s hs => ?_⟩
  have hpass : (pass graph' settled resolved (seeded graph' settled)).1[k]? = some s := by
    unfold pass
    rw [passStep_perm hperm', seeded_perm hperm']
    show ((l ++ graph.iter.filter fun a => decide (a ∉ l)).foldl (passStep graph settled resolved) (seeded graph settled, false)).1[k]? =
      some s
    rw [List.foldl_append]
    exact foldl_passStep_keeps _ hs
  have hloop : (deriveLoop graph' settled resolved (graph'.iter.length + 1) (seeded graph' settled))[k]? = some s := by
    unfold deriveLoop
    simp only []
    split_ifs
    · exact deriveLoop_keeps _ hpass
    · exact hpass
  rw [get_derive, hloop]
  split_ifs <;> rfl

/-- a doomed node is skipped, of the chain that dooms it derived in turn -/
theorem doomed_front (hacyclic : Acyclic graph settled) (hn : n ∈ graph.iter) (hseed : seedOf settled n = none)
    (h : Doomed (Needs graph settled) (seedGate graph settled resolved) n) :
    ∃ l, Front graph settled l ∧ (∀ a ∈ l, ReflTransGen (Needs graph settled) n a) ∧
      (fronted graph settled resolved l)[n.id]? = some .skipped := by
  have hskipped {l : List Node} (hl : Front graph settled l) {dep : String} {n : Node} (hn : n ∈ graph.iter) (hseed : seedOf settled n = none)
      (hdep : dep ∈ n.deps)
      (h : (gateOf graph settled resolved (fronted graph settled resolved l) dep).failed = true) :
      eligibility graph settled resolved n (fronted graph settled resolved l) = some .skipped := by
    have hjudged := @eligibility_judged graph settled resolved n (parked_of_unseeded hseed) (fronted graph settled resolved l)
    generalize eligibility graph settled resolved n (fronted graph settled resolved l) = status at hjudged
    cases hjudged with
    | skipped => rfl
    | blocked hnone => exact absurd (h.symm.trans (hnone dep hdep)) (by decide)
    | undecided hnone => exact absurd (h.symm.trans (hnone dep hdep)) (by decide)
    | readied hclear => exact absurd ((gateOf_not_clear (.inl h)).symm.trans (hclear dep hdep)) (by decide)
  induction h with
  | @here n dep hdep h =>
    obtain ⟨hfront, hstatus⟩ := fronted_append front_nil hn hseed List.not_mem_nil (hskipped front_nil hn hseed hdep h)
    refine ⟨[n], hfront, fun a ha => ?_, hstatus⟩
    rw [List.mem_singleton.mp ha]
  | @through n d hneeds hd ih =>
    obtain ⟨l, hl, hreach, hstatus⟩ := ih hneeds.1 hneeds.2.1
    have hout : n ∉ l := fun hin => hacyclic n (TransGen.head' hneeds (hreach n hin))
    have hgate : (gateOf graph settled resolved (fronted graph settled resolved l) d.id).failed = true := by
      rw [gateOf_derived hneeds.2.2.2 (Graph.mem_ids.mpr ⟨d, hneeds.1, rfl⟩) hstatus (by decide)]
      rfl
    obtain ⟨hfront, hskip⟩ := fronted_append hl hn hseed hout (hskipped hl hn hseed hneeds.2.2.1 hgate)
    refine ⟨l ++ [n], hfront, fun a ha => ?_, hskip⟩
    rcases List.mem_append.mp ha with ha | ha
    · exact .head hneeds (hreach a ha)
    · rw [List.mem_singleton.mp ha]

/-- a node held while no dependency has failed yet is blocked -/
theorem blocked_of_held (hseed : seedOf settled n = none)
    (hunfailed : ∀ dep ∈ n.deps, (gateOf graph settled resolved m dep).failed = false) (hdep : dep ∈ n.deps)
    (h : (gateOf graph settled resolved m dep).gated = true) : eligibility graph settled resolved n m = some .blocked := by
  have hjudged := @eligibility_judged graph settled resolved n (parked_of_unseeded hseed) m
  generalize eligibility graph settled resolved n m = status at hjudged
  cases hjudged with
  | skipped dep' hdep' hfailed => exact absurd (hfailed.symm.trans (hunfailed dep' hdep')) (by decide)
  | blocked => rfl
  | undecided _ hungated => exact absurd (h.symm.trans (hungated dep hdep)) (by decide)
  | readied hclear => exact absurd ((gateOf_not_clear (.inr h)).symm.trans (hclear dep hdep)) (by decide)

/-- with no node of a front doomed, a node's dependencies have not failed but where they had at the start -/
theorem fronted_unfailed (hl : Front graph settled l)
    (hspared : ∀ a ∈ l, ¬Doomed (Needs graph settled) (seedGate graph settled resolved) a)
    (hunfailed : ∀ dep ∈ n.deps, (seedGate graph settled resolved dep).failed = false) :
    ∀ dep ∈ n.deps, (gateOf graph settled resolved (fronted graph settled resolved l) dep).failed = false := by
  intro dep hdep
  by_contra hfailed
  have hsound : Sound graph settled resolved (fronted graph settled resolved l) := fronted_sound hl
  rcases hsound.failed hdep (by simpa using hfailed) with hbefore | ⟨d, hneeds, -, hskipped⟩
  · exact absurd (hbefore.symm.trans (hunfailed dep hdep)) (by decide)
  · have hin : d ∈ l := by
      by_contra hout
      rw [fronted_outside hl hneeds.1 hout, hneeds.2.1] at hskipped
      cases hskipped
    exact hspared d hin (hsound.doomed_of_skipped hneeds hskipped)

/-- a node that comes to wait waits, of the chain it waits on derived in turn -/
theorem waits_front (hacyclic : Acyclic graph settled) (hn : n ∈ graph.iter) (hseed : seedOf settled n = none)
    (h : Waits (Needs graph settled) (seedGate graph settled resolved) n) :
    ∃ l, Front graph settled l ∧ (∀ a ∈ l, ReflTransGen (Needs graph settled) n a) ∧
      (∀ a ∈ l, ¬Doomed (Needs graph settled) (seedGate graph settled resolved) a) ∧
      ∃ s, (fronted graph settled resolved l)[n.id]? = some s ∧ (s = .waiting ∨ s = .blocked) := by
  induction h with
  | @asked n hkind hclear =>
    have helig : eligibility graph settled resolved n (fronted graph settled resolved []) = some .waiting := by
      have hjudged := @eligibility_judged graph settled resolved n (parked_of_unseeded hseed) (seeded graph settled)
      show eligibility graph settled resolved n (seeded graph settled) = _
      generalize eligibility graph settled resolved n (seeded graph settled) = status at hjudged
      have hunclear : ∀ dep ∈ n.deps, (gateOf graph settled resolved (seeded graph settled) dep).allDone = false → False :=
        fun dep hdep h => absurd (h.symm.trans (hclear dep hdep)) (by decide)
      cases hjudged with
      | skipped dep hdep h => exact (hunclear dep hdep (gateOf_not_clear (.inl h))).elim
      | blocked _ dep hdep h => exact (hunclear dep hdep (gateOf_not_clear (.inr h))).elim
      | undecided _ _ dep hdep h => exact (hunclear dep hdep h).elim
      | readied =>
        unfold readied
        rw [if_pos hkind]
    obtain ⟨hfront, hstatus⟩ := fronted_append front_nil hn hseed List.not_mem_nil helig
    refine ⟨[n], hfront, fun a ha => ?_, fun a ha => ?_, _, hstatus, .inl rfl⟩
    · rw [List.mem_singleton.mp ha]
    · rw [List.mem_singleton.mp ha]
      exact not_doomed hclear
  | @here n dep hdoomed hdep h =>
    have hunfailed : ∀ dep ∈ n.deps, (seedGate graph settled resolved dep).failed = false := by
      intro dep hdep
      by_contra hfailed
      exact hdoomed (.here hdep (by simpa using hfailed))
    have helig : eligibility graph settled resolved n (fronted graph settled resolved []) = some .blocked :=
      blocked_of_held hseed hunfailed hdep h
    obtain ⟨hfront, hstatus⟩ := fronted_append front_nil hn hseed List.not_mem_nil helig
    refine ⟨[n], hfront, fun a ha => ?_, fun a ha => ?_, _, hstatus, .inr rfl⟩
    · rw [List.mem_singleton.mp ha]
    · rw [List.mem_singleton.mp ha]
      exact hdoomed
  | @through n d hdoomed hneeds hd ih =>
    obtain ⟨l, hl, hreach, hspared, s, hstatus, hs⟩ := ih hneeds.1 hneeds.2.1
    have hout : n ∉ l := fun hin => hacyclic n (TransGen.head' hneeds (hreach n hin))
    have hunfailed : ∀ dep ∈ n.deps, (seedGate graph settled resolved dep).failed = false := by
      intro dep hdep
      by_contra hfailed
      exact hdoomed (.here hdep (by simpa using hfailed))
    have helig := blocked_of_held hseed (fronted_unfailed hl hspared hunfailed) hneeds.2.2.1 (held_of_status hneeds hstatus hs)
    obtain ⟨hfront, hblocked⟩ := fronted_append hl hn hseed hout helig
    refine ⟨l ++ [n], hfront, fun a ha => ?_, fun a ha => ?_, _, hblocked, .inr rfl⟩
    · rcases List.mem_append.mp ha with ha | ha
      · exact .head hneeds (hreach a ha)
      · rw [List.mem_singleton.mp ha]
    · rcases List.mem_append.mp ha with ha | ha
      · exact hspared a ha
      · rw [List.mem_singleton.mp ha]
        exact hdoomed

/-- a clashing node is blocked in one order and skipped in another -/
theorem clash_orders (hacyclic : Acyclic graph settled) (hn : n ∈ graph.iter) (hseed : seedOf settled n = none)
    (h : Clashes (Needs graph settled) (seedGate graph settled resolved) n) : ¬OrderFree graph settled resolved := by
  obtain ⟨hunfailed, ⟨d, hneeds, hd⟩, hheld⟩ := h
  have hdoomed : Doomed (Needs graph settled) (seedGate graph settled resolved) n := .through hneeds hd
  -- in one order what holds it is derived first, and then the node
  obtain ⟨l, hl, hspared, dep, hdep, hgated⟩ : ∃ l, Front graph settled l ∧
      (∀ a ∈ l, ¬Doomed (Needs graph settled) (seedGate graph settled resolved) a) ∧
      ∃ dep ∈ n.deps, (gateOf graph settled resolved (fronted graph settled resolved l) dep).gated = true := by
    rcases hheld with ⟨dep, hdep, hgated⟩ | ⟨a, hneedsa, ha⟩
    · exact ⟨[], front_nil, fun _ h => (nomatch h), dep, hdep, hgated⟩
    · obtain ⟨l, hl, -, hspared, s, hstatus, hs⟩ := waits_front hacyclic hneedsa.1 hneedsa.2.1 ha
      exact ⟨l, hl, hspared, a.id, hneedsa.2.2.1, held_of_status hneedsa hstatus hs⟩
  have hblocked := blocked_of_held hseed (fronted_unfailed hl hspared hunfailed) hdep hgated
  obtain ⟨hfront, hstatus⟩ := fronted_append hl hn hseed (fun hin => hspared n hin hdoomed) hblocked
  obtain ⟨early, hearly, hderived⟩ := @order_of_front graph settled resolved _ hfront
  -- in another, the chain that dooms it
  obtain ⟨l', hl', -, hskipped⟩ := doomed_front hacyclic hn hseed hdoomed
  obtain ⟨late, hlate, hderived'⟩ := @order_of_front graph settled resolved _ hl'
  intro hfree
  have hboth := (hfree early hearly n.id).trans (hfree late hlate n.id).symm
  rw [hderived n.id _ hstatus, hderived' n.id _ hskipped] at hboth
  cases hboth

/-- **Order of the plan.** An acyclic graph derives alike in every order, and skips a node wherever a dependency of it failed or was
skipped, exactly where no node is skipped only down a chain and held beside it. -/
theorem order_free_iff (hacyclic : Acyclic graph settled) :
    (OrderFree graph settled resolved ∧ SkipsFirst graph settled resolved) ↔ Unclashed graph settled resolved := by
  constructor
  · rintro ⟨hfree, -⟩ n hn hseed hclash
    exact clash_orders hacyclic hn hseed hclash hfree
  · exact fun hfree => ⟨orderFree_of_unclashed hfree, skipsFirst_of_unclashed hfree⟩

end Derive

/-! ## A failure a chain away, beside a park -/

/-- a node whose own dependency failed -/
def afterFailed : Node := { id := "y", deps := ["f"] }

def failedNode : Node := { id := "f" }

/-- a node that depends on the one after the failure, and on one that is parked -/
def afterBoth : Node := { id := "n", deps := ["y", "p"] }

def parkedNode : Node := { id := "p", parked := true }

def failedOnly : StrMap Settled := (∅ : StrMap Settled).insert "f" (.at .failed)

def noUpstream : String → Option NodeStatus := fun _ => none

def rankOf (id : String) : ℕ := if id = "n" then 2 else if id = "y" then 1 else 0

/-- a failure and the node after it, in either order -/
theorem order_free_chain : OrderFree (.ofNodes [afterFailed, failedNode]) failedOnly noUpstream ∧
    SkipsFirst (.ofNodes [afterFailed, failedNode]) failedOnly noUpstream := by
  refine (order_free_iff (acyclic_of_rank rankOf (by decide))).mpr fun n hn hseed hclash => ?_
  have hlist : n ∈ [afterFailed, failedNode] := hn
  have hgate : (seedGate (.ofNodes [afterFailed, failedNode]) failedOnly noUpstream "f").failed = true := by decide
  rcases List.mem_cons.mp hlist with rfl | hrest
  · exact absurd (hgate.symm.trans (hclash.unfailed "f" (by decide))) (by decide)
  · rw [List.mem_singleton.mp hrest] at hseed
    exact absurd hseed (by decide)

/-- the plan written consumer first, and dependency first -/
def consumerFirst : Graph := .ofNodes [afterBoth, afterFailed, failedNode, parkedNode]

def dependencyFirst : Graph := .ofNodes [parkedNode, failedNode, afterFailed, afterBoth]

/-- written consumer first the node is blocked by the park for good, with the dependency that dooms it skipped; written dependency
first it is skipped -/
theorem skipped_late :
    Acyclic consumerFirst failedOnly ∧
      ¬(OrderFree consumerFirst failedOnly noUpstream ∧ SkipsFirst consumerFirst failedOnly noUpstream) ∧
      (derive consumerFirst failedOnly noUpstream)["y"]? = some .skipped ∧
      (derive consumerFirst failedOnly noUpstream)["n"]? = some .blocked ∧
      (derive dependencyFirst failedOnly noUpstream)["n"]? = some .skipped := by
  have hblocked : (derive consumerFirst failedOnly noUpstream)["n"]? = some .blocked := by decide
  have hskipped : (derive dependencyFirst failedOnly noUpstream)["n"]? = some .skipped := by decide
  refine ⟨acyclic_of_rank rankOf (by decide), ?_, by decide, hblocked, hskipped⟩
  rintro ⟨hfree, -⟩
  have hsame := hfree dependencyFirst (List.reverse_perm consumerFirst.iter) "n"
  rw [hblocked, hskipped] at hsame
  cases hsame

end OnePipeline
