/-
Which branches a shutdown offers to be preserved, against what the run's records name.

A branch is looked up in the repository its node stands in, in the graph of the reading that names it; the run's records
keep naming a branch under a node an edit has taken out of the graph.

Results:
- `mem_branchesOf`, `mem_offered`: which pairs the two readings give;
- `nodup_offered`: each pair once;
- `map_fst_preserveEach`: whatever a push answers, every other pair is still offered;
- `offered_exactly_iff`: every branch of a node the run ever held is offered, and no other pair, exactly where no branch
  is left named under a node its reading no longer holds in that repository alone;
- `dropped_branch_is_left`: a node that failed with work on a branch, dropped, has its branch left off the list.
-/
import OnePipeline.Laws.Freshness
import OnePipeline.Model.Preserve

namespace OnePipeline.Preserve

open Runs

/-! ## The pairs one reading gives -/

section Pairs

variable {view landed : RunState} {now : Option RunState} {node branch repo : String} {pair : String × String}

/-- the reading names a branch under a node: its latest session's, the one an adoption cleared, or its settlement's -/
def NamedBy (view : RunState) (node branch : String) : Prop :=
  (∃ session, view.sessions[node]? = some session ∧ session.branch = branch) ∨
    (∃ session, view.abandoned[node]? = some session ∧ session.branch = branch) ∨ view.branches[node]? = some branch

theorem mem_named : (node, branch) ∈ named view ↔ NamedBy view node branch := by
  have hsession (m : StrMap DispatchSession) :
      (node, branch) ∈ m.toList.map (fun p => (p.1, p.2.branch)) ↔
        ∃ session, m[node]? = some session ∧ session.branch = branch := by
    simp only [List.mem_map, Prod.mk.injEq, Prod.exists, Std.ExtTreeMap.mem_toList_iff_getElem?_eq_some]
    constructor
    · rintro ⟨k, session, hget, rfl, rfl⟩
      exact ⟨session, hget, rfl⟩
    · rintro ⟨session, hget, rfl⟩
      exact ⟨node, session, hget, rfl, rfl⟩
  simp only [named, List.mem_append, hsession, Std.ExtTreeMap.mem_toList_iff_getElem?_eq_some, or_assoc, NamedBy]

theorem mem_foundOnce {found : List (String × String)} {p : String × String} :
    pair ∈ foundOnce found p ↔ pair ∈ found ∨ pair = p := by
  unfold foundOnce
  split_ifs with h
  · exact ⟨Or.inl, fun hp => hp.elim id fun heq => heq ▸ h⟩
  · simp

theorem nodup_foundOnce {found : List (String × String)} (h : found.Nodup) (p : String × String) :
    (foundOnce found p).Nodup := by
  unfold foundOnce
  split_ifs with hp
  · exact h
  · rw [← List.concat_eq_append]
    exact h.concat hp

theorem mem_branchesOf :
    (repo, branch) ∈ branchesOf view landed ↔
      ∃ node, NamedBy view node branch ∧ finishedLanding landed node = false ∧ repoOf view node = some repo := by
  have hfold : ∀ (l found : List (String × String)),
      (repo, branch) ∈ l.foldl (findOne view landed) found ↔
        (repo, branch) ∈ found ∨
          ∃ node, (node, branch) ∈ l ∧ finishedLanding landed node = false ∧ repoOf view node = some repo := by
    intro l
    induction l with
    | nil => simp
    | cons p l ih =>
      intro found
      obtain ⟨n, b⟩ := p
      rw [List.foldl_cons, ih, findOne]
      simp only [List.mem_cons, Prod.mk.injEq, or_and_right, exists_or]
      rw [← or_assoc]
      refine or_congr ?_ Iff.rfl
      cases hfinished : finishedLanding landed n with
      | true =>
        simp only [if_true]
        refine (or_iff_left ?_).symm
        rintro ⟨m, ⟨rfl, -⟩, hm, -⟩
        rw [hfinished] at hm
        cases hm
      | false =>
        simp only [Bool.false_eq_true, if_false]
        cases hrepo : repoOf view n with
        | none =>
          refine (or_iff_left ?_).symm
          rintro ⟨m, ⟨rfl, -⟩, -, hm⟩
          rw [hrepo] at hm
          cases hm
        | some r =>
          rw [mem_foundOnce, Prod.mk.injEq]
          refine or_congr Iff.rfl ⟨?_, ?_⟩
          · rintro ⟨rfl, rfl⟩
            exact ⟨n, ⟨rfl, rfl⟩, hfinished, hrepo⟩
          · rintro ⟨m, ⟨rfl, rfl⟩, -, hm⟩
            rw [hrepo] at hm
            exact ⟨(Option.some.inj hm).symm, rfl⟩
  rw [branchesOf, hfold]
  simp [mem_named]

theorem nodup_branchesOf : (branchesOf view landed).Nodup := by
  have hfold : ∀ (l found : List (String × String)), found.Nodup →
      (l.foldl (findOne view landed) found).Nodup := by
    intro l
    induction l with
    | nil => exact fun found h => h
    | cons p l ih =>
      intro found h
      refine ih _ ?_
      unfold findOne
      split_ifs
      · exact h
      · cases repoOf view p.1 with
        | none => exact h
        | some repo => exact nodup_foundOnce h _
  exact hfold _ _ List.nodup_nil

/-- the pairs of either reading, each once -/
theorem mem_offered :
    (repo, branch) ∈ offered view now ↔
      ∃ reading, (reading = view ∨ now = some reading) ∧ ∃ node, NamedBy reading node branch ∧
        finishedLanding (now.getD view) node = false ∧ repoOf reading node = some repo := by
  have hfold : ∀ (l found : List (String × String)), (repo, branch) ∈ l.foldl foundOnce found ↔
      (repo, branch) ∈ found ∨ (repo, branch) ∈ l := by
    intro l
    induction l with
    | nil => simp
    | cons p l ih =>
      intro found
      rw [List.foldl_cons, ih, mem_foundOnce, List.mem_cons, or_assoc]
  rw [offered, hfold, mem_branchesOf]
  cases now with
  | none => simp
  | some now =>
    simp only [Option.map_some, Option.getD_some, mem_branchesOf, Option.some.injEq, or_and_right, exists_or,
      exists_eq_left, exists_eq_left']

theorem nodup_offered : (offered view now).Nodup := by
  have hfold : ∀ (l found : List (String × String)), found.Nodup → (l.foldl foundOnce found).Nodup := by
    intro l
    induction l with
    | nil => exact fun found h => h
    | cons p l ih => exact fun found h => ih _ (nodup_foundOnce h p)
  exact hfold _ _ nodup_branchesOf

end Pairs

/-! ## The pushes -/

section Pushes

variable (preserve : List PreserveRequest → PreserveRequest → Except String Done)

/-- whatever a push answers, the rest are pushed -/
theorem map_fst_preserveEach (asked requests : List PreserveRequest) :
    (preserveEach preserve asked requests).map Prod.fst = requests := by
  induction requests generalizing asked with
  | nil => rfl
  | cons request rest ih => rw [preserveEach, List.map_cons, ih]

/-- every branch is answered for as its own push answered -/
theorem answered_preserveEach {asked requests : List PreserveRequest} {call : PreserveRequest × BranchPreserved}
    (h : call ∈ preserveEach preserve asked requests) :
    ∃ before, call.2 = reported call.1 (preserve before call.1) := by
  induction requests generalizing asked with
  | nil => cases h
  | cons request rest ih =>
    rcases List.mem_cons.mp h with rfl | h
    · exact ⟨asked, rfl⟩
    · exact ih h

end Pushes

/-! ## A shutdown of a run -/

/-- what a shutdown reads of a run: its journal as it began, and as it stood after the teardown, where it could be read -/
structure Readings where
  seen : List Envelope
  later : Option (List Envelope)

namespace Readings

variable (host : Host) (r : Readings)

def view : RunState := RunState.fold host r.seen

def now : Option RunState := r.later.map (RunState.fold host)

/-- the state whether a node's change landed is read from -/
def latest : RunState := (r.now host).getD (r.view host)

/-- one of the journals read -/
def Read (events : List Envelope) : Prop := events = r.seen ∨ r.later = some events

/-- the run held a node in a repository, at some record of a journal read -/
def Held (node repo : String) : Prop :=
  ∃ events, r.Read events ∧ ∃ k, repoOf (RunState.fold host (events.take k)) node = some repo

/-- a pair the run's records name: the branch under a node the run ever held in the repository, whose change has not
landed or which is still running -/
def Wanted (repo branch : String) : Prop :=
  ∃ events, r.Read events ∧ ∃ node, NamedBy (RunState.fold host events) node branch ∧ r.Held host node repo ∧
    finishedLanding (r.latest host) node = false

/-- a pair one of the readings gives: the branch under a node its own graph holds in the repository -/
def Placed (repo branch : String) : Prop :=
  ∃ events, r.Read events ∧ ∃ node, NamedBy (RunState.fold host events) node branch ∧
    repoOf (RunState.fold host events) node = some repo ∧ finishedLanding (r.latest host) node = false

/-- a branch named under a node its reading does not hold in a repository the run held it in, its work not landed, is
named under a node held there besides -/
def Sheltered : Prop :=
  ∀ events, r.Read events → ∀ node branch repo, NamedBy (RunState.fold host events) node branch → r.Held host node repo →
    repoOf (RunState.fold host events) node ≠ some repo → finishedLanding (r.latest host) node = false →
      r.Placed host repo branch

/-- each wanted pair is offered once, no other pair is, and every one is answered for as its own push answered -/
structure OfferedExactly (preserve : List PreserveRequest → PreserveRequest → Except String Done)
    (calls : List (PreserveRequest × BranchPreserved)) : Prop where
  once : (calls.map fun call => (call.1.repo, call.1.branch)).Nodup
  exactly : ∀ repo branch, (repo, branch) ∈ calls.map (fun call => (call.1.repo, call.1.branch)) ↔ r.Wanted host repo branch
  answered : ∀ call ∈ calls, ∃ before, call.2 = reported call.1 (preserve before call.1)

end Readings

section Shutdown

variable {host : Host} {r : Readings} {repo branch : String}

theorem mem_offered_iff : (repo, branch) ∈ offered (r.view host) (r.now host) ↔ r.Placed host repo branch := by
  rw [mem_offered]
  constructor
  · rintro ⟨reading, hreading, node, hnamed, hfinished, hrepo⟩
    rcases hreading with rfl | hnow
    · exact ⟨r.seen, .inl rfl, node, hnamed, hrepo, hfinished⟩
    · obtain ⟨events, hlater, rfl⟩ := Option.map_eq_some_iff.mp hnow
      exact ⟨events, .inr hlater, node, hnamed, hrepo, hfinished⟩
  · rintro ⟨events, hread, node, hnamed, hrepo, hfinished⟩
    rcases hread with rfl | hlater
    · exact ⟨_, .inl rfl, node, hnamed, hfinished, hrepo⟩
    · exact ⟨RunState.fold host events, .inr (by rw [Readings.now, hlater]; rfl), node, hnamed, hfinished, hrepo⟩

theorem wanted_of_placed (h : r.Placed host repo branch) : r.Wanted host repo branch := by
  obtain ⟨events, hread, node, hnamed, hrepo, hfinished⟩ := h
  refine ⟨events, hread, node, hnamed, ⟨events, hread, events.length, ?_⟩, hfinished⟩
  rwa [List.take_length]

/-- **Every branch is offered, exactly when.** A shutdown offers each branch named under a node the run ever held, once
in each repository it held the node in, and no other pair, whatever the pushes answer, if and only if no branch of work
not landed is left under a node its reading no longer holds there and under no other. -/
theorem offered_exactly_iff (host : Host) (r : Readings)
    (preserve : List PreserveRequest → PreserveRequest → Except String Done) (termScope : RunState → List String) :
    r.OfferedExactly host preserve (preserveEveryBranch preserve termScope (r.view host) (r.now host)) ↔
      r.Sheltered host := by
  have hcalls : (preserveEveryBranch preserve termScope (r.view host) (r.now host)).map
      (fun call => (call.1.repo, call.1.branch)) = offered (r.view host) (r.now host) := by
    have hfst := map_fst_preserveEach preserve [] ((offered (r.view host) (r.now host)).map fun p =>
      ({ repo := p.1, branch := p.2, termScope := termScope ((r.now host).getD (r.view host)) } : PreserveRequest))
    have hpairs := congrArg (List.map fun request => (request.repo, request.branch)) hfst
    rw [List.map_map, List.map_map] at hpairs
    exact hpairs.trans (List.map_id _)
  constructor
  · intro h events hread node branch repo hnamed hheld _ hfinished
    have hoffered := (h.exactly repo branch).mpr ⟨events, hread, node, hnamed, hheld, hfinished⟩
    rw [hcalls] at hoffered
    exact mem_offered_iff.mp hoffered
  · intro h
    refine ⟨hcalls ▸ nodup_offered, fun repo branch => ?_, fun call hcall => answered_preserveEach preserve hcall⟩
    rw [hcalls, mem_offered_iff]
    refine ⟨wanted_of_placed, ?_⟩
    rintro ⟨events, hread, node, hnamed, hheld, hfinished⟩
    by_cases hrepo : repoOf (RunState.fold host events) node = some repo
    · exact ⟨events, hread, node, hnamed, hrepo, hfinished⟩
    · exact h events hread node branch repo hnamed hheld hrepo hfinished

end Shutdown

/-! ### A node dropped with its work on a branch -/

/-- a plan of two, the first in a repository -/
def inRepository : Plan := .ofNodes [{ Node.direct "a" [] with repo := some "r", title := some "feat: a" }, .direct "b" []]

/-- the first node fails with its work on a branch, and is dropped -/
def droppedFailed : List Envelope :=
  [.own 1 (some "a") (.nodeSettled { status := some .failed, branch := some "work" }),
    .own 2 none (.editCommitted (some [.nodeDropped "a" .detach]))]

theorem droppedFailed_appends :
    Admits (RunState.foldRecord .lenient) (RunState.Appends .lenient) (RunState.started inRepository) droppedFailed := by
  refine ⟨trivial, ?_, trivial⟩
  generalize hs : RunState.foldRecord .lenient (RunState.started inRepository) (.own 1 (some "a")
    (.nodeSettled { status := some .failed, branch := some "work" })) = s
  exact compiled_drop (by rw [← hs]; decide) (by rw [← hs]; decide)

/-- a shutdown that reads the run once, as it stands after the drop -/
def afterTheDrop : Readings where
  seen := .own 0 none (.runStarted (some inRepository)) :: droppedFailed
  later := none

/-- the branch is wanted, and nothing is offered -/
theorem dropped_branch_is_left :
    check Host.lenient.toSiblings inRepository = .ok () ∧
      Admits (RunState.foldRecord .lenient) (RunState.Appends .lenient) (RunState.started inRepository) droppedFailed ∧
      afterTheDrop.Wanted .lenient "r" "work" ∧
      ∀ preserve termScope,
        preserveEveryBranch preserve termScope (afterTheDrop.view .lenient) (afterTheDrop.now .lenient) = [] := by
  refine ⟨by decide, droppedFailed_appends, ?_, fun preserve termScope => ?_⟩
  · refine ⟨afterTheDrop.seen, .inl rfl, "a", .inr (.inr ?_), ⟨afterTheDrop.seen, .inl rfl, 1, ?_⟩, ?_⟩ <;> decide
  · have hnone : offered (afterTheDrop.view .lenient) (afterTheDrop.now .lenient) = [] := by decide
    rw [preserveEveryBranch, hnone]
    rfl

end OnePipeline.Preserve
