/-
What was absorbed lands with the lineage that absorbed it, where no absorber on the way was superseded.

What lands with a node is found by following absorptions alone, recorded and just found. A draft merged into the branch
of a node that is superseded afterwards is left where it is when the change request that carries it lands
(`absorber_superseded`).

Results:
- `mem_absorbedInto`: what lands with a node is what absorptions alone lead from to it;
- `absorbed_absorptions`: a read finds absorbed only what it reads as merged without landing;
- `takeUp_landed`: what a landing journals, in its place among what the read journals;
- `landed_exactly_iff`: the landing of a head journals exactly what leads to it, if and only if all of that leads there
  through absorptions alone.
-/
import Mathlib.Tactic
import OnePipeline.Core.Runs
import OnePipeline.Laws.Compiled
import OnePipeline.Laws.Lineage
import OnePipeline.Model.Readjust
import OnePipeline.Model.Run

namespace OnePipeline.Readjust

open Chase Checks Runs

/-! ## What a landing owes -/

/-- absorptions, and supersessions of what absorbed, leading from one node to another -/
inductive Leads (every superseded : StrMap String) : String → String → Prop
  | here (n : String) : Leads every superseded n n
  | absorbed {a b n : String} (into : every[a]? = some b) (rest : Leads every superseded b n) : Leads every superseded a n
  | superseded {a b n : String} («by» : superseded[a]? = some b) (rest : Leads every superseded b n) :
      Leads every superseded a n

/-- absorptions alone are a way absorptions and supersessions lead -/
theorem Leads.of_trail {every superseded : StrMap String} {a b : String} {l : List String} (h : Trail (links every) a b l) :
    Leads every superseded a b := by
  induction h with
  | stop => exact .here _
  | step link _ ih => exact .absorbed link ih

/-- a node that lands with another: absorbed on the way to it, not landed yet, and with a change request -/
structure Owed (sib : Siblings) (s : RunState) (every : StrMap String) (head a : String) : Prop where
  leads : ∃ into, every[a]? = some into ∧ Leads every s.superseded into head
  unlanded : s.landings[a]? ≠ some .landed
  change : (s.lineageChange sib a).isSome = true

/-- the nodes a list of records lands -/
def landedNodes (l : List Emitted) : List String :=
  l.filterMap fun
    | .nodeLanded landed => some landed.node
    | _ => none

/-- records that land a head and what lands with it, each once, and nothing else -/
structure LandsExactly (sib : Siblings) (s : RunState) (every : StrMap String) (head : String) (l : List Emitted) : Prop where
  once : (landedNodes l).Nodup
  nodes : ∀ x, x ∈ landedNodes l ↔ x = head ∨ Owed sib s every head x

/-! ## What the code lands -/

section

variable {every : StrMap String} {head : String}

/-- **What lands with a node.** What absorptions alone lead from to it. -/
theorem mem_absorbedInto {x into : String} :
    (∃ d, (x, into, d) ∈ absorbedInto every head) ↔ every[x]? = some into ∧ ∃ l, Trail (links every) x head (x :: l) := by
  have hmem (d : ℕ) : (x, into, d) ∈ absorbedInto every head ↔
      every[x]? = some into ∧ landing (links every) (every.size + 1) [x] into 1 = some (head, d) := by
    rw [absorbedInto, (List.mergeSort_perm _ _).mem_iff, List.mem_filterMap]
    constructor
    · intro h
      obtain ⟨⟨a, b⟩, hp, hlast⟩ := h
      obtain ⟨⟨last, depth⟩, hland, hif⟩ := Option.bind_eq_some_iff.mp hlast
      split_ifs at hif with hhead
      obtain ⟨rfl, rfl, rfl⟩ : a = x ∧ b = into ∧ depth = d := by simpa using hif
      exact ⟨Std.ExtTreeMap.mem_toList_iff_getElem?_eq_some.mp hp, hhead ▸ hland⟩
    · intro h
      refine ⟨(x, into), Std.ExtTreeMap.mem_toList_iff_getElem?_eq_some.mpr h.1, ?_⟩
      have hland : landing (fun id => every[id]?) (every.size + 1) [x] into 1 = some (head, d) := h.2
      simp only [hland, Option.bind_some, if_true]
  simp only [hmem]
  constructor
  · intro h
    obtain ⟨d, hinto, hland⟩ := h
    obtain ⟨l, ht⟩ := trail_of_landing hland
    exact ⟨hinto, l, .step hinto ht⟩
  · intro h
    obtain ⟨hinto, l, ht⟩ := h
    have hnd := ht.nodup
    have hlen := trail_length ht
    cases ht with
    | stop ends =>
      rw [links, hinto] at ends
      cases ends
    | step link rest =>
      obtain rfl := Option.some.inj (link.symm.trans hinto)
      refine ⟨_, hinto, rest.landing (by rw [List.length_cons] at hlen; omega) fun c hc hin => ?_⟩
      rw [List.mem_singleton.mp hin] at hc
      exact (List.nodup_cons.mp hnd).1 hc

/-- each node lands with another once -/
theorem nodup_absorbedInto : ((absorbedInto every head).map Prod.fst).Nodup := by
  have hkeys : (every.toList.map Prod.fst).Nodup := by
    rw [Std.ExtTreeMap.map_fst_toList_eq_keys]
    exact Std.ExtTreeMap.nodup_keys
  refine (((List.mergeSort_perm _ _).map Prod.fst).nodup_iff.mpr (hkeys.sublist ?_) : _)
  induction every.toList with
  | nil => exact List.Sublist.refl _
  | cons p l ih =>
    rw [List.filterMap_cons]
    cases hlast : (landing (fun id => every[id]?) (every.size + 1) [p.1] p.2 1).bind fun last =>
        if last.1 = head then some (p.1, p.2, last.2) else none with
    | none => exact ih.cons _
    | some q =>
      obtain ⟨last, -, hif⟩ := Option.bind_eq_some_iff.mp hlast
      split_ifs at hif
      obtain rfl := Option.some.inj hif
      exact ih.cons_cons _

end

section

variable {sib : Siblings} {identity : String → String} {s : RunState} {trigger : ReadjustTrigger} {commit : String}

/-- the node one absorbed node's record lands -/
theorem landedNodes_landedWith (l : List (String × String × ℕ)) :
    landedNodes (l.filterMap (landedWith sib s trigger commit)) =
      (l.map Prod.fst).filter fun x => s.landings[x]? ≠ some .landed ∧ (s.lineageChange sib x).isSome = true := by
  induction l with
  | nil => rfl
  | cons p l ih =>
    rw [List.filterMap_cons, List.map_cons, List.filter_cons]
    by_cases hlanded : s.landings[p.1]? = some .landed
    · simp [landedWith, hlanded, ih]
    · cases hchange : s.lineageChange sib p.1 with
      | none => simp [landedWith, hlanded, hchange, ih]
      | some url =>
        have hkept : s.landings[p.1]? ≠ some .landed ∧ (some url).isSome = true := ⟨hlanded, rfl⟩
        rw [if_pos (decide_eq_true hkept), landedWith, if_neg hlanded, hchange]
        exact congrArg (p.1 :: ·) ih

/-- the nodes a landing lands -/
theorem landedNodes_landed (draft : Draft) (found : Found) :
    landedNodes (landed sib s trigger draft commit found) = draft.node ::
      ((absorbedInto (everyAbsorbed s found) draft.node).map Prod.fst).filter fun x =>
        s.landings[x]? ≠ some .landed ∧ (s.lineageChange sib x).isSome = true := by
  have hout : landedNodes (if (unlandedAncestors sib s draft.node found.landed).isEmpty then []
      else [.stackLandedOutOfOrder draft.node (unlandedAncestors sib s draft.node found.landed)]) = [] := by
    split_ifs <;> rfl
  rw [← landedNodes_landedWith, landed]
  simp only [landedNodes] at hout ⊢
  rw [List.cons_append, List.filterMap_cons, List.filterMap_append, hout, List.append_nil]

/-- a node that neither the run nor the read has absorbed -/
theorem landed_exactly_iff_of_unabsorbed {draft : Draft} {found : Found}
    (hdraft : (everyAbsorbed s found)[draft.node]? = none) :
    LandsExactly sib s (everyAbsorbed s found) draft.node (landed sib s trigger draft commit found) ↔
      ∀ a, Owed sib s (everyAbsorbed s found) draft.node a →
        ∃ l, Trail (links (everyAbsorbed s found)) a draft.node l := by
  have hmem (x : String) : x ∈ landedNodes (landed sib s trigger draft commit found) ↔ x = draft.node ∨
      ((∃ into, (everyAbsorbed s found)[x]? = some into ∧ ∃ l, Trail (links (everyAbsorbed s found)) x draft.node (x :: l)) ∧
        s.landings[x]? ≠ some .landed ∧ (s.lineageChange sib x).isSome = true) := by
    rw [landedNodes_landed, List.mem_cons, List.mem_filter, decide_eq_true_iff, List.mem_map]
    refine or_congr_right (and_congr_left fun _ => ?_)
    constructor
    · intro h
      obtain ⟨⟨a, into, d⟩, hin, rfl⟩ := h
      exact ⟨into, mem_absorbedInto.mp ⟨d, hin⟩⟩
    · intro h
      obtain ⟨into, hinto⟩ := h
      obtain ⟨d, hin⟩ := mem_absorbedInto.mpr hinto
      exact ⟨(x, into, d), hin, rfl⟩
  constructor
  · intro h a ha
    rcases (hmem a).mp ((h.nodes a).mpr (.inr ha)) with rfl | ⟨⟨into, -, l, ht⟩, -⟩
    · obtain ⟨into, hinto, -⟩ := ha.leads
      rw [hdraft] at hinto
      cases hinto
    · exact ⟨_, ht⟩
  · intro h
    refine ⟨?_, fun x => (hmem x).trans (or_congr_right ?_)⟩
    · rw [landedNodes_landed]
      refine List.nodup_cons.mpr ⟨fun hin => ?_, nodup_absorbedInto.filter _⟩
      obtain ⟨⟨a, into, d⟩, hin, hnode⟩ := List.mem_map.mp (List.mem_of_mem_filter hin)
      obtain ⟨hinto, -⟩ := mem_absorbedInto.mp ⟨d, hin⟩
      have hnode : a = draft.node := hnode
      rw [hnode, hdraft] at hinto
      cases hinto
    · constructor
      · intro hx
        obtain ⟨⟨into, hinto, l, ht⟩, hunlanded, hchange⟩ := hx
        cases ht with
        | stop ends =>
          rw [links, hinto] at ends
          cases ends
        | step link rest =>
          obtain rfl := Option.some.inj (link.symm.trans hinto)
          exact ⟨⟨_, hinto, .of_trail rest⟩, hunlanded, hchange⟩
      · intro hx
        obtain ⟨into, hinto, -⟩ := hx.leads
        obtain ⟨l, ht⟩ := h x hx
        cases ht with
        | stop ends =>
          rw [links, hinto] at ends
          cases ends
        | step link rest => exact ⟨⟨into, hinto, _, .step link rest⟩, hx.unlanded, hx.change⟩

/-! ## One read -/

/-- **What a read finds absorbed.** Only what it reads as merged without landing. -/
theorem absorbed_absorptions {read : List (Draft × ChangeStanding)} {a into : String}
    (h : (absorptions identity s read).2[a]? = some into) :
    ∃ p ∈ read, p.1.node = a ∧ ∃ branch commit, p.2.state = .merged branch commit false := by
  have hfold (l : List (Draft × ChangeStanding)) (acc : List Emitted × StrMap String)
      (h : (l.foldl (fun acc p => (absorberOf identity s read p).elim acc fun found =>
        (acc.1 ++ [.nodeAbsorbed p.1.node found.1 p.1.url found.2], acc.2.insert p.1.node found.1)) acc).2[a]? = some into) :
      acc.2[a]? = some into ∨ ∃ p ∈ l, p.1.node = a ∧ ∃ branch commit, p.2.state = .merged branch commit false := by
    induction l generalizing acc with
    | nil => exact .inl h
    | cons p l ih =>
      rcases ih _ h with hacc | ⟨q, hq, hrest⟩
      · cases habsorber : absorberOf identity s read p with
        | none =>
          simp only [habsorber, Option.elim_none] at hacc
          exact .inl hacc
        | some found =>
          simp only [habsorber, Option.elim_some, Maps.get_insert] at hacc
          split_ifs at hacc with hnode
          · refine .inr ⟨p, List.mem_cons_self, hnode.symm, ?_⟩
            unfold absorberOf at habsorber
            split at habsorber
            · rename_i branch commit hstate
              exact ⟨branch, commit, hstate⟩
            · cases habsorber
          · exact .inl hacc
      · exact .inr ⟨q, List.mem_cons_of_mem p hq, hrest⟩
  have hstep : absorptions identity s read = read.foldl (fun acc p => (absorberOf identity s read p).elim acc fun found =>
      (acc.1 ++ [.nodeAbsorbed p.1.node found.1 p.1.url found.2], acc.2.insert p.1.node found.1)) ([], ∅) := by
    unfold absorptions
    congr 1
    funext acc p
    cases absorberOf identity s read p <;> rfl
  rw [hstep] at h
  rcases hfold read ([], ∅) h with hempty | hread
  · rw [Std.ExtTreeMap.getElem?_empty] at hempty
    cases hempty
  · exact hread

/-- the drafts the first part of a read finds landed -/
def landedIn (read : List (Draft × ChangeStanding)) : List String :=
  read.filterMap fun p =>
    match p.2.state with
    | .merged _ _ true => some p.1.node
    | _ => none

/-- what a read has found in front of one of its drafts -/
def foundBefore (identity : String → String) (s : RunState) (read before : List (Draft × ChangeStanding)) : Found where
  landed := landedIn before
  absorbed := (absorptions identity s read).2

/-- **A landing in its read.** What a draft found landed journals stands among what the read journals. -/
theorem takeUp_landed {read before after : List (Draft × ChangeStanding)} {p : Draft × ChangeStanding} {into : String}
    (hread : read = before ++ p :: after) (hstate : p.2.state = .merged into commit true) :
    ∃ front back, takeUp sib identity s trigger read =
      front ++ landed sib s trigger p.1 commit (foundBefore identity s read before) ++ back := by
  have hfront (l : List (Draft × ChangeStanding)) (found : Found) : ∃ front, landings sib s trigger found (l ++ p :: after) =
      front ++ landings sib s trigger { found with landed := found.landed ++ landedIn l } (p :: after) := by
    induction l generalizing found with
    | nil => exact ⟨[], by simp [landedIn]⟩
    | cons q l ih =>
      rw [List.cons_append, landings]
      split
      · rename_i into' commit' hq
        obtain ⟨front, hfront⟩ := ih { found with landed := found.landed ++ [q.1.node] }
        refine ⟨landed sib s trigger q.1 commit' found ++ front, ?_⟩
        rw [hfront, List.append_assoc]
        simp [landedIn, hq]
      · rename_i hq
        obtain ⟨front, hfront⟩ := ih found
        refine ⟨front, ?_⟩
        have hnone : landedIn (q :: l) = landedIn l := by
          rw [landedIn, List.filterMap_cons]
          split
          · rfl
          · rename_i hsome
            split at hsome
            · rename_i hstate'
              exact absurd hstate' (hq _ _)
            · cases hsome
        rw [hfront, hnone]
  obtain ⟨front, hlandings⟩ := hfront before { absorbed := (absorptions identity s read).2 }
  refine ⟨(absorptions identity s read).1 ++ front,
    landings sib s trigger { landed := landedIn before ++ [p.1.node], absorbed := (absorptions identity s read).2 } after, ?_⟩
  rw [takeUp]
  nth_rewrite 3 [hread]
  rw [hlandings, landings, hstate, List.nil_append, ← List.append_assoc, ← List.append_assoc]
  rfl

/-- a draft is a node nothing absorbed, as far as the run's record says -/
theorem unabsorbed_of_draft {closed : StrSet} {draft : Draft} (h : draft ∈ drafts sib closed s) :
    s.absorbed[draft.node]? = none := by
  obtain ⟨node, hnode, hdraft⟩ := List.mem_filterMap.mp h
  have hfilter := of_decide_eq_true (List.mem_filter.mp hnode).2
  obtain ⟨repo, -, hdraft⟩ := Option.bind_eq_some_iff.mp hdraft
  obtain ⟨url, -, hdraft⟩ := Option.bind_eq_some_iff.mp hdraft
  obtain rfl := Option.some.inj hdraft
  exact Maps.not_mem_iff.mp hfilter.2.2.1

/-- **A head's landing.** Where a read of the run's drafts, each once, finds a head landed, what it journals lands the
head and what lands with it, each once, and nothing else, if and only if every node that lands with the head leads to it
through absorptions alone. -/
theorem landed_exactly_iff {closed : StrSet} {read before after : List (Draft × ChangeStanding)} {draft : Draft}
    {standing : ChangeStanding} {into : String} (hdrafts : ∀ p ∈ read, p.1 ∈ drafts sib closed s)
    (honce : (read.map fun p => p.1.node).Nodup) (hread : read = before ++ (draft, standing) :: after)
    (hlanded : standing.state = .merged into commit true) :
    LandsExactly sib s (everyAbsorbed s (foundBefore identity s read before)) draft.node
        (landed sib s trigger draft commit (foundBefore identity s read before)) ↔
      ∀ a, Owed sib s (everyAbsorbed s (foundBefore identity s read before)) draft.node a →
        ∃ l, Trail (links (everyAbsorbed s (foundBefore identity s read before))) a draft.node l := by
  refine landed_exactly_iff_of_unabsorbed ?_
  have hin : (draft, standing) ∈ read := by
    rw [hread]
    exact List.mem_append_right _ List.mem_cons_self
  rw [everyAbsorbed, Maps.get_insertAll, unabsorbed_of_draft (hdrafts _ hin), Option.or_none]
  -- the draft is read as landed, and it is read once
  rcases Option.eq_none_or_eq_some (foundBefore identity s read before).absorbed[draft.node]? with hnone | ⟨v, hsome⟩
  · exact hnone
  · obtain ⟨p, hp, hnode, branch, sha, hstate⟩ := absorbed_absorptions hsome
    obtain rfl : p = (draft, standing) := List.inj_on_of_nodup_map honce hp hin hnode
    rw [hlanded] at hstate
    cases hstate

end

/-! ### An absorber that is superseded, and one that is not -/

/-- a host that reads a reference as a change request -/
def reviewHost : Host := { Host.lenient with isUrl := fun _ => true }

/-- a lifecycle node -/
def lifecycle (id : String) : Node := { Node.direct id [] with repo := some "service", title := some "feat: work" }

def twoDrafts : Plan := .ofNodes [lifecycle "a", lifecycle "b"]

/-- a node settled with its change request open -/
def draftedAs (status : NodeStatus) (node branch url : String) (seq : ℕ) : Envelope :=
  .own seq (some node) (.nodeSettled
    { status := some status, branch := some branch, changeUrl := some url, landing := some .unlanded })

/-- two drafts, the first failed with its change request open, and the second merged into its branch -/
def mergedIntoAnother : List Envelope :=
  [draftedAs .failed "a" "at/a" "pr/1" 1, draftedAs .done "b" "at/b" "pr/2" 2, .own 3 none (.nodeAbsorbed (some ("b", "a")))]

/-- the state a journal of the two drafts' run folds to -/
def drafted (journal : List Envelope) : RunState :=
  journal.foldl (RunState.foldRecord reviewHost) (RunState.started twoDrafts)

/-- the operations the compiler answers a retry of the absorber with -/
def retryOperations : List Operation :=
  match compile reviewHost (drafted mergedIntoAnother).graph ((drafted mergedIntoAnother).judged {}) .planner
    (.retry "a" (lifecycle "a2")) with
  | .ok p => p.2
  | .error _ => []

/-- the absorber retried after it absorbed, and its replacement drafted on its branch -/
def absorberRetried : List Envelope :=
  mergedIntoAnother ++ [.own 4 none (.editCommitted (some retryOperations)), draftedAs .done "a2" "at/a" "pr/1" 5]

/-- a record of a run: one its driver appends, or one a readjustment of it journals -/
def Journals (host : Host) (s : RunState) (e : Envelope) : Prop :=
  s.Appends host e ∨ (∃ absorbed, e.body = .nodeAbsorbed absorbed) ∨ ∃ node, e.body = .nodeLanded node

/-- the retry is one the compiler accepts -/
theorem retryOperations_compiled : (drafted mergedIntoAnother).Compiled reviewHost retryOperations := by
  have hcompiles : (compile reviewHost (drafted mergedIntoAnother).graph ((drafted mergedIntoAnother).judged {}) .planner
      (.retry "a" (lifecycle "a2"))).toOption.any (fun _ => true) = true := by decide
  unfold retryOperations
  generalize drafted mergedIntoAnother = s at hcompiles ⊢
  obtain ⟨⟨graph', ops⟩, hok, -⟩ := exists_ok_of_any hcompiles
  rw [hok]
  exact ⟨{}, .planner, .retry "a" (lifecycle "a2"), graph', hok⟩

theorem absorberRetried_journals :
    Admits (RunState.foldRecord reviewHost) (Journals reviewHost) (RunState.started twoDrafts) absorberRetried := by
  have hedit : Journals reviewHost (drafted mergedIntoAnother) (.own 4 none (.editCommitted (some retryOperations))) :=
    .inl retryOperations_compiled
  exact Admits.append.mpr ⟨⟨.inl trivial, .inl trivial, .inr (.inl ⟨_, rfl⟩), trivial⟩, hedit, .inl trivial, trivial⟩

/-- one read finds a draft's change request landed -/
def landedRead (node : String) : List (Draft × ChangeStanding) :=
  [(⟨node, "pr/1", "service"⟩, ⟨"at/a", .merged "main" "c0ffee1" true⟩)]

/-- every absorption of a run, where that read is its only one -/
def absorbedOf (journal : List Envelope) (node : String) : StrMap String :=
  everyAbsorbed (drafted journal) (foundBefore id (drafted journal) (landedRead node) [])

/-- what that read's landing journals -/
def landedOf (journal : List Envelope) (node : String) : List Emitted :=
  landed reviewHost.toSiblings (drafted journal) .readjust ⟨node, "pr/1", "service"⟩ "c0ffee1"
    (foundBefore id (drafted journal) (landedRead node) [])

theorem owed_absorberRetried :
    Owed reviewHost.toSiblings (drafted absorberRetried) (absorbedOf absorberRetried "a2") "a2" "b" := by
  have hinto : (absorbedOf absorberRetried "a2")["b"]? = some "a" := by decide
  have hby : (drafted absorberRetried).superseded["a"]? = some "a2" := by decide
  exact ⟨⟨"a", hinto, .superseded hby (.here _)⟩, by decide, by decide⟩

/-- a draft absorbed into one that is superseded afterwards does not land with the change request that carries it -/
theorem absorber_superseded :
    check reviewHost.toSiblings twoDrafts = .ok () ∧
      Admits (RunState.foldRecord reviewHost) (Journals reviewHost) (RunState.started twoDrafts) absorberRetried ∧
      drafts reviewHost.toSiblings ∅ (drafted absorberRetried) = (landedRead "a2").map Prod.fst ∧
      ¬LandsExactly reviewHost.toSiblings (drafted absorberRetried) (absorbedOf absorberRetried "a2") "a2"
        (landedOf absorberRetried "a2") := by
  have hcheck : check reviewHost.toSiblings twoDrafts = .ok () := by decide
  have hdrafts : drafts reviewHost.toSiblings ∅ (drafted absorberRetried) = (landedRead "a2").map Prod.fst := by
    decide +kernel
  have hout : "b" ∉ landedNodes (landedOf absorberRetried "a2") := by decide +kernel
  exact ⟨hcheck, absorberRetried_journals, hdrafts, fun h => hout ((h.nodes "b").mpr (.inr owed_absorberRetried))⟩

example : landedNodes (landedOf mergedIntoAnother "a") = ["a", "b"] := by decide +kernel

/-- a draft absorbed into one that lands itself -/
theorem absorber_lands :
    LandsExactly reviewHost.toSiblings (drafted mergedIntoAnother) (absorbedOf mergedIntoAnother "a") "a"
        (landedOf mergedIntoAnother "a") ↔
      ∀ x, Owed reviewHost.toSiblings (drafted mergedIntoAnother) (absorbedOf mergedIntoAnother "a") "a" x →
        ∃ l, Trail (links (absorbedOf mergedIntoAnother "a")) x "a" l := by
  have hdrafts : ∀ p ∈ landedRead "a", p.1 ∈ drafts reviewHost.toSiblings ∅ (drafted mergedIntoAnother) := by
    decide
  have hread : landedRead "a" = [] ++ (⟨"a", "pr/1", "service"⟩, ⟨"at/a", .merged "main" "c0ffee1" true⟩) :: [] := rfl
  exact landed_exactly_iff hdrafts (List.nodup_singleton _) hread rfl

end OnePipeline.Readjust
