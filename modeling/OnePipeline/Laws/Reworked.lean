/-
Which review drafts can be reworked.

Results:
- `exists_freeFrom`: a free name is always found;
- `checkNode_reworked_iff`: the node a rework puts in a valid node's place passes exactly where that one has no steps;
- `rework_accepted_iff`: a rework of a draft is accepted exactly where it has no steps and no export edge ends at it.
-/
import Mathlib
import OnePipeline.Laws.Passing

namespace OnePipeline

open Checks RunState Runs

/-! ## A free name -/

section

variable {graph : Graph} {frontier : Frontier} {root : String}

theorem freeFrom_eq_none {isUsed : String → Bool} {fuel n : ℕ} (h : freeFrom isUsed root fuel n = none) :
    ∀ i < fuel, isUsed s!"{root}-rework-{n + i}" = true := by
  induction fuel generalizing n with
  | zero => intro i hi; omega
  | succ fuel ih =>
    rw [freeFrom] at h
    split_ifs at h with hused
    intro i hi
    cases i with
    | zero => exact hused
    | succ i =>
      have hrest := ih h i (by omega)
      rw [show n + (i + 1) = n + 1 + i by omega]
      exact hrest

theorem name_injective {a b : ℕ} (h : s!"{root}-rework-{a}" = s!"{root}-rework-{b}") : a = b := by
  have hchars := congrArg String.toList h
  simp only [String.toList_append] at hchars
  exact Nat.repr_injective (String.toList_inj.mp (List.append_cancel_left hchars))

/-- the ids a run has used -/
def usedIds (graph : Graph) (frontier : Frontier) : List String :=
  graph.ids ++ frontier.recorded.keys ++ frontier.superseded.keys ++ frontier.superseded.values

theorem mem_usedIds {id : String} : id ∈ usedIds graph frontier ↔ used graph frontier id = true := by
  simp only [usedIds, used, List.mem_append, Bool.or_eq_true, decide_eq_true_eq, Graph.contains_iff, List.any_eq_true,
    Std.ExtTreeMap.mem_keys]
  simp

theorem length_usedIds : (usedIds graph frontier).length + 1 = freeFuel graph frontier := by
  rw [usedIds, freeFuel, List.length_append, List.length_append, List.length_append, Std.ExtTreeMap.length_keys,
    Std.ExtTreeMap.length_keys, Maps.values_eq, List.length_map, Std.ExtTreeMap.length_toList]
  omega

/-- **A free name.** One is found among as many as the run has used, and one. -/
theorem exists_freeFrom : ∃ id, freeFrom (used graph frontier) root (freeFuel graph frontier) 1 = some id := by
  cases h : freeFrom (used graph frontier) root (freeFuel graph frontier) 1 with
  | some id => exact ⟨id, rfl⟩
  | none =>
    have hall := freeFrom_eq_none h
    have hsub : (Finset.range (freeFuel graph frontier)).image (fun i => s!"{root}-rework-{1 + i}") ⊆
        (usedIds graph frontier).toFinset := by
      intro name hname
      obtain ⟨i, hi, rfl⟩ := Finset.mem_image.mp hname
      exact List.mem_toFinset.mpr (mem_usedIds.mpr (hall i (Finset.mem_range.mp hi)))
    have hinj : Function.Injective fun i : ℕ => s!"{root}-rework-{1 + i}" := by
      intro a b hab
      have := name_injective hab
      omega
    have hcard := Finset.card_le_card hsub
    rw [Finset.card_image_of_injective _ hinj, Finset.card_range] at hcard
    have hlen := List.toFinset_card_le (usedIds graph frontier)
    have hfuel := @length_usedIds graph frontier
    omega

end

/-! ## The node put in its place -/

section

variable {sib : Siblings} {target : Node} {rework : Rework} {id branch : String}

theorem mem_append_left {c : Char} {a b : String} (h : c ∈ a.toList) : c ∈ (a ++ b).toList := by
  rw [String.toList_append]
  exact List.mem_append_left _ h

theorem mem_append_right {c : Char} {a b : String} (h : c ∈ b.toList) : c ∈ (a ++ b).toList := by
  rw [String.toList_append]
  exact List.mem_append_right _ h

theorem mem_reworkSection (rework : Rework) : '#' ∈ (reworkSection rework).toList := by
  have hheading : '#' ∈ (toString reworkHeading).toList := by decide
  have hfold (l : List ReworkComment) (text : String) (h : '#' ∈ text.toList) :
      '#' ∈ (l.foldl (fun text comment => text ++ s!"- {comment.url}\n") text).toList := by
    induction l generalizing text with
    | nil => exact h
    | cons c l ih => exact ih _ (mem_append_left h)
  rw [reworkSection]
  split_ifs with hnone
  · exact mem_append_left (mem_append_left (mem_append_left hheading))
  · exact hfold _ _ (mem_append_left (mem_append_left (mem_append_left (mem_append_left hheading))))

theorem blankTask_reworked : blankTask (reworked target rework id branch).task = false := by
  simp only [blankTask, reworked, Option.map_some, Option.getD_some]
  exact Text.isBlank_eq_false (mem_append_right (mem_reworkSection rework)) (by decide)

theorem validateTitle_trim (title : String) : validateTitle sib (Text.trim title) = validateTitle sib title := by
  rw [validateTitle, validateTitle, Text.trim_trim]

theorem checkTitle_reworked (htitle : ∀ t, rework.title = some t → validateTitle sib t = .ok ())
    (h : checkTitle sib target = .ok ()) : checkTitle sib (reworked target rework id branch) = .ok () := by
  refine checkTitle_iff.mpr fun hrepo title ht => ?_
  have hor : (rework.title.map Text.trim).or target.title = some title := ht
  cases hstated : rework.title with
  | none =>
    rw [hstated, Option.map_none, Option.none_or] at hor
    exact checkTitle_iff.mp h hrepo title hor
  | some t =>
    rw [hstated, Option.map_some, Option.some_or] at hor
    rw [← Option.some.inj hor, validateTitle_trim]
    exact htitle t hstated

theorem checkPreserve_iff {node : Node} : checkPreserve node = .ok () ↔
    (node.publish = .preserve → keepsNothing node = none ∧ node.draft = false) := by
  rw [checkPreserve]
  split_ifs with hpub
  · simp [hpub, bind_eq_ok, refuseAs_eq_ok, refuseIf_eq_ok]
  · simp [hpub]

theorem checkFields_reworked
    (htitle : ∀ t, rework.title = some t → validateTitle sib t = .ok ()) (h : checkFields sib target = .ok ()) :
    checkFields sib (reworked target rework id branch) = .ok () := by
  simp only [checkFields, bind_eq_ok, each_eq_ok, refuseAs_eq_ok, refuseIf_eq_ok, exists_unit, not_not,
    Option.map_eq_none_iff] at h ⊢
  obtain ⟨hsets, hdispatch, hauthor, hreply, hpreserve, hdelivers, hat, -, hconsumes⟩ := h
  refine ⟨hsets, hdispatch, hauthor, hreply, ?_, hdelivers, checkTitle_reworked htitle hat, ?_, hconsumes⟩
  · have hkept := checkPreserve_iff.mp hpreserve
    exact checkPreserve_iff.mpr hkept
  · simp [reworked]

/-- **The node put in its place.** It passes exactly where a valid lifecycle node has no steps. -/
theorem checkNode_reworked_iff (hrepo : target.repo.isSome = true)
    (htitle : ∀ t, rework.title = some t → validateTitle sib t = .ok ()) (h : checkNode sib target = .ok ()) :
    checkNode sib (reworked target rework id branch) = .ok () ↔ target.steps = none := by
  rw [checkNode, bind_eq_ok, exists_unit] at h ⊢
  obtain ⟨hfields, hkind⟩ := h
  have hfields' : checkFields sib (reworked target rework id branch) = .ok () := checkFields_reworked htitle hfields
  have hhuman : target.kind ≠ .human := by
    intro hh
    rw [if_pos hh] at hkind
    simp only [checkHuman, bind_eq_ok, refuseIf_eq_ok, exists_unit, not_or] at hkind
    exact hkind.2.2.2.1.1 hrepo
  have hhuman' : (reworked target rework id branch).kind ≠ .human := hhuman
  rw [if_neg hhuman] at hkind
  rw [if_neg hhuman']
  have hdiff' : (reworked target rework id branch).expectsNoDiff = target.expectsNoDiff := rfl
  rw [hdiff']
  split_ifs at hkind ⊢ with hdiff
  · simp only [checkNoDiff, bind_eq_ok, refuseIf_eq_ok, exists_unit] at hkind ⊢
    obtain ⟨-, hpersona, hsteps⟩ := hkind
    have hnone : target.steps = none := by simpa using hsteps
    have hblank := @blankTask_reworked target rework id branch
    refine iff_of_true ⟨hfields', ?_, hpersona, hsteps⟩ hnone
    rw [hblank]
    exact Bool.false_ne_true
  · obtain ⟨repo, hrepo⟩ := Option.isSome_iff_exists.mp hrepo
    have hrepo' : (reworked target rework id branch).repo = some repo := hrepo
    have hsteps' : (reworked target rework id branch).steps = target.steps := rfl
    rw [checkAgent, bind_eq_ok] at hkind ⊢
    obtain ⟨turns, hturns, hkind⟩ := hkind
    rw [hrepo] at hkind
    rw [hrepo', hsteps']
    cases hsteps : target.steps with
    | some steps =>
      -- the replacement states a task beside its steps
      refine iff_of_false ?_ (by simp)
      rintro ⟨-, -, -, h⟩
      simp only [bind_eq_ok, refuseIf_eq_ok, exists_unit, not_or] at h
      exact h.1.2.1 rfl
    | none =>
      simp only [hsteps, bind_eq_ok, refuseIf_eq_ok, exists_unit] at hkind
      refine iff_of_true ⟨hfields', turns, ?_, ?_⟩ rfl
      · rw [mapError_eq_ok] at hturns ⊢
        exact hturns
      · have hblank := @blankTask_reworked target rework id branch
        simp only [bind_eq_ok, refuseIf_eq_ok, exists_unit]
        refine ⟨hkind.1, ?_⟩
        rw [hblank]
        exact Bool.false_ne_true

end

/-! ## The graph it leaves -/

section

variable {sib : Siblings} {graph : Graph} {id new : String} {replacement : Node} {request : Operation}

theorem checkNode_rewired {n : Node} (h : checkNode sib n = .ok ()) : checkNode sib (rewired id new n) = .ok () := by
  refine checkNode_written h (fun k hk => ?_) fun _ hc => hc
  have hmem (hin : k ∈ n.consumes) (hne : k ≠ id) : k ∈ n.deps.map fun dep => if dep = id then new else dep :=
    List.mem_map.mpr ⟨k, checkNode_consumes h hin, if_neg hne⟩
  cases hc : n.consumes[id]? with
  | none =>
    rw [hc] at hk
    obtain ⟨v, hv⟩ := Maps.mem_iff.mp hk
    rw [Maps.get_erase] at hv
    split_ifs at hv with hki
    exact hmem (Maps.mem_iff.mpr ⟨v, hv⟩) hki
  | some target =>
    rw [hc] at hk
    obtain ⟨v, hv⟩ := Maps.mem_iff.mp hk
    rw [Maps.get_insert, Maps.get_erase] at hv
    split_ifs at hv with hkn hki
    · exact List.mem_map.mpr ⟨id, checkNode_consumes h (Maps.mem_iff.mpr ⟨target, hc⟩), by rw [if_pos rfl, hkn]⟩
    · exact hmem (Maps.mem_iff.mpr ⟨v, hv⟩) hki

/-- an id taken over by another -/
def takenOver (id new k : String) : String := if k = id then new else k

/-- the node under each id once a node is reworked -/
theorem get_reworked (hnew : replacement.id ∉ graph.ids) (k : String) :
    (supersede graph id replacement request).1.get k =
      if k = id then none
      else if k = replacement.id then some replacement
      else if k ∈ graph.dependentsOf id then (graph.get k).map (rewired id replacement.id)
      else graph.get k := by
  rw [supersede_graph]
  exact get_superseding hnew k

theorem mem_rewired_deps {n : Node} {d' : String} :
    d' ∈ (rewired id new n).deps ↔ ∃ d ∈ n.deps, takenOver id new d = d' := List.mem_map

theorem takenOver_of_not_dep {n : Node} (h : id ∉ n.deps) {d' : String} :
    d' ∈ n.deps ↔ ∃ d ∈ n.deps, takenOver id new d = d' := by
  have hsame {d : String} (hd : d ∈ n.deps) : takenOver id new d = d := if_neg fun heq : d = id => h (heq ▸ hd)
  constructor
  · intro hd
    exact ⟨d', hd, hsame hd⟩
  · rintro ⟨d, hd, rfl⟩
    rw [hsame hd]
    exact hd

/-- a graph with a node reworked is the graph with the node's id taken over -/
theorem renamed_of_rework {target : Node} (hget : graph.get id = some target) (hself : id ∉ target.deps)
    (hown : OwnIds graph) (hid : replacement.id = new) (hnew : new ∉ graph.ids) (hownNew : ownId new = true)
    (hpublish : replacement.publish = target.publish) (hrepo : replacement.repo = target.repo)
    (hbase : replacement.baseBranch = target.baseBranch) (hdelivers : replacement.delivers = target.delivers)
    (hdeps : replacement.deps = target.deps) :
    graph.Renamed (takenOver id new) (supersede graph id replacement request).1 := by
  subst hid
  have hne : replacement.id ≠ id := fun heq => hnew (heq ▸ Graph.mem_ids_of_get hget)
  have hat := @get_reworked graph id replacement request hnew
  have hin : id ∈ graph.ids := Graph.mem_ids_of_get hget
  have hrename (n : Node) (d : String) : (if d ∈ graph.ids then takenOver id replacement.id d else d) =
      takenOver id replacement.id d := by
    split_ifs with hd
    · rfl
    · rw [takenOver, if_neg fun heq : d = id => hd (heq ▸ hin)]
  have hback (k : String) (hk : k ∈ (supersede graph id replacement request).1.ids) :
      k = replacement.id ∨ (k ∈ graph.ids ∧ k ≠ id) := by
    obtain ⟨n, hn⟩ := Option.isSome_iff_exists.mp (Graph.isSome_get.mpr hk)
    rw [hat] at hn
    split_ifs at hn with hki hkr hdep
    · exact .inl hkr
    · exact .inr ⟨Graph.isSome_get.mp (by obtain ⟨m, hm, -⟩ := Option.map_eq_some_iff.mp hn; rw [hm]; rfl), hki⟩
    · exact .inr ⟨Graph.mem_ids_of_get hn, hki⟩
  refine ⟨?_, fun k n hn => ?_, fun k' hk' => ?_, fun a ha b hb hab => ?_, hown, fun k hk => ?_, fun k hk hformed => ?_⟩
  · rw [supersede_graph, Graph.concurrency_remove, Graph.concurrency_foldl_modify]
    rfl
  · by_cases hki : k = id
    · subst hki
      rw [hget] at hn
      cases hn
      refine ⟨replacement, ?_, hpublish, hrepo, hbase, hdelivers, fun d' => ?_⟩
      · rw [takenOver, if_pos rfl, hat, if_neg hne, if_pos rfl]
      · simp only [hrename target, hdeps]
        exact takenOver_of_not_dep hself
    · have hkr : k ≠ replacement.id := fun heq => hnew (heq ▸ Graph.mem_ids_of_get hn)
      by_cases hdep : k ∈ graph.dependentsOf id
      · refine ⟨rewired id replacement.id n, ?_, rfl, rfl, rfl, rfl, fun d' => ?_⟩
        · rw [takenOver, if_neg hki, hat, if_neg hki, if_neg hkr, if_pos hdep, hn]
          rfl
        · simp only [hrename n]
          exact mem_rewired_deps
      · refine ⟨n, ?_, rfl, rfl, rfl, rfl, fun d' => ?_⟩
        · rw [takenOver, if_neg hki, hat, if_neg hki, if_neg hkr, if_neg hdep, hn]
        · simp only [hrename n]
          exact takenOver_of_not_dep fun hd => hdep (Graph.mem_dependentsOf.mpr ⟨n, hn, hd⟩)
  · rcases hback k' hk' with rfl | ⟨hk, hne'⟩
    · exact ⟨id, hin, if_pos rfl⟩
    · exact ⟨k', hk, if_neg hne'⟩
  · simp only [takenOver] at hab
    split_ifs at hab with ha' hb' hb'
    · rw [ha', hb']
    · exact absurd (hab ▸ hb) hnew
    · exact absurd (hab ▸ ha) hnew
    · exact hab
  · rcases hback k hk with rfl | ⟨hk', -⟩
    · exact not_crossDag_of_own hownNew
    · exact hown k hk'
  · rw [takenOver]
    split_ifs
    · have hstart : Text.startsWith "run:".toList replacement.id.toList = false := by simpa [ownId] using hownNew
      rw [isMalformed, hstart]
      rfl
    · exact hformed

end

/-! ## The rework -/

namespace RunState

variable {host : Host} {s : RunState} {plan : Plan} {journal : List Envelope} {live : Live} {id branch : String}
  {target : Node}

/-- a lifecycle node done whose change neither landed nor was absorbed, on a branch of the record, with nothing in flight or
restacking around it -/
structure ReviewDraft (s : RunState) (live : Live) (id : String) (target : Node) (branch : String) : Prop where
  present : s.graph.get id = some target
  lifecycle : target.repo.isSome = true
  done : (s.judged live).recorded[id]? = some .done
  unlanded : s.landings[id]? ≠ some .landed
  unabsorbed : s.absorbed[id]? = none
  branched : s.branches[id]? = some branch
  quiet : busyAround s.graph (s.judged live) id = none

/-- what the source asks of a rework that states no replacement id -/
structure Askable (host : Host) (reason instruction : String) (title : Option String) : Prop where
  reason : Text.isBlank reason = false
  instruction : Text.isBlank instruction = false
  title : ∀ t, title = some t → validateSubject host.toSiblings t = .ok ()

/-- whether a rework of a node is accepted, bringing in an id nothing in the run uses -/
def Reworkable (host : Host) (s : RunState) (live : Live) (author : Author) (id reason instruction : String)
    (comments : List ReworkComment) (title : Option String) : Prop :=
  ∃ graph' operations, compile host s.graph (s.judged live) author (.rework id reason instruction comments title none) =
      .ok (graph', operations) ∧
    ∀ p ∈ operations.filterMap requestOf, used s.graph (s.judged live) p.2 = false

section

variable {author : Author} {reason instruction : String} {comments : List ReworkComment} {title : Option String}

theorem compileRework_iff (hd : s.ReviewDraft live id target branch) (ha : Askable host reason instruction title)
    {new : String} {graph' : Graph} {operations : List Operation}
    (hnew : reworkId s.graph (s.judged live) { id, reason, instruction, comments, title, replacement := none } = .ok new) :
    compileRework host s.graph (s.judged live) { id, reason, instruction, comments, title, replacement := none } =
        .ok (graph', operations) ↔
      checkNode host.toSiblings (reworked target { id, reason, instruction, comments, title, replacement := none } new branch) =
          .ok () ∧
        (graph', operations) = supersede s.graph id
          (reworked target { id, reason, instruction, comments, title, replacement := none } new branch)
          (.reworkRequested id new (Text.trim reason) (Text.trim instruction) comments (title.map Text.trim)) := by
  have hrepo : target.repo ≠ none := fun hnone => by
    have hsome := hd.lifecycle
    rw [hnone] at hsome
    cases hsome
  have htitle : checkReworkTitle host { id, reason, instruction, comments, title, replacement := none } = .ok () := by
    rw [checkReworkTitle]
    cases title with
    | none => rfl
    | some t =>
      simp only
      rw [ha.title t rfl]
      rfl
  simp only [compileRework, validateNode, bind_eq_ok, need_eq_ok, refuseIf_eq_ok, refuseAs_eq_ok, exists_unit, pure_eq_ok,
    mapError_eq_ok, not_not, Option.map_eq_none_iff]
  constructor
  · rintro ⟨target', hget, -, -, -, -, -, branch', hbranch, -, -, -, new', hid, hvalid, heq⟩
    rw [hd.present] at hget
    rw [show (s.judged live).branches = s.branches from rfl, hd.branched] at hbranch
    cases hget
    cases hbranch
    cases hnew.symm.trans hid
    exact ⟨hvalid, heq.symm⟩
  · rintro ⟨hvalid, heq⟩
    exact ⟨target, hd.present, hrepo, hd.quiet, hd.done, hd.unlanded, hd.unabsorbed, branch, hd.branched,
      by simp [ha.reason], by simp [ha.instruction], htitle, new, hnew, hvalid, heq.symm⟩

/-- **A rework.** A review draft of a state whose graph passes is reworked exactly where it has no steps and no export edge
ends at it. -/
theorem rework_ok_iff (h : s.Passing host) (hd : s.ReviewDraft live id target branch) (hv : live.graphValidation = none)
    (ha : Askable host reason instruction title) :
    s.Reworkable host live author id reason instruction comments title ↔
      target.steps = none ∧ ∀ edge ∈ s.frontier.exportEdges, edge.from ≠ id ∧ edge.to ≠ id := by
  obtain ⟨new, hfree⟩ := @exists_freeFrom s.graph (s.judged live) (lineageRoot (s.judged live) id)
  let rework : Rework := { id, reason, instruction, comments, title, replacement := none }
  let replacement := reworked target rework new branch
  let request : Operation :=
    .reworkRequested id new (Text.trim reason) (Text.trim instruction) comments (title.map Text.trim)
  have hnew : reworkId s.graph (s.judged live) rework = .ok new := need_eq_ok.mpr hfree
  have hunused : used s.graph (s.judged live) new = false := reworkId_ok hnew
  have hout : replacement.id ∉ s.graph.ids := unused_ids hunused
  have hlive := (Graph.get_eq_some.mp hd.present).1
  have hcheck : checkNode host.toSiblings replacement = .ok () ↔ target.steps = none := by
    refine checkNode_reworked_iff hd.lifecycle (fun t ht => ?_) (h.rules.node hlive)
    have hsubject := ha.title t ht
    simp only [validateSubject, bind_eq_ok, exists_unit] at hsubject
    exact hsubject.1
  have hat := @get_reworked s.graph id replacement request hout
  constructor
  · rintro ⟨graph', operations, hc, -⟩
    obtain ⟨resolved, haccepted⟩ := compile_ok hc
    have hresolved : resolved = .rework id reason instruction comments title none := by
      cases resolves_of_ok haccepted.resolves
      rfl
    have hinto := haccepted.compiles
    rw [hresolved] at hinto
    obtain ⟨hvalid, heq⟩ := (compileRework_iff hd ha hnew).mp hinto
    refine ⟨hcheck.mp hvalid, fun edge he => ?_⟩
    have hgone : id ∉ graph'.ids := by
      have hgraph : graph' = (supersede s.graph id replacement request).1 := congrArg Prod.fst heq
      intro hin
      have hsome := Graph.isSome_get.mpr hin
      rw [hgraph, hat, if_pos rfl] at hsome
      cases hsome
    obtain ⟨hfrom, hto⟩ := Boundary.ends_mem (haccepted.edited rfl).edges he
    exact ⟨fun heq => hgone (heq ▸ hfrom), fun heq => hgone (heq ▸ hto)⟩
  · rintro ⟨hsteps, hends⟩
    have hvalid := hcheck.mpr hsteps
    have hown : ownId new = true := by
      obtain ⟨k, rfl⟩ := name_of_freeFrom hfree
      refine own_minted k ?_
      rcases lineageRoot_mem (s.judged live) id with hsame | hin
      · rw [hsame]
        exact h.own id (.inl (Graph.mem_ids_of_get hd.present))
      · exact h.own _ (.inr (.inl hin))
    have hself : id ∉ target.deps := Graph.id_of_get hd.present ▸ h.rules.not_self hlive
    have hrenamed : s.graph.Renamed (takenOver id new) (supersede s.graph id replacement request).1 :=
      renamed_of_rework hd.present hself h.own.ids rfl hout hown rfl rfl rfl rfl rfl
    have hrules : EditedRules host.toSiblings
        (editedPlan (supersede s.graph id replacement request).1 s.frontier.exportEdges) := by
      refine h.rules.renamed hrenamed (fun n' hn' => ?_) fun edge he => ?_
      · have hn := Graph.get_of_mem hn'
        rw [hat] at hn
        split_ifs at hn with hki hkr hdep
        · cases hn
          refine ⟨?_, hvalid⟩
          obtain ⟨k, hk⟩ := name_of_freeFrom hfree
          have hdash : '-' ∈ new.toList := hk ▸ mem_append_left (mem_append_right (by decide))
          exact Text.isBlank_eq_false hdash (by decide)
        · obtain ⟨n, hget, rfl⟩ := Option.map_eq_some_iff.mp hn
          have hin := (Graph.get_eq_some.mp hget).1
          have hblank : Text.isBlank n.id = false := h.rules.id_not_blank hin
          exact ⟨hblank, checkNode_rewired (h.rules.node hin)⟩
        · have hin := (Graph.get_eq_some.mp hn).1
          exact ⟨h.rules.id_not_blank hin, h.rules.node hin⟩
      · obtain ⟨hfrom, hto⟩ := hends edge he
        exact ⟨if_neg hfrom, if_neg hto⟩
    refine ⟨(supersede s.graph id replacement request).1, (supersede s.graph id replacement request).2, ?_, fun p hp => ?_⟩
    · have hinto : compileRework host s.graph (s.judged live) rework = .ok (supersede s.graph id replacement request) :=
        (compileRework_iff hd ha hnew).mpr ⟨hvalid, rfl⟩
      have hv' : (s.judged live).graphValidation = none := hv
      have hcandidate : checkCandidate host (s.judged live) (.rework id reason instruction comments title none)
          (supersede s.graph id replacement request).1 = .ok () := by
        simp only [checkCandidate, checkBoundary, hv']
        simp only [leavesTheGraph, Bool.false_eq_true, if_false, bind_eq_ok, exists_unit, mapError_eq_ok]
        exact ⟨trivial, checkEdited_eq_ok.mpr hrules⟩
      have hoverrides : checkOverrides host (s.judged live) (.rework id reason instruction comments title none)
          (supersede s.graph id replacement request).1 = .ok () := by
        simp only [checkOverrides, hv']
      have hresolve : resolveCommand host (s.judged live) (.rework id reason instruction comments title none) =
          .ok (.rework id reason instruction comments title none) := by
        simp only [resolveCommand, hv']
      simp only [compile, bind_eq_ok, refuseIf_eq_ok, exists_unit, pure_eq_ok, Prod.exists]
      exact ⟨by simp [graphSettingRequiresValidation], _, hresolve, rfl, _, _, hinto, hcandidate, hoverrides, rfl, rfl⟩
    · rw [requests_supersede rfl] at hp
      rw [List.mem_singleton.mp hp]
      exact hunused

end

/-- **Every draft but these.** In every state of a run whose records keep its graph passing, a review draft is reworked
exactly where it has no steps and no export edge ends at it. -/
theorem rework_accepted_iff {author : Author} {reason instruction : String} {comments : List ReworkComment}
    {title : Option String} (hplan : checkEdited host.toSiblings plan = .ok ())
    (hids : ∀ n ∈ plan.tasks, ownId n.id = true)
    (h : Admits (foldRecord host) (fun s e => Records host s e ∧ KeepsRules host s e) (started plan) journal)
    {records : List Envelope} (hin : records <+: journal)
    (hd : (records.foldl (foldRecord host) (started plan)).ReviewDraft live id target branch)
    (hv : live.graphValidation = none) (ha : Askable host reason instruction title) :
    (records.foldl (foldRecord host) (started plan)).Reworkable host live author id reason instruction comments title ↔
      target.steps = none ∧ ∀ edge ∈ (records.foldl (foldRecord host) (started plan)).frontier.exportEdges,
        edge.from ≠ id ∧ edge.to ≠ id :=
  rework_ok_iff (passing_run hplan hids h hin) hd hv ha

/-! ### A draft of steps, and one of none -/

/-- a lifecycle node of one step -/
def stepped : Node :=
  { id := "d", repo := some "r", title := some "feat: d"
    steps := some [⟨"s", .agent, some "do", some "worker", [], none, false, none, none⟩] }

/-- a lifecycle node of no steps -/
def plain : Node := { Node.direct "d" [] with repo := some "r", title := some "feat: d" }

/-- a node settled done on a branch -/
def drafted : Envelope := .own 1 (some "d") (.nodeSettled { status := some .done, branch := some "b" })

theorem drafted_admitted {node : Node} : Admits (foldRecord .lenient)
    (fun s e => Records .lenient s e ∧ KeepsRules .lenient s e) (started (.ofNodes [node])) [drafted] :=
  ⟨⟨.inl trivial, fun _ _ _ hbody => Body.noConfusion hbody, fun _ _ _ hbody => Body.noConfusion hbody,
    fun _ hbody => hbody.elim Body.noConfusion Body.noConfusion, fun _ _ _ _ _ hbody => Body.noConfusion hbody⟩, trivial⟩

theorem stepped_draft :
    ([drafted].foldl (foldRecord .lenient) (started (.ofNodes [stepped]))).ReviewDraft {} "d" stepped "b" := by
  exact ⟨rfl, rfl, by decide, by decide, by decide, by decide, by decide⟩

theorem asked : Askable .lenient "r" "i" none := ⟨by decide, by decide, fun _ ht => by cases ht⟩

/-- a review draft of steps is refused every rework -/
theorem stepped_not_reworkable :
    checkEdited Host.lenient.toSiblings (.ofNodes [stepped]) = .ok () ∧
      Admits (foldRecord .lenient) (Records .lenient) (started (.ofNodes [stepped])) [drafted] ∧
      ([drafted].foldl (foldRecord .lenient) (started (.ofNodes [stepped]))).ReviewDraft {} "d" stepped "b" ∧
      Askable .lenient "r" "i" none ∧
      ¬([drafted].foldl (foldRecord .lenient) (started (.ofNodes [stepped]))).Reworkable .lenient {} .planner "d" "r" "i" []
        none := by
  have hplan : checkEdited Host.lenient.toSiblings (.ofNodes [stepped]) = .ok () := by decide
  refine ⟨hplan, drafted_admitted.mono fun _ _ h => h.1, stepped_draft, asked, fun h => ?_⟩
  have hpassing := passing_run hplan (by decide) drafted_admitted (List.prefix_refl _)
  have hsteps := ((rework_ok_iff hpassing stepped_draft rfl asked).mp h).1
  cases hsteps

theorem plain_draft : ([drafted].foldl (foldRecord .lenient) (started (.ofNodes [plain]))).ReviewDraft {} "d" plain "b" :=
  ⟨rfl, rfl, by decide, by decide, by decide, by decide, by decide⟩

example : ([drafted].foldl (foldRecord .lenient) (started (.ofNodes [plain]))).branches["d"]? = some "b" := by decide +kernel

/-- a review draft of no steps is reworked -/
theorem plain_reworkable :
    ([drafted].foldl (foldRecord .lenient) (started (.ofNodes [plain]))).Reworkable .lenient {} .planner "d" "r" "i" [] none := by
  have haccepted := @rework_accepted_iff .lenient (.ofNodes [plain]) [drafted] {} "d" "b" plain .planner "r" "i" [] none
    (by decide) (by decide) drafted_admitted _ (List.prefix_refl _) plain_draft rfl asked
  refine haccepted.mpr ⟨rfl, fun edge he => ?_⟩
  have hnone : ([drafted].foldl (foldRecord .lenient) (started (.ofNodes [plain]))).frontier.exportEdges = [] := by
    decide
  rw [hnone] at he
  cases he

end RunState

end OnePipeline
