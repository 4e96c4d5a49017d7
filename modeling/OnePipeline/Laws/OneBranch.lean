/-
The two names of a node's branch: its own, and the one its checkpoint resumes.

Five writers hold one or both of them. The settlement pin writes the two alike, a retry is refused where they differ, and a rework
names a branch alone. An addition, a requeue's amendment and an adoption's pin each write one without asking about the other.

Results:
- `NodeSerde.derived_readsPins`: the derived reader takes each name from its own field;
- `namesOne_retryReplacement`: what a retry puts in a node's place names one branch;
- `namesOne_foldRecord_iff`: when a record leaves a graph whose nodes each name one branch so;
- `one_branch`: every state of a run is such a graph exactly when each of its records is such a record;
- `adoption_names_two`: a node resumed on a branch of its own, adopted out of the session it was given.
-/
import Mathlib.Tactic
import OnePipeline.Core.Runs
import OnePipeline.Laws.Forest
import OnePipeline.Laws.Late
import OnePipeline.Laws.ReplayAgrees
import OnePipeline.Laws.Shapes

namespace OnePipeline

open Checks Runs

/-! ## The names a node is read with -/

namespace RecordField

variable {ρ α β : Type} {get : ρ → β}

/-- a field whose reading leaves a part of the record as it was -/
def Leaves (get : ρ → β) (f : RecordField ρ) : Prop := ∀ v r r', f.read v r = .ok r' → get r' = get r

theorem leaves_required {c : Codec α} {key : String} {own : ρ → α} {set : α → ρ → ρ} (h : ∀ a r, get (set a r) = get r) :
    Leaves get (required c key own set) := by
  intro v r r' hread
  cases v with
  | none => cases hread
  | some v =>
    obtain ⟨a, -, rfl⟩ := map_eq_ok.mp hread
    exact h a r

theorem leaves_optional {c : Codec α} {key : String} {own : ρ → Option α} {set : Option α → ρ → ρ}
    (h : ∀ a r, get (set a r) = get r) : Leaves get (optional c key own set) := by
  intro v r r' hread
  cases v with
  | none =>
    cases hread
    exact h none r
  | some v =>
    simp only [optional] at hread
    split_ifs at hread
    · cases hread
      exact h none r
    · obtain ⟨a, -, rfl⟩ := map_eq_ok.mp hread
      exact h (some a) r

theorem leaves_defaulted [DecidableEq α] {c : Codec α} {key : String} {d : α} {own : ρ → α} {set : α → ρ → ρ}
    (h : ∀ a r, get (set a r) = get r) : Leaves get (defaulted c key d own set) := by
  intro v r r' hread
  cases v with
  | none =>
    cases hread
    exact h d r
  | some v =>
    obtain ⟨a, -, rfl⟩ := map_eq_ok.mp hread
    exact h a r

theorem leaves_entries {key : String} {own : ρ → StrMap String} {set : StrMap String → ρ → ρ} (h : ∀ a r, get (set a r) = get r) :
    Leaves get (entries key own set) := by
  intro v r r' hread
  cases v with
  | none =>
    cases hread
    exact h ∅ r
  | some v =>
    obtain ⟨a, -, rfl⟩ := map_eq_ok.mp hread
    exact h a r

theorem readAll_leaves {fields : List (RecordField ρ)} {look : String → Option Value} (h : ∀ f ∈ fields, Leaves get f) {r r' : ρ}
    (hread : readAll look fields r = .ok r') : get r' = get r := by
  induction fields generalizing r with
  | nil =>
    cases hread
    rfl
  | cons f fields ih =>
    obtain ⟨m, hm, hrest⟩ := bind_eq_ok.mp hread
    exact (ih (fun g hg => h g (List.mem_cons_of_mem _ hg)) hrest).trans (h f List.mem_cons_self _ _ _ hm)

/-- a part of a record that one field reads, and no field after it -/
theorem readAll_reads (before after : List (RecordField ρ)) (f : RecordField ρ) {look : String → Option Value}
    (hafter : ∀ g ∈ after, Leaves get g) {r r' : ρ} (hread : readAll look (before ++ f :: after) r = .ok r') :
    ∃ m m', f.read (look f.key) m = .ok m' ∧ get r' = get m' := by
  rw [readAll_append] at hread
  obtain ⟨m, -, hrest⟩ := bind_eq_ok.mp hread
  obtain ⟨m', hm', hrest⟩ := bind_eq_ok.mp hrest
  exact ⟨m, m', hm', readAll_leaves hafter hrest⟩

end RecordField

/-- the branch a checkpoint names as it is written: by its key, or first where its fields stand in order -/
def Value.resumed : Value → Option String
  | .obj fields => (fields.lookup "branch").bind asStr
  | .arr (v :: _) => v.asStr
  | _ => none

namespace NodeSerde

/-- a reader that takes a node's branch and its checkpoint's each from its own field -/
structure ReadsPins (serde : NodeSerde) : Prop where
  branch : ∀ {o : Fields} {n : Node}, serde.ofObject o = .ok n → n.branch = o["branch"]?.bind Value.asStr
  resume : ∀ {o : Fields} {n : Node}, serde.ofObject o = .ok n → n.resume.map Resume.branch = o["resume"]?.bind Value.resumed

open Codec RecordField

theorem asStr_of_dec {v : Value} {s : String} (h : string.dec v = .ok s) : v.asStr = some s := by
  cases v with
  | str t => exact congrArg some (Except.ok.inj h)
  | _ => cases h

theorem resumed_of_dec {v : Value} {r : Resume} (h : Codec.resume.dec v = .ok r) : v.resumed = some r.branch := by
  cases v with
  | obj fields =>
    simp only [Codec.resume, Codec.record] at h
    split at h
    · cases h
    have hafter : ∀ g ∈ resumeFields.tail, Leaves Resume.branch g := by
      simp only [resumeFields, List.tail_cons, List.forall_mem_cons]
      exact ⟨leaves_optional fun _ _ => rfl, leaves_defaulted fun _ _ => rfl, by simp⟩
    obtain ⟨m, m', hread, hlater⟩ := readAll_reads [] resumeFields.tail _ hafter h
    simp only [RecordField.required] at hread
    cases hv : fields.lookup "branch" with
    | none => simp [hv] at hread
    | some w =>
      simp only [hv, map_eq_ok] at hread
      obtain ⟨s, hs, rfl⟩ := hread
      rw [Value.resumed, hv, Option.bind_some, asStr_of_dec hs, hlater]
  | _ => cases h

/-- what a field that may be left out, or stated as nothing, reads of its own part of a record -/
theorem named_of_optional {ρ α : Type} {c : Codec α} {key : String} {own : ρ → Option α} {set : Option α → ρ → ρ} {name : α → String}
    {spelled : Value → Option String} (hset : ∀ a r, own (set a r) = a)
    (hdec : ∀ v a, c.dec v = .ok a → spelled v = some (name a)) (hnull : spelled .null = none) {v : Option Value} {r r' : ρ}
    (h : (optional c key own set).read v r = .ok r') : (own r').map name = v.bind spelled := by
  cases v with
  | none =>
    cases h
    simp [hset]
  | some v =>
    simp only [RecordField.optional] at h
    split_ifs at h with hv
    · cases h
      cases v with
      | null => simp [hset, hnull]
      | _ => cases hv
    · obtain ⟨a, ha, rfl⟩ := map_eq_ok.mp h
      simp [hset, hdec v a ha]

/-- **The derived reader.** -/
theorem derived_readsPins : derived.ReadsPins := by
  have hread {o : Fields} {n : Node} (h : derived.ofObject o = .ok n) :
      readAll (fun k => o[k]?) nodeFields { id := "" } = .ok n := by
    simp only [derived, readNode] at h
    split at h
    · cases h
    · exact h
  refine ⟨fun {o n} h => ?_, fun {o n} h => ?_⟩
  · have hafter : ∀ g ∈ nodeFields.drop 18, Leaves Node.branch g := by
      simp only [nodeFields, otherFields, idField, parkedField, List.cons_append, List.nil_append, List.drop_succ_cons, List.drop_zero,
        List.forall_mem_cons]
      and_intros <;> first
        | exact leaves_optional fun _ _ => rfl
        | exact leaves_defaulted fun _ _ => rfl
        | exact leaves_entries fun _ _ => rfl
        | exact leaves_required fun _ _ => rfl
        | simp
    obtain ⟨m, m', hone, hlater⟩ := readAll_reads (nodeFields.take 17) (nodeFields.drop 18) _ hafter (hread h)
    rw [hlater]
    exact Option.map_id'.symm.trans (named_of_optional (fun _ _ => rfl) (fun v a ha => asStr_of_dec ha) rfl hone)
  · have hafter : ∀ g ∈ nodeFields.drop 27, Leaves Node.resume g := by
      simp only [nodeFields, otherFields, idField, parkedField, List.cons_append, List.nil_append, List.drop_succ_cons, List.drop_zero,
        List.forall_mem_cons]
      and_intros <;> first
        | exact leaves_optional fun _ _ => rfl
        | exact leaves_defaulted fun _ _ => rfl
        | exact leaves_entries fun _ _ => rfl
        | exact leaves_required fun _ _ => rfl
        | simp
    obtain ⟨m, m', hone, hlater⟩ := readAll_reads (nodeFields.take 26) (nodeFields.drop 27) _ hafter (hread h)
    rw [hlater]
    exact named_of_optional (fun _ _ => rfl) (fun v a ha => resumed_of_dec ha) rfl hone

end NodeSerde

/-! ## Nodes and graphs -/

/-- two names of a branch that agree where both are given -/
def OneName (branch resumed : Option String) : Prop := ∀ b ∈ branch, ∀ r ∈ resumed, r = b

instance (branch resumed : Option String) : Decidable (OneName branch resumed) := by
  unfold OneName
  infer_instance

/-- a node whose branch and checkpoint name the same branch, where it has both -/
def Node.NamesOne (n : Node) : Prop := OneName n.branch (n.resume.map Resume.branch)

def Graph.NamesOne (g : Graph) : Prop := ∀ n ∈ g.iter, n.NamesOne

/-- where a node's own branch and checkpoint stand once an amendment is written over it -/
def Node.amendedBranch (n : Node) (amend : Option Fields) : Option String :=
  match amend.bind fun a => a["branch"]? with
  | some v => v.asStr
  | none => n.branch

def Node.amendedResume (n : Node) (amend : Option Fields) : Option String :=
  match amend.bind fun a => a["resume"]? with
  | some v => v.resumed
  | none => n.resume.map Resume.branch

/-- an amendment whose park is no boolean: the compiler takes it off unread, and replay refuses it -/
def unreadPark (amend : Option Fields) : Prop := ∃ v ∈ amend.bind fun a => a["parked"]?, ∀ b, v ≠ .bool b

/-- what an operation has to state for the nodes it writes to name one branch each -/
def Operation.NamesOne (graph : Graph) : Operation → Prop
  | .nodeAdded node none => node.NamesOne
  | .nodeRequeued id amend =>
    ∀ n, graph.get id = some n → unreadPark amend ∨ OneName (n.amendedBranch amend) (n.amendedResume amend)
  | _ => True

namespace Graph.NamesOne

variable {g : Graph} {f : Node → Node} {keeps : ∀ n, (f n).id = n.id}

theorem iff_get : g.NamesOne ↔ ∀ k n, g.get k = some n → n.NamesOne :=
  ⟨fun h _ n hn => h n (Graph.get_eq_some.mp hn).1, fun h n hn => h n.id n (Graph.get_of_mem hn)⟩

theorem insert {n : Node} (h : g.NamesOne) (hn : n.NamesOne) : (g.insert n).NamesOne := by
  refine iff_get.mpr fun k m hm => ?_
  rw [Graph.get_insert] at hm
  split_ifs at hm
  · exact Option.some.inj hm ▸ hn
  · exact iff_get.mp h k m hm

theorem insert_iff {n : Node} (h : g.NamesOne) : (g.insert n).NamesOne ↔ n.NamesOne :=
  ⟨fun hall => iff_get.mp hall n.id n (by rw [Graph.get_insert, if_pos rfl]), h.insert⟩

theorem remove {id : String} (h : g.NamesOne) : (g.remove id).NamesOne := by
  refine iff_get.mpr fun k m hm => ?_
  rw [Graph.get_remove] at hm
  split_ifs at hm
  exact iff_get.mp h k m hm

theorem modify {id : String} (h : g.NamesOne) (hf : ∀ n : Node, n.NamesOne → (f n).NamesOne) :
    (g.modify id f keeps).NamesOne := by
  refine iff_get.mpr fun k m hm => ?_
  rw [Graph.get_modify] at hm
  split_ifs at hm
  · obtain ⟨n, hn, rfl⟩ := Option.map_eq_some_iff.mp hm
    exact hf n (iff_get.mp h k n hn)
  · exact iff_get.mp h k m hm

theorem modifyAll (h : g.NamesOne) (hf : ∀ n : Node, n.NamesOne → (f n).NamesOne) : (g.modifyAll f keeps).NamesOne := by
  refine iff_get.mpr fun k m hm => ?_
  rw [Graph.get_modifyAll] at hm
  obtain ⟨n, hn, rfl⟩ := Option.map_eq_some_iff.mp hm
  exact hf n (iff_get.mp h k n hn)

theorem fromPlan {plan : Plan} (h : ∀ n ∈ plan.tasks, n.NamesOne) : (Graph.fromPlan plan).NamesOne := by
  have hfold (l : List Node) (g : Graph) (hg : g.NamesOne) (hl : ∀ n ∈ l, n.NamesOne) : (l.foldl Graph.insert g).NamesOne := by
    induction l generalizing g with
    | nil => exact hg
    | cons n l ih =>
      exact ih (g.insert n) (hg.insert (hl n List.mem_cons_self)) fun m hm => hl m (List.mem_cons_of_mem _ hm)
  exact hfold plan.tasks _ (fun n hn => by cases hn) h

end Graph.NamesOne

/-! ## Edits -/

section Edits

variable {host : Host} {serde : NodeSerde} {graph graph' : Graph} {frontier : Frontier} {author : Author} {ops : List Operation}

/-- a retry's replacement, in the place of a node that names one branch -/
theorem namesOne_retryReplacement {target node replacement : Node} (ht : target.NamesOne)
    (h : retryReplacement host frontier target node = .ok replacement) : replacement.NamesOne := by
  simp only [retryReplacement, validateRetryPin, bind_eq_ok, exists_unit, pure_eq_ok] at h
  obtain ⟨n, hpin, -, -, rfl⟩ := h
  have hn : n.NamesOne := by
    cases hb : node.branch with
    | none =>
      simp only [hb, Except.ok.injEq] at hpin
      subst hpin
      simp [Node.NamesOne, OneName, hb]
    | some branch =>
      cases hr : node.resume with
      | none =>
        simp only [hb, hr, Except.ok.injEq] at hpin
        subst hpin
        simp [Node.NamesOne, OneName, hr]
      | some resume =>
        simp only [hb, hr] at hpin
        split_ifs at hpin with hne
        cases hpin
        simpa [Node.NamesOne, OneName, hb, hr] using not_not.mp hne
  have hinherit : (inheritPreservedBranch n target).NamesOne := by
    unfold inheritPreservedBranch
    split_ifs
    · exact hn
    · exact ht
  have hpinned (m : Node) (hm : m.NamesOne) : (pinRetryBranch m).NamesOne := by
    unfold pinRetryBranch
    split
    · split_ifs
      · rename_i resume hres _
        simp [Node.NamesOne, OneName, hres]
      · exact hm
    · exact hm
  show Node.NamesOne (if _ then n else pinRetryBranch (inheritPreservedBranch n target))
  split_ifs
  · exact hn
  · exact hpinned _ hinherit

theorem namesOne_reworked (target : Node) (rework : Rework) (id branch : String) : (reworked target rework id branch).NamesOne := by
  simp [Node.NamesOne, OneName, reworked]

/-- what supersedes a node names one branch where the node did -/
theorem namesOne_superseding {command : Command} (h : compileInto host graph frontier author command = .ok (graph', ops))
    (hg : graph.NamesOne) {n : Node} {old : String} (hn : .nodeAdded n (some old) ∈ ops) : n.NamesOne := by
  have hintroduces := (compileInto_shape h).2.mpr ⟨n, some old, hn⟩
  have hadded {id : String} {replacement : Node} {request : Operation} (hrequest : ∀ n r, request ≠ .nodeAdded n r)
      (heq : (graph', ops) = supersede graph id replacement request) : n = replacement := by
    obtain ⟨rest, hops, hrest, -⟩ := supersede_ops graph id replacement request
    rw [← heq] at hops
    rw [show ops = _ from hops] at hn
    rcases List.mem_cons.mp hn with heq | hn
    · exact absurd heq.symm (hrequest _ _)
    rcases List.mem_cons.mp hn with heq | hn
    · cases heq
      rfl
    · cases hrest _ hn
  cases command with
  | add node =>
    obtain ⟨-, -, -, rfl⟩ := compileAdd_ok h
    rcases List.mem_cons.mp hn with heq | hn
    · cases heq
    · cases rewires_edgesInto hn
  | retry id node =>
    obtain ⟨target, replacement, hget, -, -, -, hrep, heq⟩ := compileRetry_ok h
    have hsame := hadded (fun _ _ => Operation.noConfusion) heq
    exact hsame ▸ namesOne_retryReplacement (Graph.NamesOne.iff_get.mp hg id target hget) hrep
  | rework id reason instruction comments title replacement =>
    obtain ⟨target, new, branch, -, -, -, -, -, heq⟩ := compileRework_ok h
    have hsame := hadded (fun _ _ => Operation.noConfusion) heq
    exact hsame ▸ namesOne_reworked _ _ _ _
  | _ => cases hintroduces

/-- a record of a requeue alone: the compiler read its node back -/
theorem compileInto_requeued {command : Command} {node : String} {amend : Option Fields}
    (h : compileInto host graph frontier author command = .ok (graph', [.nodeRequeued node amend])) :
    ∃ n m, graph.get node = some n ∧ host.serde.ofObject (requeueObject host.serde n amend) = .ok m := by
  have hquiet : introduces command = false := by
    by_contra hintroduces
    obtain ⟨n, r, hn⟩ := (compileInto_shape h).2.mp (by simpa using hintroduces)
    cases List.mem_singleton.mp hn
  cases command with
  | add | retry | rework => cases hquiet
  | requeue named amendment =>
    obtain ⟨n, m, hget, -, -, hread, -, hops⟩ := compileRequeue_ok h
    simp only [List.cons.injEq, Operation.nodeRequeued.injEq, and_true] at hops
    obtain ⟨rfl, rfl⟩ := hops
    refine ⟨n, m, hget, ?_⟩
    rwa [requeueObject, merge_filter]
  | setNodeSets => cases (compileSetNodeSets_ok h).2.2
  | setRunNodeSets =>
    simp only [compileInto, bind_eq_ok, exists_unit, pure_eq_ok, Prod.mk.injEq] at h
    cases h.2.2
  | review | readjust => cases h
  | drop id dependents reason =>
    obtain ⟨-, -, hout⟩ := compileDrop_ok h
    cases dependents with
    | drop =>
      obtain ⟨d, _, -, hd, -⟩ := List.map_eq_cons_iff.mp hout.2.symm
      cases hd
    | detach =>
      have hin : Operation.nodeDropped id .detach ∈ [Operation.nodeRequeued node amend] := by
        rw [hout.2]
        simp
      cases List.mem_singleton.mp hin
  | reparent id deps =>
    obtain ⟨n, -, -, -, hops⟩ := compileReparent_ok h
    have hin : Operation.reparent id n.deps deps ∈ [Operation.nodeRequeued node amend] := by
      rw [hops]
      simp
    cases List.mem_singleton.mp hin
  | cancel =>
    obtain ⟨-, -, -, -, -, hops⟩ := compileCancel_ok h
    cases hops
  | settle =>
    simp only [compileInto, bind_eq_ok] at h
    obtain ⟨stated, -, h⟩ := h
    cases (compileSettle_ok h).2.2
  | attest => cases (compileAttest_ok h).2.2.2
  | complete => cases h
  | amend => cases (compileAmend_ok h).2.2.2
  | note => cases (compileNote_ok h).2.2
  | withdrawNote => cases h
  | finding => cases (compileFinding_ok h).2
  | retitle => cases (compileRetitle_ok h).2.2
  | decline => cases (compileDecline_ok h).2

/-- a field of the object a requeue reads: the amendment's, or what the node was written with -/
theorem getElem?_requeueObject {n : Node} {amend : Option Fields} {k : String} (hk : k ≠ "parked") :
    (requeueObject serde n amend)[k]? = (amend.bind fun a => a[k]?).or (serde.toObject n)[k]? := by
  rw [requeueObject, Maps.get_erase, if_neg hk]
  cases amend with
  | none => rfl
  | some a => exact getElem?_merge _ a k

/-- **A requeue's names.** Each is the amendment's where it states it, and the node's own otherwise. -/
theorem NodeSerde.ReadsPins.requeued (hserde : serde.ReadsPins) {n m : Node} {amend : Option Fields}
    (h : serde.ofObject (requeueObject serde n amend) = .ok m) :
    m.branch = n.amendedBranch amend ∧ m.resume.map Resume.branch = n.amendedResume amend := by
  have hbranch := hserde.branch h
  have hresume := hserde.resume h
  rw [getElem?_requeueObject (by decide)] at hbranch hresume
  have hown := serde.ofObject_toObject n
  refine ⟨hbranch.trans ?_, hresume.trans ?_⟩
  · unfold Node.amendedBranch
    cases amend.bind fun a => a["branch"]? with
    | none => exact (hserde.branch hown).symm
    | some v => rfl
  · unfold Node.amendedResume
    cases amend.bind fun a => a["resume"]? with
    | none => exact (hserde.resume hown).symm
    | some v => rfl

/-- the node replay reads a requeue back as: none where the park the amendment states is no boolean, and else the compiler's,
but for its park -/
theorem requeued_of_read {n m : Node} {amend : Option Fields} (h : serde.ofObject (requeueObject serde n amend) = .ok m) :
    (unreadPark amend → requeued serde n amend = none) ∧
      (¬unreadPark amend → ∃ m', requeued serde n amend = some m' ∧ m'.branch = m.branch ∧ m'.resume = m.resume) := by
  have habsent : (requeueObject serde n amend)["parked"]? = none := by
    rw [requeueObject, Maps.get_erase, if_pos rfl]
  unfold requeued unreadPark
  rw [replayed_object, ← requeueObject]
  cases amend.bind fun a => a["parked"]? with
  | none =>
    simp only [h]
    exact ⟨by simp, fun _ => ⟨_, rfl, rfl, rfl⟩⟩
  | some v =>
    constructor
    · rintro ⟨w, hw, hnot⟩
      cases hw
      cases hread : serde.ofObject ((requeueObject serde n amend).insert "parked" v) with
      | ok m' => exact absurd hread (serde.not_ok_of_not_bool hnot)
      | error e => rfl
    · intro hbool
      have hb : ∃ b, v = .bool b := by
        by_contra hne
        exact hbool ⟨v, rfl, fun b heq => hne ⟨b, heq⟩⟩
      obtain ⟨b, rfl⟩ := hb
      have hread := (@NodeSerde.ofObject_parked serde _ b _ habsent).mpr ⟨m, h, rfl⟩
      simp only [hread]
      exact ⟨_, rfl, rfl, rfl⟩

theorem namesOne_apply {op : Operation} (hg : graph.NamesOne) (h : op.keepsNodes = true) : (apply serde graph op).NamesOne := by
  cases op with
  | nodeAdded | nodeRequeued | humanAttested | retryRequested | reworkRequested => cases h
  | nodeDropped => exact hg.remove.modifyAll fun _ hn => hn
  | contextAdded node note deliver =>
    cases deliver with
    | deferred => exact hg.modify fun _ hn => hn
    | live => exact hg
  | noteWithdrawn node envelope index «from» text alikeAfter =>
    cases «from» with
    | carried => exact hg.modify fun _ hn => hn
    | live => exact hg
  | noteDelivered node addressee text criterion reached envelope index =>
    cases reached with
    | carried => exact hg.modify fun _ hn => hn
    | _ => exact hg
  | nodeSetsReplaced | reparent | edgeRemoved | edgeAdded | nodeParked | settledFromEvidence | taskAmended | retitled =>
    exact hg.modify fun _ hn => hn
  | runNodeSetsReplaced | landingFromEvidence | completionRequested | findingRaised | declineApplied => exact hg

theorem namesOne_applyAll {l : List Operation} (hg : graph.NamesOne) (h : ∀ op ∈ l, op.keepsNodes = true) :
    (applyAll serde graph l).NamesOne := by
  induction l generalizing graph with
  | nil => exact hg
  | cons op l ih =>
    exact ih (namesOne_apply hg (h op List.mem_cons_self)) fun o ho => h o (List.mem_cons_of_mem _ ho)

theorem Operation.namesOne_of_keepsNodes {op : Operation} (h : op.keepsNodes = true) : op.NamesOne graph := by
  cases op <;> trivial

/-- **An edit.** Its record leaves a graph of nodes that each name one branch so exactly when what it states does. -/
theorem namesOne_edit_iff (hserde : host.serde.ReadsPins) (hg : graph.NamesOne) {command : Command}
    (h : compile host graph frontier author command = .ok (graph', ops)) :
    (applyAll host.serde graph ops).NamesOne ↔ ∀ op ∈ ops, op.NamesOne graph := by
  obtain ⟨resolved, haccepted⟩ := compile_ok h
  have hshape := (compileInto_shape haccepted.compiles).1
  cases hshape with
  | added n new =>
    rw [applyAll_added, hg.insert_iff]
    refine ⟨fun hn op hop => ?_, fun hall => hall _ List.mem_cons_self⟩
    rcases List.mem_cons.mp hop with rfl | hop
    · exact hn
    · exact Operation.namesOne_of_keepsNodes (Operation.keepsNodes_of_rewires (rewires_edgesInto hop))
  | superseded old n request rest present new asked quiet dropped =>
    have hn : n.NamesOne := namesOne_superseding haccepted.compiles hg (List.mem_cons_of_mem _ List.mem_cons_self)
    have hrest : ∀ op ∈ rest, op.keepsNodes = true := fun op hop => Operation.keepsNodes_of_rewires (quiet op hop)
    have hrequest : apply host.serde graph request = graph ∧ request.NamesOne graph := by
      cases asked <;> exact ⟨rfl, trivial⟩
    refine iff_of_true ?_ fun op hop => ?_
    · rw [applyAll_cons, hrequest.1, applyAll_cons]
      exact namesOne_applyAll (hg.insert hn) hrest
    · rcases List.mem_cons.mp hop with rfl | hop
      · exact hrequest.2
      rcases List.mem_cons.mp hop with rfl | hop
      · trivial
      · exact Operation.namesOne_of_keepsNodes (hrest op hop)
  | requeued node amend same =>
    obtain ⟨n, m, hget, hread⟩ := compileInto_requeued haccepted.compiles
    obtain ⟨hrefused, hback⟩ := requeued_of_read hread
    obtain ⟨hbranch, hresume⟩ := hserde.requeued hread
    have hiff : (applyAll host.serde graph [.nodeRequeued node amend]).NamesOne ↔
        unreadPark amend ∨ OneName (n.amendedBranch amend) (n.amendedResume amend) := by
      rw [applyAll_cons, applyAll_nil, apply, hget, Option.bind_some]
      by_cases hpark : unreadPark amend
      · rw [hrefused hpark]
        exact iff_of_true hg (.inl hpark)
      · obtain ⟨m', hm', hb, hr⟩ := hback hpark
        rw [hm']
        simp only [hg.insert_iff, hpark, false_or, Node.NamesOne, hb, hr, hbranch, hresume]
    rw [hiff, List.forall_mem_singleton]
    refine ⟨fun hor n' hn' => ?_, fun hall => hall n hget⟩
    rw [hget] at hn'
    exact Option.some.inj hn' ▸ hor
  | attested reference =>
    refine iff_of_true hg fun op hop => ?_
    rw [List.mem_singleton.mp hop]
    trivial
  | quiet ops hquiet =>
    exact iff_of_true (namesOne_applyAll hg hquiet) fun op hop => Operation.namesOne_of_keepsNodes (hquiet op hop)

end Edits

/-! ## Records -/

namespace RunState

variable {host : Host} {s : RunState} {e : Envelope}

/-- a record that comes after a run's start: any but another start, an edit's as the compiler answered it -/
def Follows (host : Host) (s : RunState) (e : Envelope) : Prop :=
  match e.body with
  | .runStarted (some _) => False
  | .editCommitted (some operations) | .commandAccepted (some operations) => s.Compiled host operations
  | _ => True

/-- what a record has to state, or an adoption to find, for the nodes it writes to name one branch each -/
def NamesOne (s : RunState) (e : Envelope) : Prop :=
  writtenAtAKnownVersion e = true →
  match e.body with
  | .editCommitted (some operations) | .commandAccepted (some operations) => ∀ op ∈ operations, op.NamesOne s.graph
  | .driverAdopted _ =>
    ∀ p ∈ s.sessionsInFlight, ∀ n, s.graph.get p.1 = some n → ∀ r ∈ n.resume.map Resume.branch, r = p.2.branch
  | _ => True

theorem namesOne_endThePark {node : String} (h : s.graph.NamesOne) : (s.endThePark node).graph.NamesOne := h.modify fun _ hn => hn

theorem namesOne_pinSettled {node : String} {status : Option NodeStatus} (h : s.graph.NamesOne) :
    (s.pinSettled node status).graph.NamesOne := by
  cases status with
  | none => exact h
  | some status =>
    simp only [pinSettled, pinPreservedBranch]
    split_ifs
    · cases s.branches[node]? with
      | none => exact h
      | some preserved => exact h.modify fun n _ => by simp [Node.NamesOne, OneName, pinnedTo]
    · exact h

/-- a settlement leaves every node naming one branch: its pin writes both names alike -/
theorem namesOne_foldSettled {node : String} {settled : Settlement} (h : s.graph.NamesOne) :
    (s.foldSettled node settled).graph.NamesOne := by
  have hstatus : (s.foldStatus node settled.status).graph.NamesOne := by
    cases settled.status with
    | none => exact h
    | some status =>
      simp only [foldStatus, foldSettledStatus]
      split_ifs
      · exact namesOne_endThePark h
      · exact h
  have hretract (t : RunState) (ht : t.graph.NamesOne) : (t.retractStated node settled.outcome).graph.NamesOne := by
    unfold retractStated
    split_ifs
    · exact ht
    · exact ht
  exact namesOne_pinSettled (hretract _ hstatus)

/-- **An adoption.** It leaves the nodes naming one branch each exactly where every session in flight is on the branch its node
resumes. -/
theorem namesOne_foldAdopted_iff (h : s.graph.NamesOne) :
    s.foldAdopted.graph.NamesOne ↔
      ∀ p ∈ s.sessionsInFlight, ∀ n, s.graph.get p.1 = some n → ∀ r ∈ n.resume.map Resume.branch, r = p.2.branch := by
  show s.abandonTheDispatchInFlight.graph.NamesOne ↔ _
  rw [Graph.NamesOne.iff_get]
  constructor
  · rintro hall ⟨id, session⟩ hp n hn r hr
    have hpinned := hall id (onto (some session) n) (by rw [get_abandoned, hn, mem_sessionsInFlight.mp hp]; rfl)
    exact hpinned session.branch rfl r hr
  · intro hall k m hm
    rw [get_abandoned] at hm
    obtain ⟨n, hn, rfl⟩ := Option.map_eq_some_iff.mp hm
    cases hsession : s.inFlight k with
    | none => exact Graph.NamesOne.iff_get.mp h k n hn
    | some session =>
      rintro b hb r hr
      cases hb
      exact hall (k, session) (mem_sessionsInFlight.mpr hsession) n hn r hr

theorem namesOne_foldEdit_iff (hserde : host.serde.ReadsPins) (h : s.graph.NamesOne) {operations : List Operation}
    (hcompiled : s.Compiled host operations) :
    (s.foldEdit host e (some operations)).graph.NamesOne ↔ ∀ op ∈ operations, op.NamesOne s.graph := by
  obtain ⟨live, author, command, graph', hok⟩ := hcompiled
  have hgraph : (s.foldEdit host e (some operations)).graph = applyAll host.serde s.graph operations := graph_foldOperations operations
  rw [hgraph]
  exact namesOne_edit_iff hserde h hok

theorem namesOne_foldPipeline_iff (hserde : host.serde.ReadsPins) (h : s.graph.NamesOne) (hf : Follows host s e)
    (hv : writtenAtAKnownVersion e = true) : (s.foldPipeline host e).graph.NamesOne ↔ s.NamesOne e := by
  obtain ⟨v, ts, stream, seq, node, body⟩ := e
  have hfree (hbody : NamesOne s ⟨v, ts, stream, seq, node, body⟩)
      (hkept : (s.foldPipeline host ⟨v, ts, stream, seq, node, body⟩).graph.NamesOne) :
      (s.foldPipeline host ⟨v, ts, stream, seq, node, body⟩).graph.NamesOne ↔ s.NamesOne ⟨v, ts, stream, seq, node, body⟩ :=
    iff_of_true hkept hbody
  cases body with
  | runStarted plan =>
    cases plan with
    | none => exact hfree (fun _ => trivial) h
    | some plan => exact hf.elim
  | nodeDispatched =>
    refine hfree (fun _ => trivial) ?_
    cases node with
    | none => exact h
    | some node => exact h.modify fun _ hn => hn
  | nodeSettled settled =>
    refine hfree (fun _ => trivial) ?_
    cases node with
    | none => exact h
    | some node => exact namesOne_foldSettled h
  | changeRetitled retitled =>
    refine hfree (fun _ => trivial) ?_
    cases retitled with
    | none => exact h
    | some retitled => exact h.modify fun _ hn => hn
  | releaseAdopted next note =>
    refine hfree (fun _ => trivial) ?_
    cases next with
    | false => exact h
    | true =>
      cases note with
      | none => exact h
      | some note =>
        cases node with
        | none => exact h
        | some node => exact h.modify fun _ hn => hn
  | editCommitted operations =>
    cases operations with
    | none => exact hfree (fun _ => trivial) h
    | some operations => exact (namesOne_foldEdit_iff hserde h hf).trans ⟨fun hall _ => hall, fun hall => hall hv⟩
  | commandAccepted operations =>
    cases operations with
    | none => exact hfree (fun _ => trivial) h
    | some operations => exact (namesOne_foldEdit_iff hserde h hf).trans ⟨fun hall _ => hall, fun hall => hall hv⟩
  | driverAdopted => exact (namesOne_foldAdopted_iff h).trans ⟨fun hall _ => hall, fun hall => hall hv⟩
  | nodeRequeued =>
    refine hfree (fun _ => trivial) ?_
    cases node <;> exact h
  | nodeRestackStarted restacked | nodeRestacked restacked | nodeReadjusted restacked | nodeLanded restacked =>
    refine hfree (fun _ => trivial) ?_
    cases restacked <;> exact h
  | nodeAbsorbed absorbed =>
    refine hfree (fun _ => trivial) ?_
    cases absorbed <;> exact h
  | nodeChecksRead read =>
    refine hfree (fun _ => trivial) ?_
    cases read with
    | none => exact h
    | some read =>
      show (s.foldChecksRead read).graph.NamesOne
      unfold foldChecksRead
      cases read.verdict with
      | failed => exact h
      | _ =>
        simp only []
        split_ifs
        · exact h
        · exact h
  | humanAttested reference =>
    refine hfree (fun _ => trivial) ?_
    cases reference <;> exact h
  | driverExited | editRejected | report | relayed => exact hfree (fun _ => trivial) h

/-- **One record.** It leaves the nodes naming one branch each exactly when it states, and finds, names that agree. -/
theorem namesOne_foldRecord_iff (hserde : host.serde.ReadsPins) (h : s.graph.NamesOne) (hf : Follows host s e) :
    (foldRecord host s e).graph.NamesOne ↔ s.NamesOne e := by
  have hkept : (s.kept e).graph.NamesOne ∧ Follows host (s.kept e) e ∧ ((s.kept e).NamesOne e ↔ s.NamesOne e) := by
    unfold kept
    split_ifs
    · exact ⟨h, hf, .rfl⟩
    · exact ⟨h, hf, .rfl⟩
  have hpipeline : (if writtenAtAKnownVersion e then (s.kept e).foldPipeline host e else { s with strict := false }).graph.NamesOne ↔
      s.NamesOne e := by
    split_ifs with hv
    · exact (namesOne_foldPipeline_iff hserde hkept.1 hkept.2.1 hv).trans hkept.2.2
    · exact iff_of_true h fun hknown => absurd hknown hv
  obtain ⟨v, ts, stream, seq, node, body⟩ := e
  cases body with
  | driverExited => exact iff_of_true h fun _ => trivial
  | relayed record closes =>
    refine iff_of_true ?_ fun _ => trivial
    have hsame : (s.foldRelayed node record).graph = s.graph := by
      unfold foldRelayed
      split <;> rfl
    show (if keepsClosure _ closes then { s.foldRelayed node record with recalled := _ } else
      s.foldRelayed node record : RunState).graph.NamesOne
    split_ifs
    · exact hsame ▸ h
    · exact hsame ▸ h
  | _ => exact hpipeline

end RunState

open RunState

/-- **One branch.** In every run of a plan whose nodes name one branch each, every state's nodes do exactly when each record of the run
states, and finds, names that agree. -/
theorem one_branch (host : Host) (hserde : host.serde.ReadsPins) (plan : Plan) (hplan : ∀ n ∈ plan.tasks, n.NamesOne)
    (records : List Envelope) (h : Admits (foldRecord host) (Follows host) (started plan) records) :
    (∀ part, part <+: records → (part.foldl (foldRecord host) (started plan)).graph.NamesOne) ↔
      Admits (foldRecord host) NamesOne (started plan) records := by
  have hstart : (started plan).graph.NamesOne := Graph.NamesOne.fromPlan hplan
  exact h.always_iff (I := fun s => s.graph.NamesOne) (fun s e hs hf => namesOne_foldRecord_iff hserde hs hf) hstart

/-! ## A node resumed on a branch of its own -/

/-- a lifecycle node that continues preserved work and names no branch beside it -/
def Node.resuming (parked : Bool) : Node :=
  { Node.direct "a" [] with
    repo := some "owner/app", title := some "Resume it", resume := some ⟨"kept", none, []⟩, parked }

def resumingPlan (parked : Bool) : Plan := .ofNodes [.resuming parked]

theorem namesOne_resuming (parked : Bool) : ∀ n ∈ (resumingPlan parked).tasks, n.NamesOne := by
  intro n hn
  rw [List.mem_singleton.mp hn]
  simp [Node.NamesOne, OneName, Node.resuming, Node.direct]

/-- the node dispatched into a session on a branch, and its run adopted -/
def adoptedFrom (branch : String) : List Envelope :=
  [.own 1 (some "a") (.nodeDispatched .unstated), .own 2 (some "a") (.relayed (.sessionOpened (some ⟨"token", branch⟩) none) false),
    .own 3 none (.driverAdopted)]

theorem adoptedFrom_follows (branch : String) :
    Admits (foldRecord .lenient) (Follows .lenient) (started (resumingPlan false)) (adoptedFrom branch) :=
  ⟨trivial, trivial, trivial, trivial⟩

/-- a requeue that names another branch -/
def elsewhere : Fields := (∅ : Fields).insert "branch" (.str "other")

def requeuedElsewhere : List Envelope :=
  [.own 1 none (.editCommitted (some (RunState.operationsOf .lenient (started (resumingPlan true)) (.requeue "a" (some elsewhere)))))]

/-- the branches the nodes of a graph name, and the ones their checkpoints do -/
def Graph.branchNames (g : Graph) : List (Option String × Option String) :=
  g.iter.map fun n => (n.branch, n.resume.map Resume.branch)

theorem Graph.NamesOne.branchNames {g : Graph} (h : g.NamesOne) : ∀ p ∈ g.branchNames, OneName p.1 p.2 := by
  intro p hp
  obtain ⟨n, hn, rfl⟩ := List.mem_map.mp hp
  exact h n hn

/-- a session the node was given beside the branch it resumes, pinned by an adoption; and a requeue that names a second branch -/
theorem adoption_names_two :
    check Host.lenient.toSiblings (resumingPlan false) = .ok () ∧ check Host.lenient.toSiblings (resumingPlan true) = .ok () ∧
      (∀ parked, ∀ n ∈ (resumingPlan parked).tasks, n.NamesOne) ∧
      Admits (foldRecord .lenient) (Follows .lenient) (started (resumingPlan false)) (adoptedFrom "fresh") ∧
      ¬((adoptedFrom "fresh").foldl (foldRecord .lenient) (started (resumingPlan false))).graph.NamesOne ∧
      Admits (foldRecord .lenient) (Follows .lenient) (started (resumingPlan true)) requeuedElsewhere ∧
      ¬(requeuedElsewhere.foldl (foldRecord .lenient) (started (resumingPlan true))).graph.NamesOne := by
  have hcompiled : (started (resumingPlan true)).Compiled .lenient _ :=
    compiled_operationsOf (.requeue "a" (some elsewhere)) (by decide)
  refine ⟨by decide, by decide, namesOne_resuming, adoptedFrom_follows _, fun h => ?_, ⟨hcompiled, trivial⟩, fun h => ?_⟩
  · have hnames : ((adoptedFrom "fresh").foldl (foldRecord .lenient) (started (resumingPlan false))).graph.branchNames =
        [(some "fresh", some "kept")] := by
      decide
    have hone : OneName (some "fresh") (some "kept") := h.branchNames _ (hnames ▸ List.mem_cons_self)
    exact absurd (hone "fresh" rfl "kept" rfl) (by decide)
  · have hnames : (requeuedElsewhere.foldl (foldRecord .lenient) (started (resumingPlan true))).graph.branchNames =
        [(some "other", some "kept")] := by
      decide
    have hone : OneName (some "other") (some "kept") := h.branchNames _ (hnames ▸ List.mem_cons_self)
    exact absurd (hone "other" rfl "kept" rfl) (by decide)

/-- the session opened on the branch the node resumes -/
theorem one_branch_kept :
    ((adoptedFrom "kept").foldl (foldRecord .lenient) (started (resumingPlan false))).graph.NamesOne := by
  refine (one_branch .lenient NodeSerde.derived_readsPins (resumingPlan false) (namesOne_resuming false) _
    (adoptedFrom_follows _)).mpr ⟨fun _ => trivial, fun _ => trivial, fun _ p hp n hn r hr => ?_, trivial⟩ _ (List.prefix_refl _)
  let before := ((adoptedFrom "kept").take 2).foldl (foldRecord .lenient) (started (resumingPlan false))
  have hsessions : (before.sessionsInFlight.all fun p => p.2.branch = "kept") = true := by decide
  have hnames : (before.graph.iter.all fun n => (n.resume.map Resume.branch).all fun r => r = "kept") = true := by decide
  have hsession : p.2.branch = "kept" := by simpa using List.all_eq_true.mp hsessions p hp
  have hresume := List.all_eq_true.mp hnames n (Graph.get_eq_some.mp hn).1
  rw [hr, Option.all_some, decide_eq_true_eq] at hresume
  rw [hresume, hsession]

end OnePipeline
