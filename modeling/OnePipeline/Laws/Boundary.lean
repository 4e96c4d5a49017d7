/-
No private work reaches public output by an ordinary dependency.

Results, for a plan whose dependencies have no cycle and whose ids are distinct:
- `clearance_resolve`: a node is private exactly when a node private of itself is inherited from, over nodes that say
  nothing of their own and dependencies that are not export edges;
- `resolve_reordered`: the resolution does not depend on the order of the nodes and of their dependencies;
- `mem_scope`: the scope is the identities of the private repositories the nodes name;
- `private_work_is_exported`: with them, what a plan the boundary accepts keeps apart.

The recursion `inherit` is fuelled; `inherit_spec` shows that the number of nodes is enough of it.
-/
import Mathlib.Tactic
import Mathlib.Logic.Relation
import OnePipeline.Core.Maps
import OnePipeline.Laws.Checked
import OnePipeline.Model.Boundary
import OnePipeline.Model.Edits

namespace OnePipeline.Boundary

open Checks Relation

variable (oracle : Oracle)

/-! ## The purpose -/

/-- a node's dependency, wherever it is a node of the plan -/
def DependsOn (plan : Plan) (a b : String) : Prop := ∃ n ∈ plan.tasks, n.id = a ∧ b ∈ n.deps

def Acyclic (plan : Plan) : Prop := ∀ id, ¬TransGen (DependsOn plan) id id

/-- classified private, or naming a private repository -/
def PrivateItself (node : Node) : Prop :=
  node.classification = .private ∨ ∃ repo ∈ repositoriesOf node, (oracle.repository repo).clearance = .private

/-- saying nothing of its own: neither classified private nor naming a repository -/
def Bare (node : Node) : Prop := node.classification = .public ∧ repositoriesOf node = []

/-- a bare node and a dependency of it that is not an export edge -/
def Inherits (plan : Plan) (a b : String) : Prop :=
  ∃ n ∈ plan.tasks, n.id = a ∧ Bare n ∧ b ∈ n.deps ∧ isExport plan b a = false

/-- whether private work reaches a node: over any number of bare nodes, from one private of itself -/
def Reached (plan : Plan) (id : String) : Prop :=
  ∃ m ∈ plan.tasks, PrivateItself oracle m ∧ ReflTransGen (Inherits plan) id m.id

variable {oracle} {plan : Plan}

theorem Inherits.dependsOn {a b : String} (h : Inherits plan a b) : DependsOn plan a b := by
  obtain ⟨n, hn, hid, -, hdep, -⟩ := h
  exact ⟨n, hn, hid, hdep⟩

theorem Reached.mem {id : String} (h : Reached oracle plan id) : id ∈ plan.tasks.map Node.id := by
  obtain ⟨m, hm, -, hpath⟩ := h
  rcases hpath.cases_head with rfl | ⟨b, ⟨n, hn, rfl, -⟩, -⟩
  · exact List.mem_map_of_mem hm
  · exact List.mem_map_of_mem hn

theorem eq_of_id_eq (hnd : (plan.tasks.map Node.id).Nodup) {n m : Node} (hn : n ∈ plan.tasks) (hm : m ∈ plan.tasks)
    (h : n.id = m.id) : n = m := List.inj_on_of_nodup_map hnd hn hm h

/-! ## What a node says of its own -/

theorem foldl_private (p : String → Bool) (l : List String) (c : Option Clearance) :
    l.foldl (fun c repo => if p repo then some .private else c) c = if l.any p then some .private else c := by
  induction l generalizing c with
  | nil => simp
  | cons a l ih =>
    rw [List.foldl_cons, ih]
    cases ha : p a with
    | false => simp [ha]
    | true => simp [ha]

theorem ownClearance_eq (node : Node) :
    ownClearance oracle node =
      if (repositoriesOf node).any (fun repo => (oracle.repository repo).clearance = .private) then some .private
      else if node.classification = .private then some .private
      else if repositoriesOf node ≠ [] then some .public else none := by
  rw [ownClearance, ← foldl_private]
  simp only [decide_eq_true_eq]

theorem ownClearance_private {node : Node} : ownClearance oracle node = some .private ↔ PrivateItself oracle node := by
  rw [ownClearance_eq, PrivateItself]
  have hany : (repositoriesOf node).any (fun repo => (oracle.repository repo).clearance = .private) = true ↔
      ∃ repo ∈ repositoriesOf node, (oracle.repository repo).clearance = .private := by
    rw [List.any_eq_true]
    simp only [decide_eq_true_eq]
  rw [← hany]
  split_ifs with h1 h2 h3
  · simp [h1]
  · simp [h2]
  · simp [h1, h2]
  · simp [h1, h2]

theorem ownClearance_none {node : Node} : ownClearance oracle node = none ↔ Bare node := by
  rw [ownClearance_eq, Bare]
  cases hc : node.classification with
  | «private» => simp
  | «public» =>
    cases hr : repositoriesOf node with
    | nil => simp
    | cons a l =>
      simp only [ne_eq, reduceCtorEq, not_false_eq_true, if_true, if_false, and_false, iff_false]
      split_ifs <;> simp

theorem Bare.not_private {node : Node} (h : Bare node) : ¬PrivateItself oracle node := by
  rw [← ownClearance_private, ownClearance_none.mpr h]
  simp

/-! ## What a node inherits -/

theorem reached_of_private {n : Node} (hn : n ∈ plan.tasks) (h : PrivateItself oracle n) : Reached oracle plan n.id :=
  ⟨n, hn, h, .refl⟩

theorem not_reached_of_public (hnd : (plan.tasks.map Node.id).Nodup) {n : Node} (hn : n ∈ plan.tasks)
    (h : ownClearance oracle n = some .public) : ¬Reached oracle plan n.id := by
  intro hreach
  obtain ⟨m, hm, hpriv, hpath⟩ := hreach
  rcases hpath.cases_head with heq | ⟨b, ⟨k, hk, hid, hbare, -⟩, -⟩
  · rw [eq_of_id_eq hnd hn hm heq, ownClearance_private.mpr hpriv] at h
    cases h
  · rw [← eq_of_id_eq hnd hk hn hid, ownClearance_none.mpr hbare] at h
    cases h

theorem reached_of_bare (hnd : (plan.tasks.map Node.id).Nodup) {n : Node} (hn : n ∈ plan.tasks) (h : Bare n) :
    Reached oracle plan n.id ↔ ∃ dep ∈ n.deps, isExport plan dep n.id = false ∧ Reached oracle plan dep := by
  constructor
  · intro hreach
    obtain ⟨m, hm, hpriv, hpath⟩ := hreach
    rcases hpath.cases_head with heq | ⟨b, ⟨k, hk, hid, -, hdep, hexp⟩, hrest⟩
    · exact absurd hpriv (eq_of_id_eq hnd hn hm heq ▸ h).not_private
    · rw [eq_of_id_eq hnd hk hn hid] at hdep
      exact ⟨b, hdep, hexp, m, hm, hpriv, hrest⟩
  · intro hdep
    obtain ⟨dep, hdep, hexp, m, hm, hpriv, hpath⟩ := hdep
    exact ⟨m, hm, hpriv, .head ⟨n, hn, rfl, h, hdep, hexp⟩ hpath⟩

/-- the clearances settled so far are right -/
def Settled (oracle : Oracle) (plan : Plan) (done : StrMap Clearance) : Prop :=
  ∀ id c, done[id]? = some c → (c = .private ↔ Reached oracle plan id)

theorem Settled.insert {done : StrMap Clearance} (h : Settled oracle plan done) {id : String} {c : Clearance}
    (hc : c = .private ↔ Reached oracle plan id) : Settled oracle plan (done.insert id c) := by
  intro k d hd
  rw [Maps.get_insert] at hd
  split_ifs at hd with hk
  · cases hd
    rw [hk]
    exact hc
  · exact h k d hd

theorem max_eq_private {a b : Clearance} : a.max b = .private ↔ a = .private ∨ b = .private := by
  cases a with
  | «private» => simp [Clearance.max]
  | «public» => simp [Clearance.max]

/-! ## The recursion -/

/-- what a call of the recursion is made with: the nodes being visited are a path leading to it -/
structure Visiting (plan : Plan) (fuel : ℕ) (id : String) (visiting : StrSet) (path : List String) : Prop where
  mem : ∀ v, v ∈ visiting ↔ v ∈ path
  nodup : path.Nodup
  inPlan : ∀ v ∈ path, v ∈ plan.tasks.map Node.id
  leads : ∀ v ∈ path, TransGen (Inherits plan) v id
  fuel : path.length + fuel = plan.tasks.length + 1

namespace Visiting

variable {fuel : ℕ} {id : String} {visiting : StrSet} {path : List String}

theorem not_empty (h : Visiting plan 0 id visiting path) : False := by
  have hle : path.length ≤ (plan.tasks.map Node.id).length := (h.nodup.subperm h.inPlan).length_le
  have hfuel := h.fuel
  rw [List.length_map] at hle
  omega

theorem not_mem (h : Visiting plan fuel id visiting path) (hac : Acyclic plan) : id ∉ path := by
  intro hid
  exact hac id (TransGen.mono (fun _ _ h => Inherits.dependsOn h) _ _ (h.leads id hid))

theorem step (h : Visiting plan (fuel + 1) id visiting path) (hac : Acyclic plan) (hid : id ∈ plan.tasks.map Node.id)
    {dep : String} (hdep : Inherits plan id dep) : Visiting plan fuel dep (visiting.insert id) (id :: path) where
  mem v := by
    rw [Std.ExtTreeSet.mem_insert, Std.LawfulEqCmp.compare_eq_iff_eq, h.mem, List.mem_cons, eq_comm]
  nodup := List.nodup_cons.mpr ⟨h.not_mem hac, h.nodup⟩
  inPlan := List.forall_mem_cons.mpr ⟨hid, h.inPlan⟩
  leads := List.forall_mem_cons.mpr ⟨.single hdep, fun v hv => (h.leads v hv).tail hdep⟩
  fuel := by
    have hfuel := h.fuel
    rw [List.length_cons]
    omega

end Visiting

theorem own_of_mem (hnd : (plan.tasks.map Node.id).Nodup) {n : Node} (hn : n ∈ plan.tasks) :
    (ownClearances oracle plan)[n.id]? = some (ownClearance oracle n) :=
  Maps.get_foldl_insert_by Node.id (ownClearance oracle) hnd ∅ hn

theorem contains_own {id : String} : (ownClearances oracle plan).contains id = true ↔ id ∈ plan.tasks.map Node.id := by
  rw [← Std.ExtTreeMap.mem_iff_contains, ownClearances, Maps.mem_foldl_insert_by]
  simp

theorem inheritedDeps_of_mem (hnd : (plan.tasks.map Node.id).Nodup) {n : Node} (hn : n ∈ plan.tasks) :
    (inheritedDeps plan)[n.id]? = some (n.deps.filter fun dep => !isExport plan dep n.id) :=
  Maps.get_foldl_insert_by Node.id (fun n => n.deps.filter fun dep => !isExport plan dep n.id) hnd ∅ hn

/-- the strictest of some dependencies' answers, from what each of them is -/
theorem strictest_spec {answer : String → StrMap Clearance → Clearance × StrMap Clearance} {deps : List String}
    (h : ∀ dep ∈ deps, ∀ done, Settled oracle plan done →
      ((answer dep done).1 = .private ↔ Reached oracle plan dep) ∧ Settled oracle plan (answer dep done).2)
    {done : StrMap Clearance} (hdone : Settled oracle plan done) :
    ((strictest answer deps done).1 = .private ↔ ∃ dep ∈ deps, Reached oracle plan dep) ∧
      Settled oracle plan (strictest answer deps done).2 := by
  have hfold : ∀ acc : Clearance × StrMap Clearance, Settled oracle plan acc.2 →
      ((deps.foldl (fun acc dep => (acc.1.max (answer dep acc.2).1, (answer dep acc.2).2)) acc).1 = .private ↔
          acc.1 = .private ∨ ∃ dep ∈ deps, Reached oracle plan dep) ∧
        Settled oracle plan (deps.foldl (fun acc dep => (acc.1.max (answer dep acc.2).1, (answer dep acc.2).2)) acc).2 := by
    clear hdone
    induction deps with
    | nil =>
      intro acc hacc
      exact ⟨by simp, hacc⟩
    | cons dep deps ih =>
      intro acc hacc
      obtain ⟨hone, hsettled⟩ := h dep List.mem_cons_self acc.2 hacc
      obtain ⟨hall, hrest⟩ := ih (fun d hd => h d (List.mem_cons_of_mem dep hd))
        (acc.1.max (answer dep acc.2).1, (answer dep acc.2).2) hsettled
      refine ⟨hall.trans ?_, hrest⟩
      rw [max_eq_private, hone, List.exists_mem_cons_iff, or_assoc]
  obtain ⟨hone, hsettled⟩ := hfold (.public, done) hdone
  exact ⟨hone.trans (by simp), hsettled⟩

/-- one call of the recursion answers a node's clearance, and settles only right ones -/
theorem inherit_spec (hac : Acyclic plan) (hnd : (plan.tasks.map Node.id).Nodup) {fuel : ℕ} {n : Node}
    (hn : n ∈ plan.tasks) {done : StrMap Clearance} (hdone : Settled oracle plan done) {visiting : StrSet}
    {path : List String} (hv : Visiting plan fuel n.id visiting path) :
    ((inherit (ownClearances oracle plan) (inheritedDeps plan) fuel n.id done visiting).1 = .private ↔
        Reached oracle plan n.id) ∧
      Settled oracle plan (inherit (ownClearances oracle plan) (inheritedDeps plan) fuel n.id done visiting).2 := by
  induction fuel generalizing n done visiting path with
  | zero => exact hv.not_empty.elim
  | succ fuel ih =>
    have hmem : n.id ∈ plan.tasks.map Node.id := List.mem_map_of_mem hn
    rw [inherit]
    cases hd : done[n.id]? with
    | some settled => exact ⟨hdone n.id settled hd, hdone⟩
    | none =>
      simp only [own_of_mem hnd hn, Option.join_some]
      cases hown : ownClearance oracle n with
      | some clearance =>
        have hiff : clearance = .private ↔ Reached oracle plan n.id := by
          cases clearance with
          | «private» => simpa using reached_of_private hn (ownClearance_private.mp hown)
          | «public» => simpa using not_reached_of_public hnd hn hown
        exact ⟨hiff, hdone.insert hiff⟩
      | none =>
        have hbare := ownClearance_none.mp hown
        -- an acyclic plan never meets a node it is visiting
        have hfirst : n.id ∉ visiting := by
          rw [hv.mem]
          exact hv.not_mem hac
        rw [if_neg hfirst, inheritedDeps_of_mem hnd hn, Option.getD_some, List.filter_filter]
        have hdeps (dep : String) : dep ∈ n.deps.filter (fun dep =>
              (ownClearances oracle plan).contains dep && !isExport plan dep n.id) ↔
            dep ∈ n.deps ∧ dep ∈ plan.tasks.map Node.id ∧ isExport plan dep n.id = false := by
          rw [List.mem_filter, Bool.and_eq_true, contains_own, Bool.not_eq_true']
        have hcalls : ∀ dep ∈ n.deps.filter fun dep =>
              (ownClearances oracle plan).contains dep && !isExport plan dep n.id,
            ∀ done, Settled oracle plan done →
              ((inherit (ownClearances oracle plan) (inheritedDeps plan) fuel dep done (visiting.insert n.id)).1 =
                  .private ↔ Reached oracle plan dep) ∧
                Settled oracle plan
                  (inherit (ownClearances oracle plan) (inheritedDeps plan) fuel dep done (visiting.insert n.id)).2 := by
          intro dep hdep done hdone
          obtain ⟨hin, hids, hexp⟩ := (hdeps dep).mp hdep
          obtain ⟨m, hm, rfl⟩ := List.mem_map.mp hids
          exact ih hm hdone (hv.step hac hmem ⟨n, hn, rfl, hbare, hin, hexp⟩)
        have hreached : (∃ dep ∈ n.deps.filter fun dep =>
              (ownClearances oracle plan).contains dep && !isExport plan dep n.id, Reached oracle plan dep) ↔
            Reached oracle plan n.id := by
          rw [reached_of_bare hnd hn hbare]
          constructor
          · intro hex
            obtain ⟨dep, hdep, hreach⟩ := hex
            obtain ⟨hin, -, hexp⟩ := (hdeps dep).mp hdep
            exact ⟨dep, hin, hexp, hreach⟩
          · intro hex
            obtain ⟨dep, hin, hexp, hreach⟩ := hex
            exact ⟨dep, (hdeps dep).mpr ⟨hin, hreach.mem, hexp⟩, hreach⟩
        obtain ⟨hmax, hsettled⟩ := strictest_spec hcalls hdone
        have hiff := hmax.trans hreached
        exact ⟨hiff, hsettled.insert hiff⟩

/-! ## The resolution -/

theorem mem_foldl_insert {γ : Type*} (f : γ → List String) (l : List γ) (s : StrSet) (a : String) :
    a ∈ l.foldl (fun s c => (f c).foldl (fun s k => s.insert k) s) s ↔ a ∈ s ∨ ∃ c ∈ l, a ∈ f c := by
  have hone : ∀ (ks : List String) (s : StrSet), a ∈ ks.foldl (fun s k => s.insert k) s ↔ a ∈ s ∨ a ∈ ks := by
    intro ks
    induction ks with
    | nil => simp
    | cons k ks ih =>
      intro s
      rw [List.foldl_cons, ih, Std.ExtTreeSet.mem_insert, Std.LawfulEqCmp.compare_eq_iff_eq, List.mem_cons,
        eq_comm (a := k)]
      tauto
  induction l generalizing s with
  | nil => simp
  | cons c l ih =>
    rw [List.foldl_cons, List.exists_mem_cons_iff, ← or_assoc, ← hone]
    exact ih _

theorem mem_publicDestinations {id : String} :
    id ∈ (resolve oracle plan).publicDestinations ↔ ∃ n ∈ plan.tasks, n.id = id ∧ ownClearance oracle n = some .public := by
  have hfold : ∀ (l : List Node) (s : StrSet),
      id ∈ l.foldl (fun s n => if ownClearance oracle n = some .public then s.insert n.id else s) s ↔
        id ∈ s ∨ ∃ n ∈ l, n.id = id ∧ ownClearance oracle n = some .public := by
    intro l
    induction l with
    | nil => simp
    | cons n l ih =>
      intro s
      rw [List.foldl_cons, ih, List.exists_mem_cons_iff]
      split_ifs with h
      · rw [Std.ExtTreeSet.mem_insert, Std.LawfulEqCmp.compare_eq_iff_eq]
        tauto
      · tauto
  exact (hfold plan.tasks ∅).trans (by simp [Std.ExtTreeSet.not_mem_empty])

/-- the scope is the identities of the private repositories the nodes name -/
theorem mem_scope {key : String} :
    key ∈ (resolve oracle plan).scope ↔
      ∃ n ∈ plan.tasks, ∃ repo ∈ repositoriesOf n, (oracle.repository repo).clearance = .private ∧
        (oracle.repository repo).identity.intoScope = key := by
  have hone (n : Node) : key ∈ scopeOf oracle n ↔ ∃ repo ∈ repositoriesOf n,
      (oracle.repository repo).clearance = .private ∧ (oracle.repository repo).identity.intoScope = key := by
    simp only [scopeOf, List.mem_map, List.mem_filter, decide_eq_true_eq, and_assoc]
  rw [resolve, Std.ExtTreeSet.mem_toList, mem_foldl_insert]
  simp only [Std.ExtTreeSet.not_mem_empty, false_or, hone]

/-- every clearance the resolution states is right, and it states one for each node -/
theorem clearances_resolve (oracle : Oracle) (hac : Acyclic plan) (hnd : (plan.tasks.map Node.id).Nodup) :
    Settled oracle plan (resolve oracle plan).clearances ∧
      ∀ id, id ∈ (resolve oracle plan).clearances ↔ id ∈ plan.tasks.map Node.id := by
  let step (acc : StrMap Clearance × StrMap Clearance) (node : Node) : StrMap Clearance × StrMap Clearance :=
    (acc.1.insert node.id (inherit (ownClearances oracle plan) (inheritedDeps plan) (plan.tasks.length + 1) node.id
      acc.2 ∅).1,
     (inherit (ownClearances oracle plan) (inheritedDeps plan) (plan.tasks.length + 1) node.id acc.2 ∅).2)
  have hfold : ∀ (l : List Node), (∀ n ∈ l, n ∈ plan.tasks) → ∀ acc : StrMap Clearance × StrMap Clearance,
      Settled oracle plan acc.1 → Settled oracle plan acc.2 →
      Settled oracle plan (l.foldl step acc).1 ∧
        ∀ id, id ∈ (l.foldl step acc).1 ↔ id ∈ acc.1 ∨ id ∈ l.map Node.id := by
    intro l
    induction l with
    | nil =>
      intro _ acc h1 _
      exact ⟨h1, by simp⟩
    | cons n l ih =>
      intro hl acc h1 h2
      have hstart : Visiting plan (plan.tasks.length + 1) n.id ∅ [] :=
        { mem := by simp [Std.ExtTreeSet.not_mem_empty], nodup := List.nodup_nil, inPlan := by simp, leads := by simp,
          fuel := by simp }
      obtain ⟨hiff, hdone⟩ := inherit_spec hac hnd (hl n List.mem_cons_self) h2 hstart
      obtain ⟨hsettled, hkeys⟩ := ih (fun m hm => hl m (List.mem_cons_of_mem n hm)) (step acc n) (h1.insert hiff) hdone
      refine ⟨hsettled, fun id => ?_⟩
      rw [List.foldl_cons, hkeys, Std.ExtTreeMap.mem_insert, Std.LawfulEqCmp.compare_eq_iff_eq, List.map_cons,
        List.mem_cons, eq_comm (a := n.id)]
      tauto
  have hnone : Settled oracle plan ∅ := by
    intro id c h
    simp at h
  obtain ⟨hsettled, hkeys⟩ := hfold plan.tasks (fun _ h => h) (∅, ∅) hnone hnone
  exact ⟨hsettled, fun id => (hkeys id).trans (by simp)⟩

/-- **The clearance.** A node is private exactly when private work reaches it over bare nodes. -/
theorem clearance_resolve (hac : Acyclic plan) (hnd : (plan.tasks.map Node.id).Nodup) {id : String}
    (hid : id ∈ plan.tasks.map Node.id) :
    (resolve oracle plan).clearance id = .private ↔ Reached oracle plan id := by
  obtain ⟨hsettled, hkeys⟩ := clearances_resolve oracle hac hnd
  obtain ⟨c, hc⟩ := Maps.mem_iff.mp ((hkeys id).mpr hid)
  rw [Resolved.clearance, hc, Option.getD_some]
  exact hsettled id c hc

/-! ## The order of nodes and dependencies -/

theorem exists_of_forall₂ {α β : Type*} {R : α → β → Prop} {l : List α} {m : List β} (h : List.Forall₂ R l m) :
    (∀ a ∈ l, ∃ b ∈ m, R a b) ∧ ∀ b ∈ m, ∃ a ∈ l, R a b := by
  induction h with
  | nil => simp
  | cons hab _ ih =>
    obtain ⟨hleft, hright⟩ := ih
    refine ⟨List.forall_mem_cons.mpr ⟨⟨_, List.mem_cons_self, hab⟩, fun a ha => ?_⟩,
      List.forall_mem_cons.mpr ⟨⟨_, List.mem_cons_self, hab⟩, fun b hb => ?_⟩⟩
    · obtain ⟨b, hb, hab⟩ := hleft a ha
      exact ⟨b, List.mem_cons_of_mem _ hb, hab⟩
    · obtain ⟨a, ha, hab⟩ := hright b hb
      exact ⟨a, List.mem_cons_of_mem _ ha, hab⟩

/-- one plan written in another order: its nodes, each node's dependencies, its export edges -/
structure Reordered (plan plan' : Plan) : Prop where
  tasks : ∃ l, l.Perm plan'.tasks ∧
    List.Forall₂ (fun a b => ∃ deps : List String, deps.Perm a.deps ∧ b = { a with deps }) plan.tasks l
  edges : plan.exportEdges.Perm plan'.exportEdges

namespace Reordered

variable {plan' : Plan} (h : Reordered plan plan')
include h

theorem mem {n : Node} (hn : n ∈ plan.tasks) :
    ∃ deps : List String, deps.Perm n.deps ∧ { n with deps } ∈ plan'.tasks := by
  obtain ⟨l, hperm, hall⟩ := h.tasks
  obtain ⟨b, hb, deps, hdeps, rfl⟩ := (exists_of_forall₂ hall).1 n hn
  exact ⟨deps, hdeps, hperm.subset hb⟩

theorem mem' {m : Node} (hm : m ∈ plan'.tasks) :
    ∃ n ∈ plan.tasks, ∃ deps : List String, deps.Perm n.deps ∧ m = { n with deps } := by
  obtain ⟨l, hperm, hall⟩ := h.tasks
  exact (exists_of_forall₂ hall).2 m (hperm.symm.subset hm)

theorem ids : (plan.tasks.map Node.id).Perm (plan'.tasks.map Node.id) := by
  obtain ⟨l, hperm, hall⟩ := h.tasks
  have hmap : plan.tasks.map Node.id = l.map Node.id := by
    clear hperm
    generalize plan.tasks = tasks at hall
    induction hall with
    | nil => rfl
    | cons hab _ ih =>
      obtain ⟨deps, -, rfl⟩ := hab
      rw [List.map_cons, List.map_cons, ih]
  rw [hmap]
  exact hperm.map Node.id

theorem isExport (dep node : String) : isExport plan' dep node = isExport plan dep node := by
  rw [OnePipeline.isExport, OnePipeline.isExport]
  exact h.edges.symm.any_eq

theorem dependsOn : DependsOn plan' = DependsOn plan := by
  funext a b
  refine propext ⟨fun hab => ?_, fun hab => ?_⟩
  · obtain ⟨m, hm, rfl, hdep⟩ := hab
    obtain ⟨n, hn, deps, hdeps, rfl⟩ := h.mem' hm
    exact ⟨n, hn, rfl, hdeps.subset hdep⟩
  · obtain ⟨n, hn, rfl, hdep⟩ := hab
    obtain ⟨deps, hdeps, hm⟩ := h.mem hn
    exact ⟨_, hm, rfl, hdeps.symm.subset hdep⟩

theorem inherits : Inherits plan' = Inherits plan := by
  funext a b
  refine propext ⟨fun hab => ?_, fun hab => ?_⟩
  · obtain ⟨m, hm, rfl, hbare, hdep, hexp⟩ := hab
    obtain ⟨n, hn, deps, hdeps, rfl⟩ := h.mem' hm
    exact ⟨n, hn, rfl, hbare, hdeps.subset hdep, (h.isExport _ _).symm.trans hexp⟩
  · obtain ⟨n, hn, rfl, hbare, hdep, hexp⟩ := hab
    obtain ⟨deps, hdeps, hm⟩ := h.mem hn
    exact ⟨_, hm, rfl, hbare, hdeps.symm.subset hdep, (h.isExport _ _).trans hexp⟩

theorem reached (id : String) : Reached oracle plan' id ↔ Reached oracle plan id := by
  rw [Reached, Reached, h.inherits]
  constructor
  · intro hreach
    obtain ⟨m, hm, hpriv, hpath⟩ := hreach
    obtain ⟨n, hn, deps, -, rfl⟩ := h.mem' hm
    exact ⟨n, hn, hpriv, hpath⟩
  · intro hreach
    obtain ⟨n, hn, hpriv, hpath⟩ := hreach
    obtain ⟨deps, -, hm⟩ := h.mem hn
    exact ⟨_, hm, hpriv, hpath⟩

/-- **The order.** The resolution does not depend on it. -/
theorem resolve_eq (hac : Acyclic plan) (hnd : (plan.tasks.map Node.id).Nodup) :
    resolve oracle plan' = resolve oracle plan := by
  have hac' : Acyclic plan' := by
    rw [Acyclic, h.dependsOn]
    exact hac
  have hnd' : (plan'.tasks.map Node.id).Nodup := h.ids.nodup_iff.mp hnd
  obtain ⟨hright, hkeys⟩ := clearances_resolve oracle hac hnd
  obtain ⟨hright', hkeys'⟩ := clearances_resolve oracle hac' hnd'
  have hmem (id : String) : id ∈ (resolve oracle plan').clearances ↔ id ∈ (resolve oracle plan).clearances := by
    rw [hkeys, hkeys', h.ids.mem_iff]
  refine Resolved.ext ?_ ?_ ?_
  · refine Std.ExtTreeMap.ext_getElem? fun id => ?_
    by_cases hid : id ∈ (resolve oracle plan).clearances
    · obtain ⟨c, hc⟩ := Maps.mem_iff.mp hid
      obtain ⟨c', hc'⟩ := Maps.mem_iff.mp ((hmem id).mpr hid)
      have hiff : c' = .private ↔ c = .private :=
        (hright' id c' hc').trans ((h.reached id).trans (hright id c hc).symm)
      rw [hc, hc']
      cases c with
      | «private» => rw [hiff.mpr rfl]
      | «public» =>
        cases c' with
        | «public» => rfl
        | «private» => cases hiff.mp rfl
    · rw [Maps.not_mem_iff.mp hid, Maps.not_mem_iff.mp (mt (hmem id).mp hid)]
  · refine Std.ExtTreeSet.ext_mem fun {id} => ?_
    rw [mem_publicDestinations, mem_publicDestinations]
    constructor
    · intro hex
      obtain ⟨m, hm, rfl, hown⟩ := hex
      obtain ⟨n, hn, deps, -, rfl⟩ := h.mem' hm
      exact ⟨n, hn, rfl, hown⟩
    · intro hex
      obtain ⟨n, hn, rfl, hown⟩ := hex
      obtain ⟨deps, -, hm⟩ := h.mem hn
      exact ⟨_, hm, rfl, hown⟩
  · simp only [resolve]
    congr 1
    refine Std.ExtTreeSet.ext_mem fun {key} => ?_
    rw [mem_foldl_insert, mem_foldl_insert]
    constructor
    · intro hex
      rcases hex with hex | ⟨m, hm, hkey⟩
      · exact Or.inl hex
      · obtain ⟨n, hn, deps, -, rfl⟩ := h.mem' hm
        exact Or.inr ⟨n, hn, hkey⟩
    · intro hex
      rcases hex with hex | ⟨n, hn, hkey⟩
      · exact Or.inl hex
      · obtain ⟨deps, -, hm⟩ := h.mem hn
        exact Or.inr ⟨_, hm, hkey⟩

end Reordered

/-! ## The judgement -/

theorem checkEdgeShapes_spec {sib : Siblings} {ids : List String} {edges : List ExportEdge} {seen : EdgesSeen} {number : ℕ}
    (h : checkEdgeShapes sib ids seen number edges = .ok ()) :
    (∀ e ∈ edges, e.from ∈ ids ∧ e.to ∈ ids ∧ e.to ∉ seen.consumers.map Prod.fst) ∧
      (edges.map ExportEdge.to).Nodup := by
  induction edges generalizing seen number with
  | nil => simp
  | cons e edges ih =>
    simp only [checkEdgeShapes, checkEdge, bind_eq_ok, refuseAs_eq_ok, each_eq_ok, refuseIf_eq_ok, exists_unit, not_not,
      Option.map_eq_none_iff, List.forall_mem_cons] at h
    obtain ⟨⟨-, ⟨hfrom, hto, -⟩, -, hnew, -⟩, hrest⟩ := h
    obtain ⟨hall, hnd⟩ := ih hrest
    have hout : e.to ∉ seen.consumers.map Prod.fst := by
      intro hin
      obtain ⟨p, hp, heq⟩ := List.mem_map.mp hin
      have hne := List.lookup_eq_none_iff.mp hnew p hp
      simp [heq] at hne
    refine ⟨List.forall_mem_cons.mpr ⟨⟨hfrom, hto, hout⟩, fun f hf => ?_⟩, ?_⟩
    · obtain ⟨h1, h2, h3⟩ := hall f hf
      exact ⟨h1, h2, fun hin => h3 (List.mem_cons_of_mem _ hin)⟩
    · rw [List.map_cons, List.nodup_cons]
      refine ⟨fun hin => ?_, hnd⟩
      obtain ⟨f, hf, heq⟩ := List.mem_map.mp hin
      exact (hall f hf).2.2 (by simp [heq])

/-- a plan's node of an id, where its ids are distinct -/
theorem nodeOf_of_mem (hnd : (plan.tasks.map Node.id).Nodup) {n : Node} (hn : n ∈ plan.tasks) :
    nodeOf plan n.id = some n := by
  cases hf : nodeOf plan n.id with
  | none => simpa using List.find?_eq_none.mp hf n (List.mem_reverse.mpr hn)
  | some m =>
    have hid : m.id = n.id := by simpa using List.find?_some hf
    rw [eq_of_id_eq hnd (List.mem_reverse.mp (List.mem_of_find?_eq_some hf)) hn hid]

/-- what a plan the boundary accepts keeps apart -/
structure KeptApart (plan : Plan) (resolved : Resolved) : Prop where
  /-- a path of dependencies from a public destination to a private node crosses an export edge -/
  exported : ∀ path : List String, path.IsChain (DependsOn plan) → ∀ dest ∈ path.head?, ∀ origin ∈ path.getLast?,
    dest ∈ resolved.publicDestinations → origin ∈ plan.tasks.map Node.id → resolved.clearance origin = .private →
    ∃ consumer producer, [consumer, producer] <:+: path ∧ isExport plan producer consumer = true
  /-- a public destination consumes at most one export -/
  one : ∀ dest ∈ resolved.publicDestinations, (plan.exportEdges.filter fun edge => edge.to = dest).length ≤ 1
  /-- an export edge runs from a private preserve lifecycle node to a public destination -/
  ends : ∀ edge ∈ plan.exportEdges,
    (∃ n ∈ plan.tasks, n.id = edge.from ∧ resolved.clearance n.id = .private ∧ n.repo.isSome ∧ n.publish = .preserve) ∧
      edge.to ∈ resolved.publicDestinations

section

variable {sib : Siblings} {stage : Stage}

theorem check_eq_ok {resolved : Resolved} (h : check oracle sib plan stage = .ok resolved) :
    resolved = resolve oracle plan ∧ checkEdges sib plan = .ok () ∧ checkProducers plan resolved stage = .ok () ∧
      checkDestinations plan resolved = .ok () := by
  simp only [check, bind_eq_ok, exists_unit, pure_eq_ok] at h
  obtain ⟨hedges, hprod, hdest, -, rfl⟩ := h
  exact ⟨rfl, hedges, hprod, hdest⟩

theorem consumers_nodup (h : checkEdges sib plan = .ok ()) : (plan.exportEdges.map ExportEdge.to).Nodup := by
  simp only [checkEdges, bind_eq_ok, exists_unit] at h
  exact (checkEdgeShapes_spec h.1).2

theorem ends_mem (h : checkEdges sib plan = .ok ()) {edge : ExportEdge} (he : edge ∈ plan.exportEdges) :
    edge.from ∈ plan.tasks.map Node.id ∧ edge.to ∈ plan.tasks.map Node.id := by
  simp only [checkEdges, bind_eq_ok, exists_unit] at h
  obtain ⟨hfrom, hto, -⟩ := (checkEdgeShapes_spec h.1).1 edge he
  exact ⟨hfrom, hto⟩

theorem one_consumed (h : checkEdges sib plan = .ok ()) (dest : String) :
    (plan.exportEdges.filter fun edge => edge.to = dest).length ≤ 1 := by
  have hcount := List.nodup_iff_count_le_one.mp (consumers_nodup h) dest
  rw [List.count_eq_countP, List.countP_map, List.countP_eq_length_filter] at hcount
  simpa only [Function.comp_def, beq_eq_decide] using hcount

theorem checkEnds_eq_ok {resolved : Resolved} {number : ℕ} {producer consumer : Node}
    (h : checkEnds resolved stage number producer consumer = .ok ()) :
    resolved.clearance producer.id = .private ∧ isPreserving producer = true ∧
      consumer.id ∈ resolved.publicDestinations := by
  simp only [checkEnds, bind_eq_ok, refuseIf_eq_ok, exists_unit, not_or, not_not, Bool.not_eq_false] at h
  exact ⟨h.1.1, h.1.2, h.2.1.2⟩

theorem ends_checked {resolved : Resolved} (hnd : (plan.tasks.map Node.id).Nodup) (h : checkEdges sib plan = .ok ())
    (hprod : checkProducers plan resolved stage = .ok ()) {edge : ExportEdge} (he : edge ∈ plan.exportEdges) :
    (∃ n ∈ plan.tasks, n.id = edge.from ∧ resolved.clearance n.id = .private ∧ n.repo.isSome ∧ n.publish = .preserve) ∧
      edge.to ∈ resolved.publicDestinations := by
  obtain ⟨hfrom, hto⟩ := ends_mem h he
  obtain ⟨producer, hp, hpid⟩ := List.mem_map.mp hfrom
  obtain ⟨consumer, hc, hcid⟩ := List.mem_map.mp hto
  obtain ⟨i, hi⟩ := List.getElem?_of_mem he
  rw [checkProducers, each_eq_ok] at hprod
  have hone := hprod (edge, i) (List.mk_mem_zipIdx_iff_getElem?.mpr hi)
  simp only [← hpid, ← hcid, nodeOf_of_mem hnd hp, nodeOf_of_mem hnd hc] at hone
  obtain ⟨hpriv, hkept, hdest⟩ := checkEnds_eq_ok hone
  rw [isPreserving, Bool.and_eq_true, decide_eq_true_eq] at hkept
  exact ⟨⟨producer, hp, hpid, hpriv, hkept.1, hkept.2⟩, hcid ▸ hdest⟩

/-- a private dependency of a public destination is an export edge -/
theorem dep_exported {resolved : Resolved} (h : checkDestinations plan resolved = .ok ()) {n : Node}
    (hn : n ∈ plan.tasks) (hdest : n.id ∈ resolved.publicDestinations) {dep : String} (hdep : dep ∈ n.deps)
    (hin : dep ∈ plan.tasks.map Node.id) (hpriv : resolved.clearance dep = .private) : isExport plan dep n.id = true := by
  rw [checkDestinations, each_eq_ok] at h
  have hnode := h n (List.mem_filter.mpr ⟨hn, by simpa using hdest⟩)
  rw [each_eq_ok] at hnode
  have hone := hnode dep (List.mem_filter.mpr ⟨hdep, by simpa using hin⟩)
  rw [refuseIf_eq_ok, not_and, Bool.not_eq_false] at hone
  exact hone hpriv

/-- one dependency that is not an export edge carries private work to no public node -/
theorem private_of_dep (hac : Acyclic plan) (hnd : (plan.tasks.map Node.id).Nodup)
    (h : checkDestinations plan (resolve oracle plan) = .ok ()) {a b : String} (hab : DependsOn plan a b)
    (hexp : isExport plan b a = false) (hin : b ∈ plan.tasks.map Node.id)
    (hpriv : (resolve oracle plan).clearance b = .private) : (resolve oracle plan).clearance a = .private := by
  obtain ⟨n, hn, rfl, hdep⟩ := hab
  rw [clearance_resolve hac hnd (List.mem_map_of_mem hn)]
  cases hown : ownClearance oracle n with
  | none =>
    rw [reached_of_bare hnd hn (ownClearance_none.mp hown)]
    exact ⟨b, hdep, hexp, (clearance_resolve hac hnd hin).mp hpriv⟩
  | some c =>
    cases c with
    | «private» => exact reached_of_private hn (ownClearance_private.mp hown)
    | «public» =>
      have hdest : n.id ∈ (resolve oracle plan).publicDestinations := mem_publicDestinations.mpr ⟨n, hn, rfl, hown⟩
      rw [dep_exported h hn hdest hdep hin hpriv] at hexp
      cases hexp

theorem path_exported (hac : Acyclic plan) (hnd : (plan.tasks.map Node.id).Nodup)
    (h : checkDestinations plan (resolve oracle plan) = .ok ()) {path : List String}
    (hpath : path.IsChain (DependsOn plan)) {a origin : String} (ha : a ∈ path.head?) (ho : origin ∈ path.getLast?)
    (hin : origin ∈ plan.tasks.map Node.id) (hpriv : (resolve oracle plan).clearance origin = .private)
    (hpub : (resolve oracle plan).clearance a ≠ .private) :
    ∃ consumer producer, [consumer, producer] <:+: path ∧ isExport plan producer consumer = true := by
  induction path generalizing a with
  | nil => cases ha
  | cons x path ih =>
    obtain rfl : x = a := by simpa using ha
    cases path with
    | nil =>
      obtain rfl : x = origin := by simpa using ho
      exact absurd hpriv hpub
    | cons b path =>
      obtain ⟨hab, hrest⟩ := List.isChain_cons_cons.mp hpath
      by_cases hexp : isExport plan b x = true
      · exact ⟨x, b, ⟨[], path, rfl⟩, hexp⟩
      · rw [Bool.not_eq_true] at hexp
        rw [List.getLast?_cons_cons] at ho
        have hbin : b ∈ plan.tasks.map Node.id := by
          cases path with
          | nil =>
            obtain rfl : b = origin := by simpa using ho
            exact hin
          | cons c path =>
            obtain ⟨⟨n, hn, hid, -⟩, -⟩ := List.isChain_cons_cons.mp hrest
            exact hid ▸ List.mem_map_of_mem hn
        have hb : (resolve oracle plan).clearance b ≠ .private :=
          fun hb => hpub (private_of_dep hac hnd h hab hexp hbin hb)
        obtain ⟨consumer, producer, hpair, hedge⟩ := ih hrest rfl ho hb
        exact ⟨consumer, producer, hpair.trans (List.suffix_cons x (b :: path)).isInfix, hedge⟩

theorem keptApart_of_check (hac : Acyclic plan) (hnd : (plan.tasks.map Node.id).Nodup) {resolved : Resolved}
    (h : check oracle sib plan stage = .ok resolved) : KeptApart plan resolved := by
  obtain ⟨rfl, hedges, hprod, hdests⟩ := check_eq_ok h
  refine ⟨fun path hpath dest hdest origin ho hpublic hin hpriv => ?_, fun dest _ => one_consumed hedges dest,
    fun edge he => ends_checked hnd hedges hprod he⟩
  obtain ⟨n, hn, rfl, hown⟩ := mem_publicDestinations.mp hpublic
  refine path_exported hac hnd hdests hpath hdest ho hin hpriv fun hp => ?_
  exact not_reached_of_public hnd hn hown ((clearance_resolve hac hnd (List.mem_map_of_mem hn)).mp hp)

end

/--
**The boundary.** Over a plan without a cycle and with distinct ids, a node is private exactly when it is private of
itself, or is bare and a chain of bare nodes leads from it, over dependencies that are not export edges, to one that is;
the resolution does not depend on the order of nodes and dependencies; the scope is the identities of the private
repositories named; and an accepted plan keeps private work apart.
-/
theorem private_work_is_exported (oracle : Oracle) (plan : Plan) (hac : Acyclic plan)
    (hnd : (plan.tasks.map Node.id).Nodup) :
    (∀ n ∈ plan.tasks, (resolve oracle plan).clearance n.id = .private ↔
        PrivateItself oracle n ∨
          Bare n ∧ ∃ m ∈ plan.tasks, PrivateItself oracle m ∧ TransGen (Inherits plan) n.id m.id) ∧
      (∀ plan', Reordered plan plan' → resolve oracle plan' = resolve oracle plan) ∧
      (∀ key, key ∈ (resolve oracle plan).scope ↔
        ∃ n ∈ plan.tasks, ∃ repo ∈ repositoriesOf n, (oracle.repository repo).clearance = .private ∧
          (oracle.repository repo).identity.intoScope = key) ∧
      ∀ sib stage resolved, check oracle sib plan stage = .ok resolved →
        resolved = resolve oracle plan ∧ KeptApart plan resolved := by
  refine ⟨fun n hn => ?_, fun plan' h => h.resolve_eq hac hnd, fun key => mem_scope,
    fun sib stage resolved h => ⟨(check_eq_ok h).1, keptApart_of_check hac hnd h⟩⟩
  rw [clearance_resolve hac hnd (List.mem_map_of_mem hn)]
  constructor
  · intro hreach
    obtain ⟨m, hm, hpriv, hpath⟩ := hreach
    rcases reflTransGen_iff_eq_or_transGen.mp hpath with heq | htrans
    · exact Or.inl (eq_of_id_eq hnd hm hn heq ▸ hpriv)
    · obtain ⟨b, ⟨k, hk, hid, hbare, -⟩, -⟩ := TransGen.head'_iff.mp htrans
      exact Or.inr ⟨eq_of_id_eq hnd hk hn hid ▸ hbare, m, hm, hpriv, htrans⟩
  · intro hor
    rcases hor with hpriv | ⟨-, m, hm, hpriv, htrans⟩
    · exact reached_of_private hn hpriv
    · exact ⟨m, hm, hpriv, htrans.to_reflTransGen⟩

/-! ### A mixed plan -/

/-- a plan whose dependencies all go down some measure of its ids has no cycle -/
theorem acyclic_of_measure (measure : String → ℕ) (h : ∀ n ∈ plan.tasks, ∀ d ∈ n.deps, measure d < measure n.id) :
    Acyclic plan := by
  have hdown : ∀ {a b}, TransGen (DependsOn plan) a b → measure b < measure a := by
    intro a b hab
    induction hab with
    | single hab =>
      obtain ⟨n, hn, rfl, hdep⟩ := hab
      exact h n hn _ hdep
    | tail _ hbc ih =>
      obtain ⟨n, hn, rfl, hdep⟩ := hbc
      exact (h n hn _ hdep).trans ih
  exact fun id hid => lt_irrefl _ (hdown hid)

/-- a host of one public repository -/
def onePublic : Oracle where
  repository repo := { clearance := if repo = "open" then .public else .private, identity := .registered repo }
  check _ := .pass

/-- private work kept and exported to a public consumer, and a node of no repository that reads the private work -/
def exporting : Plan where
  schemaVersion := planSchemaVersion
  concurrency := 1
  tasks := [{ id := "p", repo := some "closed", publish := .preserve }, { id := "c", repo := some "open", deps := ["p"] },
    { id := "r", deps := ["p"] }]
  exportEdges := [{ «from» := "p", «to» := "c", sourceDirectory := "docs", targetDirectory := "docs", acceptedOpaque := [] }]

theorem exporting_kept_apart :
    (resolve onePublic exporting).clearance "r" = .private ∧
      ∃ resolved, check onePublic Host.lenient.toSiblings exporting .load = .ok resolved ∧ KeptApart exporting resolved := by
  have hac : Acyclic exporting := acyclic_of_measure (fun id => if id = "p" then 0 else 1) (by decide)
  obtain ⟨hclear, -, -, hchecked⟩ := private_work_is_exported onePublic exporting hac (by decide)
  obtain ⟨resolved, hok, -⟩ := exists_ok_of_any (p := fun _ => true) (x := check onePublic Host.lenient.toSiblings exporting .load)
    (by decide)
  refine ⟨?_, resolved, hok, (hchecked Host.lenient.toSiblings .load resolved hok).2⟩
  refine (hclear { id := "r", deps := ["p"] } (by simp [exporting])).mpr (Or.inr ⟨⟨rfl, rfl⟩, ?_⟩)
  refine ⟨{ id := "p", repo := some "closed", publish := .preserve }, by simp [exporting], Or.inr ⟨"closed", ?_⟩, .single ?_⟩
  · decide
  · exact ⟨{ id := "r", deps := ["p"] }, by simp [exporting], rfl, ⟨rfl, rfl⟩, by decide, by decide⟩

end OnePipeline.Boundary
