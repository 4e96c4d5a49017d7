/-
What the release watch holds back.

Results:
- `held_iff`: which watched nodes a pass holds, from the rows it has frozen and the answers it has taken up;
- `Latched`: every answer taken up was asked for at the target its node's frozen row names, in any run;
- `held_exactly`: in a run no record of which moves what a node waits on once its set is resolved, a pass holds a node
  under published adoption exactly when a dependency its definition names could not be described, or lands elsewhere and
  has not been answered at the target it names;
- `held_on_nothing`: a hold outlives the dependency it was for once an edit takes that dependency away.
-/
import Mathlib.Tactic
import OnePipeline.Laws.Forest
import OnePipeline.Model.Release

namespace OnePipeline.Release

open Maps Runs

/-! ## Rows -/

/-- what a description leaves to await: the target of a release outside, nothing, or no telling -/
def Resolution.wait : Resolution → Except Unit (Option (Option String))
  | .nothingToAwait => .ok none
  | .outside dependency => .ok (some dependency.target)
  | .unreadable _ => .error ()

/-- a dependency as its hold reads it: its id, and the target it is consumed at -/
def Dependency.row (d : Dependency) : String × Option String := (d.dep, d.target)

/-- the rows a node's set was frozen as -/
def Watch.rows (w : Watch) (id : String) : Option (List (String × Option String)) :=
  w.dependencies[id]?.map (List.map Dependency.row)

theorem row_withLanding (d : Dependency) (stated : Option Stated) : (d.withLanding stated).row = d.row := rfl

section Describe

variable {host : Host} {reads reads' : Reads} {state state' : RunState} {w w' : Watch} {node node' : Node} {dep : String}

/-- what a dependency of this run is awaited as, from where it lands and the target it is consumed at -/
def waitOf («of» : String → Except String RepositoryReleases) (mine : Option String) (lands : Option (Option String))
    (named : Option String) : Except Unit (Option (Option String)) :=
  match lands with
  | none => .error ()
  | some none => .ok none
  | some (some repo) =>
    match «of» repo with
    | .error _ => .error ()
    | .ok releases =>
      if some releases.identity = mine then .ok none
      else if releases.targets = [] then .ok none
      else
        .ok (some (match releases.select named with
          | some target => some target.name
          | none => named))

theorem wait_outside {mine : Option String} {repo : String} {branch commit named : Option String}
    {releases : RepositoryReleases} (hof : w.of reads repo = .ok releases) (hmine : some releases.identity ≠ mine) :
    (w.outside host reads state dep repo branch commit named).wait = waitOf (w.of reads) mine (some (some repo)) named := by
  simp only [Watch.outside, waitOf, hof, if_neg hmine]
  split_ifs with ht
  · rfl
  · rfl

/-- a dependency within the run is awaited by where it lands and the target its consumer names -/
theorem wait_dependency (hdep : crossDagParse dep = none) (mine : Option String) :
    (w.dependency host reads state node dep mine).wait =
      waitOf (w.of reads) mine ((state.graph.get dep).map Node.repo) node.consumes[dep]? := by
  have hacross : w.acrossRepositories reads state dep mine =
      match (state.graph.get dep).map Node.repo with
      | none => .error (.unreadable (noSuchNode dep))
      | some none => .error .nothingToAwait
      | some (some repo) =>
        match w.of reads repo with
        | .error why => .error (.unreadable (unread repo why))
        | .ok releases => if some releases.identity = mine then .error .nothingToAwait else .ok repo := by
    unfold Watch.acrossRepositories
    cases state.graph.get dep with
    | none => rfl
    | some upstream =>
      cases hrepo : upstream.repo with
      | none => simp only [Option.map_some, hrepo]
      | some repo =>
        cases hof : w.of reads repo with
        | error why => simp only [Option.map_some, hrepo, hof]
        | ok releases => simp only [Option.map_some, hrepo, hof]
  simp only [Watch.dependency, hdep, hacross]
  cases (state.graph.get dep).map Node.repo with
  | none => rfl
  | some repo =>
    cases repo with
    | none => rfl
    | some repo =>
      cases hof : w.of reads repo with
      | error why => simp only [waitOf, hof, Resolution.wait]
      | ok releases =>
        by_cases hmine : some releases.identity = mine
        · simp only [if_pos hmine, waitOf, hof, Resolution.wait]
        · simp only [hof, if_neg hmine]
          exact wait_outside hof hmine

/-- a description of a dependency names it -/
theorem dep_of_outside {mine : Option String} {d : Dependency}
    (h : w.dependency host reads state node dep mine = .outside d) : d.dep = dep := by
  have hout {repo : String} {branch commit named : Option String}
      (h : w.outside host reads state dep repo branch commit named = .outside d) : d.dep = dep := by
    unfold Watch.outside at h
    split at h
    · cases h
    · split_ifs at h
      cases h
      rfl
  unfold Watch.dependency at h
  split at h
  · split at h
    · cases h
    · split at h
      · cases h
      · exact hout h
  · cases hacross : w.acrossRepositories reads state dep mine with
    | ok repo =>
      rw [hacross] at h
      exact hout h
    | error ended =>
      rw [hacross] at h
      subst h
      unfold Watch.acrossRepositories at hacross
      split at hacross
      · cases hacross
      · split at hacross
        · cases hacross
        · split at hacross
          · cases hacross
          · split_ifs at hacross
            cases hacross

end Describe

/-! ## What a pass learns -/

/-- one watch after another that only read more, of what a pass reads -/
structure Grows (reads : Reads) (w w' : Watch) : Prop where
  answers : w'.answers = w.answers
  adopted : w'.adopted = w.adopted
  «of» : ∀ repo, w'.of reads repo = w.of reads repo
  known : ∀ (repo : String) (releases : RepositoryReleases), w.known[repo]? = some releases → w'.known[repo]? = some releases

/-- one watch after another that read more and described nothing -/
structure Learns (reads : Reads) (w w' : Watch) : Prop extends Grows reads w w' where
  dependencies : w'.dependencies = w.dependencies
  unresolved : w'.unresolved = w.unresolved

variable {reads : Reads} {u v w : Watch}

theorem Grows.refl (w : Watch) : Grows reads w w := ⟨rfl, rfl, fun _ => rfl, fun _ _ h => h⟩

theorem Grows.trans (h1 : Grows reads u v) (h2 : Grows reads v w) : Grows reads u w where
  answers := h2.answers.trans h1.answers
  adopted := h2.adopted.trans h1.adopted
  «of» repo := (h2.of repo).trans (h1.of repo)
  known repo releases h := h2.known repo releases (h1.known repo releases h)

theorem Grows.version (h : Grows reads u v) (key : Key) : v.version key = u.version key := by
  simp only [Watch.version, h.answers]

theorem Learns.refl (w : Watch) : Learns reads w w := ⟨.refl w, rfl, rfl⟩

theorem Learns.trans (h1 : Learns reads u v) (h2 : Learns reads v w) : Learns reads u w :=
  ⟨h1.toGrows.trans h2.toGrows, h2.dependencies.trans h1.dependencies, h2.unresolved.trans h1.unresolved⟩

theorem Learns.foldl {α : Type} {f : Watch → α → Watch} (hf : ∀ w a, Learns reads w (f w a)) (l : List α) (w : Watch) :
    Learns reads w (l.foldl f w) := by
  induction l generalizing w with
  | nil => exact refl w
  | cons a l ih => exact (hf w a).trans (ih (f w a))

theorem Learns.rows (h : Learns reads u v) (id : String) : v.rows id = u.rows id := by
  simp only [Watch.rows, h.dependencies]

section Remember

variable {host : Host} {reads : Reads} {state : RunState} {w : Watch}

theorem of_known {repo : String} {releases : RepositoryReleases} (h : w.known[repo]? = some releases) :
    w.of reads repo = .ok releases := by
  simp only [Watch.of, h]

theorem learns_remember (w : Watch) (repo : String) : Learns reads w (w.remember reads repo) := by
  unfold Watch.remember
  cases hof : w.of reads repo with
  | error why => exact .refl w
  | ok releases =>
    refine ⟨⟨rfl, rfl, fun r => ?_, fun r known h => ?_⟩, rfl, rfl⟩
    · by_cases hr : r = repo
      · subst hr
        rw [hof]
        exact of_known (by simp only [get_insert, if_true])
      · simp only [Watch.of, get_insert, if_neg hr]
    · show (w.known.insert repo releases)[r]? = some known
      rw [get_insert]
      split_ifs with hr
      · subst hr
        rw [of_known h] at hof
        cases hof
        rfl
      · exact h

/-- what a repository was read to release is known from then on -/
theorem known_remember {repo : String} {releases : RepositoryReleases} (h : w.of reads repo = .ok releases) :
    (w.remember reads repo).known[repo]? = some releases := by
  simp only [Watch.remember, h, get_insert, if_true]

theorem learns_rememberLandingOf (w : Watch) (dep : String) : Learns reads w (w.rememberLandingOf host reads state dep) := by
  have hstated (run : String) (s : RunState) : Learns reads w (w.rememberStated host run s) := by
    unfold Watch.rememberStated
    split_ifs
    · exact .refl w
    · exact ⟨⟨rfl, rfl, fun _ => rfl, fun _ _ h => h⟩, rfl, rfl⟩
  unfold Watch.rememberLandingOf
  split
  · split
    · exact hstated _ _
    · exact .refl w
  · exact hstated _ _

theorem learns_rememberAll (w : Watch) (node : Node) : Learns reads w (w.rememberAll host reads state node) :=
  (Learns.foldl learns_remember _ w).trans (Learns.foldl learns_rememberLandingOf _ _)

theorem known_foldl_remember {l : List String} {repo : String} {releases : RepositoryReleases} (hin : repo ∈ l)
    (h : w.of reads repo = .ok releases) : (l.foldl (Watch.remember reads) w).known[repo]? = some releases := by
  induction l generalizing w with
  | nil => cases hin
  | cons r l ih =>
    rcases List.mem_cons.mp hin with rfl | hin
    · exact (Learns.foldl learns_remember l _).known _ _ (known_remember h)
    · exact ih hin (by rw [(learns_remember w r).of, h])

/-- every repository a node's dependencies were described from is known from then on, where it could be read -/
theorem known_rememberAll {node : Node} {repo : String} {releases : RepositoryReleases}
    (hin : node.repo = some repo ∨ ∃ dep ∈ asksAbout state node, landsIn reads state dep = some repo)
    (h : w.of reads repo = .ok releases) : (w.rememberAll host reads state node).known[repo]? = some releases := by
  refine (Learns.foldl learns_rememberLandingOf _ _).known _ _ (known_foldl_remember ?_ h)
  rw [List.mem_append, Option.mem_toList, List.mem_filterMap]
  exact hin

end Remember

/-! ## What a pass describes -/

section Awaited

variable {host : Host} {reads reads' : Reads} {state : RunState} {w w' : Watch} {node : Node}

/-- what each dependency of a node is awaited as -/
def Watch.awaited (host : Host) (reads : Reads) (state : RunState) (w : Watch) (node : Node) (dep : String) :
    Except Unit (Option (Option String)) :=
  (w.dependency host reads state node dep (w.identityOf reads node)).wait

theorem identityOf_congr (h : ∀ repo, node.repo = some repo → w'.of reads' repo = w.of reads repo) :
    w'.identityOf reads' node = w.identityOf reads node := by
  unfold Watch.identityOf
  cases hrepo : node.repo with
  | none => rfl
  | some repo => simp only [Option.map_some, h repo hrepo]

theorem waitOf_congr {f g : String → Except String RepositoryReleases} {mine : Option String}
    {lands : Option (Option String)} {named : Option String} (h : ∀ repo, lands = some (some repo) → f repo = g repo) :
    waitOf f mine lands named = waitOf g mine lands named := by
  match lands with
  | none | some none => rfl
  | some (some repo) => simp only [waitOf, h repo rfl]

/-- a dependency within the run is awaited alike wherever its own and its consumer's repositories read alike -/
theorem awaited_congr {dep : String} (hdep : crossDagParse dep = none)
    (hmine : ∀ repo, node.repo = some repo → w'.of reads' repo = w.of reads repo)
    (hlands : ∀ repo, (state.graph.get dep).map Node.repo = some (some repo) → w'.of reads' repo = w.of reads repo) :
    w'.awaited host reads' state node dep = w.awaited host reads state node dep := by
  rw [Watch.awaited, Watch.awaited, wait_dependency hdep, wait_dependency hdep, identityOf_congr hmine,
    waitOf_congr hlands]

theorem wait_outside_congr {dep repo : String} {branch commit named : Option String}
    (h : w'.of reads repo = w.of reads repo) :
    (w'.outside host reads state dep repo branch commit named).wait =
      (w.outside host reads state dep repo branch commit named).wait := by
  unfold Watch.outside
  rw [h]
  cases w.of reads repo with
  | error why => rfl
  | ok releases =>
    dsimp only
    split_ifs with ht
    · rfl
    · rfl

/-- a dependency is awaited as before by a watch that only learned -/
theorem Grows.awaited (h : Grows reads w w') (node : Node) (dep : String) :
    w'.awaited host reads state node dep = w.awaited host reads state node dep := by
  cases hdep : crossDagParse dep with
  | none => exact awaited_congr hdep (fun repo _ => h.of repo) fun repo _ => h.of repo
  | some named =>
    obtain ⟨run, upstreamNode⟩ := named
    simp only [Watch.awaited, Watch.dependency, hdep]
    cases hup : reads.upstream run with
    | none => rfl
    | some upstream =>
      dsimp only
      cases hrepo : (upstream.graph.get upstreamNode).bind Node.repo with
      | none => rfl
      | some repo => exact wait_outside_congr (h.of repo)

/-- the rows a description freezes -/
theorem mem_resolvedAmong {dep : String} {target : Option String} :
    (dep, target) ∈ (resolvedAmong (w.described host reads state node)).map Dependency.row ↔
      dep ∈ asksAbout state node ∧ w.awaited host reads state node dep = .ok (some target) := by
  simp only [resolvedAmong, Watch.described, List.filterMap_map, List.mem_map, List.mem_filterMap, Function.comp,
    Watch.awaited]
  constructor
  · rintro ⟨d, ⟨dep', hin, hd⟩, hrow⟩
    cases hr : w.dependency host reads state node dep' (w.identityOf reads node) with
    | nothingToAwait | unreadable => rw [hr] at hd; cases hd
    | outside d' =>
      rw [hr] at hd
      cases hd
      cases hrow
      have hdep := dep_of_outside hr
      subst hdep
      exact ⟨hin, by rw [hr]; rfl⟩
  · rintro ⟨hin, hwait⟩
    cases hr : w.dependency host reads state node dep (w.identityOf reads node) with
    | nothingToAwait | unreadable => rw [hr] at hwait; cases hwait
    | outside d =>
      rw [hr] at hwait
      cases hwait
      exact ⟨d, ⟨dep, hin, by rw [hr]⟩, by rw [Dependency.row, dep_of_outside hr]⟩

theorem unresolvedAmong_eq_nil :
    unresolvedAmong (w.described host reads state node) = [] ↔
      ∀ dep ∈ asksAbout state node, w.awaited host reads state node dep ≠ .error () := by
  simp only [unresolvedAmong, Watch.described, List.filterMap_map, List.filterMap_eq_nil_iff, Function.comp, Watch.awaited]
  refine forall₂_congr fun dep hin => ?_
  cases w.dependency host reads state node dep (w.identityOf reads node) <;> simp [Resolution.wait]

end Awaited

/-! ## Taking one node up -/

section Resolve

variable {host : Host} {reads : Reads} {state : RunState} {node : Node} {w w' : Watch}

/-- what taking one node up leaves of its own entry -/
inductive Taken (host : Host) (reads : Reads) (state : RunState) (node : Node) (w w' : Watch) : Prop where
  /-- its set stands, its landings read again at most -/
  | stood (rows : List (String × Option String)) (was : w.rows node.id = some rows) (now : w'.rows node.id = some rows)
      (unresolved : node.id ∈ w'.unresolved ↔ node.id ∈ w.unresolved)
  /-- one of its dependencies could not be described -/
  | unread (was : w.rows node.id = none) (now : w'.rows node.id = none) (unresolved : node.id ∈ w'.unresolved)
      (unread : ∃ dep ∈ asksAbout state node, w.awaited host reads state node dep = .error ())
  /-- all could be, and its set is frozen from here -/
  | froze (rows : List (String × Option String)) (was : w.rows node.id = none) (now : w'.rows node.id = some rows)
      (unresolved : node.id ∉ w'.unresolved)
      (described : ∀ dep ∈ asksAbout state node, w.awaited host reads state node dep ≠ .error ())
      (mem : ∀ dep target, (dep, target) ∈ rows ↔
        dep ∈ asksAbout state node ∧ w.awaited host reads state node dep = .ok (some target))
      (known : ∀ (repo : String) (releases : RepositoryReleases),
        (node.repo = some repo ∨ ∃ dep ∈ asksAbout state node, landsIn reads state dep = some repo) →
          w.of reads repo = .ok releases → w'.known[repo]? = some releases)

/-- what taking one node up does to the watch -/
structure TookUp (host : Host) (reads : Reads) (state : RunState) (node : Node) (w w' : Watch) : Prop extends
    Grows reads w w' where
  taken : Taken host reads state node w w'
  rows : ∀ id, id ≠ node.id → w'.rows id = w.rows id
  unresolved : ∀ id, id ≠ node.id → (id ∈ w'.unresolved ↔ id ∈ w.unresolved)

theorem rows_insert (w : Watch) (ds : List Dependency) (k id : String) (u : StrMap (List Unresolved)) :
    Watch.rows { w with dependencies := w.dependencies.insert k ds, unresolved := u } id =
      if id = k then some (ds.map Dependency.row) else w.rows id := by
  rw [Watch.rows, get_insert]
  split_ifs
  · rfl
  · rfl

/-- **Taking one node up.** -/
theorem tookUp_resolve (host : Host) (reads : Reads) (state : RunState) (w : Watch) (node : Node) :
    TookUp host reads state node w (w.resolve host reads state node).1 ∧
      ∀ d ∈ (w.resolve host reads state node).2, ∃ rows,
        (w.resolve host reads state node).1.rows node.id = some rows ∧ d.row ∈ rows := by
  unfold Watch.resolve
  cases hknown : w.dependencies[node.id]? with
  | some known =>
    have hrows : w.rows node.id = some (known.map Dependency.row) := by rw [Watch.rows, hknown]; rfl
    dsimp only
    split_ifs with hdue
    · exact ⟨⟨.refl w, .stood _ hrows hrows Iff.rfl, fun _ _ => rfl, fun _ _ => Iff.rfl⟩,
        fun d hd => ⟨_, hrows, List.mem_map_of_mem hd⟩⟩
    · have hlearns : Learns reads w
          (known.foldl (fun w dependency => w.rememberLandingOf host reads state dependency.dep) w) :=
        .foldl (fun w (d : Dependency) => learns_rememberLandingOf w d.dep) known w
      generalize known.foldl (fun w dependency => w.rememberLandingOf host reads state dependency.dep) w = w1 at hlearns
      -- only the landings were read again, which no row holds
      have hsame : (known.map fun d => d.withLanding (w.landingOf host reads state d.dep)).map Dependency.row =
          known.map Dependency.row := by
        rw [List.map_map]
        rfl
      have hins := rows_insert w1 (known.map fun d => d.withLanding (w.landingOf host reads state d.dep)) node.id
      refine ⟨⟨⟨hlearns.answers, hlearns.adopted, hlearns.of, hlearns.known⟩, ?_, fun id hid => ?_, fun id hid => ?_⟩, fun d hd => ?_⟩
      · refine .stood _ hrows ?_ ?_
        · rw [hins, if_pos rfl, hsame]
        · show node.id ∈ w1.unresolved ↔ _
          rw [hlearns.unresolved]
      · rw [hins, if_neg hid, hlearns.rows]
      · show id ∈ w1.unresolved ↔ _
        rw [hlearns.unresolved]
      · exact ⟨_, by rw [hins, if_pos rfl], List.mem_map_of_mem hd⟩
  | none =>
    have hrows : w.rows node.id = none := by rw [Watch.rows, hknown]; rfl
    have hlearns : Learns reads w (w.rememberAll host reads state node) := learns_rememberAll w node
    have hread := @known_rememberAll host reads state w node
    generalize w.rememberAll host reads state node = w1 at hlearns hread
    dsimp only
    split_ifs with hun
    · refine ⟨⟨⟨hlearns.answers, hlearns.adopted, hlearns.of, hlearns.known⟩, ?_, fun id hid => ?_, fun id hid => ?_⟩, fun d hd => ?_⟩
      · rw [ne_eq, unresolvedAmong_eq_nil, not_forall₂] at hun
        obtain ⟨dep, hin, herr⟩ := hun
        refine .unread hrows (by rw [← hrows]; exact hlearns.rows node.id) ?_ ⟨dep, hin, not_not.mp herr⟩
        exact mem_insert_iff.mpr (.inl rfl)
      · exact hlearns.rows id
      · show id ∈ w1.unresolved.insert node.id _ ↔ _
        rw [mem_insert_iff, hlearns.unresolved]
        exact or_iff_right hid
      · cases hd
    · have hins := rows_insert w1 (resolvedAmong (w.described host reads state node)) node.id
      refine ⟨⟨⟨hlearns.answers, hlearns.adopted, hlearns.of, hlearns.known⟩, ?_, fun id hid => ?_, fun id hid => ?_⟩, fun d hd => ?_⟩
      · refine .froze _ hrows (by rw [hins, if_pos rfl]) ?_ (unresolvedAmong_eq_nil.mp (not_not.mp hun))
          (fun dep target => mem_resolvedAmong) fun repo releases hin hof => hread hin hof
        exact not_mem_iff.mpr (by rw [get_erase, if_pos rfl])
      · rw [hins, if_neg hid, hlearns.rows]
      · show id ∈ w1.unresolved.erase node.id ↔ _
        rw [mem_iff, mem_iff, get_erase, if_neg hid, hlearns.unresolved]
      · exact ⟨_, by rw [hins, if_pos rfl], List.mem_map_of_mem hd⟩

/-- what was left of a node's entry, once later nodes are taken up too -/
theorem Taken.after {w'' : Watch} (h : Taken host reads state node w w') (hgrows : Grows reads w' w'')
    (hrows : w''.rows node.id = w'.rows node.id) (hun : node.id ∈ w''.unresolved ↔ node.id ∈ w'.unresolved) :
    Taken host reads state node w w'' := by
  cases h with
  | stood rows was now unresolved => exact .stood rows was (hrows.trans now) (hun.trans unresolved)
  | unread was now unresolved unread => exact .unread was (hrows.trans now) (hun.mpr unresolved) unread
  | froze rows was now unresolved described mem known =>
    exact .froze rows was (hrows.trans now) (mt hun.mp unresolved) described mem fun repo releases hin hof =>
      hgrows.known repo releases (known repo releases hin hof)

/-- what was left of a node's entry, said of the watch before other nodes were taken up -/
theorem Taken.before {w0 : Watch} (h : Taken host reads state node w w') (hgrows : Grows reads w0 w)
    (hrows : w.rows node.id = w0.rows node.id) (hun : node.id ∈ w.unresolved ↔ node.id ∈ w0.unresolved) :
    Taken host reads state node w0 w' := by
  cases h with
  | stood rows was now unresolved => exact .stood rows (hrows.symm.trans was) now (unresolved.trans hun)
  | unread was now unresolved unread =>
    obtain ⟨dep, hin, herr⟩ := unread
    exact .unread (hrows.symm.trans was) now unresolved ⟨dep, hin, by rw [← hgrows.awaited, herr]⟩
  | froze rows was now unresolved described mem known =>
    refine .froze rows (hrows.symm.trans was) now unresolved (fun dep hin => ?_) (fun dep target => ?_) fun repo releases hin hof => ?_
    · rw [← hgrows.awaited]
      exact described dep hin
    · rw [← hgrows.awaited]
      exact mem dep target
    · exact known repo releases hin (by rw [hgrows.of, hof])

/-- what taking several nodes up does to the watch, and which waits it finds still on -/
structure TookUpAll (host : Host) (reads : Reads) (state : RunState) (l : List Node) (p q : Watch × List (Key × Dependency)) :
    Prop extends Grows reads p.1 q.1 where
  taken : ∀ node ∈ l, Taken host reads state node p.1 q.1
  rows : ∀ id, id ∉ l.map Node.id → q.1.rows id = p.1.rows id
  unresolved : ∀ id, id ∉ l.map Node.id → (id ∈ q.1.unresolved ↔ id ∈ p.1.unresolved)
  «waits» : ∀ wait ∈ q.2, wait ∈ p.2 ∨ ∃ rows, q.1.rows wait.1.1 = some rows ∧ (wait.1.2, wait.2.target) ∈ rows

theorem tookUp_foldl {l : List Node} (hnd : (l.map Node.id).Nodup) (p : Watch × List (Key × Dependency)) :
    TookUpAll host reads state l p (l.foldl (Watch.refreshNode host reads state) p) := by
  induction l generalizing p with
  | nil =>
    exact ⟨.refl p.1, fun _ h => absurd h List.not_mem_nil, fun _ _ => rfl, fun _ _ => Iff.rfl, fun _ h => .inl h⟩
  | cons node l ih =>
    rw [List.map_cons, List.nodup_cons] at hnd
    obtain ⟨htook, hrow⟩ := tookUp_resolve host reads state p.1 node
    have hone : (Watch.refreshNode host reads state p node).1 = (p.1.resolve host reads state node).1 := rfl
    have hrest := ih hnd.2 (Watch.refreshNode host reads state p node)
    rw [List.foldl_cons]
    generalize l.foldl (Watch.refreshNode host reads state) (Watch.refreshNode host reads state p node) = q at hrest
    have hgrows : Grows reads (p.1.resolve host reads state node).1 q.1 := hrest.toGrows
    have hmine := hrest.rows node.id hnd.1
    have hmineUn := hrest.unresolved node.id hnd.1
    rw [hone] at hmine hmineUn
    refine ⟨htook.toGrows.trans hgrows, fun n hn => ?_, fun id hid => ?_, fun id hid => ?_, fun wait hwait => ?_⟩
    · rcases List.mem_cons.mp hn with rfl | hn
      · exact htook.taken.after hgrows hmine hmineUn
      · have hne : n.id ≠ node.id := fun h => hnd.1 (h ▸ List.mem_map_of_mem hn)
        exact (hrest.taken n hn).before htook.toGrows (htook.rows _ hne) (htook.unresolved _ hne)
    · rw [List.map_cons, List.mem_cons, not_or] at hid
      exact (hrest.rows id hid.2).trans (htook.rows id hid.1)
    · rw [List.map_cons, List.mem_cons, not_or] at hid
      exact (hrest.unresolved id hid.2).trans (htook.unresolved id hid.1)
    · rcases hrest.waits wait hwait with hin | hin
      · rcases List.mem_append.mp hin with hin | hin
        · exact .inl hin
        · obtain ⟨d, hd, rfl⟩ := List.mem_map.mp (List.mem_filter.mp hin).1
          obtain ⟨rows, hnow, hmem⟩ := hrow d hd
          exact .inr ⟨rows, hmine.trans hnow, hmem⟩
      · exact .inr hin

end Resolve

/-! ## What a pass asks -/

/-- a question asks about the waits it is put for, each at its own target -/
def About (waits : List (Key × Dependency)) (questions : List Question) : Prop :=
  ∀ q ∈ questions, ∀ key ∈ q.keys, ∃ wait ∈ waits, wait.1 = key ∧ wait.2.target = q.target

theorem about_ask {waits : List (Key × Dependency)} {questions : List Question} {wait : Key × Dependency}
    (hwait : wait ∈ waits) (h : About waits questions) : About waits (ask questions wait) := by
  unfold ask
  split
  · dsimp only
    split_ifs
    · intro q hq key hkey
      obtain ⟨q0, hq0, rfl⟩ := List.mem_map.mp hq
      split_ifs at hkey ⊢ with habout
      · rcases List.mem_append.mp hkey with hkey | hkey
        · exact h q0 hq0 key hkey
        · cases List.mem_singleton.mp hkey
          simp only [Bool.and_eq_true, decide_eq_true_eq] at habout
          exact ⟨wait, hwait, rfl, habout.1.2.symm⟩
      · exact h q0 hq0 key hkey
    · intro q hq key hkey
      rcases List.mem_append.mp hq with hq | hq
      · exact h q hq key hkey
      · cases List.mem_singleton.mp hq
        cases List.mem_singleton.mp hkey
        exact ⟨wait, hwait, rfl, rfl⟩
  · exact h

theorem about_questionsOf (waits : List (Key × Dependency)) : About waits (questionsOf waits) := by
  have hfold (l : List (Key × Dependency)) (hl : ∀ wait ∈ l, wait ∈ waits) (questions : List Question)
      (h : About waits questions) : About waits (l.foldl ask questions) := by
    induction l generalizing questions with
    | nil => exact h
    | cons wait l ih =>
      exact ih (fun x hx => hl x (List.mem_cons_of_mem _ hx)) _ (about_ask (hl wait List.mem_cons_self) h)
  exact hfold waits (fun _ h => h) [] fun _ h => nomatch h

/-! ## One pass -/

section Refresh

variable {host : Host} {reads : Reads} {state : RunState} {w : Watch}

/-- what a pass does to the watch, and what it asks -/
structure Refreshed (host : Host) (reads : Reads) (state : RunState) (watched : List Node) (w w' : Watch)
    (questions : List Question) : Prop extends Grows reads w w' where
  taken : ∀ node ∈ watched, Taken host reads state node w w'
  rows : ∀ id, id ∉ watched.map Node.id → w'.rows id = w.rows id
  unresolved : ∀ id ∈ w'.unresolved, id ∈ watched.map Node.id
  asked : ∀ q ∈ questions, ∀ key ∈ q.keys, ∃ rows, w'.rows key.1 = some rows ∧ (key.2, q.target) ∈ rows

/-- **One pass.** -/
theorem refreshed (host : Host) (reads : Reads) (state : RunState) (w : Watch) {watched : List Node}
    (hnd : (watched.map Node.id).Nodup) :
    Refreshed host reads state watched w (w.refresh host reads state watched).1 (w.refresh host reads state watched).2 := by
  have hdue : Learns reads w (if reads.landingsAreDue then { w with stated := ∅ } else w) := by
    split_ifs
    · exact ⟨⟨rfl, rfl, fun _ => rfl, fun _ _ h => h⟩, rfl, rfl⟩
    · exact .refl w
  unfold Watch.refresh
  dsimp only
  generalize (if reads.landingsAreDue then { w with stated := ∅ } else w) = w1 at hdue
  have hall : TookUpAll host reads state watched (w1, []) (watched.foldl (Watch.refreshNode host reads state) (w1, [])) :=
    tookUp_foldl hnd (w1, [])
  generalize watched.foldl (Watch.refreshNode host reads state) (w1, []) = q at hall
  have hkept (id : String) : id ∈ (q.1.unresolved.filter fun id _ => watched.any fun node => node.id = id) ↔
      id ∈ q.1.unresolved ∧ id ∈ watched.map Node.id := by
    rw [mem_iff, mem_iff]
    simp only [Std.ExtTreeMap.getElem?_filter', Option.filter_eq_some_iff, List.any_eq_true, decide_eq_true_eq, List.mem_map,
      ← exists_and_right]
  have hun {node : Node} (hn : node ∈ watched) :
      node.id ∈ (q.1.unresolved.filter fun id _ => watched.any fun node => node.id = id) ↔ node.id ∈ q.1.unresolved := by
    rw [hkept, and_iff_left (List.mem_map_of_mem hn)]
  refine ⟨⟨hall.answers.trans hdue.answers, hall.adopted.trans hdue.adopted, fun repo => (hall.of repo).trans (hdue.of repo), fun repo releases h =>
    hall.known repo releases (hdue.known repo releases h)⟩, fun node hn => ?_, fun id hid => ?_, fun id hid => ?_,
    fun question hq key hkey => ?_⟩
  · refine ((hall.taken node hn).before hdue.toGrows (hdue.rows _) (by rw [hdue.unresolved])).after ?_ rfl (hun hn)
    exact ⟨rfl, rfl, fun _ => rfl, fun _ _ h => h⟩
  · exact (hall.rows id hid).trans (hdue.rows id)
  · exact ((hkept id).mp hid).2
  · obtain ⟨wait, hwait, rfl, htarget⟩ := about_questionsOf q.2 question hq key hkey
    rcases hall.waits wait hwait with hin | hin
    · cases hin
    · rw [htarget] at hin
      exact hin

end Refresh

/-! ## What is held -/

theorem allReleased_iff {w : Watch} {id : String} :
    w.allReleased id = true ↔ ∃ rows, w.rows id = some rows ∧ rows ≠ [] ∧ ∀ row ∈ rows, (w.version (id, row.1)).isSome := by
  unfold Watch.allReleased Watch.rows
  cases w.dependencies[id]? with
  | none => simp
  | some ds =>
    cases ds with
    | nil => simp
    | cons d ds =>
      simp only [Option.map_some, Option.some.injEq, exists_eq_left', List.forall_mem_map, List.all_eq_true, Dependency.row]
      simp

/-- a node awaits a release where a row of its set has no version yet -/
theorem awaitsARelease_iff {w : Watch} {id : String} :
    w.awaitsARelease id = true ↔ ∃ rows, w.rows id = some rows ∧ ∃ row ∈ rows, w.version (id, row.1) = none := by
  unfold Watch.awaitsARelease
  rw [Bool.and_eq_true, Bool.not_eq_true', ← Bool.not_eq_true, allReleased_iff]
  cases hds : w.dependencies[id]? with
  | none => simp [Watch.rows, hds]
  | some ds =>
    have hrows : w.rows id = some (ds.map Dependency.row) := by rw [Watch.rows, hds]; rfl
    simp only [hrows, Option.some.injEq, exists_eq_left', not_and, not_forall, exists_prop, Option.not_isSome_iff_eq_none]
    cases ds with
    | nil => simp
    | cons d ds => simp only [ne_eq, List.map_cons, List.cons_ne_nil, not_false_eq_true, true_imp_iff, true_and]

theorem held_iff {reads : Reads} {w : Watch} {watched : List Node} {id : String} :
    id ∈ w.held reads watched ↔
      ∃ node ∈ watched, node.id = id ∧ adoptionOf reads node = .published ∧
        (id ∈ w.unresolved ∨ ∃ rows, w.rows id = some rows ∧ ∃ row ∈ rows, w.version (id, row.1) = none) := by
  simp only [Watch.held, List.mem_map, List.mem_filter, Bool.or_eq_true, decide_eq_true_eq, awaitsARelease_iff]
  constructor
  · rintro ⟨node, ⟨⟨hin, hheld⟩, hpub⟩, rfl⟩
    exact ⟨node, hin, rfl, hpub, hheld⟩
  · rintro ⟨node, hin, rfl, hpub, hheld⟩
    exact ⟨node, ⟨⟨hin, hheld⟩, hpub⟩, rfl⟩

/-! ## Runs -/

/-- a driver taking a run up -/
def Vigil.fresh (host : Host) (state : RunState) : Vigil := { state, watch := .ofRun host state }

/-- whether a node is recorded as waiting for a release with its work done -/
def awaiting (s : RunState) (id : String) : Bool := s.recorded[id]?.any fun r => r.status.awaitsRelease

/-- what may come: any record but one of an arrival, which only the driver telling it writes; an answer to a question the
watch put; and no dispatch stays in flight once its node has settled -/
def Vigil.Allowed (v : Vigil) : Event → Prop
  | .record e => ∀ next note, e.body ≠ .releaseAdopted next note
  | .answered question _ => question ∈ v.asked
  | .adopt _ _ inFlight _ => ∀ node ∈ inFlight, awaiting v.state node.id = false
  | _ => True

/-- what each dependency a node names is awaited by: where it lands, and the target the node consumes it at -/
def «names» (s : RunState) (node : Node) (dep : String) : Option (Option String) × Option String :=
  ((s.graph.get dep).map Node.repo, node.consumes[dep]?)

/-- what stands frozen of a dependency says what its description does -/
def Tells (rows : List (String × Option String)) (dep : String) : Except Unit (Option (Option String)) → Prop
  | .error _ => False
  | .ok none => ∀ target, (dep, target) ∉ rows
  | .ok (some target) => ∀ target', (dep, target') ∈ rows ↔ target' = target

section Latch

variable {host : Host} {wording : Wording} {v : Vigil}

/-- every answer taken up was asked for at the target its node's frozen row names -/
structure Latched (v : Vigil) : Prop where
  one : ∀ (id : String) rows, v.watch.rows id = some rows →
    ∀ dep target target', (dep, target) ∈ rows → (dep, target') ∈ rows → target' = target
  asked : ∀ q ∈ v.asked, ∀ key ∈ q.keys, ∃ rows, v.watch.rows key.1 = some rows ∧ (key.2, q.target) ∈ rows
  heard : ∀ (key : Key) target, (key, target) ∈ v.heard → ∃ rows, v.watch.rows key.1 = some rows ∧ (key.2, target) ∈ rows
  version : ∀ key, (v.watch.version key).isSome ↔ ∃ target, (key, target) ∈ v.heard

/-- a frozen row has its version where its release was heard of at its target -/
theorem Latched.row (h : Latched v) {id : String} {rows : List (String × Option String)} (hrows : v.watch.rows id = some rows)
    {row : String × Option String} (hin : row ∈ rows) :
    (v.watch.version (id, row.1)).isSome ↔ ((id, row.1), row.2) ∈ v.heard := by
  rw [h.version]
  refine ⟨fun ⟨target, hheard⟩ => ?_, fun hheard => ⟨row.2, hheard⟩⟩
  obtain ⟨rows', hrows', hin'⟩ := h.heard _ target hheard
  rw [hrows] at hrows'
  cases hrows'
  rwa [h.one id rows hrows row.1 row.2 target hin hin'] at hheard

/-- nothing was answered about a node whose set is not resolved -/
theorem Latched.unheard (h : Latched v) {id : String} (hrows : v.watch.rows id = none) (dep : String) :
    v.watch.version (id, dep) = none := by
  rw [← Option.not_isSome_iff_eq_none, h.version]
  rintro ⟨target, hheard⟩
  obtain ⟨rows, hsome, _⟩ := h.heard _ target hheard
  rw [hrows] at hsome
  cases hsome

theorem latched_fresh (host : Host) (s : RunState) : Latched (Vigil.fresh host s) where
  one id rows h := by cases h
  asked q h := by cases h
  heard key target h := by cases h
  version key := ⟨fun h => (by cases h), fun ⟨_, h⟩ => (by cases h)⟩

theorem version_takeUp (w : Watch) (keys : List Key) (answer : Answer) (key : Key) :
    ((w.takeUp keys answer).version key).isSome ↔
      (w.version key).isSome ∨ key ∈ keys ∧ answer.version.isSome := by
  have htake : (w.takeUp keys answer).version key =
      if key ∈ keys ∧ (w.version key).isNone then answer.version else w.version key := by
    show (if key ∈ keys ∧ (w.version key).isNone then some answer else w.answers key).bind Answer.version = _
    split_ifs
    · rfl
    · rfl
  rw [htake]
  cases hver : w.version key with
  | some version => simp
  | none =>
    by_cases hin : key ∈ keys
    · simp [hin]
    · simp [hin]

theorem latched_answered (h : Latched v) {question : Question} (hasked : question ∈ v.asked) (answer : Answer) :
    Latched (v.step host wording (.answered question answer)) where
  one := h.one
  asked := h.asked
  heard key target hin := by
    rcases List.mem_append.mp hin with hin | hin
    · exact h.heard key target hin
    · unfold Vigil.hear at hin
      split_ifs at hin
      · obtain ⟨k, hk, heq⟩ := List.mem_map.mp hin
        obtain ⟨rfl, rfl⟩ := Prod.mk.inj heq
        exact h.asked question hasked k hk
      · cases hin
  version key := by
    refine (version_takeUp v.watch question.keys answer key).trans ?_
    simp only [Vigil.step, List.mem_append, exists_or, h.version]
    refine or_congr_right ?_
    unfold Vigil.hear
    split_ifs with ha
    · simp only [ha, and_true, List.mem_map, Prod.mk.injEq]
      exact ⟨fun hin => ⟨question.target, key, hin, rfl, rfl⟩, fun ⟨_, k, hk, heq, _⟩ => heq ▸ hk⟩
    · simp [ha]

theorem nodup_watching (s : RunState) (running : StrSet) : ((watching s running).map Node.id).Nodup :=
  s.graph.nodup_ids.sublist (List.filter_sublist.map Node.id)

theorem refreshed_pass (host : Host) (v : Vigil) (reads : Reads) (running : StrSet) :
    ∃ questions, Refreshed host reads v.state (watching v.state running) v.watch (v.watchReleases host reads running).watch
        questions ∧ (v.watchReleases host reads running).asked = v.asked ++ questions :=
  ⟨_, refreshed host reads v.state v.watch (nodup_watching v.state running), rfl⟩

/-- a pass keeps every row it finds -/
theorem Refreshed.kept {reads : Reads} {s : RunState} {watched : List Node} {w w' : Watch} {questions : List Question}
    (h : Refreshed host reads s watched w w' questions) {id : String} {rows : List (String × Option String)}
    (hrows : w.rows id = some rows) : w'.rows id = some rows := by
  by_cases hin : id ∈ watched.map Node.id
  · obtain ⟨node, hnode, rfl⟩ := List.mem_map.mp hin
    cases h.taken node hnode with
    | stood rows' was now =>
      rw [was] at hrows
      cases hrows
      exact now
    | unread was | froze _ was =>
      rw [was] at hrows
      cases hrows
  · rw [h.rows id hin, hrows]

/-- a row a pass leaves was there, or was frozen by it -/
theorem Refreshed.found {reads : Reads} {s : RunState} {watched : List Node} {w w' : Watch} {questions : List Question}
    (h : Refreshed host reads s watched w w' questions) {id : String} {rows : List (String × Option String)}
    (hrows : w'.rows id = some rows) : w.rows id = some rows ∨ w.rows id = none ∧ ∃ node ∈ watched, node.id = id := by
  cases hwas : w.rows id with
  | some was =>
    rw [h.kept hwas] at hrows
    exact .inl hrows
  | none =>
    by_cases hin : id ∈ watched.map Node.id
    · obtain ⟨node, hnode, hid⟩ := List.mem_map.mp hin
      exact .inr ⟨rfl, node, hnode, hid⟩
    · rw [h.rows id hin, hwas] at hrows
      cases hrows

theorem latched_pass (h : Latched v) (reads : Reads) (running : StrSet) : Latched (v.watchReleases host reads running) := by
  obtain ⟨questions, hpass, hasked⟩ := refreshed_pass host v reads running
  refine ⟨fun id rows hrows => ?_, fun q hq key hkey => ?_, fun key target hheard => ?_, fun key => ?_⟩
  · rcases hpass.found hrows with hrows | ⟨hnone, node, hnode, rfl⟩
    · exact h.one id rows hrows
    · cases hpass.taken node hnode with
      | stood rows' was => rw [was] at hnone; cases hnone
      | unread _ now => rw [now] at hrows; cases hrows
      | froze rows' _ now _ _ mem =>
        rw [now] at hrows
        cases hrows
        intro dep target target' hin hin'
        have hwait := ((mem dep target).mp hin).2
        rw [((mem dep target').mp hin').2] at hwait
        cases hwait
        rfl
  · rw [hasked] at hq
    rcases List.mem_append.mp hq with hq | hq
    · obtain ⟨rows, hrows, hin⟩ := h.asked q hq key hkey
      exact ⟨rows, hpass.kept hrows, hin⟩
    · exact hpass.asked q hq key hkey
  · obtain ⟨rows, hrows, hin⟩ := h.heard key target hheard
    exact ⟨rows, hpass.kept hrows, hin⟩
  · rw [hpass.version]
    exact h.version key

/-- telling a node moves nothing the waits are read from -/
theorem latched_adoptOne (h : Latched v) (stamp : Stamp) (inFlight : List Node) (lever : String → Except String Delivery)
    (ready : String × List Released) : Latched (v.adoptOne host wording stamp inFlight lever ready) := by
  unfold Vigil.adoptOne
  split
  · exact h
  · exact ⟨h.one, h.asked, h.heard, h.version⟩

/-- what each node told keeps, telling them all keeps -/
theorem adoptReleases_induct {I : Vigil → Prop} {stamp : Stamp} {inFlight : List Node} {lever : String → Except String Delivery}
    (hone : ∀ v ready, I v → I (v.adoptOne host wording stamp inFlight lever ready)) (reads : Reads) (h : I v) :
    I (v.adoptReleases host wording stamp reads inFlight lever) := by
  unfold Vigil.adoptReleases
  generalize v.watch.readyToAdopt reads (v.told inFlight) = l
  induction l generalizing v with
  | nil => exact h
  | cons ready l ih => exact ih (hone v ready h)

/-- **Every answer is asked for at its node's own target.** -/
theorem latched_step (h : Latched v) {event : Event} (hev : v.Allowed event) : Latched (v.step host wording event) := by
  cases event with
  | record e => exact ⟨h.one, h.asked, h.heard, h.version⟩
  | answered question answer => exact latched_answered h hev answer
  | pass reads running => exact latched_pass h reads running
  | adopt stamp reads inFlight lever =>
    exact adoptReleases_induct (I := Latched) (fun _ ready h => latched_adoptOne h stamp inFlight lever ready) reads h
  | restart => exact latched_fresh host v.state

end Latch

/-! ## Held on what a node names now -/

section Held

variable {host : Host} {wording : Wording} {v : Vigil}

/-- a dependency a node waits on by its definition as it stands: one that cannot be described, or one that lands elsewhere
and was not answered released at the target the node consumes it at -/
def Vigil.WaitsOn (host : Host) (reads : Reads) (v : Vigil) (node : Node) (dep : String) : Prop :=
  match v.watch.dependency host reads v.state node dep (v.watch.identityOf reads node) with
  | .unreadable _ => True
  | .nothingToAwait => False
  | .outside dependency => ((node.id, dep), dependency.target) ∉ v.heard

/-- a pass holds the watched nodes under published adoption that wait on a dependency they name, and no other of them -/
def Vigil.HoldsExactly (host : Host) (v : Vigil) (reads : Reads) (running : StrSet) : Prop :=
  ∀ node ∈ watching v.state running, adoptionOf reads node = .published →
    (node.id ∈ (v.watchReleases host reads running).watch.held reads (watching v.state running) ↔
      ∃ dep ∈ asksAbout v.state node, v.WaitsOn host reads node dep)

theorem ready_watched {s : RunState} {running : StrSet} {node : Node} (hin : node ∈ s.graph.iter)
    (hready : s.statuses[node.id]? = some .ready) : node ∈ watching s running := by
  refine List.mem_filter.mpr ⟨hin, ?_⟩
  rw [hready]
  rfl

/-- a state after a record that gives no node with a resolved set a dependency, a target or a repository it had not, and
takes none away whose release the node still awaits -/
def Vigil.LeavesResolved (v : Vigil) (state : RunState) : Prop :=
  ∀ (id : String) rows node', v.watch.rows id = some rows → state.graph.get id = some node' →
    ∃ node, v.state.graph.get id = some node ∧ node'.repo = node.repo ∧
      (∀ dep ∈ asksAbout state node', dep ∈ asksAbout v.state node ∧ «names» state node' dep = «names» v.state node dep) ∧
      ∀ row ∈ rows, row.1 ∈ asksAbout v.state node →
        row.1 ∈ asksAbout state node' ∨ (v.watch.version (id, row.1)).isSome

/-- what every step keeps of the waits: a record leaves the resolved ones as they are, and a pass reads the repository of a
node it resolves and finds another run's ledger saying what it said -/
def Vigil.Steady (host : Host) (v : Vigil) : Event → Prop
  | .record e => v.LeavesResolved (RunState.foldRecord host v.state e)
  | .pass reads running => ∀ node ∈ watching v.state running,
    match v.watch.rows node.id with
    | none => ∀ repo, node.repo = some repo → ∃ releases, v.watch.of reads repo = .ok releases
    | some rows => ∀ dep ∈ asksAbout v.state node, isCrossDag dep →
      Tells rows dep (v.watch.awaited host reads v.state node dep)
  | _ => True

/-- what stands frozen of every resolved node is what its definition describes -/
def Framed (host : Host) (v : Vigil) : Prop :=
  ∀ (id : String) rows, v.watch.rows id = some rows → id ∉ v.watch.unresolved ∧
    ∀ node, v.state.graph.get id = some node →
      (∀ reads, ∀ dep ∈ asksAbout v.state node, crossDagParse dep = none →
        Tells rows dep (v.watch.awaited host reads v.state node dep)) ∧
      ∀ row ∈ rows, row.1 ∈ asksAbout v.state node ∨ (v.watch.version (id, row.1)).isSome

theorem framed_fresh (host : Host) (s : RunState) : Framed host (Vigil.fresh host s) := fun id rows h => by cases h

theorem framed_record (h : Framed host v) {state : RunState} (hleaves : v.LeavesResolved state) :
    Framed host { v with state } := by
  intro id rows hrows
  refine ⟨(h id rows hrows).1, fun node' hget => ?_⟩
  obtain ⟨node, hwas, hrepo, hdeps, hrow⟩ := hleaves id rows node' hrows hget
  obtain ⟨htells, hasked⟩ := (h id rows hrows).2 node hwas
  refine ⟨fun reads dep hin hdep => ?_, fun row hin => ?_⟩
  · obtain ⟨hin, hnames⟩ := hdeps dep hin
    have hmine : v.watch.identityOf reads node' = v.watch.identityOf reads node := by
      simp only [Watch.identityOf, hrepo]
    have hsame : v.watch.awaited host reads state node' dep = v.watch.awaited host reads v.state node dep := by
      obtain ⟨hlands, hnamed⟩ := Prod.mk.inj hnames
      rw [Watch.awaited, Watch.awaited, wait_dependency hdep, wait_dependency hdep, hmine, hlands, hnamed]
    show Tells rows dep (v.watch.awaited host reads state node' dep)
    rw [hsame]
    exact htells reads dep hin hdep
  · rcases hasked row hin with hin' | hver
    · exact hrow row hin hin'
    · exact .inr hver

/-- the record of an arrival is kept, and changes a node's note and status at most -/
theorem foldRecord_adoptedRecord (s : RunState) (stamp : Stamp) (node : String) (delivery : Delivery)
    (released : List Released) :
    RunState.foldRecord host s (Vigil.adoptedRecord host wording stamp node delivery released) =
      let s1 := { s with recalled := s.recalled ++ [Vigil.adoptedRecord host wording stamp node delivery released] }
      match delivery, arrivalNote host wording released with
      | .deferred, some note => s1.foldReleaseAdopted node note
      | _, _ => s1 := by
  cases delivery with
  | live => rfl
  | deferred =>
    cases hnote : arrivalNote host wording released with
    | none => simp [RunState.foldRecord, Vigil.adoptedRecord, Stamp.envelope, writtenAtAKnownVersion, envelopeVersionsRead,
        RunState.foldPipeline, RunState.kept, RunState.recalledWhole, hnote]
    | some note => simp [RunState.foldRecord, Vigil.adoptedRecord, Stamp.envelope, writtenAtAKnownVersion,
        envelopeVersionsRead, RunState.foldPipeline, RunState.kept, RunState.recalledWhole, hnote]

/-- a change of a node that touches nothing its waits are described from -/
structure SameWaits (n n' : Node) : Prop where
  id : n'.id = n.id
  repo : n'.repo = n.repo
  deps : n'.deps = n.deps
  consumes : n'.consumes = n.consumes

theorem leavesResolved_of_same {state : RunState} (hplan : state.plan = v.state.plan)
    (hsup : state.superseded = v.state.superseded)
    (hget : ∀ id, ∃ f : Node → Node, state.graph.get id = (v.state.graph.get id).map f ∧ ∀ n, SameWaits n (f n)) :
    v.LeavesResolved state := by
  intro id rows node' hrows hnode'
  obtain ⟨f, hf, hsame⟩ := hget id
  rw [hf, Option.map_eq_some_iff] at hnode'
  obtain ⟨node, hnode, rfl⟩ := hnode'
  have hasks : asksAbout state (f node) = asksAbout v.state node := by
    simp only [asksAbout, isExportEdge, hplan, hsup, (hsame node).deps, (hsame node).id]
  refine ⟨node, hnode, (hsame node).repo, fun dep hin => ?_, fun row _ hin => .inl (by rw [hasks]; exact hin)⟩
  rw [hasks] at hin
  refine ⟨hin, Prod.ext ?_ ?_⟩
  · obtain ⟨g, hg, hgsame⟩ := hget dep
    show (state.graph.get dep).map Node.repo = (v.state.graph.get dep).map Node.repo
    rw [hg, Option.map_map]
    refine congrArg (Option.map · _) (funext fun n => (hgsame n).repo)
  · show (f node).consumes[dep]? = node.consumes[dep]?
    rw [(hsame node).consumes]

theorem leavesResolved_adoptedRecord (v : Vigil) (stamp : Stamp) (node : String) (delivery : Delivery)
    (released : List Released) :
    v.LeavesResolved (RunState.foldRecord host v.state (Vigil.adoptedRecord host wording stamp node delivery released)) := by
  rw [foldRecord_adoptedRecord]
  dsimp only
  split
  · rename_i note _
    refine leavesResolved_of_same rfl rfl fun id => ?_
    by_cases hid : id = node
    · refine ⟨fun n => { n with context := some note }, ?_, fun n => ⟨rfl, rfl, rfl, rfl⟩⟩
      rw [RunState.foldReleaseAdopted, Graph.get_modify, if_pos hid]
    · refine ⟨fun n => n, ?_, fun n => ⟨rfl, rfl, rfl, rfl⟩⟩
      rw [RunState.foldReleaseAdopted, Graph.get_modify, if_neg hid, Option.map_id_fun']
      rfl
  · exact leavesResolved_of_same rfl rfl fun id => ⟨fun n => n, by rw [Option.map_id_fun']; rfl, fun n => ⟨rfl, rfl, rfl, rfl⟩⟩

theorem framed_adoptOne (h : Framed host v) (stamp : Stamp) (inFlight : List Node) (lever : String → Except String Delivery)
    (ready : String × List Released) : Framed host (v.adoptOne host wording stamp inFlight lever ready) := by
  unfold Vigil.adoptOne
  split
  · exact h
  · exact framed_record h (leavesResolved_adoptedRecord v stamp ready.1 _ ready.2)

/-- what a frozen set tells of a dependency, read off the pass that froze it -/
theorem tells_of_mem {rows : List (String × Option String)} {dep : String} {waited : Except Unit (Option (Option String))}
    (hok : waited ≠ .error ()) (hmem : ∀ target, (dep, target) ∈ rows ↔ waited = .ok (some target)) : Tells rows dep waited := by
  match waited with
  | .error () => exact hok rfl
  | .ok none => exact fun target hin => by cases (hmem target).mp hin
  | .ok (some target) =>
    intro target'
    rw [hmem]
    exact ⟨fun h => by cases h; rfl, fun h => by rw [h]⟩

theorem framed_pass (h : Framed host v) {reads : Reads} {running : StrSet} (hsteady : v.Steady host (.pass reads running)) :
    Framed host (v.watchReleases host reads running) := by
  obtain ⟨questions, hpass, -⟩ := refreshed_pass host v reads running
  have hstate : (v.watchReleases host reads running).state = v.state := rfl
  generalize (v.watchReleases host reads running) = v' at hpass hstate
  intro id rows hrows
  rcases hpass.found hrows with hwas | ⟨hnone, node, hnode, rfl⟩
  · obtain ⟨hun, hframe⟩ := h id rows hwas
    constructor
    · intro hin
      obtain ⟨node, hnode, rfl⟩ := List.mem_map.mp (hpass.unresolved id hin)
      cases hpass.taken node hnode with
      | stood _ _ _ unresolved => exact hun (unresolved.mp hin)
      | unread was | froze _ was => rw [was] at hwas; cases hwas
    · rw [hstate]
      intro node hget
      obtain ⟨htells, hasked⟩ := hframe node hget
      refine ⟨fun reads' dep hin hdep => ?_, fun row hin => ?_⟩
      · -- what is known now was known, or is as if these reads had answered it then
        have hof (repo : String) : v'.watch.of reads' repo = v.watch.of { reads' with releases := v'.watch.of reads' } repo := by
          cases hk : v.watch.known[repo]? with
          | some releases => rw [of_known hk, of_known (hpass.known repo releases hk)]
          | none => simp only [Watch.of, hk]
        rw [awaited_congr hdep (fun repo _ => hof repo) fun repo _ => hof repo]
        exact htells _ dep hin hdep
      · rw [hpass.version]
        exact hasked row hin
  · cases hpass.taken node hnode with
    | stood rows' was => rw [was] at hnone; cases hnone
    | unread _ now => rw [now] at hrows; cases hrows
    | froze rows' _ now unresolved described mem known =>
      rw [now] at hrows
      cases hrows
      refine ⟨unresolved, fun node' hget => ?_⟩
      rw [hstate] at hget ⊢
      have hin := (List.mem_filter.mp hnode).1
      rw [Graph.get_of_mem hin] at hget
      cases hget
      have hread := hsteady node hnode
      rw [hnone] at hread
      have hknown {repo : String} (hconsulted : node.repo = some repo ∨ ∃ dep ∈ asksAbout v.state node,
          landsIn reads v.state dep = some repo) (hok : ∃ releases, v.watch.of reads repo = .ok releases) (reads' : Reads) :
          v'.watch.of reads' repo = v.watch.of reads repo := by
        obtain ⟨releases, hok⟩ := hok
        rw [of_known (known repo releases hconsulted hok), hok]
      refine ⟨fun reads' dep hdepin hdep => ?_, fun row hrow => .inl ((mem row.1 row.2).mp hrow).1⟩
      have hlands (repo : String) (hrepo : (v.state.graph.get dep).map Node.repo = some (some repo)) :
          v'.watch.of reads' repo = v.watch.of reads repo := by
        refine hknown (.inr ⟨dep, hdepin, ?_⟩) ?_ reads'
        · simp only [landsIn, hdep]
          cases hget : v.state.graph.get dep with
          | none => rw [hget] at hrepo; cases hrepo
          | some upstream => rw [hget] at hrepo; exact Option.some.inj hrepo
        · -- a repository that could not be read leaves its dependency without a description
          cases hof : v.watch.of reads repo with
          | ok releases => exact ⟨releases, rfl⟩
          | error why =>
            refine absurd ?_ (described dep hdepin)
            rw [Watch.awaited, wait_dependency hdep, hrepo, waitOf, hof]
      rw [awaited_congr hdep (fun repo hrepo => hknown (.inl hrepo) (hread repo hrepo) reads') hlands]
      exact tells_of_mem (described dep hdepin) fun target => by rw [mem, and_iff_right hdepin]

theorem framed_step (h : Framed host v) {event : Event} (hsteady : v.Steady host event) :
    Framed host (v.step host wording event) := by
  cases event with
  | record e => exact framed_record h hsteady
  | answered question answer =>
    intro id rows hrows
    obtain ⟨hun, hframe⟩ := h id rows hrows
    refine ⟨hun, fun node hget => ⟨(hframe node hget).1, fun row hin => ?_⟩⟩
    rcases (hframe node hget).2 row hin with hin | hver
    · exact .inl hin
    · exact .inr ((version_takeUp _ _ _ _).mpr (.inl hver))
  | pass reads running => exact framed_pass h hsteady
  | adopt stamp reads inFlight lever =>
    exact adoptReleases_induct (I := Framed host) (fun _ ready h => framed_adoptOne h stamp inFlight lever ready) reads h
  | restart => exact framed_fresh host v.state

theorem waitsOn_iff {reads : Reads} {node : Node} {dep : String} :
    v.WaitsOn host reads node dep ↔ v.watch.awaited host reads v.state node dep = .error () ∨
      ∃ target, v.watch.awaited host reads v.state node dep = .ok (some target) ∧ ((node.id, dep), target) ∉ v.heard := by
  unfold Vigil.WaitsOn Watch.awaited
  cases v.watch.dependency host reads v.state node dep (v.watch.identityOf reads node) with
  | nothingToAwait => simp [Resolution.wait]
  | outside d => simp [Resolution.wait]
  | unreadable reason => simp [Resolution.wait]

theorem Tells.awaited {rows : List (String × Option String)} {dep : String} {waited : Except Unit (Option (Option String))}
    (h : Tells rows dep waited) : waited ≠ .error () ∧ ∀ target, (dep, target) ∈ rows ↔ waited = .ok (some target) := by
  match waited with
  | .ok none => exact ⟨fun h => (by cases h), fun target => ⟨fun hin => absurd hin (h target), fun heq => (by cases heq)⟩⟩
  | .ok (some t) =>
    refine ⟨fun h => (by cases h), fun target => (h target).trans ⟨fun heq => by rw [heq], fun heq => ?_⟩⟩
    cases heq
    rfl

/-- what a node's frozen set tells of each dependency it names, on a pass that finds other ledgers as they were -/
theorem Framed.tells (h : Framed host v) {reads : Reads} {running : StrSet} (hsteady : v.Steady host (.pass reads running))
    {node : Node} (hnode : node ∈ watching v.state running) {rows : List (String × Option String)}
    (hrows : v.watch.rows node.id = some rows) {dep : String} (hin : dep ∈ asksAbout v.state node) :
    Tells rows dep (v.watch.awaited host reads v.state node dep) := by
  cases hdep : crossDagParse dep with
  | none =>
    have hget := Graph.get_of_mem (List.mem_filter.mp hnode).1
    exact ((h node.id rows hrows).2 node hget).1 reads dep hin hdep
  | some named =>
    have hpass := hsteady node hnode
    rw [hrows] at hpass
    exact hpass dep hin (by rw [isCrossDag, hdep]; rfl)

/-- **One pass holds what its nodes wait on.** -/
theorem holdsExactly_pass (hl : Latched v) (hf : Framed host v) {reads : Reads} {running : StrSet}
    (hsteady : v.Steady host (.pass reads running)) : v.HoldsExactly host reads running := by
  intro node hnode hpub
  obtain ⟨questions, hpass, -⟩ := refreshed_pass host v reads running
  generalize (v.watchReleases host reads running).watch = w' at hpass
  have hheld : node.id ∈ w'.held reads (watching v.state running) ↔
      node.id ∈ w'.unresolved ∨ ∃ rows, w'.rows node.id = some rows ∧ ∃ row ∈ rows, w'.version (node.id, row.1) = none := by
    rw [held_iff]
    exact ⟨fun ⟨_, _, _, _, h⟩ => h, fun h => ⟨node, hnode, rfl, hpub, h⟩⟩
  simp only [hheld, hpass.version, waitsOn_iff]
  cases hpass.taken node hnode with
  | stood rows was now unresolved =>
    have hun : node.id ∉ w'.unresolved := mt unresolved.mp (hf node.id rows was).1
    have hget := Graph.get_of_mem (List.mem_filter.mp hnode).1
    rw [or_iff_right hun, now]
    constructor
    · rintro ⟨_, heq, row, hrow, hver⟩
      cases heq
      rcases ((hf node.id rows was).2 node hget).2 row hrow with hin | hsome
      · refine ⟨row.1, hin, .inr ⟨row.2, ?_, fun hheard => ?_⟩⟩
        · exact ((hf.tells hsteady hnode was hin).awaited.2 row.2).mp hrow
        · rw [← hl.row was hrow, hver] at hheard
          cases hheard
      · rw [hver] at hsome
        cases hsome
    · rintro ⟨dep, hin, herr | ⟨target, hwait, hheard⟩⟩
      · exact absurd herr (hf.tells hsteady hnode was hin).awaited.1
      · have hrow := ((hf.tells hsteady hnode was hin).awaited.2 target).mpr hwait
        refine ⟨rows, rfl, (dep, target), hrow, ?_⟩
        rw [← Option.not_isSome_iff_eq_none, hl.row was hrow]
        exact hheard
  | unread was now unresolved unread =>
    obtain ⟨dep, hin, herr⟩ := unread
    exact ⟨fun _ => ⟨dep, hin, .inl herr⟩, fun _ => .inl unresolved⟩
  | froze rows was now unresolved described mem known =>
    rw [or_iff_right unresolved, now]
    constructor
    · rintro ⟨_, heq, row, hrow, -⟩
      cases heq
      obtain ⟨hin, hwait⟩ := (mem row.1 row.2).mp hrow
      refine ⟨row.1, hin, .inr ⟨row.2, hwait, fun hheard => ?_⟩⟩
      obtain ⟨rows', hrows', -⟩ := hl.heard _ _ hheard
      rw [was] at hrows'
      cases hrows'
    · rintro ⟨dep, hin, herr | ⟨target, hwait, -⟩⟩
      · exact absurd herr (described dep hin)
      · exact ⟨rows, rfl, (dep, target), (mem dep target).mpr ⟨hin, hwait⟩, hl.unheard was dep⟩

/-- **Published adoption.** In a run none of whose records moves what a node with a resolved set waits on, and each of whose
passes reads what it resolves, every pass holds a node under published adoption exactly when a dependency the node names
could not be described, or lands elsewhere and was not answered released at the target the node consumes it at. -/
theorem held_exactly (host : Host) (wording : Wording) (s : RunState) (events : List Event) (reads : Reads)
    (running : StrSet)
    (hrun : Admits (Vigil.step host wording) (fun v event => v.Allowed event ∧ v.Steady host event) (Vigil.fresh host s)
      (events ++ [.pass reads running])) :
    (events.foldl (Vigil.step host wording) (Vigil.fresh host s)).HoldsExactly host reads running := by
  obtain ⟨hbefore, ⟨-, hsteady⟩, -⟩ := Admits.append.mp hrun
  have hinv : Latched (events.foldl (Vigil.step host wording) (Vigil.fresh host s)) ∧
      Framed host (events.foldl (Vigil.step host wording) (Vigil.fresh host s)) :=
    hbefore.invariant (I := fun v => Latched v ∧ Framed host v)
      (fun v event h hev => ⟨latched_step h.1 hev.1, framed_step h.2 hev.2⟩) ⟨latched_fresh host s, framed_fresh host s⟩
  exact holdsExactly_pass hinv.1 hinv.2 hsteady

end Held

/-! ## A hold on nothing -/

/-- one node landing in a repository of its own, and one that waits for its release -/
def acrossTwo : Plan :=
  Plan.ofNodes
    [{ Node.direct "d" [] with repo := some "up", title := some "feat: it" },
      { Node.direct "n" ["d"] with
        repo := some "down", title := some "feat: it", adoption := some ⟨.str "published", rfl⟩ }]

/-- every repository releases one target -/
def oneTarget : Reads where
  run := "r"
  releases repo := .ok { identity := repo, targets := [⟨"t", .automated⟩], select := fun _ => some ⟨"t", .automated⟩ }

def upSettled : List Event :=
  [.record (.own 1 (some "d") (.nodeDispatched .unstated)),
    .record (.own 2 (some "d") (.nodeSettled { status := some .done, branch := some "b" }))]

def unworded : Wording := { isTarget := fun _ => true, note := fun _ => "" }

def watchedAcross (events : List Event) : Vigil :=
  events.foldl (Vigil.step .lenient unworded) (.fresh .lenient (.started acrossTwo))

/-- the waiting node is held, and is then given other dependencies -/
def reparentedOff : List Event :=
  upSettled ++ [.pass oneTarget ∅,
    .record (.own 3 none (.editCommitted (some (RunState.operationsOf .lenient (watchedAcross upSettled).state
      (.reparent "n" [])))))]

/-- what a driver's own steps may be: its records are the ones it appends -/
def Vigil.Driven (host : Host) (v : Vigil) (event : Event) : Prop :=
  v.Allowed event ∧ ∀ e, event = .record e → v.state.Appends host e

theorem reparentedOff_driven :
    Admits (Vigil.step .lenient unworded) (Vigil.Driven .lenient) (.fresh .lenient (.started acrossTwo))
      (reparentedOff ++ [.pass oneTarget ∅]) := by
  have hcompiled : (watchedAcross upSettled).state.Compiled .lenient _ :=
    RunState.compiled_operationsOf (.reparent "n" []) (by decide)
  refine ⟨⟨fun _ _ h => (by cases h), fun e he => (by cases he; trivial)⟩,
    ⟨fun _ _ h => (by cases h), fun e he => (by cases he; trivial)⟩, ⟨trivial, fun e he => (by cases he)⟩,
    ⟨fun _ _ h => (by cases h), fun e he => ?_⟩, ⟨trivial, fun e he => (by cases he)⟩, trivial⟩
  cases he
  exact hcompiled

/-- **A hold on nothing.** A node held for its dependency's release is held on after an edit takes the dependency away. -/
theorem held_on_nothing :
    ¬∀ (host : Host) (wording : Wording) (s : RunState) (events : List Event) (reads : Reads) (running : StrSet),
      Admits (Vigil.step host wording) (Vigil.Driven host) (Vigil.fresh host s) (events ++ [.pass reads running]) →
        (events.foldl (Vigil.step host wording) (Vigil.fresh host s)).HoldsExactly host reads running := by
  intro hall
  have hexact : (watchedAcross reparentedOff).HoldsExactly .lenient oneTarget ∅ := hall _ _ _ _ _ _ reparentedOff_driven
  have hheld : "n" ∈ ((watchedAcross reparentedOff).watchReleases .lenient oneTarget ∅).watch.held oneTarget
      (watching (watchedAcross reparentedOff).state ∅) := by
    decide
  have hdeps : ((watching (watchedAcross reparentedOff).state ∅).all fun node =>
      asksAbout (watchedAcross reparentedOff).state node = []) = true := by
    decide
  obtain ⟨node, hnode, hid, hpub, -⟩ := held_iff.mp hheld
  rw [← hid] at hheld
  obtain ⟨dep, hdep, -⟩ := (hexact node hnode hpub).mp hheld
  have hnone : asksAbout (watchedAcross reparentedOff).state node = [] :=
    of_decide_eq_true (List.all_eq_true.mp hdeps node hnode)
  rw [hnone] at hdep
  cases hdep

theorem oneTarget_of (w : Watch) (repo : String) : ∃ releases, w.of oneTarget repo = .ok releases := by
  unfold Watch.of
  split
  · exact ⟨_, rfl⟩
  · exact ⟨_, rfl⟩

/-- the waiting node, on the pass that finds it ready -/
theorem held_across :
    (watchedAcross upSettled).HoldsExactly .lenient oneTarget ∅ := by
  refine held_exactly .lenient unworded (.started acrossTwo) upSettled oneTarget ∅ ?_
  refine ⟨⟨fun _ _ h => (by cases h), fun id rows _ h => (by cases h)⟩,
    ⟨fun _ _ h => (by cases h), fun id rows _ h => (by cases h)⟩, ⟨trivial, fun node _ repo _ => oneTarget_of _ repo⟩, trivial⟩

end OnePipeline.Release
