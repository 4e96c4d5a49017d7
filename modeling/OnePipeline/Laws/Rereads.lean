/-
A held node is released by its own read (`src/unanswered.rs`: `take_up`, `hold_after`; `src/taskgraph.rs`: `reread`).

A read that fails outright ends the pass it is in, so that pass releases no node (`failed_read_holds_others`).

Results:
- `reread_ok`: which nodes a pass answers of, and what it says of each;
- `reread_error`: what a pass fails on;
- `released_by_own_read`: which nodes a taking up releases, whatever is answered of the others.
-/
import OnePipeline.Laws.Sources
import OnePipeline.Model.Rereads

namespace OnePipeline.Sources

open Std

variable {nodes : List Node} {read : Node → Option (Except String Reread)} {asked : List (String × List String)}

/-! ## A pass -/

/-- whether a source a node is held on refused a read of an earlier one -/
def PassedOver (answer : StrMap Reread) (node : String) (heldOn : List String) : Prop :=
  ∃ m r, compare m node = .lt ∧ answer[m]? = some r ∧ ∃ u ∈ r.unanswered, u.name ∈ heldOn

/-- what a pass has read so far, and the sources that refused it -/
structure ReadSoFar (nodes : List Node) (read : Node → Option (Except String Reread)) (asked : List (String × List String))
    (s : StrMap Reread × List String) : Prop where
  refused : ∀ source, source ∈ s.2 ↔ ∃ (m : String) (r : Reread), s.1[m]? = some r ∧ ∃ u ∈ r.unanswered, u.name = source
  answers : ∀ node r, s.1[node]? = some r ↔ ∃ heldOn n, (node, heldOn) ∈ asked ∧ (nodes.find? fun n => n.id = node) = some n ∧
    read n = some (.ok r) ∧ ¬PassedOver s.1 node heldOn
  failures : ∀ node heldOn n why, (node, heldOn) ∈ asked → (nodes.find? fun n => n.id = node) = some n →
    read n = some (.error why) → PassedOver s.1 node heldOn

theorem ReadSoFar.nil : ReadSoFar nodes read [] (∅, []) where
  refused source := by simp
  answers node r := by simp
  failures _ _ _ _ h := by cases h

variable {s s' : StrMap Reread × List String} {node : String} {heldOn : List String}

theorem ReadSoFar.key (h : ReadSoFar nodes read asked s) {m : String} {r : Reread} (hm : s.1[m]? = some r) : ∃ heldOn, (m, heldOn) ∈ asked := by
  obtain ⟨heldOn, n, hin, -⟩ := (h.answers m r).mp hm
  exact ⟨heldOn, hin⟩

/-- whether a node last in order is passed over is whether a source it is held on refused -/
theorem ReadSoFar.passedOver_last (h : ReadSoFar nodes read asked s) (hlast : ∀ p ∈ asked, compare p.1 node = .lt) :
    PassedOver s.1 node heldOn ↔ (heldOn.any fun source => source ∈ s.2) = true := by
  rw [List.any_eq_true]
  constructor
  · rintro ⟨m, r, -, hm, u, hu, hname⟩
    exact ⟨u.name, hname, decide_eq_true ((h.refused u.name).mpr ⟨m, r, hm, u, hu, rfl⟩)⟩
  · rintro ⟨source, hsource, hrefused⟩
    obtain ⟨m, r, hm, u, hu, rfl⟩ := (h.refused source).mp (of_decide_eq_true hrefused)
    obtain ⟨heldOn', hin⟩ := h.key hm
    exact ⟨m, r, hlast _ hin, hm, u, hu, hsource⟩

/-- a node read after others changes nothing of which of them were passed over -/
theorem passedOver_insert (answer : StrMap Reread) {last m : String} (hlast : compare m last = .lt) (r : Reread) (heldOn : List String) :
    PassedOver (answer.insert last r) m heldOn ↔ PassedOver answer m heldOn := by
  refine exists_congr fun k => exists_congr fun r' => and_congr_right fun hk => ?_
  have hne : k ≠ last := by
    rintro rfl
    rw [OrientedOrd.eq_swap, hlast] at hk
    cases hk
  rw [Maps.get_insert, if_neg hne]

theorem ReadSoFar.skip (h : ReadSoFar nodes read asked s) (hlast : ∀ p ∈ asked, compare p.1 node = .lt)
    (hskip : ∀ n, (nodes.find? fun n => n.id = node) = some n → ∀ result, read n = some result → PassedOver s.1 node heldOn) :
    ReadSoFar nodes read (asked ++ [(node, heldOn)]) s where
  refused := h.refused
  answers m r := by
    rw [h.answers]
    refine exists_congr fun held => exists_congr fun n => ?_
    constructor
    · rintro ⟨hin, hrest⟩
      exact ⟨List.mem_append_left _ hin, hrest⟩
    · rintro ⟨hin, hfind, hread, hpassed⟩
      obtain hin | hin := List.mem_append.mp hin
      · exact ⟨hin, hfind, hread, hpassed⟩
      · obtain ⟨rfl, rfl⟩ := Prod.mk.inj (List.mem_singleton.mp hin)
        exact absurd (hskip n hfind _ hread) hpassed
  failures m held n why hin hfind hread := by
    obtain hin | hin := List.mem_append.mp hin
    · exact h.failures m held n why hin hfind hread
    · obtain ⟨rfl, rfl⟩ := Prod.mk.inj (List.mem_singleton.mp hin)
      exact hskip n hfind _ hread

/-- a node not passed over is read, and what it says is its own -/
theorem ReadSoFar.insert (h : ReadSoFar nodes read asked s) (hlast : ∀ p ∈ asked, compare p.1 node = .lt) {n : Node} {r : Reread}
    (hfind : (nodes.find? fun n => n.id = node) = some n) (hread : read n = some (.ok r)) (hpassed : ¬PassedOver s.1 node heldOn) :
    ReadSoFar nodes read (asked ++ [(node, heldOn)]) (s.1.insert node r, s.2 ++ r.unanswered.map Unanswered.name) := by
  have hself : compare node node ≠ .lt := by
    rw [ReflOrd.compare_self]
    exact nofun
  have hne {m : String} {held : List String} (hin : (m, held) ∈ asked) : m ≠ node := by
    rintro rfl
    exact hself (hlast _ hin)
  have hfresh : s.1[node]? = none := by
    cases hat : s.1[node]? with
    | none => rfl
    | some r' =>
      obtain ⟨held, hin⟩ := h.key hat
      exact absurd rfl (hne hin)
  -- the new node is not earlier than itself
  have hown : PassedOver (s.1.insert node r) node heldOn ↔ PassedOver s.1 node heldOn := by
    refine exists_congr fun k => exists_congr fun r' => and_congr_right fun hk => ?_
    rw [Maps.get_insert, if_neg (by rintro rfl; exact hself hk)]
  refine ⟨fun source => ?_, fun m r' => ?_, fun m held n' why hin hfind' hread' => ?_⟩
  · show source ∈ s.2 ++ r.unanswered.map Unanswered.name ↔ ∃ (m : String) (r' : Reread), (s.1.insert node r)[m]? = some r' ∧ _
    rw [List.mem_append, h.refused, List.mem_map]
    constructor
    · rintro (⟨m, r', hm, hrest⟩ | hrest)
      · refine ⟨m, r', ?_, hrest⟩
        obtain ⟨held, hin⟩ := h.key hm
        rw [Maps.get_insert, if_neg (hne hin), hm]
      · exact ⟨node, r, by rw [Maps.get_insert, if_pos rfl], hrest⟩
    · rintro ⟨m, r', hm, hrest⟩
      rw [Maps.get_insert] at hm
      split_ifs at hm with heq
      · cases hm
        exact .inr hrest
      · exact .inl ⟨m, r', hm, hrest⟩
  · show (s.1.insert node r)[m]? = some r' ↔ _
    rw [Maps.get_insert]
    split_ifs with heq
    · subst heq
      constructor
      · intro hsame
        cases hsame
        exact ⟨heldOn, n, by simp, hfind, hread, fun hpass => hpassed (hown.mp hpass)⟩
      · rintro ⟨held, n', hin, hfind', hread', -⟩
        cases hfind.symm.trans hfind'
        cases hread.symm.trans hread'
        rfl
    · rw [h.answers]
      refine exists_congr fun held => exists_congr fun n' => ?_
      have hin : (m, held) ∈ asked ++ [(node, heldOn)] ↔ (m, held) ∈ asked := by
        rw [List.mem_append, List.mem_singleton, Prod.mk.injEq]
        exact or_iff_left fun hsame => heq hsame.1
      rw [hin]
      refine and_congr_right fun hmem => ?_
      rw [passedOver_insert s.1 (hlast _ hmem)]
  · obtain hin | hin := List.mem_append.mp hin
    · exact (passedOver_insert s.1 (hlast _ hin) r held).mpr (h.failures m held n' why hin hfind' hread')
    · obtain ⟨rfl, rfl⟩ := Prod.mk.inj (List.mem_singleton.mp hin)
      cases hfind.symm.trans hfind'
      cases hread.symm.trans hread'

/-- **One node.** Reading a node later in order than those read keeps what a pass says of them. -/
theorem rereadNode_ok (h : ReadSoFar nodes read asked s) (hlast : ∀ p ∈ asked, compare p.1 node = .lt)
    (hstep : rereadNode nodes read s (node, heldOn) = .ok s') : ReadSoFar nodes read (asked ++ [(node, heldOn)]) s' := by
  unfold rereadNode at hstep
  cases hfind : nodes.find? fun n => n.id = node with
  | none =>
    simp only [hfind, Except.ok.injEq] at hstep
    exact hstep ▸ h.skip hlast fun n hn => nomatch hfind.symm.trans hn
  | some n =>
    simp only [hfind] at hstep
    split_ifs at hstep with hrefused
    · cases hstep
      exact h.skip hlast fun _ _ _ _ => (h.passedOver_last hlast).mpr hrefused
    · cases hread : read n with
      | none =>
        simp only [hread, Except.ok.injEq] at hstep
        refine hstep ▸ h.skip hlast fun n' hn' result hresult => ?_
        cases hfind.symm.trans hn'
        cases hread.symm.trans hresult
      | some result =>
        cases result with
        | error why =>
          simp only [hread] at hstep
          cases hstep
        | ok r =>
          simp only [hread, Except.ok.injEq] at hstep
          exact hstep ▸ h.insert hlast hfind hread fun hpass => hrefused ((h.passedOver_last hlast).mp hpass)

theorem rereadNode_error {p : String × List String} {why : String} (hstep : rereadNode nodes read s p = .error why) :
    ∃ n, (nodes.find? fun n => n.id = p.1) = some n ∧ read n = some (.error why) := by
  unfold rereadNode at hstep
  cases hfind : nodes.find? fun n => n.id = p.1 with
  | none => simp [hfind] at hstep
  | some n =>
    simp only [hfind] at hstep
    split_ifs at hstep
    cases hread : read n with
    | none => simp [hread] at hstep
    | some result =>
      cases result with
      | ok r => simp [hread] at hstep
      | error why' =>
        simp only [hread, Except.error.injEq] at hstep
        exact ⟨n, rfl, by rw [hread, hstep]⟩

theorem foldlM_ok (hordered : asked.Pairwise fun p q => compare p.1 q.1 = .lt)
    (h : asked.foldlM (rereadNode nodes read) (∅, []) = .ok s) : ReadSoFar nodes read asked s := by
  induction asked using List.reverseRecOn generalizing s with
  | nil =>
    cases h
    exact .nil
  | append_singleton asked p ih =>
    rw [List.foldlM_append] at h
    obtain ⟨before, hbefore, hstep⟩ := Checks.bind_eq_ok.mp h
    obtain ⟨after, hafter, hsame⟩ := Checks.bind_eq_ok.mp hstep
    cases hsame
    obtain ⟨hfront, -, hlast⟩ := List.pairwise_append.mp hordered
    exact rereadNode_ok (ih hfront hbefore) (fun q hq => hlast q hq p List.mem_cons_self) hafter

theorem foldlM_error {why : String} (h : asked.foldlM (rereadNode nodes read) s = .error why) :
    ∃ p ∈ asked, ∃ n, (nodes.find? fun n => n.id = p.1) = some n ∧ read n = some (.error why) := by
  induction asked generalizing s with
  | nil => cases h
  | cons p asked ih =>
    rw [List.foldlM_cons] at h
    cases hstep : rereadNode nodes read s p with
    | error why' =>
      rw [hstep] at h
      cases h
      exact ⟨p, List.mem_cons_self, rereadNode_error hstep⟩
    | ok s' =>
      rw [hstep] at h
      obtain ⟨q, hq, hread⟩ := ih h
      exact ⟨q, List.mem_cons_of_mem _ hq, hread⟩

/-- what a pass answers: of each node asked about that it does not pass over, what the node's own read says -/
theorem reread_ok {asked : StrMap (List String)} {answer : StrMap Reread} (h : reread nodes asked read = .ok answer) (node : String)
    (r : Reread) : answer[node]? = some r ↔ ∃ heldOn n, asked[node]? = some heldOn ∧ (nodes.find? fun n => n.id = node) = some n ∧
      read n = some (.ok r) ∧ ¬PassedOver answer node heldOn := by
  unfold reread at h
  obtain ⟨⟨answer', refused⟩, hfold, rfl⟩ := Checks.map_eq_ok.mp h
  rw [(foldlM_ok ExtTreeMap.ordered_keys_toList hfold).answers]
  exact exists_congr fun heldOn => exists_congr fun n => and_congr_left' ExtTreeMap.mem_toList_iff_getElem?_eq_some

/-- a pass fails on a read of a node asked about -/
theorem reread_error {asked : StrMap (List String)} {why : String} (h : reread nodes asked read = .error why) :
    ∃ (node : String) (heldOn : List String) (n : Node), asked[node]? = some heldOn ∧ (nodes.find? fun n => n.id = node) = some n ∧
      read n = some (.error why) := by
  unfold reread at h
  cases hfold : asked.toList.foldlM (rereadNode nodes read) (∅, []) with
  | ok s =>
    rw [hfold] at h
    cases h
  | error why' =>
    rw [hfold] at h
    cases h
    obtain ⟨⟨node, heldOn⟩, hin, n, hfind, hread⟩ := foldlM_error hfold
    exact ⟨node, heldOn, n, ExtTreeMap.mem_toList_iff_getElem?_eq_some.mp hin, hfind, hread⟩

/-! ## A pass taken up -/

/-- whether a read asked every source, and found no prerequisite the run's graph does not give the node -/
def Clears (deps : String → Option (List String)) (node : String) (r : Reread) : Prop :=
  r.unanswered = [] ∧ ∃ found, deps node = some found ∧ ∀ dep ∈ r.deps, dep ∈ found

theorem holdAfter_none {found : List String} {r : Reread} :
    holdAfter found r = none ↔ r.unanswered = [] ∧ ∀ dep ∈ r.deps, dep ∈ found := by
  have hmissing : ((r.deps.filter fun dep => dep ∉ found).mergeSort).dedup = [] ↔ ∀ dep ∈ r.deps, dep ∈ found := by
    rw [List.dedup_eq_nil, List.eq_nil_iff_length_eq_zero, List.length_mergeSort, ← List.eq_nil_iff_length_eq_zero, List.filter_eq_nil_iff]
    simp
  unfold holdAfter SourceHold.new
  split_ifs with h
  · refine iff_of_false not_false ?_
    rw [hmissing.symm] at *
    tauto
  · rw [not_or, not_not, not_not, hmissing] at h
    exact iff_of_true rfl h

theorem holdTaken_none {reading : Reading} {answer : StrMap Reread} {deps : String → Option (List String)} {node : String}
    {hold : SourceHold} : holdTaken reading answer deps node hold = none ↔ ∃ r, answer[node]? = some r ∧ Clears deps node r := by
  unfold holdTaken Clears
  cases answer[node]? with
  | none =>
    refine iff_of_false ?_ (by simp)
    simp only []
    split_ifs <;> exact nofun
  | some r =>
    cases deps node with
    | none => simp
    | some found => simp [holdAfter_none]

section

variable {holds : SourceHolds} {reading : Reading} {node : String} {hold : SourceHold}

theorem held_refusedRead (hhold : holds.held[node]? = some hold) (now : ℕ) : (refusedRead holds reading now).held[node]? = some hold := hhold

/-- what a pass the store answered leaves of a hold -/
theorem released_of_answered (hhold : holds.held[node]? = some hold) (now : ℕ) (answer : StrMap Reread)
    (deps : String → Option (List String)) :
    ((answeredRead holds reading now answer deps).retain fun _ => true).held[node]? = none ↔
      ∃ r, answer[node]? = some r ∧ Clears deps node r := by
  have hget : (answeredRead holds reading now answer deps).held[node]? = holdTaken reading answer deps node hold := by
    show (holds.held.filterMap (holdTaken reading answer deps))[node]? = _
    rw [ExtTreeMap.getElem?_filterMap', hhold]
    rfl
  rw [retain_held, hget, ← holdTaken_none]
  cases holdTaken reading answer deps node hold <;> simp

variable (spelling : Spelling) (project : String)

/-- what a store's re-read comes to -/
def Board.reread (board : Board) (reading : Reading) : Except String (StrMap Reread) :=
  Sources.reread reading.nodes reading.asked (board.read spelling project reading.nodes)

/-- a re-read of a store, finished -/
def Board.arrival (board : Board) (reading : Reading) : Arrival := .answered (board.read spelling project reading.nodes)

/-- a task's dependencies are read off its own edges, and their far ends' metadata -/
theorem deps_congr {board board' : Board} {task : TaskId} {ids : StrMap String} (hmetadata : board'.metadata = board.metadata)
    (hedges : board'.edges task = board.edges task) : board'.deps spelling ids ∅ task = board.deps spelling ids ∅ task := by
  have hfar (far : TaskId) : farId spelling board' ids task far = farId spelling board ids task far := by
    unfold farId
    rw [hmetadata]
  have hdep (unasked : List Unanswered) : edgeDep spelling board' ids ∅ unasked task = edgeDep spelling board ids ∅ unasked task := by
    funext edge
    unfold edgeDep
    rw [hfar]
  unfold Board.deps
  simp only [hedges, hdep]

/-- whether a taking up releases a node -/
def Releases (holds : SourceHolds) (now : ℕ) (arrival : Arrival) (deps : String → Option (List String)) (node : String) : Prop :=
  (holds.takeUp now arrival deps).2.held[node]? = none

theorem releases_iff (hreading : holds.reading = some reading) (hhold : holds.held[node]? = some hold) (board : Board) (now : ℕ)
    (deps : String → Option (List String)) :
    Releases holds now (board.arrival spelling project reading) deps node ↔
      ∃ answer r, board.reread spelling project reading = .ok answer ∧ answer[node]? = some r ∧ Clears deps node r := by
  unfold Releases Board.arrival Board.reread SourceHolds.takeUp
  simp only [hreading]
  cases hread : reread reading.nodes reading.asked (board.read spelling project reading.nodes) with
  | error why =>
    simp only []
    exact iff_of_false (by rw [hhold]; exact Option.some_ne_none hold) (by simp)
  | ok answer =>
    simp only []
    exact (@released_of_answered _ reading _ _ hhold now answer deps).trans (by simp)

/-- **Its own read.** A node is released by a re-read that asked about it where every source answered and each prerequisite found is one
of its dependencies in the graph, and by no other. A pass answers of a node what its own read says, where no source the node is held on
refused an earlier one, and a pass one of whose reads fails releases none: so of two stores that say the same of a node's edges, neither
of which ends the pass or refuses it a source it is held on before, both release it or neither does. -/
theorem released_by_own_read (hreading : holds.reading = some reading) (hhold : holds.held[node]? = some hold) (now : ℕ)
    (deps : String → Option (List String)) :
    (∀ arrival, (∀ read, arrival ≠ .answered read) → ¬Releases holds now arrival deps node) ∧
      ∀ board : Board,
        (Releases holds now (board.arrival spelling project reading) deps node ↔
          ∃ answer r, board.reread spelling project reading = .ok answer ∧ answer[node]? = some r ∧ Clears deps node r) ∧
        (∀ why, board.reread spelling project reading = .error why → ∃ (m : String) (heldOn : List String) (n : Node),
          reading.asked[m]? = some heldOn ∧ (reading.nodes.find? fun n => n.id = m) = some n ∧
            board.read spelling project reading.nodes n = some (.error why)) ∧
        ∀ answer, board.reread spelling project reading = .ok answer →
          (∀ r, answer[node]? = some r ↔ ∃ heldOn n, reading.asked[node]? = some heldOn ∧
            (reading.nodes.find? fun n => n.id = node) = some n ∧ board.read spelling project reading.nodes n = some (.ok r) ∧
              ¬PassedOver answer node heldOn) ∧
          ∀ (board' : Board) (answer' : StrMap Reread), board'.reread spelling project reading = .ok answer' →
            board'.metadata = board.metadata →
            (∀ n task, (reading.nodes.find? fun n => n.id = node) = some n → taskOf spelling project n = some task →
              board'.edges task = board.edges task) →
            (∀ heldOn, reading.asked[node]? = some heldOn → ¬PassedOver answer node heldOn ∧ ¬PassedOver answer' node heldOn) →
            (Releases holds now (board.arrival spelling project reading) deps node ↔
              Releases holds now (board'.arrival spelling project reading) deps node) := by
  refine ⟨fun arrival hnot => ?_, fun board => ⟨releases_iff spelling project hreading hhold board now deps, fun why hwhy => reread_error hwhy,
    fun answer hanswer => ⟨reread_ok hanswer node, ?_⟩⟩⟩
  · unfold Releases SourceHolds.takeUp
    simp only [hreading]
    cases arrival with
    | empty =>
      rw [hhold]
      exact Option.some_ne_none hold
    | disconnected =>
      rw [show _ = _ from hhold]
      exact Option.some_ne_none hold
    | unopened why =>
      rw [show _ = _ from hhold]
      exact Option.some_ne_none hold
    | answered read => exact absurd rfl (hnot read)
  · intro board' answer' hanswer' hmetadata hedges hpassed
    rw [releases_iff spelling project hreading hhold, releases_iff spelling project hreading hhold]
    -- the node's own read is the same of both stores
    have hread : ∀ n, (reading.nodes.find? fun n => n.id = node) = some n →
        board'.read spelling project reading.nodes n = board.read spelling project reading.nodes n := by
      intro n hfind
      unfold Board.read
      cases htask : taskOf spelling project n with
      | none => rfl
      | some task =>
        rw [Option.map_some, Option.map_some, deps_congr spelling hmetadata (hedges n task hfind htask)]
    have hsame : answer[node]? = answer'[node]? := by
      refine Option.ext fun r => ?_
      rw [reread_ok hanswer, reread_ok hanswer']
      refine exists_congr fun heldOn => exists_congr fun n => and_congr_right fun hasked => and_congr_right fun hfind => ?_
      rw [hread n hfind]
      exact and_congr_right fun _ => iff_of_true (hpassed heldOn hasked).1 (hpassed heldOn hasked).2
    rw [hanswer, hanswer']
    simp [hsame]

end

/-! ## One read that fails -/

/-- a node of the graph, of a task in its own source -/
def recorded (source native : String) : Node :=
  { id := native, taskRecord := some ⟨.obj [("id", .str native), ("source", .str source)], rfl⟩ }

/-- task ids as they are written here: one letter, a colon, and the native id -/
def shortSpelling : Spelling where
  task text := match text.toList with
    | source :: ':' :: native => some ⟨String.ofList [source], String.ofList native⟩
    | _ => none
  json _ := ""

/-- two nodes, each held on a source of its own -/
def twoHeld : SourceHolds where
  held := ((∅ : StrMap SourceHold).insert "x" (heldFor "s" [])).insert "y" (heldFor "t" [])
  store := true
  reading := some
    { due := ["s", "t"]
      asked := ((∅ : StrMap (List String)).insert "x" ["s"]).insert "y" ["t"]
      nodes := [recorded "s" "x", recorded "t" "y"] }
  schedule := ∅
  missingAt := 0
  poll := ⟨1, Nat.one_pos⟩

def noPrerequisites : String → Option (List String) := fun _ => some []

/-- a store that answers every task with no edges -/
def boardOfNone : Board where
  edges _ := .ok ([], [])
  metadata _ := .ok ∅

/-- a store of one more edge, of the first task onto one that carries no node id -/
def boardOfUnnamed : Board where
  edges task := .ok (if task.native = "x" then [⟨⟨.task, task⟩, ⟨.task, ⟨"s", "z"⟩⟩, .blocks⟩] else [], [])
  metadata _ := .ok ∅

theorem twoHeld_reading : ∃ reading hold, twoHeld.reading = some reading ∧ twoHeld.held["y"]? = some hold :=
  ⟨_, heldFor "t" [], rfl, by decide⟩

/-- the second node is released by a store of no edges -/
theorem released_by_own_read_y : ∃ reading, twoHeld.reading = some reading ∧
    Releases twoHeld 0 (boardOfNone.arrival shortSpelling "p" reading) noPrerequisites "y" ∧
    (Releases twoHeld 0 (boardOfNone.arrival shortSpelling "p" reading) noPrerequisites "y" ↔
      ∃ answer r, boardOfNone.reread shortSpelling "p" reading = .ok answer ∧ answer["y"]? = some r ∧ Clears noPrerequisites "y" r) := by
  obtain ⟨reading, hold, hreading, hhold⟩ := twoHeld_reading
  refine ⟨reading, hreading, ?_, ((released_by_own_read shortSpelling "p" hreading hhold 0 noPrerequisites).2 boardOfNone).1⟩
  have hreleased : (twoHeld.reading.map fun reading =>
      (twoHeld.takeUp 0 (boardOfNone.arrival shortSpelling "p" reading) noPrerequisites).2.held["y"]?) = some none := by decide +kernel
  rw [hreading] at hreleased
  exact Option.some.inj hreleased

/-- the first node's edge cannot be named, so the second stays held, on a source that refused nothing -/
theorem failed_read_holds_others : ∃ reading, twoHeld.reading = some reading ∧
    boardOfUnnamed.metadata = boardOfNone.metadata ∧ boardOfUnnamed.edges ⟨"t", "y"⟩ = boardOfNone.edges ⟨"t", "y"⟩ ∧
    Releases twoHeld 0 (boardOfNone.arrival shortSpelling "p" reading) noPrerequisites "y" ∧
    ¬Releases twoHeld 0 (boardOfUnnamed.arrival shortSpelling "p" reading) noPrerequisites "y" := by
  obtain ⟨reading, hold, hreading, hhold⟩ := twoHeld_reading
  have hreleased : (twoHeld.reading.map fun reading =>
      (twoHeld.takeUp 0 (boardOfNone.arrival shortSpelling "p" reading) noPrerequisites).2.held["y"]?) = some none := by decide +kernel
  have hstays : (twoHeld.reading.map fun reading =>
      (twoHeld.takeUp 0 (boardOfUnnamed.arrival shortSpelling "p" reading) noPrerequisites).2.held["y"]?.isSome) = some true := by
    decide
  rw [hreading] at hreleased hstays
  refine ⟨reading, hreading, rfl, rfl, Option.some.inj hreleased, fun hnone => ?_⟩
  have hsome := Option.some.inj hstays
  unfold Releases at hnone
  simp only [hnone] at hsome
  cases hsome

end OnePipeline.Sources
