/-
Whether a change held for a release is let go.

A node is told once: it joins a set that is never emptied and that a new driver reads back from the journal. A node told
before its change was held is not told again, so what holds it is never lifted.

Results:
- `recorded_adoptReleases`: telling the ready nodes clears the records that await a release, and no other;
- `Owed`: in a run that holds no node told before, no node recorded as awaiting a release has been told;
- `lets_go`: in such a run every fast-adoption node whose releases have arrived is told and returned to the frontier;
- `told_before_it_was_held`: a node told while it ran and held after it is held on.
-/
import Mathlib.Tactic
import OnePipeline.Laws.Notes
import OnePipeline.Laws.Release

namespace OnePipeline.Release

open Maps Runs

/-! ## Who has been told -/

section Told

variable {host : Host} {wording : Wording}

/-- one kept record, as a new driver reads who was told from it -/
def toldIn (host : Host) (told : StrSet) (e : Envelope) : StrSet :=
  match e.body, e.node.bind (renderable host) with
  | .releaseAdopted _ (some _), some node => told.insert node
  | _, _ => told

theorem toldBefore_eq (s : RunState) : toldBefore host s = s.recalled.foldl (toldIn host) ∅ := rfl

theorem toldIn_of_other {e : Envelope} (he : ∀ next note, e.body ≠ .releaseAdopted next note) (told : StrSet) :
    toldIn host told e = told := by
  unfold toldIn
  split
  · rename_i next note _ hbody _
    exact absurd hbody (he next _)
  · rfl

theorem mem_toldIn {told : StrSet} {e : Envelope} {id : String} (h : id ∈ toldIn host told e) :
    id ∈ told ∨ e.node = some id := by
  unfold toldIn at h
  split at h
  · rename_i node hbody hnode
    rcases Std.ExtTreeSet.mem_insert.mp h with heq | h
    · right
      obtain ⟨stated, hstated, hword⟩ := Option.bind_eq_some_iff.mp hnode
      have hsame : node = stated := by
        unfold renderable usable at hword
        split_ifs at hword
        exact (Option.some.inj hword).symm
      rw [hstated, ← hsame, Std.LawfulEqCmp.compare_eq_iff_eq.mp heq]
    · exact .inl h
  · exact .inl h

/-- a record is kept as written, or is not kept -/
theorem recalled_or (host : Host) (s : RunState) (e : Envelope) :
    (RunState.foldRecord host s e).recalled = s.recalled ∨ (RunState.foldRecord host s e).recalled = s.recalled ++ [e] := by
  cases hp : e.isPipeline with
  | true =>
    cases hk : writtenAtAKnownVersion e with
    | true =>
      rw [RunState.recalled_foldRecord hp hk s]
      split_ifs
      · exact .inr rfl
      · exact .inl rfl
    | false =>
      obtain ⟨v, ts, stream, seq, node, body⟩ := e
      cases body with
      | relayed => cases hp
      | driverExited => exact .inr rfl
      | _ =>
        left
        rw [RunState.foldRecord, hk]
        rfl
  | false =>
    obtain ⟨v, ts, stream, seq, node, body⟩ := e
    cases body with
    | relayed record closes =>
      have hrelayed : (s.foldRelayed node record).recalled = s.recalled := by
        unfold RunState.foldRelayed
        split <;> rfl
      rw [RunState.foldRecord]
      dsimp only
      split_ifs
      · right
        rw [← hrelayed]
      · exact .inl hrelayed
    | _ => cases hp

/-- a record that is none of an arrival tells nobody -/
theorem toldBefore_foldRecord {e : Envelope} (he : ∀ next note, e.body ≠ .releaseAdopted next note) (s : RunState) :
    toldBefore host (RunState.foldRecord host s e) = toldBefore host s := by
  rw [toldBefore_eq, toldBefore_eq]
  rcases recalled_or host s e with h | h
  · rw [h]
  · rw [h, List.foldl_append, List.foldl_cons, List.foldl_nil, toldIn_of_other he]

/-- the record of an arrival tells the node it names, at most -/
theorem mem_toldBefore_adoptedRecord {s : RunState} {stamp : Stamp} {node id : String} {delivery : Delivery}
    {released : List Released}
    (h : id ∈ toldBefore host (RunState.foldRecord host s (Vigil.adoptedRecord host wording stamp node delivery released))) :
    id ∈ toldBefore host s ∨ id = node := by
  have hrecalled : (RunState.foldRecord host s (Vigil.adoptedRecord host wording stamp node delivery released)).recalled =
      s.recalled ++ [Vigil.adoptedRecord host wording stamp node delivery released] := by
    rw [foldRecord_adoptedRecord]
    dsimp only
    split <;> rfl
  rw [toldBefore_eq, hrecalled, List.foldl_append] at h
  rcases mem_toldIn h with h | h
  · exact .inl h
  · exact .inr (Option.some.inj h).symm

end Told

/-! ## Telling the ready nodes -/

section Adopt

variable {host : Host} {wording : Wording} {v v' : Vigil} {stamp : Stamp} {inFlight : List Node}
variable {lever : String → Except String Delivery} {ready : String × List Released} {l : List (String × List Released)}

theorem awaiting_eq {s s' : RunState} {id : String} (h : s'.recorded[id]? = s.recorded[id]?) : awaiting s' id = awaiting s id := by
  rw [awaiting, awaiting, h]

theorem recorded_foldReleaseAdopted (s : RunState) (node note id : String) :
    (s.foldReleaseAdopted node note).recorded[id]? = if id = node ∧ awaiting s node then none else s.recorded[id]? := by
  unfold RunState.foldReleaseAdopted awaiting
  dsimp only
  split_ifs with hawait hboth hboth
  · rw [get_erase, if_pos hboth.1]
  · rw [get_erase, if_neg fun h => hboth ⟨h, hawait⟩]
  · exact absurd hboth.2 hawait
  · rfl

variable (host wording stamp inFlight lever) in
/-- what telling one node leaves recorded: its own record cleared where it awaits a release, and no other changed -/
theorem recorded_adoptOne (v : Vigil) (ready : String × List Released) (id : String) :
    (v.adoptOne host wording stamp inFlight lever ready).state.recorded[id]? = v.state.recorded[id]? ∨
      id = ready.1 ∧ awaiting v.state id ∧
        (v.adoptOne host wording stamp inFlight lever ready).state.recorded[id]? = none := by
  unfold Vigil.adoptOne
  split
  · exact .inl rfl
  · dsimp only
    rw [foldRecord_adoptedRecord]
    dsimp only
    split
    · rw [recorded_foldReleaseAdopted]
      split_ifs with h
      · refine .inr ⟨h.1, ?_, rfl⟩
        rw [h.1]
        exact h.2
      · exact .inl rfl
    · exact .inl rfl

/-- a node with no dispatch in flight, told by a note that can be read back -/
theorem adoptOne_told (hout : ready.1 ∉ inFlight.map Node.id) {note : String}
    (hnote : arrivalNote host wording ready.2 = some note) :
    ready.1 ∈ (v.adoptOne host wording stamp inFlight lever ready).watch.adopted ∧
      awaiting (v.adoptOne host wording stamp inFlight lever ready).state ready.1 = false ∧
      (v.adoptOne host wording stamp inFlight lever ready).state.pendingContext[ready.1]? = some note := by
  unfold Vigil.adoptOne Vigil.deliverNote
  rw [if_neg hout]
  dsimp only
  rw [foldRecord_adoptedRecord, hnote]
  dsimp only
  refine ⟨Std.ExtTreeSet.mem_insert.mpr (.inl (Std.LawfulEqCmp.compare_eq_iff_eq.mpr rfl)), ?_, ?_⟩
  · rw [awaiting, recorded_foldReleaseAdopted]
    split_ifs with h
    · rfl
    · exact Bool.eq_false_iff.mpr fun hawait => h ⟨rfl, hawait⟩
  · rw [RunState.foldReleaseAdopted]
    dsimp only
    rw [get_insert, if_pos rfl]

variable (host wording stamp inFlight lever) in
/-- telling a node tells no other, in memory or on the record -/
theorem adoptOne_others (v : Vigil) (ready : String × List Released) {id : String} (hne : id ≠ ready.1) :
    (id ∈ (v.adoptOne host wording stamp inFlight lever ready).watch.adopted → id ∈ v.watch.adopted) ∧
      (id ∈ toldBefore host (v.adoptOne host wording stamp inFlight lever ready).state → id ∈ toldBefore host v.state) ∧
      (v.adoptOne host wording stamp inFlight lever ready).state.pendingContext[id]? = v.state.pendingContext[id]? := by
  unfold Vigil.adoptOne
  split
  · exact ⟨fun h => h, fun h => h, rfl⟩
  · dsimp only
    refine ⟨fun h => ?_, fun h => ?_, ?_⟩
    · rcases Std.ExtTreeSet.mem_insert.mp h with heq | h
      · exact absurd (Std.LawfulEqCmp.compare_eq_iff_eq.mp heq).symm hne
      · exact h
    · rcases mem_toldBefore_adoptedRecord h with h | h
      · exact h
      · exact absurd h hne
    · rw [foldRecord_adoptedRecord]
      dsimp only
      split
      · rw [RunState.foldReleaseAdopted]
        dsimp only
        rw [get_insert, if_neg hne]
      · rfl

theorem adoptOne_keeps_told (v : Vigil) (ready : String × List Released) {id : String} (h : id ∈ v.watch.adopted) :
    id ∈ (v.adoptOne host wording stamp inFlight lever ready).watch.adopted := by
  unfold Vigil.adoptOne
  split
  · exact h
  · exact Std.ExtTreeSet.mem_insert.mpr (.inr h)

variable (host wording stamp inFlight lever) in
/-- **What telling the ready nodes clears.** A record is as it was, or was one of a ready node awaiting a release and is
gone. -/
theorem recorded_foldl_adoptOne (l : List (String × List Released)) (v : Vigil) (id : String) :
    (l.foldl (Vigil.adoptOne host wording stamp inFlight lever) v).state.recorded[id]? = v.state.recorded[id]? ∨
      id ∈ l.map Prod.fst ∧ awaiting v.state id ∧
        (l.foldl (Vigil.adoptOne host wording stamp inFlight lever) v).state.recorded[id]? = none := by
  induction l generalizing v with
  | nil => exact .inl rfl
  | cons ready l ih =>
    rw [List.foldl_cons, List.map_cons, List.mem_cons]
    rcases recorded_adoptOne host wording stamp inFlight lever v ready id with hone | ⟨hid, hawait, hnone⟩
    · rcases ih (v.adoptOne host wording stamp inFlight lever ready) with h | ⟨hin, hawait, hnone⟩
      · exact .inl (h.trans hone)
      · exact .inr ⟨.inr hin, by rwa [← awaiting_eq hone], hnone⟩
    · rcases ih (v.adoptOne host wording stamp inFlight lever ready) with h | ⟨_, _, h⟩
      · exact .inr ⟨.inl hid, hawait, h.trans hnone⟩
      · exact .inr ⟨.inl hid, hawait, h⟩

variable (host wording stamp inFlight lever) in
theorem foldl_adoptOne_others (l : List (String × List Released)) (v : Vigil) {id : String} (hne : id ∉ l.map Prod.fst) :
    (id ∈ (l.foldl (Vigil.adoptOne host wording stamp inFlight lever) v).watch.adopted → id ∈ v.watch.adopted) ∧
      (id ∈ toldBefore host (l.foldl (Vigil.adoptOne host wording stamp inFlight lever) v).state →
        id ∈ toldBefore host v.state) := by
  induction l generalizing v with
  | nil => exact ⟨fun h => h, fun h => h⟩
  | cons ready l ih =>
    rw [List.map_cons, List.mem_cons, not_or] at hne
    obtain ⟨hadopted, htold⟩ := ih (v.adoptOne host wording stamp inFlight lever ready) hne.2
    obtain ⟨hadopted', htold', -⟩ := adoptOne_others host wording stamp inFlight lever v ready hne.1
    exact ⟨fun h => hadopted' (hadopted h), fun h => htold' (htold h)⟩

variable (stamp lever) in
/-- **Who is told.** Every ready node with no dispatch in flight, by the note its releases compose. -/
theorem foldl_adoptOne_told {l : List (String × List Released)} {released : String → List Released}
    (hreleased : ∀ ready ∈ l, ready.2 = released ready.1) {id note : String} (hin : id ∈ l.map Prod.fst)
    (hout : id ∉ inFlight.map Node.id) (hnote : arrivalNote host wording (released id) = some note) (v : Vigil) :
    id ∈ (l.foldl (Vigil.adoptOne host wording stamp inFlight lever) v).watch.adopted ∧
      awaiting (l.foldl (Vigil.adoptOne host wording stamp inFlight lever) v).state id = false ∧
      (l.foldl (Vigil.adoptOne host wording stamp inFlight lever) v).state.pendingContext[id]? = some note := by
  -- once told, a node stays so: the same note is owed again at most
  have hstays (l : List (String × List Released)) (hl : ∀ ready ∈ l, ready.2 = released ready.1) (v : Vigil)
      (h : id ∈ v.watch.adopted ∧ awaiting v.state id = false ∧ v.state.pendingContext[id]? = some note) :
      id ∈ (l.foldl (Vigil.adoptOne host wording stamp inFlight lever) v).watch.adopted ∧
        awaiting (l.foldl (Vigil.adoptOne host wording stamp inFlight lever) v).state id = false ∧
        (l.foldl (Vigil.adoptOne host wording stamp inFlight lever) v).state.pendingContext[id]? = some note := by
    induction l generalizing v with
    | nil => exact h
    | cons ready l ih =>
      refine ih (fun r hr => hl r (List.mem_cons_of_mem _ hr)) _ ?_
      by_cases hid : id = ready.1
      · rw [hid] at hout hnote ⊢
        exact adoptOne_told hout (by rw [hl ready List.mem_cons_self, hnote])
      · refine ⟨adoptOne_keeps_told v ready h.1, ?_, ?_⟩
        · rcases recorded_adoptOne host wording stamp inFlight lever v ready id with hone | ⟨heq, _, _⟩
          · rw [awaiting_eq hone]
            exact h.2.1
          · exact absurd heq hid
        · rw [(adoptOne_others host wording stamp inFlight lever v ready hid).2.2]
          exact h.2.2
  induction l generalizing v with
  | nil => cases hin
  | cons ready l ih =>
    have hl : ∀ r ∈ l, r.2 = released r.1 := fun r hr => hreleased r (List.mem_cons_of_mem _ hr)
    rcases List.mem_cons.mp hin with hid | hin
    · refine hstays l hl _ ?_
      rw [hid] at hout hnote ⊢
      exact adoptOne_told hout (by rw [hreleased ready List.mem_cons_self, hnote])
    · exact ih hl hin _

end Adopt

/-! ## Runs -/

section Runs

variable {host : Host} {wording : Wording} {v : Vigil}

/-- the watch holds a release's version for every dependency in a node's set -/
def Vigil.Arrived (v : Vigil) (id : String) : Prop :=
  ∃ rows, v.watch.rows id = some rows ∧ ∀ row ∈ rows, (v.watch.version (id, row.1)).isSome

/-- telling the nodes whose releases have arrived lets every held one go, and no other -/
structure Vigil.LetsGo (host : Host) (wording : Wording) (v : Vigil) (stamp : Stamp) (reads : Reads) (inFlight : List Node)
    (lever : String → Except String Delivery) : Prop where
  /-- a fast-adoption node recorded as awaiting a release, all of its releases arrived, is told at its next dispatch and
  is back on the frontier -/
  told : ∀ node ∈ v.state.graph.iter, awaiting v.state node.id → adoptionOf reads node = .fast → v.Arrived node.id →
    node.id ∈ (v.adoptReleases host wording stamp reads inFlight lever).watch.adopted ∧
      (v.adoptReleases host wording stamp reads inFlight lever).state.recorded[node.id]? = none ∧
      ∃ note, arrivalNote host wording (v.watch.released node.id) = some note ∧
        (v.adoptReleases host wording stamp reads inFlight lever).state.pendingContext[node.id]? = some note
  /-- and a record is cleared of no node but one so held -/
  only : ∀ id : String,
    (v.adoptReleases host wording stamp reads inFlight lever).state.recorded[id]? ≠ v.state.recorded[id]? →
      awaiting v.state id ∧ v.Arrived id

/-- a node not told yet, here or on the record, and not resolved as waiting on nothing -/
def Vigil.Untold (host : Host) (v : Vigil) (id : String) : Prop :=
  id ∉ v.watch.adopted ∧ id ∉ toldBefore host v.state ∧ v.watch.rows id ≠ some []

/-- what every step keeps of the held nodes: a record holds none that was told; a pass describes a wait for each it
resolves; and nodes are told with each held one derived as it is recorded, by notes that can be read back -/
def Vigil.Timely (host : Host) (wording : Wording) (v : Vigil) : Event → Prop
  | .record e => ∀ id, awaiting (RunState.foldRecord host v.state e) id → awaiting v.state id ∨ v.Untold host id
  | .pass reads running => ∀ node ∈ watching v.state running, awaiting v.state node.id → v.watch.rows node.id = none →
    ∃ dep ∈ asksAbout v.state node, v.watch.awaited host reads v.state node dep ≠ .ok none
  | .adopt _ reads inFlight _ =>
    (∀ node ∈ v.state.graph.iter, awaiting v.state node.id → v.state.statuses[node.id]?.any NodeStatus.awaitsRelease) ∧
      ∀ ready ∈ v.watch.readyToAdopt reads (v.told inFlight), arrivalNote host wording ready.2 ≠ none
  | _ => True

/-- no node recorded as awaiting a release has been told -/
def Owed (host : Host) (v : Vigil) : Prop := ∀ id, awaiting v.state id → v.Untold host id

theorem mem_readyToAdopt {reads : Reads} {w : Watch} {told : List Node} {id : String} :
    id ∈ (w.readyToAdopt reads told).map Prod.fst ↔
      ∃ node ∈ told, node.id = id ∧ id ∉ w.adopted ∧ w.allReleased id = true ∧ adoptionOf reads node = .fast := by
  simp only [Watch.readyToAdopt, List.map_map, List.mem_map, List.mem_filter, decide_eq_true_eq, Function.comp]
  constructor
  · rintro ⟨node, ⟨⟨⟨hin, hnew⟩, hall⟩, hfast⟩, rfl⟩
    exact ⟨node, hin, rfl, hnew, hall, hfast⟩
  · rintro ⟨node, hin, rfl, hnew, hall, hfast⟩
    exact ⟨node, ⟨⟨⟨hin, hnew⟩, hall⟩, hfast⟩, rfl⟩

theorem released_of_ready {reads : Reads} {w : Watch} {told : List Node} {ready : String × List Released}
    (h : ready ∈ w.readyToAdopt reads told) : ready.2 = w.released ready.1 := by
  simp only [Watch.readyToAdopt, List.mem_map] at h
  obtain ⟨node, -, rfl⟩ := h
  rfl

/-- a node recorded as awaiting a release has no dispatch in flight -/
theorem out_of_flight {inFlight : List Node} (hev : ∀ node ∈ inFlight, awaiting v.state node.id = false) {id : String}
    (hawait : awaiting v.state id) : id ∉ inFlight.map Node.id := by
  intro hin
  obtain ⟨node, hnode, rfl⟩ := List.mem_map.mp hin
  rw [hev node hnode] at hawait
  cases hawait

/-- a ready node has a note that can be read back -/
theorem note_of_ready {reads : Reads} {inFlight : List Node} {id : String}
    (hnotes : ∀ ready ∈ v.watch.readyToAdopt reads (v.told inFlight), arrivalNote host wording ready.2 ≠ none)
    (hin : id ∈ (v.watch.readyToAdopt reads (v.told inFlight)).map Prod.fst) :
    ∃ note, arrivalNote host wording (v.watch.released id) = some note := by
  obtain ⟨ready, hready, rfl⟩ := List.mem_map.mp hin
  rw [← released_of_ready hready]
  exact Option.ne_none_iff_exists'.mp (hnotes ready hready)

/-- telling the ready nodes leaves no told one recorded as awaiting a release -/
theorem owed_adopt (h : Owed host v) {stamp : Stamp} {reads : Reads} {inFlight : List Node}
    {lever : String → Except String Delivery} (hev : v.Allowed (.adopt stamp reads inFlight lever))
    (htimely : v.Timely host wording (.adopt stamp reads inFlight lever)) :
    Owed host (v.adoptReleases host wording stamp reads inFlight lever) := by
  intro id hawait
  have hrows : (v.adoptReleases host wording stamp reads inFlight lever).watch.rows id = v.watch.rows id :=
    adoptReleases_induct (I := fun v' => v'.watch.rows id = v.watch.rows id)
      (fun v' ready h => by unfold Vigil.adoptOne; split <;> exact h) reads rfl
  unfold Vigil.Untold
  rw [hrows]
  unfold Vigil.adoptReleases at hawait ⊢
  have hwas : awaiting v.state id := by
    rcases recorded_foldl_adoptOne host wording stamp inFlight lever
        (v.watch.readyToAdopt reads (v.told inFlight)) v id with hsame | ⟨_, hwas, _⟩
    · rwa [awaiting_eq hsame] at hawait
    · exact hwas
  have hnotready : id ∉ (v.watch.readyToAdopt reads (v.told inFlight)).map Prod.fst := by
    intro hin
    obtain ⟨note, hnote⟩ := note_of_ready htimely.2 hin
    have htold := (foldl_adoptOne_told stamp lever (fun _ => released_of_ready) hin
      (out_of_flight hev hwas) hnote v).2.1
    rw [htold] at hawait
    cases hawait
  obtain ⟨hadopted, hrecord⟩ := foldl_adoptOne_others host wording stamp inFlight lever
    (v.watch.readyToAdopt reads (v.told inFlight)) v hnotready
  obtain ⟨hfresh, hunrecorded, hset⟩ := h id hwas
  exact ⟨fun h => hfresh (hadopted h), fun h => hunrecorded (hrecord h), hset⟩

theorem owed_pass (h : Owed host v) {reads : Reads} {running : StrSet} (htimely : v.Timely host wording (.pass reads running)) :
    Owed host (v.watchReleases host reads running) := by
  obtain ⟨questions, hpass, -⟩ := refreshed_pass host v reads running
  intro id hawait
  obtain ⟨hfresh, hunrecorded, hset⟩ := h id hawait
  refine ⟨?_, hunrecorded, fun hnil => ?_⟩
  · rw [hpass.adopted]
    exact hfresh
  · rcases hpass.found hnil with hwas | ⟨hnone, node, hnode, rfl⟩
    · exact hset hwas
    · cases hpass.taken node hnode with
      | stood rows was => rw [was] at hnone; cases hnone
      | unread _ now => rw [now] at hnil; cases hnil
      | froze rows _ now _ described mem =>
        rw [now] at hnil
        cases hnil
        obtain ⟨dep, hin, hwait⟩ := htimely node hnode hawait hnone
        -- what it describes is no refusal and not nothing, so a row is frozen for it
        cases hd : v.watch.awaited host reads v.state node dep with
        | error => exact described dep hin hd
        | ok wait =>
          cases wait with
          | none => exact hwait hd
          | some target => exact List.not_mem_nil ((mem dep target).mpr ⟨hin, hd⟩)

/-- **Nobody held has been told.** -/
theorem owed_step (h : Owed host v) {event : Event} (hev : v.Allowed event) (htimely : v.Timely host wording event) :
    Owed host (v.step host wording event) := by
  cases event with
  | record e =>
    intro id hawait
    have huntold : v.Untold host id := (htimely id hawait).elim (h id) fun h => h
    refine ⟨huntold.1, ?_, huntold.2.2⟩
    show id ∉ toldBefore host (RunState.foldRecord host v.state e)
    rw [toldBefore_foldRecord hev]
    exact huntold.2.1
  | answered question answer => exact h
  | pass reads running => exact owed_pass h htimely
  | adopt stamp reads inFlight lever => exact owed_adopt h hev htimely
  | restart =>
    intro id hawait
    obtain ⟨-, hunrecorded, -⟩ := h id hawait
    exact ⟨hunrecorded, hunrecorded, fun hnil => by cases hnil⟩

/-- **One telling.** -/
theorem letsGo_adopt (h : Owed host v) {stamp : Stamp} {reads : Reads} {inFlight : List Node}
    {lever : String → Except String Delivery} (hev : v.Allowed (.adopt stamp reads inFlight lever))
    (htimely : v.Timely host wording (.adopt stamp reads inFlight lever)) :
    v.LetsGo host wording stamp reads inFlight lever := by
  constructor
  · intro node hnode hawait hfast ⟨rows, hrows, hversions⟩
    obtain ⟨hfresh, -, hset⟩ := h node.id hawait
    have hready : node.id ∈ (v.watch.readyToAdopt reads (v.told inFlight)).map Prod.fst := by
      refine mem_readyToAdopt.mpr ⟨node, ?_, rfl, hfresh, allReleased_iff.mpr ⟨rows, hrows, ?_, hversions⟩, hfast⟩
      · exact List.mem_append_right _ (List.mem_filter.mpr ⟨hnode, htimely.1 node hnode hawait⟩)
      · rintro rfl
        exact hset hrows
    obtain ⟨note, hnote⟩ := note_of_ready htimely.2 hready
    obtain ⟨hadopted, hcleared, howed⟩ := foldl_adoptOne_told stamp lever (fun _ => released_of_ready) hready
      (out_of_flight hev hawait) hnote v
    refine ⟨hadopted, ?_, note, hnote, howed⟩
    rcases recorded_foldl_adoptOne host wording stamp inFlight lever
      (v.watch.readyToAdopt reads (v.told inFlight)) v node.id with hsame | ⟨_, _, hnone⟩
    · rw [awaiting_eq hsame, hawait] at hcleared
      cases hcleared
    · exact hnone
  · intro id hchanged
    rcases recorded_foldl_adoptOne host wording stamp inFlight lever
      (v.watch.readyToAdopt reads (v.told inFlight)) v id with hsame | ⟨hready, hawait, _⟩
    · exact absurd hsame hchanged
    · obtain ⟨node, -, -, -, hall, -⟩ := mem_readyToAdopt.mp hready
      obtain ⟨rows, hrows, -, hversions⟩ := allReleased_iff.mp hall
      exact ⟨hawait, rows, hrows, hversions⟩

/-- **A held change is let go.** In a run that holds no node it has told, a telling lets go every fast-adoption node held for
releases that have all arrived, and clears the record of no other. -/
theorem lets_go (host : Host) (wording : Wording) (s : RunState) (hs : ∀ id, awaiting s id = false) (events : List Event)
    (stamp : Stamp) (reads : Reads) (inFlight : List Node) (lever : String → Except String Delivery)
    (hrun : Admits (Vigil.step host wording) (fun v event => v.Allowed event ∧ v.Timely host wording event)
      (Vigil.fresh host s) (events ++ [.adopt stamp reads inFlight lever])) :
    (events.foldl (Vigil.step host wording) (Vigil.fresh host s)).LetsGo host wording stamp reads inFlight lever := by
  obtain ⟨hbefore, ⟨hev, htimely⟩, -⟩ := Admits.append.mp hrun
  have howed : Owed host (events.foldl (Vigil.step host wording) (Vigil.fresh host s)) :=
    hbefore.invariant (I := Owed host) (fun v event h hev => owed_step h hev.1 hev.2) fun id hawait => by
      rw [show awaiting (Vigil.fresh host s).state id = false from hs id] at hawait
      cases hawait
  exact letsGo_adopt howed hev htimely

end Runs

/-! ## Told, and then held -/

/-- one node landing in a repository of its own, and one that starts on its branch -/
def earlyAcross : Plan :=
  Plan.ofNodes
    [{ Node.direct "d" [] with repo := some "up", title := some "feat: it" },
      { Node.direct "n" ["d"] with repo := some "down", title := some "feat: it" }]

def adoptedEarly (events : List Event) : Vigil :=
  events.foldl (Vigil.step .lenient unworded) (.fresh .lenient (.started earlyAcross))

/-- the release of the first node's branch, as the second asks about it -/
def ofTheBranch : Question :=
  { keys := [("n", "d")], reference := "b", fallback := none, target := some "t", style := .automated }

def dispatchedEarly : List Event :=
  upSettled ++ [.pass oneTarget ∅, .record (.own 3 (some "n") (.nodeDispatched .unstated))]

def stillOut : Event := .record (.own 4 (some "n") (.nodeSettled { status := some .completeDraft, branch := some "c" }))

def arrives : Event := .answered ofTheBranch (.released "1.0")

/-- the release arrives while the node runs, and its publication still holds its change for it -/
def toldThenHeld : List Event :=
  dispatchedEarly ++ [arrives, .adopt {} oneTarget [Node.direct "n" []] (fun _ => .ok .live), stillOut]

theorem toldThenHeld_driven :
    Admits (Vigil.step .lenient unworded) (Vigil.Driven .lenient) (.fresh .lenient (.started earlyAcross))
      (toldThenHeld ++ [.adopt {} oneTarget [] fun _ => .ok .deferred]) := by
  have hasked : ofTheBranch ∈ (adoptedEarly dispatchedEarly).asked := by decide
  have hrunning : awaiting (adoptedEarly (dispatchedEarly ++ [arrives])).state "n" = false := by decide
  refine ⟨⟨fun _ _ h => (by cases h), fun e he => (by cases he; trivial)⟩,
    ⟨fun _ _ h => (by cases h), fun e he => (by cases he; trivial)⟩, ⟨trivial, fun e he => (by cases he)⟩,
    ⟨fun _ _ h => (by cases h), fun e he => (by cases he; trivial)⟩, ⟨hasked, fun e he => (by cases he)⟩,
    ⟨fun node hnode => ?_, fun e he => (by cases he)⟩, ⟨fun _ _ h => (by cases h), fun e he => (by cases he; trivial)⟩,
    ⟨fun node hnode => absurd hnode List.not_mem_nil, fun e he => (by cases he)⟩, trivial⟩
  rw [List.mem_singleton.mp hnode]
  exact hrunning

/-- **Held on.** A node told of its releases while it ran, and held for them when it settled, is not told again. -/
theorem told_before_it_was_held :
    ¬∀ (host : Host) (wording : Wording) (s : RunState), (∀ id, awaiting s id = false) →
      ∀ (events : List Event) (stamp : Stamp) (reads : Reads) (inFlight : List Node) (lever : String → Except String Delivery),
        Admits (Vigil.step host wording) (Vigil.Driven host) (Vigil.fresh host s)
            (events ++ [.adopt stamp reads inFlight lever]) →
          (events.foldl (Vigil.step host wording) (Vigil.fresh host s)).LetsGo host wording stamp reads inFlight lever := by
  intro hall
  have hgoes : (adoptedEarly toldThenHeld).LetsGo .lenient unworded {} oneTarget [] fun _ => .ok .deferred :=
    hall _ _ _ (fun id => rfl) _ _ _ _ _ toldThenHeld_driven
  have hin : "n" ∈ (adoptedEarly toldThenHeld).state.graph.ids := by decide
  have hheld : awaiting (adoptedEarly toldThenHeld).state "n" = true := by decide
  have hfast : ((adoptedEarly toldThenHeld).state.graph.iter.all fun node => adoptionOf oneTarget node = .fast) = true := by
    decide
  have harrived : (adoptedEarly toldThenHeld).watch.allReleased "n" = true := by decide
  have hkept : ((adoptedEarly toldThenHeld).adoptReleases .lenient unworded {} oneTarget []
      fun _ => .ok .deferred).state.recorded["n"]?.isSome = true := by
    decide
  obtain ⟨node, hnode, hid⟩ := Graph.mem_ids.mp hin
  obtain ⟨rows, hrows, -, hversions⟩ := allReleased_iff.mp harrived
  rw [← hid] at hheld hrows hkept
  have hcleared := (hgoes.told node hnode hheld (of_decide_eq_true (List.all_eq_true.mp hfast node hnode))
    ⟨rows, hrows, by rw [hid]; exact hversions⟩).2.1
  rw [hcleared] at hkept
  cases hkept

/-- the node is held first, and its releases arrive after -/
def heldThenTold : List Event := dispatchedEarly ++ [stillOut, .pass oneTarget ∅, arrives]

instance (host : Host) (v : Vigil) (id : String) : Decidable (v.Untold host id) :=
  inferInstanceAs (Decidable (_ ∧ _ ∧ _))

/-- a record holds nobody told, checked over the nodes it leaves recorded -/
theorem timely_record {host : Host} {wording : Wording} {v : Vigil} {e : Envelope}
    (h : ((RunState.foldRecord host v.state e).recorded.keys.all fun id =>
      awaiting (RunState.foldRecord host v.state e) id = false ∨ v.Untold host id) = true) :
    v.Timely host wording (.record e) := by
  intro id hawait
  have hkey : id ∈ (RunState.foldRecord host v.state e).recorded.keys := by
    rw [Std.ExtTreeMap.mem_keys, mem_iff]
    cases hrec : (RunState.foldRecord host v.state e).recorded[id]? with
    | some r => exact ⟨r, rfl⟩
    | none =>
      rw [awaiting, hrec] at hawait
      cases hawait
  rcases of_decide_eq_true (List.all_eq_true.mp h id hkey) with hnot | huntold
  · rw [hnot] at hawait
    cases hawait
  · exact .inr huntold

/-- a pass that finds every held node resolved -/
theorem timely_pass {host : Host} {wording : Wording} {v : Vigil} {reads : Reads} {running : StrSet}
    (h : ((watching v.state running).all fun node =>
      awaiting v.state node.id = false ∨ (v.watch.rows node.id).isSome) = true) :
    v.Timely host wording (.pass reads running) := by
  intro node hnode hawait hnone
  rcases of_decide_eq_true (List.all_eq_true.mp h node hnode) with hnot | hsome
  · rw [hnot] at hawait
    cases hawait
  · rw [hnone] at hsome
    cases hsome

theorem heldThenTold_lets_go :
    (adoptedEarly heldThenTold).LetsGo .lenient unworded {} oneTarget [] fun _ => .ok .deferred := by
  have hasked : ofTheBranch ∈ (adoptedEarly (dispatchedEarly ++ [stillOut, .pass oneTarget ∅])).asked := by decide
  have hstatuses : ((adoptedEarly heldThenTold).state.graph.iter.all fun node =>
      awaiting (adoptedEarly heldThenTold).state node.id = false ∨
        ((adoptedEarly heldThenTold).state.statuses[node.id]?.any NodeStatus.awaitsRelease) = true) = true := by
    decide
  have hnotes : (((adoptedEarly heldThenTold).watch.readyToAdopt oneTarget ((adoptedEarly heldThenTold).told [])).all
      fun ready => (arrivalNote .lenient unworded ready.2).isSome) = true := by
    decide
  refine lets_go .lenient unworded (.started earlyAcross) (fun id => rfl) heldThenTold {} oneTarget [] (fun _ => .ok .deferred) ?_
  refine ⟨⟨fun _ _ h => (by cases h), timely_record (by decide)⟩,
    ⟨fun _ _ h => (by cases h), timely_record (by decide)⟩, ⟨trivial, timely_pass (by decide)⟩,
    ⟨fun _ _ h => (by cases h), timely_record (by decide)⟩,
    ⟨fun _ _ h => (by cases h), timely_record (by decide)⟩, ⟨trivial, timely_pass (by decide)⟩,
    ⟨hasked, trivial⟩,
    ⟨fun node hnode => absurd hnode List.not_mem_nil, fun node hnode hawait => ?_, fun ready hready => ?_⟩, trivial⟩
  · rcases of_decide_eq_true (List.all_eq_true.mp hstatuses node hnode) with hnot | hderived
    · rw [show awaiting (adoptedEarly heldThenTold).state node.id = true from hawait] at hnot
      cases hnot
    · exact hderived
  · exact Option.isSome_iff_ne_none.mp (List.all_eq_true.mp hnotes ready hready)

end OnePipeline.Release
