/-
A sibling's record folded late: whether moving it behind every record after it changes what the run is decided by.

Results:
- `core_foldRelayed`: a relayed record moves nothing but where a dispatch works and what a reader reads back;
- `core_foldRecord`: every record but an adoption folds the rest from the rest alone;
- `late_relayed_iff`: a relayed record may be moved to the end exactly when no adoption reads the session it opened.
-/
import Mathlib.Tactic
import OnePipeline.Core.Runs
import OnePipeline.Laws.Folded
import OnePipeline.Model.Run

namespace OnePipeline

open Runs

namespace RunState

variable {host : Host} {s t : RunState} {e : Envelope} {x : String} {«at» : Option ℕ}

/-! ## What decides a run -/

/-- what a node's settlement, its dispatch and its graph turn on -/
structure Decided where
  graph : Graph
  recorded : StrMap Recorded
  parks : StrMap Park
  outcomes : StrMap String
  superseded : StrMap String
  pendingContext : StrMap String

def decided (s : RunState) : Decided where
  graph := s.graph
  recorded := s.recorded
  parks := s.parks
  outcomes := s.outcomes
  superseded := s.superseded
  pendingContext := s.pendingContext

/-- a state without what relayed records write -/
def core (s : RunState) : RunState :=
  { s with
    sessions := ∅
    abandoned := ∅
    bases := ∅
    branchHeads := ∅
    landingCommits := ∅
    recalled := [] }

theorem decided_core (s : RunState) : s.core.decided = s.decided := rfl

theorem decided_eq (h : s.core = t.core) : s.decided = t.decided := by
  rw [← decided_core s, h, decided_core]

/-- a field no relayed record writes is one in two states of one core -/
theorem core_field {β : Type} (h : s.core = t.core) (f : RunState → β) (hf : ∀ s : RunState, f s.core = f s := by intro s; rfl) :
    f s = f t := by
  rw [← hf s, h, hf]

/-- **A relayed record.** It moves nothing of the rest. -/
theorem core_foldRelayed (s : RunState) (node : Option String) (record : Relayed) :
    (s.foldRelayed node record).core = s.core := by
  unfold foldRelayed
  split <;> rfl

theorem core_relayed (h : e.isPipeline = false) : (foldRecord host s e).core = s.core := by
  obtain ⟨v, ts, stream, seq, node, body⟩ := e
  cases body with
  | relayed record closes =>
    simp only [foldRecord]
    split_ifs
    · exact core_foldRelayed s node record
    · exact core_foldRelayed s node record
  | _ => cases h

/-! ## What every other record reads -/

theorem core_owe (s : RunState) (node : String) (context : Option String) :
    (s.owe node context).core = (s.core.owe node context).core := by
  cases context <;> rfl

theorem through_foldOne (op : Operation) : Through core fun s => foldOne host «at» s op := by
  refine .of_view fun s => ?_
  cases op with
  | reparent node was deps =>
    simp only [foldOne, foldOperation]
    split_ifs with h h' h'
    · rfl
    · exact absurd h h'
    · exact absurd h' h
    · rfl
  | landingFromEvidence node landing =>
    simp only [foldOne, foldOperation]
    cases StatedLanding.parse host.toSiblings landing with
    | none => rfl
    | some stated => rfl
  | contextAdded node note delivery => cases delivery <;> rfl
  | noteDelivered node addressee text criterion reached envelope index => cases reached <;> rfl
  | noteWithdrawn node envelope index «from» text alikeAfter =>
    cases «from» with
    | live => rfl
    | carried => exact core_owe _ node _
  | _ => rfl

theorem through_foldOperations (ops : List Operation) : Through core fun s => s.foldOperations host ops «at» :=
  .foldl ops through_foldOne

theorem through_foldEdit (e : Envelope) (ops : Option (List Operation)) : Through core fun s => s.foldEdit host e ops := by
  have hcommit : Through core fun s => s.foldCommit e ops := by
    refine .of_view fun s => ?_
    cases ops <;> rfl
  cases ops with
  | none =>
    have hloose : Through core fun s : RunState => { s with strict := false } := .of_view fun _ => rfl
    exact hloose.comp hcommit
  | some ops => exact .comp (through_foldOperations ops) hcommit

theorem through_retractStated (node : String) (outcome : Option String) :
    Through core fun s => s.retractStated node outcome := by
  refine .ite (fun s t hv => ?_) (.of_view fun _ => rfl) fun _ _ hv => hv
  rw [core_field hv statedLandings]

theorem through_foldSettled (node : String) (settled : Settlement) : Through core fun s => s.foldSettled node settled := by
  have hstatus : Through core fun s => s.foldStatus node settled.status := by
    refine .of_view fun s => ?_
    cases settled.status with
    | none => rfl
    | some status =>
      simp only [foldStatus, foldSettledStatus]
      split_ifs <;> rfl
  have hleft : Through core fun s => s.foldLeftBehind node settled := .of_view fun _ => rfl
  have hpin : Through core fun s => s.pinSettled node settled.status := by
    refine .of_view fun s => ?_
    have hbranch : s.core.branches[node]? = s.branches[node]? := rfl
    cases settled.status with
    | none => rfl
    | some status =>
      simp only [pinSettled, pinPreservedBranch, hbranch]
      split_ifs
      · cases s.branches[node]? <;> rfl
      · rfl
  have houtcome : Through core fun s => s.foldOutcome node settled.outcome := .of_view fun _ => rfl
  have hend : Through core fun s => s.endTheRestack node := .of_view fun _ => rfl
  exact hend.comp (hpin.comp (hleft.comp ((through_retractStated node settled.outcome).comp (houtcome.comp hstatus))))

theorem through_foldChecksRead (read : NodeChecksRead) : Through core fun s => s.foldChecksRead read := by
  have hone (outcome : String) : Through core fun s : RunState => { s with outcomes := s.outcomes.insert read.node outcome } :=
    .of_view fun _ => rfl
  have hsame : Through core fun s : RunState => s := fun _ _ hv => hv
  obtain ⟨node, head, verdict⟩ := read
  unfold foldChecksRead
  cases verdict with
  | failed => exact hsame
  | pending =>
    refine .ite (fun s t hv => ?_) (hone _) hsame
    rw [core_field hv outcomes, core_field hv heads]
  | _ =>
    refine .ite (fun s t hv => ?_) (hone _) hsame
    rw [core_field hv outcomes]

/-- one of this crate's own records, an adoption apart -/
theorem through_foldPipeline (h : ∀ epoch, e.body ≠ .driverAdopted epoch) : Through core fun s => s.foldPipeline host e := by
  have hsame : Through core fun s : RunState => s := fun _ _ hv => hv
  obtain ⟨v, ts, stream, seq, node, body⟩ := e
  cases body with
  | driverAdopted epoch => exact absurd rfl (h epoch)
  | runStarted plan =>
    cases plan with
    | none => exact hsame
    | some plan => exact .of_view fun _ => rfl
  | nodeDispatched composed =>
    cases node with
    | none => exact hsame
    | some node => exact .of_view fun _ => rfl
  | nodeRequeued =>
    cases node with
    | none => exact hsame
    | some node => exact .of_view fun _ => rfl
  | nodeSettled settled =>
    cases node with
    | none => exact hsame
    | some node => exact through_foldSettled node settled
  | nodeRestackStarted started => cases started <;> exact .of_view fun _ => rfl
  | nodeRestacked restacked => cases restacked <;> exact .of_view fun _ => rfl
  | nodeReadjusted readjusted => cases readjusted <;> exact .of_view fun _ => rfl
  | changeRetitled retitled => cases retitled <;> exact .of_view fun _ => rfl
  | nodeLanded landed => cases landed <;> exact .of_view fun _ => rfl
  | nodeAbsorbed absorbed => cases absorbed <;> exact .of_view fun _ => rfl
  | nodeChecksRead read =>
    cases read with
    | none => exact hsame
    | some read => exact through_foldChecksRead read
  | editCommitted operations => exact through_foldEdit _ operations
  | commandAccepted operations => exact through_foldEdit _ operations
  | releaseAdopted next note =>
    cases next with
    | false => exact hsame
    | true =>
      cases note with
      | none => exact hsame
      | some note =>
        cases node with
        | none => exact hsame
        | some node => exact .of_view fun _ => rfl
  | humanAttested reference => cases reference <;> exact .of_view fun _ => rfl
  | driverExited => exact hsame
  | editRejected envelope => exact hsame
  | report kind => exact hsame
  | relayed record closes => exact hsame

theorem core_kept (s : RunState) (e : Envelope) : (s.kept e).core = s.core := by
  unfold kept
  split_ifs <;> rfl

/-- whether a record is an adoption this build reads -/
def adopts (e : Envelope) : Bool :=
  match e.body with
  | .driverAdopted _ => writtenAtAKnownVersion e
  | _ => false

/-- **A record of any kind but an adoption.** It folds the rest from the rest alone. -/
theorem through_foldRecord (h : adopts e = false) : Through core fun s => foldRecord host s e := by
  intro s t hv
  by_cases hp : e.isPipeline = true
  · by_cases hx : ∀ v ts stream seq node, e ≠ ⟨v, ts, stream, seq, node, .driverExited⟩
    · simp only [foldRecord_pipeline host _ hp hx]
      by_cases hknown : writtenAtAKnownVersion e = true
      · have hbody : ∀ epoch, e.body ≠ .driverAdopted epoch := by
          intro epoch hb
          rw [adopts, hb, hknown] at h
          cases h
        rw [if_pos hknown, if_pos hknown]
        exact through_foldPipeline hbody (by rw [core_kept, core_kept, hv])
      · have hloose : Through core fun s : RunState => { s with strict := false } := .of_view fun _ => rfl
        rw [if_neg hknown, if_neg hknown]
        exact hloose hv
    · simp only [not_forall, not_not] at hx
      obtain ⟨v, ts, stream, seq, node, rfl⟩ := hx
      exact hv
  · rw [core_relayed (by simpa using hp), core_relayed (by simpa using hp), hv]

/-! ## An adoption -/

def isRunning (s : RunState) (x : String) : Bool := s.recorded[x]?.map Recorded.status = some .running

/-- the session an adoption finds a node's dispatch in -/
def inFlight (s : RunState) (x : String) : Option DispatchSession := if s.isRunning x then s.sessions[x]? else none

/-- a node pinned to the branch of the session its dispatch was in, if it was in one -/
def onto (session : Option DispatchSession) (n : Node) : Node :=
  match session with
  | some session => { n with branch := some session.branch }
  | none => n

theorem mem_sessionsInFlight {session : DispatchSession} :
    (x, session) ∈ s.sessionsInFlight ↔ s.inFlight x = some session := by
  rw [sessionsInFlight, List.mem_filterMap]
  constructor
  · rintro ⟨⟨y, r⟩, hr, hsession⟩
    have hget : s.recorded[y]? = some r := Std.ExtTreeMap.mem_toList_iff_getElem?_eq_some.mp hr
    simp only at hsession
    split_ifs at hsession with hrun
    obtain ⟨found, hfound, heq⟩ := Option.map_eq_some_iff.mp hsession
    obtain ⟨rfl, rfl⟩ := Prod.mk.inj heq
    have hrunning : s.isRunning y = true := by rw [isRunning, hget, Option.map_some, hrun]; rfl
    rw [inFlight, if_pos hrunning, hfound]
  · intro h
    unfold inFlight at h
    split_ifs at h with hrun
    obtain ⟨r, hr, hstatus⟩ := Option.map_eq_some_iff.mp (of_decide_eq_true hrun)
    refine ⟨(x, r), Std.ExtTreeMap.mem_toList_iff_getElem?_eq_some.mpr hr, ?_⟩
    rw [if_pos hstatus, h, Option.map_some]

theorem mem_keys_sessionsInFlight : x ∈ s.sessionsInFlight.map Prod.fst ↔ (s.inFlight x).isSome = true := by
  rw [List.mem_map, Option.isSome_iff_exists]
  constructor
  · rintro ⟨⟨y, session⟩, hp, rfl⟩
    exact ⟨session, mem_sessionsInFlight.mp hp⟩
  · rintro ⟨session, h⟩
    exact ⟨(x, session), mem_sessionsInFlight.mpr h, rfl⟩

/-- the dispatches of a list of sessions named and pinned: the node under each id -/
theorem get_foldl_abandonOne {found : String → Option DispatchSession} {l : List (String × DispatchSession)}
    (hl : ∀ p ∈ l, found p.1 = some p.2) (s : RunState) (x : String) :
    (l.foldl abandonOne s).graph.get x =
      (s.graph.get x).map (onto (if x ∈ l.map Prod.fst then found x else none)) := by
  induction l generalizing s with
  | nil =>
    show s.graph.get x = (s.graph.get x).map (onto none)
    cases s.graph.get x <;> rfl
  | cons p l ih =>
    have hone : (s.abandonOne p).graph.get x =
        if x = p.1 then (s.graph.get x).map (onto (found p.1)) else s.graph.get x := by
      rw [hl p List.mem_cons_self]
      exact Graph.get_modify _ _ _
    rw [List.foldl_cons, ih fun q hq => hl q (List.mem_cons_of_mem _ hq), hone, List.map_cons]
    by_cases hx : x = p.1
    · subst hx
      rw [if_pos rfl, if_pos List.mem_cons_self, hl p List.mem_cons_self, Option.map_map]
      congr 1
      funext n
      show onto (if p.1 ∈ l.map Prod.fst then some p.2 else none) (onto (some p.2) n) = onto (some p.2) n
      split_ifs <;> rfl
    · rw [if_neg hx]
      simp only [List.mem_cons, hx, false_or]

theorem foldl_abandonOne_frame (l : List (String × DispatchSession)) (s : RunState) :
    (l.foldl abandonOne s).core = { s.core with graph := (l.foldl abandonOne s).graph } ∧
      (l.foldl abandonOne s).graph.ids = s.graph.ids ∧
      (l.foldl abandonOne s).graph.concurrency = s.graph.concurrency ∧
      ∀ x, (l.foldl abandonOne s).sessions[x]? = if x ∈ l.map Prod.fst then none else s.sessions[x]? := by
  induction l generalizing s with
  | nil => exact ⟨rfl, rfl, rfl, fun x => rfl⟩
  | cons p l ih =>
    obtain ⟨hcore, hids, hconcurrency, hsessions⟩ := ih (s.abandonOne p)
    refine ⟨hcore, hids.trans (Graph.ids_modify ..), hconcurrency.trans (Graph.concurrency_modify ..), fun x => ?_⟩
    rw [List.foldl_cons, hsessions, List.map_cons]
    show (if x ∈ l.map Prod.fst then none else (s.sessions.erase p.1)[x]?) = _
    rw [Maps.get_erase]
    by_cases hx : x = p.1
    · have hin : x ∈ p.1 :: l.map Prod.fst := hx ▸ List.mem_cons_self
      rw [if_pos hx, if_pos hin, ite_self]
    · rw [if_neg hx]
      simp only [List.mem_cons, hx, false_or]

theorem get_abandoned (s : RunState) (x : String) :
    s.abandonTheDispatchInFlight.graph.get x = (s.graph.get x).map (onto (s.inFlight x)) := by
  rw [abandonTheDispatchInFlight, get_foldl_abandonOne fun p hp => mem_sessionsInFlight.mp hp]
  split_ifs with hx
  · rfl
  · rw [mem_keys_sessionsInFlight, Bool.not_eq_true, Option.isSome_eq_false_iff, Option.isNone_iff_eq_none] at hx
    rw [hx]

theorem sessions_foldAdopted (s : RunState) (x : String) :
    s.foldAdopted.sessions[x]? = if s.isRunning x then none else s.sessions[x]? := by
  obtain ⟨-, -, -, hsessions⟩ := foldl_abandonOne_frame s.sessionsInFlight s
  refine (hsessions x).trans ?_
  simp only [mem_keys_sessionsInFlight, inFlight]
  by_cases hrun : s.isRunning x
  · cases hs : s.sessions[x]? with
    | none => simp
    | some session => simp [hrun]
  · simp [hrun]

/-- an adoption folds the rest from the rest and the branches it pins -/
theorem core_foldAdopted (hv : s.core = t.core)
    (hpin : ∀ y n, t.graph.get y = some n → onto (s.inFlight y) n = onto (t.inFlight y) n) :
    s.foldAdopted.core = t.foldAdopted.core := by
  obtain ⟨hcs, his, hns, -⟩ := foldl_abandonOne_frame s.sessionsInFlight s
  obtain ⟨hct, hit, hnt, -⟩ := foldl_abandonOne_frame t.sessionsInFlight t
  have hgraph : s.graph = t.graph := core_field hv graph
  have habandoned : s.abandonTheDispatchInFlight.graph = t.abandonTheDispatchInFlight.graph := by
    refine Graph.ext_get (hns.trans (hgraph ▸ hnt.symm)) (his.trans (hgraph ▸ hit.symm)) fun y => ?_
    rw [get_abandoned, get_abandoned, hgraph]
    cases hn : t.graph.get y with
    | none => rfl
    | some n => rw [Option.map_some, Option.map_some, hpin y n hn]
  have hcore : s.abandonTheDispatchInFlight.core = t.abandonTheDispatchInFlight.core := by
    refine hcs.trans (Eq.trans ?_ hct.symm)
    rw [hv]
    exact congrArg (fun g => ({ t.core with graph := g } : RunState)) habandoned
  have hrest : Through core fun s : RunState =>
      { s.restacksAreDone with recorded := settledByAdoption s.restacksAreDone.recorded } := .of_view fun _ => rfl
  exact hrest hcore

/-! ## Where a dispatch works -/

/-- whether a record says afresh where a node's dispatch works: a dispatch, a restack's start or a session opening -/
def reopens (x : String) (e : Envelope) : Bool :=
  match e.body with
  | .nodeDispatched _ => writtenAtAKnownVersion e && e.node = some x
  | .nodeRestackStarted node => writtenAtAKnownVersion e && node = some x
  | .relayed (.sessionOpened (some _) _) _ => e.node = some x
  | _ => false

theorem sessions_kept (s : RunState) (e : Envelope) : (s.kept e).sessions = s.sessions := by
  unfold kept
  split_ifs <;> rfl

/-- what one of this crate's own records leaves a node working in, an adoption apart -/
theorem sessions_foldPipeline (hp : e.isPipeline = true) (h : ∀ epoch, e.body ≠ .driverAdopted epoch)
    (hk : writtenAtAKnownVersion e = true) (s : RunState) :
    (s.foldPipeline host e).sessions[x]? = if reopens x e then none else s.sessions[x]? := by
  have herase (y : String) : (s.sessions.erase y)[x]? = if some y = some x then none else s.sessions[x]? := by
    rw [Maps.get_erase]
    by_cases hx : x = y
    · rw [if_pos hx, if_pos (congrArg some hx.symm)]
    · rw [if_neg hx, if_neg fun heq => hx (Option.some.inj heq).symm]
  obtain ⟨v, ts, stream, seq, node, body⟩ := e
  cases body with
  | driverAdopted epoch => exact absurd rfl (h epoch)
  | nodeDispatched composed =>
    cases node with
    | none => simp [reopens, foldPipeline]
    | some node =>
      refine (herase node).trans ?_
      simp [reopens, hk]
  | nodeRestackStarted started =>
    cases started with
    | none => simp [reopens, foldPipeline]
    | some started =>
      refine (herase started).trans ?_
      simp [reopens, hk]
  | nodeSettled settled =>
    cases node with
    | none => rfl
    | some node => exact congrArg (fun a => a.sessions[x]?) (aside_foldSettled node settled)
  | nodeChecksRead read =>
    cases read with
    | none => rfl
    | some read => exact congrArg (fun a => a.sessions[x]?) (aside_foldChecksRead read)
  | editCommitted operations =>
    cases operations with
    | none => rfl
    | some operations => exact congrArg (fun a => a.sessions[x]?) (aside_foldOperations operations)
  | commandAccepted operations =>
    cases operations with
    | none => rfl
    | some operations => exact congrArg (fun a => a.sessions[x]?) (aside_foldOperations operations)
  | runStarted plan => cases plan <;> rfl
  | nodeRequeued => cases node <;> rfl
  | nodeRestacked restacked => cases restacked <;> rfl
  | nodeReadjusted readjusted => cases readjusted <;> rfl
  | changeRetitled retitled => cases retitled <;> rfl
  | nodeLanded landed => cases landed <;> rfl
  | nodeAbsorbed absorbed => cases absorbed <;> rfl
  | releaseAdopted next note =>
    cases next with
    | false => rfl
    | true =>
      cases note with
      | none => rfl
      | some note => cases node <;> rfl
  | humanAttested reference => cases reference <;> rfl
  | driverExited => rfl
  | editRejected envelope => rfl
  | report kind => rfl
  | relayed record closes => cases hp

/-- what a relayed record leaves a node working in -/
theorem sessions_relayed (host : Host) (x : String) (hp : e.isPipeline = false) :
    ∃ said, ∀ s : RunState, (foldRecord host s e).sessions[x]? = if reopens x e then said else s.sessions[x]? := by
  obtain ⟨v, ts, stream, seq, node, body⟩ := e
  cases body with
  | relayed record closes =>
    have hrecalled (s : RunState) : (foldRecord host s ⟨v, ts, stream, seq, node, .relayed record closes⟩).sessions =
        (s.foldRelayed node record).sessions := by
      simp only [foldRecord]
      split_ifs <;> rfl
    simp only [hrecalled]
    cases record with
    | sessionOpened session base =>
      cases node with
      | none => exact ⟨none, fun s => by cases session <;> simp [foldRelayed, reopens]⟩
      | some node =>
        cases session with
        | none => exact ⟨none, fun s => rfl⟩
        | some session =>
          refine ⟨some session, fun s => ?_⟩
          show (s.sessions.insert node session)[x]? = _
          rw [Maps.get_insert]
          by_cases hx : x = node
          · rw [if_pos hx, if_pos (by simp [reopens, hx])]
          · rw [if_neg hx, if_neg (by simpa [reopens] using fun heq => hx heq.symm)]
    | push known branch head =>
      refine ⟨none, fun s => ?_⟩
      show (s.foldRelayed node (.push known branch head)).sessions[x]? = s.sessions[x]?
      unfold foldRelayed
      split <;> first | rfl | contradiction
    | mergeCompleted sha base =>
      refine ⟨none, fun s => ?_⟩
      show (s.foldRelayed node (.mergeCompleted sha base)).sessions[x]? = s.sessions[x]?
      unfold foldRelayed
      split <;> first | rfl | contradiction
    | other => exact ⟨none, fun s => by cases node <;> rfl⟩
  | _ => cases hp

/-- **Where a dispatch works.** A record says it afresh, whatever was said before, or leaves it; an adoption apart. -/
theorem sessions_foldRecord (host : Host) (x : String) (h : adopts e = false) :
    ∃ said, ∀ s : RunState, (foldRecord host s e).sessions[x]? = if reopens x e then said else s.sessions[x]? := by
  by_cases hp : e.isPipeline = true
  · refine ⟨none, fun s => ?_⟩
    by_cases hx : ∀ v ts stream seq node, e ≠ ⟨v, ts, stream, seq, node, .driverExited⟩
    · rw [foldRecord_pipeline host s hp hx]
      by_cases hknown : writtenAtAKnownVersion e = true
      · have hbody : ∀ epoch, e.body ≠ .driverAdopted epoch := by
          intro epoch hb
          rw [adopts, hb, hknown] at h
          cases h
        rw [if_pos hknown, sessions_foldPipeline hp hbody hknown, sessions_kept]
      · have hquiet : reopens x e = false := by
          obtain ⟨v, ts, stream, seq, node, body⟩ := e
          cases body with
          | relayed => cases hp
          | _ => simp [reopens, hknown]
        rw [if_neg hknown, hquiet]
        rfl
    · simp only [not_forall, not_not] at hx
      obtain ⟨v, ts, stream, seq, node, rfl⟩ := hx
      rfl
  · exact sessions_relayed host x (by simpa using hp)

/-- an adoption -/
theorem foldRecord_adopts (h : adopts e = true) (s : RunState) : foldRecord host s e = (s.kept e).foldAdopted := by
  obtain ⟨v, ts, stream, seq, node, body⟩ := e
  cases body with
  | driverAdopted epoch =>
    have hk : writtenAtAKnownVersion ⟨v, ts, stream, seq, node, .driverAdopted epoch⟩ = true := h
    show (if writtenAtAKnownVersion _ then _ else _) = _
    rw [if_pos hk]
    rfl
  | _ => cases h

theorem isRunning_eq (h : s.core = t.core) (y : String) : s.isRunning y = t.isRunning y := by
  rw [isRunning, isRunning, core_field h recorded]

theorem inFlight_eq (h : s.core = t.core) {y : String} (hs : s.sessions[y]? = t.sessions[y]?) :
    s.inFlight y = t.inFlight y := by
  rw [inFlight, inFlight, isRunning_eq h, hs]

theorem inFlight_kept (s : RunState) (e : Envelope) (y : String) : (s.kept e).inFlight y = s.inFlight y :=
  inFlight_eq (core_kept s e) (by rw [sessions_kept])

/-! ## Two folds, one of them told of a session more -/

/-- two states of one core whose dispatches work in the same sessions -/
structure Level (s t : RunState) : Prop where
  core : s.core = t.core
  sessions : ∀ y : String, s.sessions[y]? = t.sessions[y]?

/-- two states of one core whose dispatches work in the same sessions, one node's apart -/
structure Apart (x : String) (session : DispatchSession) (s t : RunState) : Prop where
  core : s.core = t.core
  opened : s.sessions[x]? = some session
  sessions : ∀ y : String, y ≠ x → s.sessions[y]? = t.sessions[y]?

theorem core_adopted (ha : adopts e = true) (h : s.core = t.core)
    (hpin : ∀ y n, t.graph.get y = some n → onto (s.inFlight y) n = onto (t.inFlight y) n) :
    (foldRecord host s e).core = (foldRecord host t e).core := by
  rw [foldRecord_adopts ha, foldRecord_adopts ha]
  refine core_foldAdopted (by rw [core_kept, core_kept, h]) fun y n hn => ?_
  rw [inFlight_kept, inFlight_kept]
  rw [core_field (core_kept t e) graph] at hn
  exact hpin y n hn

theorem sessions_adopted (ha : adopts e = true) (s : RunState) (y : String) :
    (foldRecord host s e).sessions[y]? = if s.isRunning y then none else s.sessions[y]? := by
  rw [foldRecord_adopts ha, sessions_foldAdopted, isRunning_eq (core_kept s e), sessions_kept]

/-- states level stay level -/
theorem Level.foldRecord (h : Level s t) (e : Envelope) : Level (foldRecord host s e) (foldRecord host t e) := by
  by_cases ha : adopts e = true
  · refine ⟨core_adopted ha h.core fun y n _ => by rw [inFlight_eq h.core (h.sessions y)], fun y => ?_⟩
    rw [sessions_adopted ha, sessions_adopted ha, isRunning_eq h.core, h.sessions]
  · rw [Bool.not_eq_true] at ha
    refine ⟨through_foldRecord ha h.core, fun y => ?_⟩
    obtain ⟨said, hsaid⟩ := sessions_foldRecord host y ha
    rw [hsaid, hsaid, h.sessions]

theorem Level.decided_foldl (h : Level s t) (l : List Envelope) :
    (l.foldl (RunState.foldRecord host) s).decided = (l.foldl (RunState.foldRecord host) t).decided := by
  induction l generalizing s t with
  | nil => exact decided_eq h.core
  | cons e l ih => exact ih (h.foldRecord e)

/-- a record that says afresh where the node's dispatch works brings the two level -/
theorem Apart.reopened {session : DispatchSession} (h : Apart x session s t) (hr : reopens x e = true) :
    Level (RunState.foldRecord host s e) (RunState.foldRecord host t e) := by
  have ha : adopts e = false := by
    obtain ⟨v, ts, stream, seq, node, body⟩ := e
    cases body <;> first | rfl | cases hr
  refine ⟨through_foldRecord ha h.core, fun y => ?_⟩
  obtain ⟨said, hsaid⟩ := sessions_foldRecord host y ha
  rw [hsaid, hsaid]
  by_cases hy : y = x
  · rw [hy, if_pos hr, if_pos hr]
  · rw [h.sessions y hy]

/-- a record that neither says it afresh nor adopts the node's dispatch keeps the two apart by it alone -/
theorem Apart.kept {session : DispatchSession} (h : Apart x session s t) (hr : reopens x e = false)
    (hq : ¬(adopts e = true ∧ t.isRunning x = true)) :
    Apart x session (RunState.foldRecord host s e) (RunState.foldRecord host t e) := by
  by_cases ha : adopts e = true
  · have hidle : s.isRunning x = false := by
      rw [isRunning_eq h.core]
      simpa [ha] using hq
    refine ⟨core_adopted ha h.core fun y n _ => ?_, ?_, fun y hy => ?_⟩
    · by_cases hy : y = x
      · rw [inFlight, inFlight, ← isRunning_eq h.core, hy, hidle]
        rfl
      · rw [inFlight_eq h.core (h.sessions y hy)]
    · rw [sessions_adopted ha, hidle]
      exact h.opened
    · rw [sessions_adopted ha, sessions_adopted ha, isRunning_eq h.core, h.sessions y hy]
  · rw [Bool.not_eq_true] at ha
    refine ⟨through_foldRecord ha h.core, ?_, fun y hy => ?_⟩
    · obtain ⟨said, hsaid⟩ := sessions_foldRecord host x ha
      rw [hsaid, hr]
      exact h.opened
    · obtain ⟨said, hsaid⟩ := sessions_foldRecord host y ha
      rw [hsaid, hsaid, h.sessions y hy]

/-! ## A session opening moved -/

/-- whether an adoption leaves a node of the graph on a branch, pinned to it or naming it already -/
def adoptsOnto (t : RunState) (x branch : String) : Bool :=
  (t.graph.get x).all fun n => (onto (t.inFlight x) n).branch = some branch

/-- whether no adoption reads a session once opened for a node: before another record says where the node works, the
first adoption that finds it running would leave it on that branch all the same -/
def Unread (host : Host) (x branch : String) : RunState → List Envelope → Prop
  | _, [] => True
  | t, e :: rest =>
    if reopens x e then True
    else if adopts e && t.isRunning x then t.adoptsOnto x branch = true
    else Unread host x branch (foldRecord host t e) rest

/-- the adoption that reads the session pins the node to its branch -/
theorem Apart.adopted {session : DispatchSession} (h : Apart x session s t) (ha : adopts e = true)
    (hrun : t.isRunning x = true) :
    (t.adoptsOnto x session.branch = true → Level (RunState.foldRecord host s e) (RunState.foldRecord host t e)) ∧
      ((RunState.foldRecord host s e).graph = (RunState.foldRecord host t e).graph →
        t.adoptsOnto x session.branch = true) := by
  have hflight : s.inFlight x = some session := by
    rw [inFlight, isRunning_eq h.core, hrun, if_pos rfl, h.opened]
  constructor
  · intro honto
    refine ⟨core_adopted ha h.core fun y n hn => ?_, fun y => ?_⟩
    · by_cases hy : y = x
      · subst hy
        have hbranch : (onto (t.inFlight y) n).branch = some session.branch := by
          simpa [adoptsOnto, hn] using honto
        rw [hflight]
        cases ht : t.inFlight y with
        | none =>
          rw [ht] at hbranch
          exact congrArg (fun b => ({ n with branch := b } : Node)) hbranch.symm
        | some other =>
          rw [ht] at hbranch
          exact congrArg (fun b => ({ n with branch := b } : Node)) hbranch.symm
      · rw [inFlight_eq h.core (h.sessions y hy)]
    · rw [sessions_adopted ha, sessions_adopted ha, isRunning_eq h.core]
      by_cases hy : y = x
      · rw [hy, hrun]
        rfl
      · rw [h.sessions y hy]
  · intro hgraph
    have hget (s : RunState) : (RunState.foldRecord host s e).graph.get x = (s.graph.get x).map (onto (s.inFlight x)) := by
      rw [foldRecord_adopts ha]
      refine (get_abandoned (s.kept e) x).trans ?_
      rw [inFlight_kept, core_field (core_kept s e) graph]
    have hboth : (s.graph.get x).map (onto (s.inFlight x)) = (t.graph.get x).map (onto (t.inFlight x)) := by
      rw [← hget, hgraph, hget]
    rw [core_field h.core graph, hflight] at hboth
    unfold adoptsOnto
    cases hn : t.graph.get x with
    | none => rfl
    | some n =>
      rw [hn, Option.map_some, Option.map_some, Option.some.injEq] at hboth
      rw [Option.all_some, ← hboth]
      exact decide_eq_true rfl

/-- **A session opening.** Told of it or not, a run is decided alike all along exactly when no adoption reads it. -/
theorem Apart.decided_iff {session : DispatchSession} (h : Apart x session s t) (rest : List Envelope) :
    (∀ p, p <+: rest → (p.foldl (RunState.foldRecord host) s).decided = (p.foldl (RunState.foldRecord host) t).decided) ↔
      Unread host x session.branch t rest := by
  induction rest generalizing s t with
  | nil =>
    refine iff_of_true (fun p hp => ?_) trivial
    rw [List.prefix_nil.mp hp]
    exact decided_eq h.core
  | cons e rest ih =>
    have hcons : (∀ p, p <+: e :: rest →
        (p.foldl (RunState.foldRecord host) s).decided = (p.foldl (RunState.foldRecord host) t).decided) ↔
          ∀ p, p <+: rest → (p.foldl (RunState.foldRecord host) (RunState.foldRecord host s e)).decided =
            (p.foldl (RunState.foldRecord host) (RunState.foldRecord host t e)).decided := by
      constructor
      · intro hall p hp
        exact hall (e :: p) ((List.prefix_cons_inj e).mpr hp)
      · intro hall p hp
        rcases List.prefix_cons_iff.mp hp with rfl | ⟨q, rfl, hq⟩
        · exact decided_eq h.core
        · exact hall q hq
    rw [hcons]
    unfold Unread
    by_cases hr : reopens x e = true
    · rw [if_pos hr]
      exact iff_of_true (fun p _ => (h.reopened hr).decided_foldl p) trivial
    · rw [Bool.not_eq_true] at hr
      by_cases hq : adopts e = true ∧ t.isRunning x = true
      · rw [if_neg (by simp [hr]), if_pos (by simpa using hq)]
        obtain ⟨hlevel, honto⟩ := h.adopted (e := e) hq.1 hq.2
        constructor
        · intro hall
          exact honto (congrArg Decided.graph (hall [] List.nil_prefix))
        · intro hon p _
          exact (hlevel hon).decided_foldl p
      · rw [if_neg (by simp [hr]), if_neg (by simpa using hq)]
        exact ih (h.kept hr hq)

/-- the node a relayed record opens a session for, and the session -/
def opens (e : Envelope) : Option (String × DispatchSession) :=
  match e.node, e.body with
  | some node, .relayed (.sessionOpened (some session) _) _ => some (node, session)
  | _, _ => none

/-- a relayed record that opens no session leaves every dispatch where it worked -/
theorem level_of_relayed (hr : e.isPipeline = false) (ho : opens e = none) (s : RunState) :
    Level (RunState.foldRecord host s e) s := by
  refine ⟨core_relayed hr, fun y => ?_⟩
  obtain ⟨said, hsaid⟩ := sessions_relayed host y hr
  have hquiet : reopens y e = false := by
    obtain ⟨v, ts, stream, seq, node, body⟩ := e
    cases body with
    | relayed record closes =>
      cases record with
      | sessionOpened session base =>
        cases session with
        | none => rfl
        | some session =>
          cases node with
          | none => rfl
          | some node => cases ho
      | _ => rfl
    | _ => cases hr
  rw [hsaid, hquiet]
  rfl

/-- a relayed record that opens a session leaves its node working in it -/
theorem apart_of_opens {session : DispatchSession} (hr : e.isPipeline = false) (ho : opens e = some (x, session))
    (s : RunState) : Apart x session (RunState.foldRecord host s e) s := by
  obtain ⟨v, ts, stream, seq, node, body⟩ := e
  unfold opens at ho
  split at ho
  · rename_i node' opened base closes hnode hbody
    simp only at hnode hbody
    subst hnode hbody
    obtain ⟨rfl, rfl⟩ := Prod.mk.inj (Option.some.inj ho)
    refine ⟨core_relayed hr, ?_, fun y hy => ?_⟩
    · simp only [RunState.foldRecord, foldRelayed]
      split_ifs
      · exact (Maps.get_insert ..).trans (if_pos rfl)
      · exact (Maps.get_insert ..).trans (if_pos rfl)
    · simp only [RunState.foldRecord, foldRelayed]
      split_ifs
      · exact (Maps.get_insert ..).trans (if_neg hy)
      · exact (Maps.get_insert ..).trans (if_neg hy)
  · cases ho

end RunState

/-- **A late relayed record.** Moved behind every record after it, it leaves what a run is decided by as it was, all
along, exactly when it opens no session, or no adoption reads the session it opens. -/
theorem late_relayed_iff (host : Host) (front back : List Envelope) {r : Envelope} (hr : r.isPipeline = false) :
    (∀ p, p <+: back →
        (RunState.fold host (front ++ r :: p)).decided = (RunState.fold host (front ++ (p ++ [r]))).decided) ↔
      ∀ x session, RunState.opens r = some (x, session) →
        RunState.Unread host x session.branch (RunState.fold host front) back := by
  have hmoved (p : List Envelope) : (RunState.fold host (front ++ (p ++ [r]))).decided =
      (p.foldl (RunState.foldRecord host) (RunState.fold host front)).decided := by
    rw [RunState.fold, List.foldl_append, List.foldl_append]
    exact RunState.decided_eq (RunState.core_relayed hr)
  have hstays (p : List Envelope) : RunState.fold host (front ++ r :: p) =
      p.foldl (RunState.foldRecord host) (RunState.foldRecord host (RunState.fold host front) r) := by
    rw [RunState.fold, List.foldl_append, List.foldl_cons]
    rfl
  simp only [hmoved, hstays]
  cases ho : RunState.opens r with
  | none =>
    refine iff_of_true (fun p _ => ?_) nofun
    exact (RunState.level_of_relayed hr ho _).decided_foldl p
  | some opened =>
    obtain ⟨x, session⟩ := opened
    rw [(RunState.apart_of_opens hr ho _).decided_iff back]
    constructor
    · intro hunread y other heq
      obtain ⟨rfl, rfl⟩ := Prod.mk.inj (Option.some.inj heq)
      exact hunread
    · exact fun hall => hall x session rfl

/-! ### A session opened before an adoption, and one whose node settled first -/

/-- a session of a node opening, as a sibling relays it -/
def openedSession : Envelope :=
  .own 1 (some "a") (.relayed (.sessionOpened (some { token := "t", branch := "work" }) none) false)

/-- a node dispatched in a session, and the run adopted: told of the session late, it is left on no branch -/
theorem late_session_leaves_no_branch :
    (RunState.fold .lenient ([.own 0 none (.runStarted (some .single)), .own 1 (some "a") (.nodeDispatched .unstated)] ++
        openedSession :: [.own 2 none .driverAdopted])).decided ≠
      (RunState.fold .lenient ([.own 0 none (.runStarted (some .single)), .own 1 (some "a") (.nodeDispatched .unstated)] ++
        ([.own 2 none .driverAdopted] ++ [openedSession]))).decided := by
  intro h
  have hbranch := congrArg (fun d => (d.graph.get "a").bind Node.branch) h
  exact absurd hbranch (by decide)

/-- a node that settled before the run was adopted: its session opening may come late -/
theorem late_session_after_settlement :
    (RunState.fold .lenient ([.own 0 none (.runStarted (some .single)), .own 1 (some "a") (.nodeDispatched .unstated)] ++
        openedSession :: [.own 2 (some "a") (.nodeSettled { status := some .done }), .own 3 none .driverAdopted])).decided =
      (RunState.fold .lenient ([.own 0 none (.runStarted (some .single)), .own 1 (some "a") (.nodeDispatched .unstated)] ++
        ([.own 2 (some "a") (.nodeSettled { status := some .done }), .own 3 none .driverAdopted] ++ [openedSession]))).decided := by
  refine (late_relayed_iff .lenient _ _ rfl).mpr (fun x session ho => ?_) _ List.prefix_rfl
  cases ho
  simp only [RunState.Unread]
  rw [if_neg (by decide), if_neg (by decide), if_neg (by decide), if_neg (by decide)]
  trivial

end OnePipeline
