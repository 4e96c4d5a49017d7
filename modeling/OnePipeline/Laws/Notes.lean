/-
The notes standing for a node, read off the records the fold keeps whole and off the whole journal.

Results:
- `recalled_foldRecord`, `noted_foldRecord`: which records are kept whole, and which nodes count as noted;
- `standing_recalled_iff`: the two readings agree exactly where no dispatch left out of the kept records reset the fold.
-/
import Mathlib.Tactic
import OnePipeline.Laws.Folded
import OnePipeline.Model.Note
import OnePipeline.Model.Run

namespace OnePipeline

open RunState

/-! ## The fold of the notes -/

section Standing

variable {node : String} {held : List Held}

theorem standing_append (journal : List Envelope) (e : Envelope) (node : String) :
    standing (journal ++ [e]) node = standing journal node >>= fun held => standOne node held e := by
  rw [standing, List.foldlM_append]
  simp [standing]

/-- operations that deliver the node no note and take none back leave what stands -/
theorem standOperations_of_not_noted {ops : List Operation} (h : node ∉ notedBy ops) :
    standOperations node held ops = held := by
  unfold standOperations
  induction ops generalizing held with
  | nil => rfl
  | cons op ops ih =>
    rw [notedBy, List.filterMap_cons] at h
    have hone : standOperation node held op = held := by
      cases op with
      | noteDelivered whose addressee text criterion reached envelope index =>
        have hne : whose ≠ node := fun heq => h (by simp [heq])
        simp only [standOperation, if_neg hne]
      | noteWithdrawn whose envelope index «from» text alikeAfter =>
        have hne : whose ≠ node := fun heq => h (by simp [heq])
        simp only [standOperation, if_neg hne]
      | _ => rfl
    rw [List.foldl_cons, hone]
    refine ih fun hin => h ?_
    cases op <;> first | exact hin | exact List.mem_cons_of_mem _ hin

/-- notes a dispatch was composed with stay in front, whatever is delivered or taken back since -/
theorem standOperations_append {front : List Held} (hfront : ∀ h ∈ front, h.placement = .composedIntoIt)
    (ops : List Operation) : standOperations node (front ++ held) ops = front ++ standOperations node held ops := by
  unfold standOperations
  induction ops generalizing held with
  | nil => rfl
  | cons op ops ih =>
    have hone : standOperation node (front ++ held) op = front ++ standOperation node held op := by
      cases op with
      | noteDelivered whose addressee text criterion reached envelope index =>
        simp only [standOperation, RecordedNote.ofDelivery]
        split_ifs
        · exact List.append_assoc ..
        · rfl
      | noteWithdrawn whose envelope index «from» text alikeAfter =>
        simp only [standOperation]
        split_ifs
        · rw [List.filter_append, List.filter_eq_self.mpr]
          intro h hin
          simp [hfront h hin]
        · rfl
      | _ => rfl
    rw [List.foldl_cons, List.foldl_cons, hone, ih]

theorem composedHeld_placed {notes : List RecordedNote} : ∀ h ∈ composedHeld notes, h.placement = .composedIntoIt := by
  intro h hin
  obtain ⟨note, -, rfl⟩ := List.mem_map.mp hin
  rfl

end Standing

/-! ## What is kept whole -/

namespace RunState

variable {host : Host} {s : RunState} {e : Envelope}

/-- the operations a commit carries, where the record is a commit -/
def commits (e : Envelope) : Option (Option (List Operation)) :=
  match e.body with
  | .editCommitted operations | .commandAccepted operations => some operations
  | _ => none

/-- whether a record of this crate's own is kept whole -/
def keeps (s : RunState) (e : Envelope) : Bool :=
  match e.body with
  | .editCommitted operations | .commandAccepted operations => operations.all fun ops => notedBy ops ≠ []
  | .driverExited => true
  | _ => recalledWhole s e

theorem trail_foldAdopted (s : RunState) : s.foldAdopted.recalled = s.recalled ∧ s.foldAdopted.noted = s.noted := by
  have hfold (l : List (String × DispatchSession)) (t : RunState) :
      (l.foldl abandonOne t).recalled = t.recalled ∧ (l.foldl abandonOne t).noted = t.noted := by
    induction l generalizing t with
    | nil => exact ⟨rfl, rfl⟩
    | cons p l ih => exact ih (t.abandonOne p)
  exact hfold s.sessionsInFlight s

/-- what a record leaves kept whole and noted -/
theorem trail_foldPipeline (hc : commits e = none) :
    (s.foldPipeline host e).recalled = s.recalled ∧ (s.foldPipeline host e).noted = s.noted := by
  have haside {t : RunState} (h : t.aside = s.aside) : t.recalled = s.recalled ∧ t.noted = s.noted :=
    ⟨congrArg Aside.recalled h, congrArg Aside.noted h⟩
  obtain ⟨v, ts, stream, seq, node, body⟩ := e
  cases body with
  | editCommitted operations => cases hc
  | commandAccepted operations => cases hc
  | nodeDispatched composed => cases node <;> exact ⟨rfl, rfl⟩
  | nodeRequeued => cases node <;> exact ⟨rfl, rfl⟩
  | nodeSettled settled =>
    cases node with
    | none => exact ⟨rfl, rfl⟩
    | some node =>
      have h := aside_foldSettled (s := s) node settled
      exact ⟨congrArg Aside.recalled h, congrArg Aside.noted h⟩
  | nodeChecksRead read =>
    cases read with
    | none => exact ⟨rfl, rfl⟩
    | some read => exact haside (aside_foldChecksRead read)
  | driverAdopted => exact trail_foldAdopted s
  | runStarted plan => cases plan <;> exact ⟨rfl, rfl⟩
  | nodeRestackStarted started => cases started <;> exact ⟨rfl, rfl⟩
  | nodeRestacked restacked => cases restacked <;> exact ⟨rfl, rfl⟩
  | nodeReadjusted readjusted => cases readjusted <;> exact ⟨rfl, rfl⟩
  | changeRetitled retitled => cases retitled <;> exact ⟨rfl, rfl⟩
  | nodeLanded landed => cases landed <;> exact ⟨rfl, rfl⟩
  | nodeAbsorbed absorbed => cases absorbed <;> exact ⟨rfl, rfl⟩
  | humanAttested reference => cases reference <;> exact ⟨rfl, rfl⟩
  | releaseAdopted next note =>
    cases next with
    | false => exact ⟨rfl, rfl⟩
    | true =>
      cases note with
      | none => exact ⟨rfl, rfl⟩
      | some note => cases node <;> exact ⟨rfl, rfl⟩
  | _ => exact ⟨rfl, rfl⟩

theorem trail_kept (s : RunState) (e : Envelope) :
    (s.kept e).recalled = (if recalledWhole s e then s.recalled ++ [e] else s.recalled) ∧ (s.kept e).noted = s.noted := by
  unfold kept
  split_ifs <;> exact ⟨rfl, rfl⟩

/-- a commit's own record is kept for the notes its operations carry, or for operations that cannot be read -/
theorem trail_commit {ops : Option (List Operation)} (hc : commits e = some ops) (hk : writtenAtAKnownVersion e = true)
    (s : RunState) :
    (foldRecord host s e).recalled = (if ops.all (fun ops => notedBy ops ≠ []) then s.recalled ++ [e] else s.recalled) ∧
      (foldRecord host s e).noted = (ops.elim [] notedBy).foldl (fun m node => m.insert node) s.noted := by
  have hwhole : foldRecord host s e = s.foldEdit host e ops := by
    obtain ⟨v, ts, stream, seq, node, body⟩ := e
    cases body with
    | editCommitted operations =>
      cases hc
      exact if_pos hk
    | commandAccepted operations =>
      cases hc
      exact if_pos hk
    | _ => cases hc
  rw [hwhole]
  cases ops with
  | none => exact ⟨rfl, rfl⟩
  | some ops =>
    have h : ((s.foldCommit e (some ops)).foldOperations host ops (millisOf e.ts)).aside = (s.foldCommit e (some ops)).aside :=
      aside_foldOperations ops
    refine ⟨(congrArg Aside.recalled h).trans ?_, congrArg Aside.noted h⟩
    show (if notedBy ops = [] then s.recalled else s.recalled ++ [e]) = _
    by_cases hn : notedBy ops = []
    · simp [hn]
    · simp [hn]

/-- **What is kept whole.** -/
theorem recalled_foldRecord (hp : e.isPipeline = true) (hk : writtenAtAKnownVersion e = true) (s : RunState) :
    (foldRecord host s e).recalled = if s.keeps e then s.recalled ++ [e] else s.recalled := by
  cases hc : commits e with
  | some ops =>
    rw [(trail_commit hc hk s).1]
    obtain ⟨v, ts, stream, seq, node, body⟩ := e
    cases body <;> cases hc <;> rfl
  | none =>
    by_cases hx : ∀ v ts stream seq node, e ≠ ⟨v, ts, stream, seq, node, .driverExited⟩
    · rw [foldRecord_pipeline host s hp hx, if_pos hk, (trail_foldPipeline hc).1, (trail_kept s e).1]
      obtain ⟨v, ts, stream, seq, node, body⟩ := e
      cases body with
      | driverExited => exact absurd rfl (hx v ts stream seq node)
      | editCommitted operations => cases hc
      | commandAccepted operations => cases hc
      | _ => rfl
    · simp only [not_forall, not_not] at hx
      obtain ⟨v, ts, stream, seq, node, rfl⟩ := hx
      rfl

/-- which nodes a record leaves noted -/
theorem noted_foldRecord (hp : e.isPipeline = true) (hk : writtenAtAKnownVersion e = true) (s : RunState) (x : String) :
    x ∈ (foldRecord host s e).noted ↔ x ∈ s.noted ∨ x ∈ ((commits e).bind id).elim [] notedBy := by
  cases hc : commits e with
  | some ops =>
    rw [(trail_commit hc hk s).2]
    have hfold (l : List String) (m : StrSet) : x ∈ l.foldl (fun m node => m.insert node) m ↔ x ∈ m ∨ x ∈ l := by
      induction l generalizing m with
      | nil => simp
      | cons a l ih =>
        rw [List.foldl_cons, ih, List.mem_cons, Std.ExtTreeSet.mem_insert, Std.LawfulEqCmp.compare_eq_iff_eq]
        constructor
        · rintro ((rfl | h) | h)
          · exact .inr (.inl rfl)
          · exact .inl h
          · exact .inr (.inr h)
        · rintro (h | rfl | h)
          · exact .inl (.inr h)
          · exact .inl (.inl rfl)
          · exact .inr h
    rw [hfold]
    rfl
  | none =>
    rw [Option.bind_none, Option.elim_none]
    by_cases hx : ∀ v ts stream seq node, e ≠ ⟨v, ts, stream, seq, node, .driverExited⟩
    · rw [foldRecord_pipeline host s hp hx, if_pos hk, (trail_foldPipeline hc).2, (trail_kept s e).2]
      simp
    · simp only [not_forall, not_not] at hx
      obtain ⟨v, ts, stream, seq, node, rfl⟩ := hx
      simp [foldRecord]

end RunState

/-! ## A dispatch left out -/

/-- what a run's records have said of a node's notes so far -/
structure Said where
  /-- a commit delivered it a note or took one back -/
  noted : Bool := false
  /-- its last dispatch kept whole was composed with a note -/
  composed : Bool := false
  /-- a dispatch left out since then was composed with none -/
  leftOut : Bool := false

/-- one record more -/
def Said.with (node : String) (said : Said) (e : Envelope) : Said :=
  match e.body with
  | .nodeDispatched composed =>
    if e.node = some node then
      match composed with
      | .notes notes => { said with composed := notes ≠ [], leftOut := false }
      | .unstated =>
        if said.noted then { said with composed := false, leftOut := false }
        else { said with leftOut := said.composed }
      | .unreadable => said
    else said
  | .editCommitted (some operations) | .commandAccepted (some operations) =>
    { said with noted := said.noted || node ∈ notedBy operations }
  | _ => said

/-- whether a dispatch of the node that was composed with no note, and is left out of the records kept whole, reset notes
that those records still hold -/
def leavesOut (records : List Envelope) (node : String) : Bool := (records.foldl (Said.with node) {}).leftOut

/-- what stands by the records kept whole, beside what stands by all of them -/
structure Tracks (node : String) (s : RunState) (said : Said) (kept all : List Held) : Prop where
  read : standing s.recalled node = .ok kept
  noted : said.noted = true ↔ node ∈ s.noted
  composed : said.noted = false → (said.composed = true ↔ kept ≠ [])
  placed : said.noted = false → ∀ h ∈ kept, h.placement = .composedIntoIt
  same : said.leftOut = false → kept = all
  apart : said.leftOut = true → ∃ front, front ≠ [] ∧ (∀ h ∈ front, h.placement = .composedIntoIt) ∧ kept = front ++ all
  reset : said.leftOut = true → said.noted = false → all = []

namespace Tracks

variable {host : Host} {node : String} {s s' : RunState} {said : Said} {kept all : List Held} {e : Envelope}

theorem start (node : String) : Tracks node {} {} [] [] where
  read := rfl
  noted := by simp
  composed := by simp
  placed := by simp
  same _ := rfl
  apart := nofun
  reset := nofun

/-- a record that says nothing of the node's notes, kept whole or not -/
theorem quiet (h : Tracks node s said kept all) (hread : standing s'.recalled node = standing s.recalled node)
    (hnoted : node ∈ s'.noted ↔ node ∈ s.noted) : Tracks node s' said kept all :=
  { h with
    read := hread.trans h.read
    noted := h.noted.trans hnoted.symm }

/-- a dispatch kept whole resets both readings alike -/
theorem dispatched (h : Tracks node s said kept all) (notes : List RecordedNote)
    (hread : standing s'.recalled node = .ok (composedHeld notes)) (hnoted : node ∈ s'.noted ↔ node ∈ s.noted) :
    Tracks node s' { said with composed := notes ≠ [], leftOut := false } (composedHeld notes) (composedHeld notes) where
  read := hread
  noted := h.noted.trans hnoted.symm
  composed _ := by simp [composedHeld]
  placed _ := composedHeld_placed
  same _ := rfl
  apart := nofun
  reset := nofun

/-- a dispatch left out resets the reading of every record alone -/
theorem leftOut (h : Tracks node s said kept all) (hn : said.noted = false)
    (hread : standing s'.recalled node = standing s.recalled node) (hnoted : node ∈ s'.noted ↔ node ∈ s.noted) :
    Tracks node s' { said with leftOut := said.composed } kept [] where
  read := hread.trans h.read
  noted := h.noted.trans hnoted.symm
  composed := h.composed
  placed := h.placed
  same hc := by
    by_contra hne
    have hcomposed : said.composed = true := (h.composed hn).mpr hne
    rw [show said.composed = false from hc] at hcomposed
    cases hcomposed
  apart hc := ⟨kept, (h.composed hn).mp hc, h.placed hn, (List.append_nil _).symm⟩
  reset _ _ := rfl

/-- a commit of notes is read alike by both -/
theorem committed (h : Tracks node s said kept all) (ops : List Operation)
    (hread : standing s'.recalled node = .ok (standOperations node kept ops))
    (hnoted : node ∈ s'.noted ↔ node ∈ s.noted ∨ node ∈ notedBy ops) :
    Tracks node s' { said with noted := said.noted || node ∈ notedBy ops } (standOperations node kept ops)
      (standOperations node all ops) := by
  have hun (hf : (said.noted || decide (node ∈ notedBy ops)) = false) : said.noted = false ∧ node ∉ notedBy ops := by
    simpa using hf
  refine ⟨hread, ?_, fun hf => ?_, fun hf => ?_, fun hf => ?_, fun hf => ?_, fun hf hn => ?_⟩
  · rw [hnoted, ← h.noted]
    simp
  · rw [standOperations_of_not_noted (hun hf).2]
    exact h.composed (hun hf).1
  · rw [standOperations_of_not_noted (hun hf).2]
    exact h.placed (hun hf).1
  · rw [h.same hf]
  · obtain ⟨front, hne, hplaced, rfl⟩ := h.apart hf
    exact ⟨front, hne, hplaced, standOperations_append hplaced ops⟩
  · rw [standOperations_of_not_noted (hun hn).2]
    exact h.reset hf (hun hn).1

/-- the two readings are one exactly where no dispatch was left out -/
theorem agree_iff (h : Tracks node s said kept all) : kept = all ↔ said.leftOut = false := by
  constructor
  · intro heq
    by_contra hleft
    obtain ⟨front, hne, -, happ⟩ := h.apart (by simpa using hleft)
    rw [heq] at happ
    exact hne (List.self_eq_append_left.mp happ)
  · exact h.same

/-! ### One record -/

/-- both readings fail alike at a record, or the two are tracked past it -/
def Past (host : Host) (node : String) (s : RunState) (said : Said) (all : List Held) (e : Envelope) : Prop :=
  (∃ error, standOne node all e = .error error ∧ standing (foldRecord host s e).recalled node = .error error) ∨
    ∃ kept' all', standOne node all e = .ok all' ∧ Tracks node (foldRecord host s e) (said.with node e) kept' all'

theorem read_foldRecord (h : Tracks node s said kept all) (hp : e.isPipeline = true)
    (hk : writtenAtAKnownVersion e = true) :
    standing (foldRecord host s e).recalled node = if s.keeps e then standOne node kept e else .ok kept := by
  rw [recalled_foldRecord hp hk s]
  split_ifs
  · rw [standing_append, h.read]
    rfl
  · exact h.read

/-- a record neither a dispatch of the node nor a commit is read to the same notes, kept whole or not -/
theorem past_other (h : Tracks node s said kept all) (hp : e.isPipeline = true) (hk : writtenAtAKnownVersion e = true)
    (hone : ∀ held, standOne node held e = .ok held) (hsaid : said.with node e = said)
    (hnone : (commits e).bind id = none) : Past host node s said all e := by
  refine .inr ⟨kept, all, hone all, ?_⟩
  rw [hsaid]
  refine h.quiet ?_ ?_
  · rw [h.read_foldRecord hp hk, hone, h.read, ite_self]
  · rw [noted_foldRecord hp hk s node, hnone, Option.elim_none]
    simp

theorem past_commit (h : Tracks node s said kept all) (hp : e.isPipeline = true) (hk : writtenAtAKnownVersion e = true)
    (ops : Option (List Operation)) (error : UnreadableRecord) (hkeeps : s.keeps e = ops.all fun ops => notedBy ops ≠ [])
    (hcommits : commits e = some ops)
    (hone : ∀ held, standOne node held e = ops.elim (.error error) fun ops => .ok (standOperations node held ops))
    (hsaid : said.with node e = ops.elim said fun ops => { said with noted := said.noted || node ∈ notedBy ops }) :
    Past host node s said all e := by
  cases ops with
  | none =>
    refine .inl ⟨error, hone all, ?_⟩
    rw [h.read_foldRecord hp hk, hkeeps, Option.all_none, if_pos rfl]
    exact hone kept
  | some ops =>
    refine .inr ⟨standOperations node kept ops, standOperations node all ops, hone all, ?_⟩
    rw [hsaid]
    refine h.committed ops ?_ ?_
    · rw [h.read_foldRecord hp hk, hkeeps, Option.all_some]
      split_ifs with hn
      · exact hone kept
      · have hnil : notedBy ops = [] := by simpa using hn
        rw [standOperations_of_not_noted (by rw [hnil]; exact List.not_mem_nil)]
    · rw [noted_foldRecord hp hk s node, hcommits]
      rfl

theorem past_dispatch (h : Tracks node s said kept all) {composed : Composed} (hbody : e.body = .nodeDispatched composed)
    (hnode : e.node = some node) (hk : writtenAtAKnownVersion e = true) : Past host node s said all e := by
  have hp : e.isPipeline = true := by rw [Envelope.isPipeline, hbody]
  have hone (held : List Held) : standOne node held e = (composedOf e composed).map composedHeld := by
    rw [standOne, hbody]
    simp only [if_pos hnode]
    cases composedOf e composed <;> rfl
  have hkeeps : s.keeps e = (decide (composed ≠ .unstated) || decide (node ∈ s.noted)) := by
    simp [RunState.keeps, recalledWhole, hbody, hnode]
  have hsame : node ∈ (foldRecord host s e).noted ↔ node ∈ s.noted := by
    rw [noted_foldRecord hp hk s node]
    simp [commits, hbody]
  cases composed with
  | unreadable =>
    refine .inl ⟨_, hone all, ?_⟩
    rw [h.read_foldRecord hp hk, hkeeps, if_pos (by simp), hone]
    rfl
  | notes notes =>
    have hsaid : said.with node e = { said with composed := notes ≠ [], leftOut := false } := by
      simp only [Said.with, hbody, if_pos hnode]
    refine .inr ⟨composedHeld notes, composedHeld notes, hone all, ?_⟩
    rw [hsaid]
    refine h.dispatched notes ?_ hsame
    rw [h.read_foldRecord hp hk, hkeeps, if_pos (by simp), hone]
    rfl
  | unstated =>
    cases hn : said.noted with
    | true =>
      have hsaid : said.with node e = { said with composed := ([] : List RecordedNote) ≠ [], leftOut := false } := by
        simp only [Said.with, hbody, if_pos hnode, hn]
        rfl
      refine .inr ⟨composedHeld [], composedHeld [], hone all, ?_⟩
      rw [hsaid]
      refine h.dispatched [] ?_ hsame
      rw [h.read_foldRecord hp hk, hkeeps, if_pos (by simpa using h.noted.mp hn), hone]
      rfl
    | false =>
      have hout : node ∉ s.noted := fun hin => by
        rw [h.noted.mpr hin] at hn
        cases hn
      have hsaid : said.with node e = { said with leftOut := said.composed } := by
        simp only [Said.with, hbody, if_pos hnode]
        exact if_neg (by simp [hn])
      refine .inr ⟨kept, [], hone all, ?_⟩
      rw [hsaid]
      refine h.leftOut hn ?_ hsame
      rw [h.read_foldRecord hp hk, hkeeps, if_neg (by simpa using hout), h.read]

/-- **A record.** -/
theorem past (h : Tracks node s said kept all) (hp : e.isPipeline = true) (hk : writtenAtAKnownVersion e = true) :
    Past host node s said all e := by
  obtain ⟨v, ts, stream, seq, whose, body⟩ := e
  cases body with
  | nodeDispatched composed =>
    by_cases hwhose : whose = some node
    · exact h.past_dispatch rfl hwhose hk
    · refine h.past_other hp hk (fun held => ?_) ?_ rfl
      · simp only [standOne, if_neg hwhose]
        rfl
      · simp only [Said.with, if_neg hwhose]
  | editCommitted operations =>
    refine h.past_commit hp hk operations { kind := "edit-committed", stream, seq, field := "operations" } rfl rfl
      (fun held => ?_) ?_
    · cases operations <;> rfl
    · cases operations <;> rfl
  | commandAccepted operations =>
    refine h.past_commit hp hk operations { kind := "command-accepted", stream, seq, field := "operations" } rfl rfl
      (fun held => ?_) ?_
    · cases operations <;> rfl
    · cases operations <;> rfl
  | _ => exact h.past_other hp hk (fun _ => rfl) rfl rfl

/-! ### A run -/

/-- a record that could not be read is met again whatever is kept after it -/
theorem error_stands {l : List Envelope} (hl : ∀ e ∈ l, e.isPipeline = true ∧ writtenAtAKnownVersion e = true)
    {error : UnreadableRecord} (h : standing s.recalled node = .error error) :
    standing (l.foldl (foldRecord host) s).recalled node = .error error := by
  induction l generalizing s with
  | nil => exact h
  | cons e l ih =>
    refine ih (fun e he => hl e (List.mem_cons_of_mem _ he)) ?_
    obtain ⟨hp, hk⟩ := hl e List.mem_cons_self
    rw [recalled_foldRecord hp hk s]
    split_ifs
    · rw [standing_append, h]
      rfl
    · exact h

theorem run {l : List Envelope} (h : Tracks node s said kept all)
    (hl : ∀ e ∈ l, e.isPipeline = true ∧ writtenAtAKnownVersion e = true) :
    standing (l.foldl (foldRecord host) s).recalled node = l.foldlM (standOne node) all ↔
      (∃ error, l.foldlM (standOne node) all = .error error) ∨ (l.foldl (Said.with node) said).leftOut = false := by
  induction l generalizing s said kept all with
  | nil =>
    rw [List.foldl_nil, List.foldl_nil, List.foldlM_nil, h.read, ← h.agree_iff]
    constructor
    · exact fun heq => .inr (Except.ok.inj heq)
    · rintro (⟨error, herror⟩ | heq)
      · cases herror
      · rw [heq]
        rfl
  | cons e l ih =>
    obtain ⟨hp, hk⟩ := hl e List.mem_cons_self
    have hrest : ∀ e ∈ l, e.isPipeline = true ∧ writtenAtAKnownVersion e = true :=
      fun e he => hl e (List.mem_cons_of_mem _ he)
    rw [List.foldl_cons, List.foldl_cons, List.foldlM_cons]
    rcases (h.past hp hk : Past host node s said all e) with ⟨error, hall, hkept⟩ | ⟨kept', all', hall, htracks⟩
    · rw [hall, error_stands hrest hkept]
      exact iff_of_true rfl (.inl ⟨error, rfl⟩)
    · rw [hall]
      exact ih htracks hrest

end Tracks

/-- **The notes read back.** What stands for a node by the records kept whole is what stands by the whole journal exactly
where a record cannot be read, in which case both name it, or no dispatch of the node was left out over kept notes. -/
theorem standing_recalled_iff (host : Host) {records : List Envelope}
    (hown : ∀ e ∈ records, e.isPipeline = true ∧ writtenAtAKnownVersion e = true) (node : String) :
    standing (RunState.fold host records).recalled node = standing records node ↔
      (∃ error, standing records node = .error error) ∨ leavesOut records node = false :=
  (Tracks.start node).run hown

/-! ### A dispatch left out over notes, and one kept -/

/-- a note as a dispatch's record carries it -/
def ruling : RecordedNote := { addressee := .worker, text := "keep the old format", criterion := none, reached := .queued }

/-- a node dispatched with a note no commit of this journal delivered, and dispatched again with none -/
def redispatchedRun : List Envelope :=
  [.own 0 none (.runStarted (some .single)), .own 1 (some "a") (.nodeDispatched (.notes [ruling])),
    .own 2 (some "a") (.nodeDispatched .unstated)]

/-- by the whole journal the second dispatch holds no note; by the records kept whole it holds the first one's -/
theorem redispatched_holds_the_note :
    standing redispatchedRun "a" = .ok [] ∧
      standing (RunState.fold .lenient redispatchedRun).recalled "a" =
        .ok [{ note := ruling, placement := .composedIntoIt, sent := none }] := by
  refine ⟨rfl, ?_⟩
  decide

/-- a note delivered by a commit, composed into a dispatch, and spent by the next -/
def deliveredRun : List Envelope :=
  [.own 0 none (.runStarted (some .single)), .own 1 (some "a") (.nodeDispatched .unstated),
    .own 2 none (.editCommitted (some [.noteDelivered "a" .worker "keep the old format" none .queued (some 7) (some 0)])),
    .own 3 (some "a") (.nodeDispatched (.notes [ruling])), .own 4 (some "a") (.nodeDispatched .unstated)]

theorem delivered_reads_alike :
    standing (RunState.fold .lenient deliveredRun).recalled "a" = standing deliveredRun "a" :=
  (standing_recalled_iff .lenient (by decide) "a").mpr (.inr (by decide))

end OnePipeline
