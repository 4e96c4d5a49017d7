/-
What a cross-DAG edge is answered, against what the upstream run's own fold records.

The consumer scans the upstream's ledger for the node's last `node-settled`, in the order the records were appended; the
upstream folds every record, in the merge order. The abstract side is what last decided whether the node is done
(`Told`), read off the records alone.

Results:
- `resolved_eq`, `get_resolveQuietly`: both readers answer an edge off the last settlement appended;
- `Tale.Of.foldRecord`: one record moves the abstract account as it moves the fold;
- `isDone_fold`: the fold has the node done exactly where the account says so;
- `edge_read_iff`: the edge is answered as the upstream records it exactly where the two say the same;
- `attested_upstream_blocks`: an attested human node is done in its own run and blocks its consumer.
-/
import OnePipeline.Laws.Freshness
import OnePipeline.Laws.Parks
import OnePipeline.Model.Journal
import OnePipeline.Model.Upstream

namespace OnePipeline.CrossDag

/-! ## What each reader answers -/

section Readers

variable {root : Ledgers} {observer : Observer} {graph : Graph} {answered : String → String → Option (Option NodeStatus)}
  {dep run node : String}

@[simp] theorem resolved_baseline (s : Resolving) (consumers : List String) (extent : ℕ) :
    (s.baseline dep consumers extent).1.resolved = s.resolved := by
  unfold Resolving.baseline
  cases s.observer.baselines[dep]? <;> rfl

@[simp] theorem resolved_reportOne (s : Resolving) (captured observed : ℕ) (consumer : String) :
    (s.reportOne dep captured observed consumer).resolved = s.resolved := by
  unfold Resolving.reportOne
  split_ifs <;> rfl

@[simp] theorem resolved_reported (l : List String) (s : Resolving) (captured observed : ℕ) :
    (l.foldl (Resolving.reportOne dep captured observed) s).resolved = s.resolved := by
  induction l generalizing s with
  | nil => rfl
  | cons consumer l ih => rw [List.foldl_cons, ih, resolved_reportOne]

/-- what an edge resolves to is what its upstream's last settlement satisfies, whatever else the pass records -/
theorem resolved_resolveOne (s : Resolving) (edge : String × List String) :
    (s.resolveOne root edge).resolved =
      match crossDagParse edge.1 with
      | none => s.resolved
      | some (run, node) => s.resolved.insert edge.1 (satisfiedStatus (readSettledStatus root run node)) := by
  unfold Resolving.resolveOne
  cases crossDagParse edge.1 with
  | none => rfl
  | some p =>
    obtain ⟨run, node⟩ := p
    simp only
    by_cases hdone : readSettledStatus root run node = some .done
    · rw [if_neg (not_not.mpr hdone), hdone]
      cases extent root run with
      | none => rfl
      | some extent =>
        simp only
        split_ifs <;> simp [satisfiedStatus]
    · rw [if_pos hdone]
      have hblocked : satisfiedStatus (readSettledStatus root run node) = .blocked := by
        unfold satisfiedStatus
        split
        · exact absurd ‹_› hdone
        · rfl
      rw [hblocked]

/-- the loop's own pass answers as a quiet reader that remembers nothing -/
theorem resolved_eq : (resolve root observer graph).resolved = resolveQuietly root (fun _ _ => none) graph := by
  have hfold : ∀ (l : List (String × List String)) (s : Resolving),
      (l.foldl (Resolving.resolveOne root) s).resolved =
        l.foldl (fun m edge =>
          match crossDagParse edge.1 with
          | none => m
          | some (run, node) => m.insert edge.1 (satisfiedStatus (readSettledStatus root run node))) s.resolved := by
    intro l
    induction l with
    | nil => exact fun s => rfl
    | cons edge l ih =>
      intro s
      rw [List.foldl_cons, ih, resolved_resolveOne]
      rfl
  exact hfold _ _

theorem mem_edges : dep ∈ edges graph ↔ isCrossDag dep = true ∧ ∃ n ∈ graph.iter, dep ∈ n.deps := by
  have hfold : ∀ (l : List (String × String)) (m : StrMap (List String)),
      dep ∈ l.foldl (fun m p => m.insert p.1 (m[p.1]?.getD [] ++ [p.2])) m ↔ dep ∈ m ∨ dep ∈ l.map Prod.fst := by
    intro l
    induction l with
    | nil => simp
    | cons p l ih =>
      intro m
      rw [List.foldl_cons, ih, Maps.mem_insert_iff, List.map_cons, List.mem_cons]
      tauto
  rw [edges, hfold]
  simp
  tauto

theorem get_foldl_parsed (value : String → String → NodeStatus) (hparse : crossDagParse dep = some (run, node)) :
    ∀ (l : List (String × List String)) (m : StrMap NodeStatus),
      (l.foldl (fun m edge =>
        match crossDagParse edge.1 with
        | none => m
        | some (run, node) => m.insert edge.1 (value run node)) m)[dep]? =
        if dep ∈ l.map Prod.fst then some (value run node) else m[dep]? := by
  intro l
  induction l with
  | nil => exact fun m => rfl
  | cons edge l ih =>
    intro m
    rw [List.foldl_cons, ih, List.map_cons]
    by_cases hlater : dep ∈ l.map Prod.fst
    · rw [if_pos hlater, if_pos (List.mem_cons_of_mem _ hlater)]
    · rw [if_neg hlater]
      by_cases hkey : dep = edge.1
      · rw [← hkey, hparse, if_pos List.mem_cons_self]
        exact (Maps.get_insert ..).trans (if_pos rfl)
      · rw [if_neg (by simp [hkey, hlater])]
        cases crossDagParse edge.1 with
        | none => rfl
        | some p => exact (Maps.get_insert ..).trans (if_neg hkey)

theorem get_resolveQuietly (hparse : crossDagParse dep = some (run, node)) (hnamed : ∃ n ∈ graph.iter, dep ∈ n.deps) :
    (resolveQuietly root answered graph)[dep]? =
      some (satisfiedStatus (settledStatusRecently root answered run node)) := by
  have hcross : isCrossDag dep = true := by rw [isCrossDag, hparse]; rfl
  obtain ⟨consumers, hget⟩ := Maps.mem_iff.mp (mem_edges.mpr ⟨hcross, hnamed⟩)
  have hmem : dep ∈ (edges graph).toList.map Prod.fst :=
    List.mem_map.mpr ⟨(dep, consumers), Std.ExtTreeMap.mem_toList_iff_getElem?_eq_some.mpr hget, rfl⟩
  exact (get_foldl_parsed (fun run node => satisfiedStatus (settledStatusRecently root answered run node)) hparse _ _).trans
    (if_pos hmem)

end Readers

/-! ## What last decided a node -/

/-- what last decided whether a node is done: a settlement stating its status, or any other record -/
inductive Told where
  | settled (status : NodeStatus)
  | otherwise (done : Bool)
deriving DecidableEq, Repr

def Told.done : Told → Bool
  | settled status => status = .done
  | otherwise done => done

/-- an operation's word on a node -/
def Told.byOperation (node : String) (told : Told) : Operation → Told
  | .humanAttested n => if n = node then otherwise true else told
  | .retryRequested n _ _ | .nodeParked n _ _ | .nodeRequeued n _ => if n = node then otherwise false else told
  | .settledFromEvidence n outcome _ => if n = node then otherwise (settledStatus outcome = .done) else told
  | _ => told

/-- what last decided a node, and whether a restack of it has begun and not ended -/
structure Tale where
  told : Told := .otherwise false
  restacking : Bool := false
deriving DecidableEq, Repr

/-- a record's word on a node -/
def Tale.read (node : String) (t : Tale) (e : Envelope) : Tale :=
  match e.body with
  | .nodeDispatched _ | .nodeRequeued => if e.node = some node then { t with told := .otherwise false } else t
  | .nodeSettled settled =>
    if e.node = some node then { told := (settled.status.map Told.settled).getD t.told, restacking := false } else t
  | .nodeRestackStarted n => if n = some node then { told := .otherwise false, restacking := true } else t
  | .nodeRestacked n | .nodeReadjusted n => if n = some node then { t with restacking := false } else t
  | .editCommitted operations | .commandAccepted operations =>
    { t with told := (operations.getD []).foldl (Told.byOperation node) t.told }
  | .humanAttested n => if n = some node then { t with told := .otherwise true } else t
  -- the driver that was restacking is gone, and its node is done again
  | .driverAdopted _ => if t.restacking then { told := .otherwise true, restacking := false } else t
  | _ => t

def Tale.after (node : String) (t : Tale) (e : Envelope) : Tale := if writtenAtAKnownVersion e then t.read node e else t

/-- a journal's account of a node -/
def tale (node : String) (events : List Envelope) : Tale := events.foldl (Tale.after node) {}

/-- the node settled done, and no settlement appended after it states a status -/
def SettledDoneLast (node : String) (lines : List Envelope) : Prop :=
  ∃ before e after, lines = before ++ e :: after ∧ settledAs node e = some .done ∧ ∀ f ∈ after, settledAs node f = none

/-- what last decided the node in the merge order, and the settlement appended last, say the same of it -/
def Alike (node : String) (lines : List Envelope) : Told → Prop
  | .settled status => SettledDoneLast node lines ↔ status = .done
  | .otherwise true => SettledDoneLast node lines
  | .otherwise false => ¬SettledDoneLast node lines

theorem alike_iff {node : String} {lines : List Envelope} (told : Told) :
    Alike node lines told ↔ (SettledDoneLast node lines ↔ told.done = true) := by
  cases told with
  | settled status => simp [Alike, Told.done]
  | «otherwise» done => cases done <;> simp [Alike, Told.done]

theorem settledDoneLast_iff {node : String} {lines : List Envelope} :
    SettledDoneLast node lines ↔ (lines.filterMap (settledAs node)).getLast? = some .done := by
  rw [List.getLast?_filterMap, List.findSome?_eq_some_iff]
  constructor
  · rintro ⟨before, e, after, rfl, he, hlast⟩
    exact ⟨after.reverse, e, before.reverse, by simp, he, by simpa using hlast⟩
  · rintro ⟨after, e, before, heq, he, hlast⟩
    have hlines : lines = before.reverse ++ e :: after.reverse := by
      rw [← List.reverse_reverse lines, heq]
      simp
    exact ⟨before.reverse, e, after.reverse, hlines, he, by simpa using hlast⟩

/-! ## The fold's own account -/

section Fold

variable {host : Host} {s s' : RunState} {node : String} {t : Tale} {«at» : Option ℕ}

def isDone (s : RunState) (node : String) : Bool := s.recorded[node]?.map Recorded.status = some .done

/-- the state records of the node what its account says -/
structure Tale.Of (t : Tale) (s : RunState) (node : String) : Prop where
  done : isDone s node = t.told.done
  restacking : node ∈ s.restacking ↔ t.restacking = true

theorem isDone_congr (h : s'.recorded = s.recorded) : isDone s' node = isDone s node := by rw [isDone, isDone, h]

theorem isDone_insert {k : String} {r : Recorded} (h : s'.recorded = s.recorded.insert k r) :
    isDone s' node = if k = node then decide (r.status = .done) else isDone s node := by
  rw [isDone, h, Maps.get_insert]
  by_cases hk : k = node
  · simp [hk]
  · rw [if_neg (Ne.symm hk), if_neg hk]
    rfl

theorem isDone_erase {k : String} (h : s'.recorded = s.recorded.erase k) :
    isDone s' node = if k = node then false else isDone s node := by
  rw [isDone, h, Maps.get_erase]
  by_cases hk : k = node
  · simp [hk]
  · rw [if_neg (Ne.symm hk), if_neg hk]
    rfl

/-- an entry erased that was not done leaves what is done -/
theorem isDone_erase_of {k : String} (h : s'.recorded = s.recorded.erase k)
    (hk : s.recorded[k]?.map Recorded.status ≠ some .done) : isDone s' node = isDone s node := by
  rw [isDone_erase h]
  split_ifs with hkey
  · rw [← hkey]
    exact (decide_eq_false hk).symm
  · rfl

/-- **One operation.** -/
theorem isDone_foldOne {told : Told} (h : isDone s node = told.done) (op : Operation) :
    isDone (RunState.foldOne host «at» s op) node = (told.byOperation node op).done := by
  cases op with
  | humanAttested n =>
    rw [isDone_insert (s := s) (k := n) (r := .at .done) rfl, h, Told.byOperation]
    split_ifs <;> rfl
  | retryRequested n replacement reset =>
    rw [isDone_insert (s := s) (k := n) (r := .at .cancelled) rfl, h, Told.byOperation]
    split_ifs <;> rfl
  | nodeParked n «by» reason =>
    have hpark : (RunState.parkedAs (s.recorded[n]?.map Recorded.status) «at»).status ≠ .done := by
      unfold RunState.parkedAs
      split <;> simp
    rw [isDone_insert (s := s) (k := n) (r := RunState.parkedAs (s.recorded[n]?.map Recorded.status) «at») rfl, h,
      Told.byOperation, decide_eq_false hpark]
    split_ifs <;> rfl
  | nodeRequeued n amend =>
    rw [isDone_erase (s := s) (k := n) rfl, h, Told.byOperation]
    split_ifs <;> rfl
  | settledFromEvidence n outcome evidence =>
    rw [isDone_insert (s := s) (k := n) (r := .at (settledStatus outcome)) rfl, h, Told.byOperation]
    split_ifs <;> rfl
  | reparent n was deps =>
    refine Eq.trans ?_ h
    simp only [RunState.foldOne, RunState.foldOperation]
    split_ifs with hwaiting
    · change s.recorded[n]?.map Recorded.status = some .waiting at hwaiting
      refine isDone_erase_of (k := n) rfl ?_
      rw [hwaiting]
      simp
    · rfl
  | landingFromEvidence n landing =>
    refine Eq.trans ?_ h
    simp only [RunState.foldOne, RunState.foldOperation]
    cases StatedLanding.parse host.toSiblings landing <;> rfl
  | contextAdded n note delivery => cases delivery <;> exact h
  | noteDelivered n addressee text criterion reached envelope index =>
    cases reached with
    | carried reason => exact (isDone_congr (RunState.owe_recorded _ n _)).trans h
    | _ => exact h
  | noteWithdrawn n envelope index «from» text alikeAfter =>
    cases «from» with
    | live => exact h
    | carried => exact (isDone_congr (RunState.owe_recorded _ n _)).trans h
  | _ => exact h

theorem isDone_foldOperations {told : Told} (h : isDone s node = told.done) (ops : List Operation) :
    isDone (s.foldOperations host ops «at») node = (ops.foldl (Told.byOperation node) told).done := by
  unfold RunState.foldOperations
  induction ops generalizing s told with
  | nil => exact h
  | cons op ops ih => exact ih (isDone_foldOne h op)

theorem restacking_foldOperations (ops : List Operation) :
    (s.foldOperations host ops «at»).restacking = s.restacking :=
  congrArg RunState.Aside.restacking (RunState.aside_foldOperations ops)

namespace Tale.Of

theorem congr (h : t.Of s node) (hr : s'.recorded = s.recorded) (hs : s'.restacking = s.restacking) : t.Of s' node :=
  ⟨(isDone_congr hr).trans h.done, by rw [hs]; exact h.restacking⟩

theorem foldEdit (h : t.Of s node) (e : Envelope) (operations : Option (List Operation)) :
    ({ t with told := (operations.getD []).foldl (Told.byOperation node) t.told } : Tale).Of (s.foldEdit host e operations) node := by
  cases operations with
  | none => exact h.congr rfl rfl
  | some operations =>
    have hcommit : t.Of (s.foldCommit e (some operations)) node := h.congr rfl rfl
    refine ⟨isDone_foldOperations hcommit.done operations, ?_⟩
    show node ∈ ((s.foldCommit e (some operations)).foldOperations host operations (millisOf e.ts)).restacking ↔ _
    rw [restacking_foldOperations]
    exact hcommit.restacking

theorem foldSettled (h : t.Of s node) (n : String) (settled : Settlement) :
    (if n = node then { told := (settled.status.map Told.settled).getD t.told, restacking := false } else t : Tale).Of
      (s.foldSettled n settled) node := by
  have hstatus : isDone (s.foldSettled n settled) node = isDone (s.foldStatus n settled.status) node :=
    congrArg (fun v : ParkView => decide (v.status = some .done)) (RunState.parkView_foldSettled n settled)
  have hrestacking : (s.foldSettled n settled).restacking = s.restacking.erase n :=
    congrArg RunState.Aside.restacking (RunState.aside_foldSettled n settled)
  have hdone : isDone (s.foldStatus n settled.status) node =
      if n = node then ((settled.status.map Told.settled).getD t.told).done else t.told.done := by
    cases settled.status with
    | none =>
      show isDone s node = if n = node then t.told.done else t.told.done
      rw [ite_self, h.done]
    | some status =>
      have hrecorded : (s.foldSettledStatus n status).recorded = s.recorded.insert n (.at status) := by
        unfold RunState.foldSettledStatus
        split_ifs <;> rfl
      exact (isDone_insert hrecorded).trans (by rw [h.done]; rfl)
  constructor
  · rw [hstatus, hdone]
    split_ifs <;> rfl
  · rw [hrestacking, Std.ExtTreeSet.mem_erase]
    split_ifs with hn
    · simp [hn]
    · simpa [hn] using h.restacking

/-- a record that writes a status of its own -/
theorem insert {n : String} {r : Recorded} (h : t.Of s node) (hr : s'.recorded = s.recorded.insert n r)
    (hs : s'.restacking = s.restacking) :
    (if some n = some node then { t with told := .otherwise (r.status = .done) } else t : Tale).Of s' node := by
  have hdone : isDone s' node = if n = node then decide (r.status = .done) else isDone s node := isDone_insert hr
  have hrestacking := h.restacking
  rw [← hs] at hrestacking
  by_cases hn : n = node
  · rw [if_pos hn] at hdone
    rw [if_pos (congrArg some hn)]
    exact ⟨hdone, hrestacking⟩
  · rw [if_neg hn] at hdone
    rw [if_neg fun heq => hn (Option.some.inj heq)]
    exact ⟨hdone.trans h.done, hrestacking⟩

/-- a record that ends a node's restack -/
theorem endTheRestack (h : t.Of s node) (n : String) :
    (if some n = some node then { t with restacking := false } else t : Tale).Of (s.endTheRestack n) node := by
  have hmem : node ∈ (s.endTheRestack n).restacking ↔ n ≠ node ∧ node ∈ s.restacking := by
    show node ∈ s.restacking.erase n ↔ _
    simp
  by_cases hn : n = node
  · rw [if_pos (congrArg some hn)]
    exact ⟨h.done, iff_of_false (fun hin => (hmem.mp hin).1 hn) Bool.false_ne_true⟩
  · rw [if_neg fun heq => hn (Option.some.inj heq)]
    exact ⟨h.done, by simpa [hmem, hn] using h.restacking⟩

theorem restackStarted (h : t.Of s node) {n : String} (hr : s'.recorded = s.recorded.insert n (.at .running))
    (hs : s'.restacking = s.restacking.insert n) :
    (if some n = some node then { told := .otherwise false, restacking := true } else t : Tale).Of s' node := by
  have hdone : isDone s' node = if n = node then decide (Recorded.status (.at .running) = .done) else isDone s node :=
    isDone_insert hr
  by_cases hn : n = node
  · rw [if_pos hn] at hdone
    rw [if_pos (congrArg some hn)]
    exact ⟨hdone, by simp [hs, hn]⟩
  · rw [if_neg hn] at hdone
    rw [if_neg fun heq => hn (Option.some.inj heq)]
    exact ⟨hdone.trans h.done, by simpa [hs, hn] using h.restacking⟩

theorem foldReleaseAdopted (h : t.Of s node) (n note : String) : t.Of (s.foldReleaseAdopted n note) node := by
  refine ⟨Eq.trans ?_ h.done, h.restacking⟩
  by_cases hawaits : s.recorded[n]?.any (fun r => r.status.awaitsRelease) = true
  · refine isDone_erase_of (k := n) (if_pos hawaits) fun hdone => ?_
    cases hget : s.recorded[n]? with
    | none =>
      rw [hget] at hdone
      cases hdone
    | some r =>
      rw [hget] at hdone hawaits
      rw [Option.any_some, Option.some.inj hdone] at hawaits
      cases hawaits
  · exact isDone_congr (if_neg hawaits)

theorem foldChecksRead (h : t.Of s node) (read : NodeChecksRead) : t.Of (s.foldChecksRead read) node := by
  refine h.congr ?_ (congrArg RunState.Aside.restacking (RunState.aside_foldChecksRead read))
  unfold RunState.foldChecksRead
  cases read.verdict with
  | failed => rfl
  | _ =>
    simp only
    split_ifs <;> rfl

theorem foldAdopted (h : t.Of s node) :
    (if t.restacking then { told := .otherwise true, restacking := false } else t : Tale).Of s.foldAdopted node := by
  obtain ⟨hr, -, hs, -⟩ := s.abandon_frame
  have hstatus : s.foldAdopted.recorded[node]?.map Recorded.status =
      ((if node ∈ s.restacking.toList then some (.at .done) else s.recorded[node]?).map Recorded.status).filter
        fun status => status ≠ .running := by
    show (RunState.settledByAdoption (s.abandonTheDispatchInFlight.restacksAreDone.recorded))[node]?.map Recorded.status = _
    rw [RunState.status_settledByAdoption]
    simp only [RunState.restacksAreDone, Maps.get_foldl_insert, hr, hs]
  have hnone : node ∉ s.foldAdopted.restacking := Std.ExtTreeSet.not_mem_empty
  have hin : node ∈ s.restacking.toList ↔ t.restacking = true := Std.ExtTreeSet.mem_toList.trans h.restacking
  cases hrestacking : t.restacking with
  | true =>
    rw [if_pos (hin.mpr hrestacking)] at hstatus
    refine ⟨?_, iff_of_false hnone (by simp)⟩
    rw [isDone, hstatus]
    rfl
  | false =>
    have hout : node ∉ s.restacking.toList := fun hmem => Bool.false_ne_true (hrestacking.symm.trans (hin.mp hmem))
    rw [if_neg hout] at hstatus
    refine ⟨?_, iff_of_false hnone (by simp [hrestacking])⟩
    refine Eq.trans ?_ h.done
    rw [isDone, hstatus, isDone, decide_eq_decide, Option.filter_eq_some_iff]
    simp

theorem foldPipeline (h : t.Of s node) (e : Envelope) : (t.read node e).Of (s.foldPipeline host e) node := by
  obtain ⟨v, ts, stream, seq, label, body⟩ := e
  cases body with
  | nodeDispatched composed =>
    cases label with
    | none => exact h
    | some n => exact h.insert (r := .at .running) rfl rfl
  | nodeRequeued =>
    cases label with
    | none => exact h
    | some n =>
      have hdone : isDone { s with recorded := s.recorded.erase n } node = if n = node then false else isDone s node :=
        isDone_erase rfl
      show (if some n = some node then _ else t : Tale).Of { s with recorded := s.recorded.erase n } node
      by_cases hn : n = node
      · rw [if_pos hn] at hdone
        rw [if_pos (congrArg some hn)]
        exact ⟨hdone, h.restacking⟩
      · rw [if_neg hn] at hdone
        rw [if_neg fun heq => hn (Option.some.inj heq)]
        exact ⟨hdone.trans h.done, h.restacking⟩
  | nodeSettled settled =>
    cases label with
    | none => exact h
    | some n =>
      show (if some n = some node then _ else t : Tale).Of (s.foldSettled n settled) node
      simp only [Option.some.injEq]
      exact h.foldSettled n settled
  | nodeRestackStarted n =>
    cases n with
    | none => exact h
    | some n => exact h.restackStarted rfl rfl
  | nodeRestacked n =>
    cases n with
    | none => exact h
    | some n => exact h.endTheRestack n
  | nodeReadjusted n =>
    cases n with
    | none => exact h
    | some n => exact h.endTheRestack n
  | editCommitted operations => exact h.foldEdit _ operations
  | commandAccepted operations => exact h.foldEdit _ operations
  | humanAttested n =>
    cases n with
    | none => exact h
    | some n => exact h.insert (r := .at .done) rfl rfl
  | driverAdopted hookEpoch => exact h.foldAdopted
  | releaseAdopted next note =>
    cases next with
    | false => exact h
    | true =>
      cases note with
      | none => exact h
      | some note =>
        cases label with
        | none => exact h
        | some n => exact h.foldReleaseAdopted n note
  | nodeChecksRead read =>
    cases read with
    | none => exact h
    | some read => exact h.foldChecksRead read
  | runStarted plan => cases plan <;> exact h.congr rfl rfl
  | changeRetitled retitled => cases retitled <;> exact h.congr rfl rfl
  | nodeLanded n => cases n <;> exact h.congr rfl rfl
  | nodeAbsorbed absorbed => cases absorbed <;> exact h.congr rfl rfl
  | driverExited => exact h
  | editRejected envelope => exact h
  | report kind => exact h
  | relayed record closes => exact h

theorem kept (h : t.Of s node) (e : Envelope) : t.Of (s.kept e) node := by
  unfold RunState.kept
  split_ifs
  · exact h.congr rfl rfl
  · exact h

theorem foldRelayed (h : t.Of s node) (label : Option String) (record : Relayed) : t.Of (s.foldRelayed label record) node := by
  unfold RunState.foldRelayed
  split <;> exact h.congr rfl rfl

/-- **One record.** -/
theorem foldRecord (h : t.Of s node) (e : Envelope) : (t.after node e).Of (RunState.foldRecord host s e) node := by
  obtain ⟨v, ts, stream, seq, label, body⟩ := e
  unfold after
  cases body with
  | driverExited =>
    rw [show t.read node _ = t from rfl, ite_self]
    exact h.congr rfl rfl
  | relayed record closes =>
    rw [show t.read node _ = t from rfl, ite_self]
    show t.Of (if _ then _ else _) node
    split_ifs
    · exact (h.foldRelayed label record).congr rfl rfl
    · exact h.foldRelayed label record
  | _ =>
    show Of _ (if _ then _ else _) node
    split_ifs
    · exact (h.kept _).foldPipeline _
    · exact h.congr rfl rfl

end Tale.Of

/-- **The fold's account.** A journal folds to a state that has a node done exactly where its records say so. -/
theorem isDone_fold (node : String) (events : List Envelope) :
    isDone (RunState.fold host events) node = (tale node events).told.done := by
  have hfold : ∀ (events : List Envelope) (s : RunState) (t : Tale), t.Of s node →
      (events.foldl (Tale.after node) t).Of (events.foldl (RunState.foldRecord host) s) node := by
    intro events
    induction events with
    | nil => exact fun s t h => h
    | cons e events ih => exact fun s t h => ih _ _ (h.foldRecord e)
  refine (hfold events {} {} ⟨?_, ?_⟩).done
  · simp [isDone, Told.done]
  · simp

end Fold

/-! ## The edge -/

/-- what a consumer is to be told of a node: done where its own run's fold records it so, and blocked otherwise -/
def asRecorded (host : Host) (lines : List Envelope) (node : String) : NodeStatus :=
  if isDone (RunState.fold host (mergeOrder lines)) node then .done else .blocked

/-- **The edge is read as recorded, exactly when.** The loop and a quiet reader that reads the ledger afresh answer an
edge as the upstream's own fold records its node if and only if the settlement appended last says of the node what the
record that last decided it in the merge order does: where that is a settlement, both state `done` or neither does;
where it is an attestation or any other record that makes the node done, the node was settled done as well; and where it
is one that takes the node up again, the node was not. -/
theorem edge_read_iff (host : Host) {root : Ledgers} (observer : Observer) {graph : Graph} {dep run node : String}
    {lines : List Envelope} (hparse : crossDagParse dep = some (run, node)) (hnamed : ∃ n ∈ graph.iter, dep ∈ n.deps)
    (hroot : root run = some lines) :
    ((resolve root observer graph).resolved[dep]? = some (asRecorded host lines node) ∧
        (resolveQuietly root (fun _ _ => none) graph)[dep]? = some (asRecorded host lines node)) ↔
      Alike node lines (tale node (mergeOrder lines)).told := by
  have hread : readSettledStatus root run node = some .done ↔ SettledDoneLast node lines := by
    rw [settledDoneLast_iff, readSettledStatus, hroot, Option.bind_some]
  have hanswer : satisfiedStatus (readSettledStatus root run node) = .done ↔ SettledDoneLast node lines := by
    rw [← hread]
    unfold satisfiedStatus
    split <;> simp_all
  rw [resolved_eq, and_self, get_resolveQuietly hparse hnamed, Option.some.injEq]
  show satisfiedStatus (readSettledStatus root run node) = asRecorded host lines node ↔ _
  rw [alike_iff, ← hanswer, asRecorded, isDone_fold]
  cases (tale node (mergeOrder lines)).told.done with
  | true => simp
  | false =>
    unfold satisfiedStatus
    split <;> simp

/-! ### A node settled done, and a human node attested -/

/-- a graph whose one node waits on `a` of the run `u` -/
def consuming : Graph := .ofNodes [.direct "b" ["run:u#a"]]

/-- the runs root holding the one ledger -/
def rootOf (lines : List Envelope) : Ledgers := fun run => if run = "u" then some lines else none

def settledUpstream : List Envelope :=
  [.own 0 none (.runStarted (some .single)), .own 1 (some "a") (.nodeDispatched .unstated),
    .own 2 (some "a") (.nodeSettled { status := some .done })]

theorem settled_upstream_satisfies :
    (resolve (rootOf settledUpstream) {} consuming).resolved["run:u#a"]? = some (asRecorded .lenient settledUpstream "a") ∧
      (resolveQuietly (rootOf settledUpstream) (fun _ _ => none) consuming)["run:u#a"]? =
        some (asRecorded .lenient settledUpstream "a") := by
  have htold : (tale "a" (mergeOrder settledUpstream)).told = .settled .done := by decide
  have hlast : SettledDoneLast "a" settledUpstream :=
    ⟨settledUpstream.take 2, .own 2 (some "a") (.nodeSettled { status := some .done }), [], rfl, rfl,
      fun _ hf => absurd hf List.not_mem_nil⟩
  have hnamed : ∃ n ∈ consuming.iter, "run:u#a" ∈ n.deps := by
    have hany : (consuming.iter.any fun n => decide ("run:u#a" ∈ n.deps)) = true := by decide
    obtain ⟨n, hn, hdep⟩ := List.any_eq_true.mp hany
    exact ⟨n, hn, of_decide_eq_true hdep⟩
  have hparse : crossDagParse "run:u#a" = some ("u", "a") := by decide
  have halike : Alike "a" settledUpstream (tale "a" (mergeOrder settledUpstream)).told := by
    rw [htold]
    exact iff_of_true hlast rfl
  exact (edge_read_iff .lenient {} hparse hnamed (if_pos rfl)).mpr halike

/-- a human node the scheduler recorded waiting, attested by an accepted command -/
def attestedUpstream : List Envelope :=
  [.own 0 none (.runStarted (some (.ofNodes [{ Node.direct "a" [] with kind := .human }]))),
    .own 1 (some "a") (.nodeSettled { status := some .waiting }),
    .own 2 none (.editCommitted (some [.humanAttested "a"])), .own 3 (some "a") (.humanAttested (some "a"))]

/-- the upstream records the human node done, and its consumer is told it is blocked -/
theorem attested_upstream_blocks :
    asRecorded .lenient attestedUpstream "a" = .done ∧
      (resolve (rootOf attestedUpstream) {} consuming).resolved["run:u#a"]? = some .blocked ∧
      (resolveQuietly (rootOf attestedUpstream) (fun _ _ => none) consuming)["run:u#a"]? = some .blocked := by
  decide

end OnePipeline.CrossDag
