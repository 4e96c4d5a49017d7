/-
What the journal says is held, against what the loop found (`src/engine.rs`).

The account and what the driver said last stand in one relation, `InStep`, which an adoption sets up and a pass keeps; each
half is an instance of a ledger kept by stating differences.

Results:
- `HoldReason.ofPayload_payload`: every reason reads back as it was written;
- `mem_holds`: which nodes a pass finds held;
- `exactly_what_it_found`: the account names what each pass found, and a pass that finds it again says nothing;
- `held_for_ever`: where it does not.
-/
import OnePipeline.Model.Holding
import OnePipeline.Model.Edits

namespace OnePipeline.Holding

open Std
open Sources (SourceCause Unasked Unanswered SourceHold)

/-! ## What is written reads back -/

section RoundTrips

theorem asU32_write (n : UInt32) : asU32 (.num n.toNat) = some n := by
  have hlt : n.toNat < 2 ^ 32 := n.toNat_lt
  have hread : asU64 (.num n.toNat) = some n.toNat := by simp [asU64]
  rw [asU32, hread, Option.bind_some, if_pos hlt, UInt32.ofNat_toNat]

theorem asU64_write (n : ℕ) : asU64 (.num n) = some n := by simp [asU64]

theorem mapM_asStr (l : List String) : (l.map Value.str).mapM Value.asStr = some l := by
  induction l with
  | nil => rfl
  | cons s l ih => simp [List.mapM_cons, ih, Value.asStr]

theorem asTexts_texts (l : List String) : asTexts (texts l) = some l := mapM_asStr l

/-- a list read item by item, where each item reads back -/
theorem mapM_of_forall {α β : Type} {write : α → β} {read : β → Option α} {l : List α} (h : ∀ a ∈ l, read (write a) = some a) :
    (l.map write).mapM read = some l := by
  induction l with
  | nil => rfl
  | cons a l ih =>
    rw [List.map_cons, List.mapM_cons, h a List.mem_cons_self, ih fun b hb => h b (List.mem_cons_of_mem a hb)]
    rfl

theorem parseU64_toDigits (id : UInt64) : parseU64 (Nat.toDigits 10 id.toNat) = some id := by
  have hdigits : ∀ c ∈ Nat.toDigits 10 id.toNat, c.isDigit = true := fun c hc =>
    Nat.isDigit_of_mem_toDigits (by decide) (by decide) hc
  have hplain : Text.stripPrefix ['+'] (Nat.toDigits 10 id.toNat) = none := by
    cases hstrip : Text.stripPrefix ['+'] (Nat.toDigits 10 id.toNat) with
    | none => rfl
    | some rest =>
      have hplus : ('+' : Char).isDigit = true := hdigits '+' (by rw [Text.stripPrefix_eq_some hstrip]; exact List.mem_cons_self)
      exact absurd hplus (by decide)
  have hlt : id.toNat < 2 ^ 64 := id.toNat_lt
  unfold parseU64
  simp only [hplain, Option.getD_none, Nat.ofDigitChars_ten_toDigits]
  rw [if_pos ⟨Nat.toDigits_ne_nil, List.all_eq_true.mpr hdigits, hlt⟩,
    UInt64.ofNat_toNat]

namespace DecisionRef

theorem ofWire_surface (id : UInt64) : ofWire (surface id).asWire = surface id := by
  rw [ofWire, asWire, String.toList_ofList, Text.stripPrefix_append, Option.bind_some, parseU64_toDigits]

/-- a reference that reads back as itself -/
def Plain (reference : DecisionRef) : Prop := ofWire reference.asWire = reference

theorem Plain.inj {r r' : DecisionRef} (h : r.Plain) (h' : r'.Plain) (heq : r.asWire = r'.asWire) : r = r' := by
  rw [← h, ← h', heq]

end DecisionRef

theorem Bound.read_write (b : Bound) : Bound.read b.write = some b := by
  cases b with
  | unlimited => rfl
  | bounded n =>
    show (asU32 (.num n.toNat)).map bounded = _
    rw [asU32_write]
    rfl

theorem WorkspaceHold.ofPayload_payload (hold : WorkspaceHold) : ofPayload hold.payload = some hold := by
  simp [ofPayload, payload, get, List.lookup_cons, Value.asStr, asU32_write, Bound.read_write]

namespace SourceReason

variable {names : Names}

theorem get_cause (u : Unanswered) :
    get "cause" (unaskedPayload u) = (causeOf u).map fun cause => .str cause.asStr := by
  cases hcause : causeOf u with
  | none => cases hat : u.retryAt <;> simp [unaskedPayload, get, List.lookup_cons, List.lookup_nil, hcause, hat]
  | some cause => simp [unaskedPayload, get, List.lookup_cons, hcause]

theorem get_retryAt (u : Unanswered) : get "retry_at_ms" (unaskedPayload u) = u.retryAt.map fun ms => .num ms := by
  cases hcause : causeOf u with
  | none => cases hat : u.retryAt <;> simp [unaskedPayload, get, List.lookup_cons, List.lookup_nil, hcause, hat]
  | some cause => cases hat : u.retryAt <;> simp [unaskedPayload, get, List.lookup_cons, List.lookup_nil, hcause, hat]

theorem optional_cause (u : Unanswered) :
    optional "cause" (fun word => word.asStr.bind Cause.ofWord) (unaskedPayload u) = some (causeOf u) := by
  rw [optional, get_cause]
  cases causeOf u with
  | none => rfl
  | some cause =>
    show (Cause.ofWord cause.asStr).map some = _
    rw [Cause.ofWord_asStr]
    rfl

theorem optional_retryAt (u : Unanswered) : optional "retry_at_ms" asU64 (unaskedPayload u) = some u.retryAt := by
  rw [optional, get_retryAt]
  cases u.retryAt with
  | none => rfl
  | some ms =>
    show (asU64 (.num ms)).map some = _
    rw [asU64_write]
    rfl

theorem whoOf_eq {u : Unanswered} (h : names.takes u.who = true) : whoOf names u.name u.retryAt (causeOf u) = some u.who := by
  obtain ⟨who, reason⟩ := u
  cases who with
  | source source cause => cases cause <;> exact if_pos h
  | tracker designator => exact if_pos h
  | recorded source => exact if_pos h

/-- a reset is a rate limit's -/
theorem causeOf_of_retryAt {u : Unanswered} (h : u.retryAt.isSome) : causeOf u = some .rateLimited := by
  obtain ⟨who, reason⟩ := u
  cases who with
  | source source cause =>
    cases cause with
    | rateLimited at_ => rfl
    | auth => cases h
    | unavailable => cases h
  | tracker designator => cases h
  | recorded source => cases h

theorem ofUnasked_payload {u : Unanswered} (h : names.takes u.who = true) : ofUnasked names (unaskedPayload u) = some u := by
  have hsource : get "source" (unaskedPayload u) = some (.str u.name) := rfl
  have hreason : get "reason" (unaskedPayload u) = some (.str u.reason) := rfl
  have hcause : ¬(u.retryAt.isSome ∧ causeOf u ≠ some .rateLimited) := fun h => h.2 (causeOf_of_retryAt h.1)
  have htext (word : String) : (Value.str word).asStr = some word := rfl
  simp only [ofUnasked, hsource, hreason, optional_cause, optional_retryAt, htext, Option.bind_eq_bind, Option.bind_some,
    if_neg hcause, whoOf_eq h]

theorem ofPayload_payload {hold : SourceHold} (h : ∀ u ∈ hold.unanswered, names.takes u.who = true) :
    ofPayload names (payload hold) = some hold := by
  have hunanswered : (hold.unanswered.map unaskedPayload).mapM (ofUnasked names) = some hold.unanswered :=
    mapM_of_forall fun u hu => ofUnasked_payload (h u hu)
  obtain ⟨unanswered, missing, holds⟩ := hold
  cases missing with
  | nil =>
    have hsome : unanswered ≠ [] := by simpa using holds
    simp [ofPayload, payload, get, List.lookup_cons, List.lookup_nil, Value.asStr, asArray, hunanswered, optional, SourceHold.new, hsome]
  | cons id missing =>
    simp [ofPayload, payload, get, List.lookup_cons, Value.asStr, asArray, hunanswered, optional, asTexts_texts, SourceHold.new]

end SourceReason

/-- a reason as a build whose decisions read back states it -/
def HoldReason.Stated (names : Names) : HoldReason → Prop
  | decision reference => reference.Plain
  | source hold => ∀ u ∈ hold.unanswered, names.takes u.who = true
  | _ => True

theorem HoldReason.ofPayload_payload {names : Names} {reason : HoldReason} (h : reason.Stated names) :
    ofPayload names reason.payload = some reason := by
  cases reason with
  | dependencies blocking => simp [ofPayload, payload, get, List.lookup_cons, List.lookup_nil, Value.asStr, ids, asTexts_texts]
  | concurrency ahead limit => simp [ofPayload, payload, get, List.lookup_cons, List.lookup_nil, Value.asStr, ids, asTexts_texts, asU64_write]
  | decision reference =>
    have hplain : DecisionRef.ofWire reference.asWire = reference := h
    simp [ofPayload, payload, get, List.lookup_cons, List.lookup_nil, Value.asStr, hplain]
  | release awaiting => simp [ofPayload, payload, get, List.lookup_cons, List.lookup_nil, Value.asStr, ids, asTexts_texts]
  | workspace hold =>
    have hkind : get "kind" hold.payload = some (.str "workspace") := rfl
    simp [ofPayload, payload, hkind, Value.asStr, WorkspaceHold.ofPayload_payload]
  | source hold =>
    have hkind : get "kind" (SourceReason.payload hold) = some (.str "source") := rfl
    simp [ofPayload, payload, hkind, Value.asStr, SourceReason.ofPayload_payload h]

end RoundTrips

/-! ## What a pass finds -/

section Findings

variable {names : Names}

/-- no node waiting on a person has an id that reads as a surface's reference -/
def Questions.Plain (q : Questions) : Prop :=
  ∀ id : String, q.statuses[id]? = some .waiting → (DecisionRef.attestation id).Plain

theorem plain_of_mem_ask {graph : Graph} {l : List Surface} {decisions : Decisions} (h : ∀ r ∈ decisions, r.Plain) :
    ∀ r ∈ l.foldl (ask graph) decisions, r.Plain := by
  induction l generalizing decisions with
  | nil => exact h
  | cons surface l ih =>
    refine ih fun r hr => ?_
    unfold ask at hr
    split_ifs at hr with hnot
    · exact h r hr
    · rcases Maps.mem_insert_iff.mp hr with rfl | hr
      · exact DecisionRef.ofWire_surface surface.id
      · exact h r hr

theorem plain_of_mem_attest {graph : Graph} {l : List (String × NodeStatus)} {decisions : Decisions}
    (hl : ∀ p ∈ l, p.2 = .waiting → (DecisionRef.attestation p.1).Plain) (h : ∀ r ∈ decisions, r.Plain) :
    ∀ r ∈ l.foldl (attest graph) decisions, r.Plain := by
  induction l generalizing decisions with
  | nil => exact h
  | cons p l ih =>
    refine ih (fun q hq => hl q (List.mem_cons_of_mem p hq)) fun r hr => ?_
    unfold attest at hr
    split_ifs at hr with hwaiting
    · rcases Maps.mem_insert_iff.mp hr with rfl | hr
      · exact hl p List.mem_cons_self hwaiting
      · exact h r hr
    · exact h r hr

theorem Questions.Plain.decisions {q : Questions} (h : q.Plain) : ∀ r ∈ decisionsNow q, r.Plain := by
  refine plain_of_mem_ask (plain_of_mem_attest (fun p hp hwaiting => h p.1 ?_) ?_)
  · rw [← hwaiting]
    exact ExtTreeMap.mem_toList_iff_getElem?_eq_some.mp hp
  · intro r hr
    simp at hr

variable {s : Standing names} {decisions : Decisions}

/-- a node one thing or another keeps from starting -/
def Kept (s : Standing names) (decisions : Decisions) (node : Node) : Prop :=
  unsettledDeps s node ≠ [] ∨
    ((s.statuses[node.id]?).getD .pending = .ready ∧ node.kind ≠ .human ∧ s.graph.concurrency ≤ s.inFlight.size) ∨
    (∃ r : DecisionRef, ∃ pending : PendingDecision, decisions[r]? = some pending ∧ node.id ∈ pending.unblocks) ∨
    node.id ∈ s.awaitingRelease ∨ node.id ∈ s.awaitingWorkspace ∨ node.id ∈ s.awaitingSource

/-- a node the loop is holding: out of flight, and at a status the loop may hold one at -/
structure Held (s : Standing names) (decisions : Decisions) (node : Node) : Prop where
  out : node.id ∉ s.inFlight
  may : mayHold ((s.statuses[node.id]?).getD .pending) = true
  kept : Kept s decisions node

theorem toList_map_eq_nil {V W : Type} {m : StrMap V} {node : String} {f : V → W} :
    (m[node]?.map f).toList = [] ↔ node ∉ m := by
  rw [Maps.not_mem_iff]
  cases m[node]? with
  | none => simp
  | some v => simp

theorem reasonsOf_eq_nil {node : Node} : reasonsOf s decisions node = [] ↔ ¬Kept s decisions node := by
  have hdecided : (decisions.toList.filter fun p => node.id ∈ p.2.unblocks).map (fun p => HoldReason.decision p.1) = [] ↔
      ¬∃ r : DecisionRef, ∃ pending : PendingDecision, decisions[r]? = some pending ∧ node.id ∈ pending.unblocks := by
    rw [List.map_eq_nil_iff, List.filter_eq_nil_iff]
    constructor
    · rintro h ⟨r, pending, hget, hin⟩
      exact h (r, pending) (ExtTreeMap.mem_toList_iff_getElem?_eq_some.mpr hget) (by simpa using hin)
    · intro h p hp hin
      exact h ⟨p.1, p.2, ExtTreeMap.mem_toList_iff_getElem?_eq_some.mp hp, by simpa using hin⟩
  simp only [Kept, reasonsOf, List.append_eq_nil_iff, hdecided, toList_map_eq_nil, not_or, not_not]
  simp only [ite_eq_left_iff, ite_eq_right_iff, List.cons_ne_nil, imp_false, not_not, and_assoc]

theorem mem_foldl_hold {l : List Node} {holds : Reasons} {id : String} :
    id ∈ l.foldl (hold s decisions) holds ↔ id ∈ holds ∨ ∃ node ∈ l, node.id = id ∧ Held s decisions node := by
  induction l generalizing holds with
  | nil => simp
  | cons node l ih =>
    have hstep : id ∈ hold s decisions holds node ↔ id ∈ holds ∨ (node.id = id ∧ Held s decisions node) := by
      unfold hold
      simp only []
      split_ifs with hin hmay hnone
      · exact ⟨.inl, fun h => h.resolve_right fun h => h.2.out hin⟩
      · refine ⟨.inl, fun h => h.resolve_right fun h => ?_⟩
        rw [h.2.may] at hmay
        cases hmay
      · exact ⟨.inl, fun h => h.resolve_right fun h => reasonsOf_eq_nil.mp hnone h.2.kept⟩
      · have hheld : Held s decisions node := ⟨hin, by simpa using hmay, by_contra fun h => hnone (reasonsOf_eq_nil.mpr h)⟩
        rw [Maps.mem_insert_iff, or_comm, eq_comm]
        simp [hheld]
    rw [List.foldl_cons, ih, hstep]
    simp only [List.mem_cons, exists_eq_or_imp, or_assoc]

/-- **What is held.** A pass finds held exactly the nodes something holds. -/
theorem mem_holds {id : String} : id ∈ holdsNow s decisions ↔ ∃ node ∈ s.graph.iter, node.id = id ∧ Held s decisions node := by
  rw [holdsNow, mem_foldl_hold]
  simp

theorem stated_of_mem_reasonsOf (h : ∀ r ∈ decisions, r.Plain) {node : Node} {reason : HoldReason}
    (hin : reason ∈ reasonsOf s decisions node) : reason.Stated names := by
  simp only [reasonsOf, List.mem_append] at hin
  rcases hin with ((((hin | hin) | hin) | hin) | hin) | hin
  · split_ifs at hin
    · cases hin
    · rw [List.mem_singleton.mp hin]
      trivial
  · split_ifs at hin
    · rw [List.mem_singleton.mp hin]
      trivial
    · cases hin
  · obtain ⟨p, hp, rfl⟩ := List.mem_map.mp hin
    exact h p.1 (Maps.mem_iff.mpr ⟨p.2, ExtTreeMap.mem_toList_iff_getElem?_eq_some.mp (List.mem_of_mem_filter hp)⟩)
  · obtain ⟨awaiting, -, rfl⟩ := Option.map_eq_some_iff.mp (Option.mem_toList.mp hin)
    trivial
  · obtain ⟨wait, -, rfl⟩ := Option.map_eq_some_iff.mp (Option.mem_toList.mp hin)
    trivial
  · obtain ⟨wait, hwait, rfl⟩ := Option.map_eq_some_iff.mp (Option.mem_toList.mp hin)
    exact s.named node.id wait hwait

theorem stated_of_get_holdsNow (h : ∀ r ∈ decisions, r.Plain) {id : String} {reasons : List HoldReason}
    (hget : (holdsNow s decisions)[id]? = some reasons) : ∀ reason ∈ reasons, reason.Stated names := by
  suffices hall : ∀ (l : List Node) (holds : Reasons),
      (∀ (id : String) reasons, holds[id]? = some reasons → ∀ reason ∈ reasons, reason.Stated names) →
      ∀ (id : String) reasons, (l.foldl (hold s decisions) holds)[id]? = some reasons →
        ∀ reason ∈ reasons, reason.Stated names by
    exact hall s.graph.iter ∅ (by simp) id reasons hget
  intro l
  induction l with
  | nil => exact fun holds hh => hh
  | cons node l ih =>
    refine fun holds hh => ih _ fun id reasons hget => ?_
    unfold hold at hget
    simp only [] at hget
    split_ifs at hget with hin hmay hnone
    · exact hh id reasons hget
    · exact hh id reasons hget
    · exact hh id reasons hget
    · rw [Maps.get_insert] at hget
      split_ifs at hget with hid
      · rw [← Option.some.inj hget]
        exact fun reason hreason => stated_of_mem_reasonsOf h hreason
      · exact hh id reasons hget

end Findings

/-! ## The account -/

section Accounts

variable {names : Names} {l : Loop}

theorem foldl_reportDecisions (a : Account) (decisions held : Decisions) :
    (reportDecisions decisions held).foldl foldSpoken a =
      { a with decisionsPending := Reported.follow DecisionRef.asWire id a.decisionsPending held decisions } := by
  have hbegun : ∀ (l : List (DecisionRef × PendingDecision)) (a : Account),
      (l.map fun p => Spoken.decisionPending p.1.asWire p.2).foldl foldSpoken a =
        { a with decisionsPending := l.foldl (fun m p => m.insert p.1.asWire p.2) a.decisionsPending } := by
    intro l
    induction l with
    | nil => exact fun a => rfl
    | cons p l ih => exact fun a => ih (foldSpoken a (.decisionPending p.1.asWire p.2))
  have hended : ∀ (l : List (DecisionRef × PendingDecision)) (a : Account),
      (l.map fun p => Spoken.decisionCleared p.1.asWire p.2.kind p.2.unblocks).foldl foldSpoken a =
        { a with decisionsPending := l.foldl (fun m p => m.erase p.1.asWire) a.decisionsPending } := by
    intro l
    induction l with
    | nil => exact fun a => rfl
    | cons p l ih => exact fun a => ih (foldSpoken a (.decisionCleared p.1.asWire p.2.kind p.2.unblocks))
  rw [reportDecisions, List.foldl_append, hbegun, hended]
  rfl

def written (reasons : List HoldReason) : List Value := reasons.map HoldReason.payload

theorem foldl_reportHolds (a : Account) (holds reported : Reasons) :
    (reportHolds holds reported).foldl foldSpoken a =
      { a with holds := Reported.follow id written a.holds reported holds } := by
  have hbegun : ∀ (l : List (String × List HoldReason)) (a : Account),
      (l.map fun p => Spoken.nodeHeld p.1 (p.2.map HoldReason.payload)).foldl foldSpoken a =
        { a with holds := l.foldl (fun m p => m.insert p.1 (written p.2)) a.holds } := by
    intro l
    induction l with
    | nil => exact fun a => rfl
    | cons p l ih => exact fun a => ih (foldSpoken a (.nodeHeld p.1 (p.2.map HoldReason.payload)))
  have hended : ∀ (l : List (String × List HoldReason)) (a : Account),
      (l.map fun p => Spoken.nodeUnheld p.1 (p.2.map HoldReason.payload)).foldl foldSpoken a =
        { a with holds := l.foldl (fun m p => m.erase p.1) a.holds } := by
    intro l
    induction l with
    | nil => exact fun a => rfl
    | cons p l ih => exact fun a => ih (foldSpoken a (.nodeUnheld p.1 (p.2.map HoldReason.payload)))
  rw [reportHolds, List.foldl_append, hbegun, hended]
  rfl

/-- what a pass leaves on the journal: each half follows its findings -/
theorem account_pass (p : Pass names) : (step l (.pass p)).account =
    { decisionsPending := Reported.follow DecisionRef.asWire id l.account.decisionsPending l.held p.decisions
      holds := Reported.follow id written l.account.holds l.holding p.holds } := by
  show (p.speaks l).foldl foldSpoken l.account = _
  rw [Pass.speaks, List.foldl_append, foldl_reportDecisions, foldl_reportHolds]

/-- the account names exactly what a pass found, each with what the pass would write of it -/
structure Exactly (a : Account) (p : Pass names) : Prop where
  decisions : Reported.Names DecisionRef.asWire id a.decisionsPending p.decisions
  holds : Reported.Names id written a.holds p.holds

/-- what a driver said last is what it reads off the account -/
structure InStep (names : Names) (l : Loop) : Prop where
  plain : ∀ r ∈ l.held, r.Plain
  pending : Reported.Names DecisionRef.asWire id l.account.decisionsPending l.held
  spelled : ∀ reference ∈ l.account.decisionsPending, (DecisionRef.ofWire reference).asWire = reference
  holding : ∀ (node : String) (read : List HoldReason), l.holding[node]? = some read ↔
    ∃ raw : List Value, l.account.holds[node]? = some raw ∧ raw.mapM (HoldReason.ofPayload names) = some read
  asWritten : ∀ (node : String) (raw : List Value) (read : List HoldReason), l.account.holds[node]? = some raw →
    raw.mapM (HoldReason.ofPayload names) = some read → raw = written read

/-- an account written as this build writes one, as far as it reads it -/
structure AsWritten (names : Names) (a : Account) : Prop where
  spelled : ∀ reference ∈ a.decisionsPending, (DecisionRef.ofWire reference).asWire = reference
  holds : ∀ (node : String) (raw : List Value) (read : List HoldReason), a.holds[node]? = some raw →
    raw.mapM (HoldReason.ofPayload names) = some read → raw = written read

/-- what other builds wrote is written as this build writes it; no node waiting on a person is named as a surface is; and
what a driver could not read is held still on its first pass -/
def Fit (l : Loop) : Event names → Prop
  | .adopt wrote => wrote = [] ∨ AsWritten names (wrote.foldl foldSpoken l.account)
  | .pass p => p.questions.Plain ∧ ∀ node ∈ l.account.holds, node ∉ l.holding →
      ∃ n ∈ p.standing.graph.iter, n.id = node ∧ Held p.standing p.decisions n

theorem readHold_eq_some {node : String} {raw : List Value} {p : String × List HoldReason} :
    readHold names node raw = some p ↔ p.1 = node ∧ raw.mapM (HoldReason.ofPayload names) = some p.2 := by
  rw [readHold, Option.map_eq_some_iff]
  constructor
  · rintro ⟨read, hread, rfl⟩
    exact ⟨rfl, hread⟩
  · rintro ⟨rfl, hread⟩
    exact ⟨p.2, hread, rfl⟩

/-- a driver that takes the run up reads an account written as this build writes one -/
theorem InStep.adopt {wrote : List Spoken} (h : AsWritten names (wrote.foldl foldSpoken l.account)) :
    InStep names (step l (.adopt wrote : Event names)) := by
  set a := wrote.foldl foldSpoken l.account with ha
  have hheld (r : DecisionRef) (pending : PendingDecision) :
      (step l (.adopt wrote : Event names)).held[r]? = some pending ↔
        ∃ reference : String, a.decisionsPending[reference]? = some pending ∧ DecisionRef.ofWire reference = r := by
    show (Reported.seed readDecision a.decisionsPending : Decisions)[r]? = some pending ↔ _
    rw [Reported.get_seed]
    · constructor
      · rintro ⟨reference, g, hget, hread⟩
        obtain ⟨hr, rfl⟩ := Prod.mk.inj (Option.some.inj hread)
        exact ⟨reference, hget, hr⟩
      · rintro ⟨reference, hget, rfl⟩
        exact ⟨reference, pending, hget, rfl⟩
    · intro name g name' g' r v v' hget hget' hread hread'
      obtain ⟨hr, rfl⟩ := Prod.mk.inj (Option.some.inj hread)
      obtain ⟨hr', rfl⟩ := Prod.mk.inj (Option.some.inj hread')
      have hname : name = name' := by
        rw [← h.spelled name (Maps.mem_iff.mpr ⟨_, hget⟩), ← h.spelled name' (Maps.mem_iff.mpr ⟨_, hget'⟩), hr, hr']
      rw [hname] at hget
      exact Option.some.inj (hget.symm.trans hget')
  refine ⟨fun r hr => ?_, fun name g => ?_, h.spelled, fun node read => ?_, h.holds⟩
  · obtain ⟨pending, hget⟩ := Maps.mem_iff.mp hr
    obtain ⟨reference, hin, rfl⟩ := (hheld r pending).mp hget
    rw [DecisionRef.Plain, h.spelled reference (Maps.mem_iff.mpr ⟨_, hin⟩)]
  · constructor
    · intro hget
      have hname : (DecisionRef.ofWire name).asWire = name := h.spelled name (Maps.mem_iff.mpr ⟨g, hget⟩)
      exact ⟨.ofWire name, g, (hheld _ _).mpr ⟨name, hget, rfl⟩, hname, rfl⟩
    · rintro ⟨r, pending, hget, rfl, rfl⟩
      obtain ⟨reference, hin, rfl⟩ := (hheld r pending).mp hget
      rw [h.spelled reference (Maps.mem_iff.mpr ⟨_, hin⟩)]
      exact hin
  · show (Reported.seed (readHold names) a.holds : Reasons)[node]? = some read ↔ _
    rw [Reported.get_seed]
    · constructor
      · rintro ⟨name, raw, hget, hread⟩
        obtain ⟨hname, hback⟩ := readHold_eq_some.mp hread
        obtain rfl : node = name := hname
        exact ⟨raw, hget, hback⟩
      · rintro ⟨raw, hget, hread⟩
        exact ⟨node, raw, hget, readHold_eq_some.mpr ⟨rfl, hread⟩⟩
    · intro name raw name' raw' node read read' hget hget' hread hread'
      obtain ⟨hname, hback⟩ := readHold_eq_some.mp hread
      obtain ⟨hname', hback'⟩ := readHold_eq_some.mp hread'
      obtain rfl : node = name := hname
      obtain rfl : node = name' := hname'
      obtain rfl := Option.some.inj (hget.symm.trans hget')
      exact Option.some.inj (hback.symm.trans hback')

/-- what a pass finds reads back as it is written -/
theorem read_written {p : Pass names} (h : p.questions.Plain) {node : String} {found : List HoldReason}
    (hget : p.holds[node]? = some found) : (written found).mapM (HoldReason.ofPayload names) = some found :=
  mapM_of_forall fun reason hreason => HoldReason.ofPayload_payload (stated_of_get_holdsNow h.decisions hget reason hreason)

/-- **One pass.** Over a driver in step, a fitting pass leaves the account naming what it found. -/
theorem InStep.exactly {p : Pass names} (h : InStep names l) (hfit : Fit l (.pass p)) :
    Exactly (step l (.pass p)).account p := by
  obtain ⟨hplain, hunread⟩ := hfit
  rw [account_pass]
  constructor
  · have hinj : ∀ r ∈ l.held, ∀ r' ∈ p.decisions, r.asWire = r'.asWire → r = r' := fun r hr r' hr' =>
      (h.plain r hr).inj (hplain.decisions r' hr')
    refine Reported.names_follow ?_ (.of_names h.pending hinj)
    exact fun r hr r' hr' => (hplain.decisions r hr).inj (hplain.decisions r' hr')
  · refine Reported.names_follow (fun node _ node' _ heq => heq) ⟨fun node found hfound hsaid => ?_, fun node hin hnone => ?_, ?_⟩
    · obtain ⟨raw, hraw, hread⟩ := (h.holding node found).mp hsaid
      rw [id_eq, hraw, h.asWritten node raw found hraw hread]
    · have hout : node ∉ p.holds := fun hfound => hnone node hfound rfl
      refine ⟨node, ?_, hout, rfl⟩
      by_contra hsaid
      exact hout (mem_holds.mpr (hunread node hin hsaid))
    · rintro node - hout node' hin rfl
      exact hout hin

theorem InStep.pass {p : Pass names} (h : InStep names l) (hfit : Fit l (.pass p)) : InStep names (step l (.pass p)) := by
  have hexact := h.exactly hfit
  refine ⟨hfit.1.decisions, hexact.decisions, fun reference hin => ?_, fun node read => ?_, fun node raw read hget hread => ?_⟩
  · obtain ⟨pending, hget⟩ := Maps.mem_iff.mp hin
    obtain ⟨r, _, hr, rfl, -⟩ := (hexact.decisions reference pending).mp hget
    rw [hfit.1.decisions r (Maps.mem_iff.mpr ⟨_, hr⟩)]
  · show p.holds[node]? = some read ↔ _
    constructor
    · intro hfound
      exact ⟨written read, (hexact.holds _ _).mpr ⟨node, read, hfound, rfl, rfl⟩, read_written hfit.1 hfound⟩
    · rintro ⟨raw, hget, hread⟩
      obtain ⟨node, found, hfound, rfl, rfl⟩ := (hexact.holds _ _).mp hget
      rw [read_written hfit.1 hfound] at hread
      rw [← Option.some.inj hread]
      exact hfound
  · obtain ⟨node, found, hfound, rfl, rfl⟩ := (hexact.holds _ _).mp hget
    rw [read_written hfit.1 hfound] at hread
    rw [Option.some.inj hread]

theorem InStep.step (h : InStep names l) {e : Event names} (hfit : Fit l e) : InStep names (Holding.step l e) := by
  cases e with
  | adopt wrote =>
    refine .adopt ?_
    rcases hfit with rfl | hfit
    · exact ⟨h.spelled, h.asWritten⟩
    · exact hfit
  | pass p => exact h.pass hfit

/-- a driver that takes the run up from a fitting pass says what that pass said last -/
theorem adopt_pass {p : Pass names} (h : InStep names l) (hfit : Fit l (.pass p)) :
    Holding.step (Holding.step l (.pass p)) (.adopt [] : Event names) = Holding.step l (.pass p) := by
  have hexact := h.exactly hfit
  have hheld : Reported.seed readDecision (Holding.step l (.pass p)).account.decisionsPending = p.decisions := by
    refine Reported.seed_eq hexact.decisions fun r pending hget => ?_
    have hplain : DecisionRef.ofWire r.asWire = r := hfit.1.decisions r (Maps.mem_iff.mpr ⟨_, hget⟩)
    rw [readDecision, hplain]
    rfl
  have hholding : Reported.seed (readHold names) (Holding.step l (.pass p)).account.holds = p.holds := by
    refine Reported.seed_eq hexact.holds fun node found hget => ?_
    exact readHold_eq_some.mpr ⟨rfl, read_written hfit.1 hget⟩
  show Loop.mk (Holding.step l (.pass p)).account
    (Reported.seed readDecision (Holding.step l (.pass p)).account.decisionsPending)
    (Reported.seed (readHold names) (Holding.step l (.pass p)).account.holds) = _
  rw [hheld, hholding]
  rfl

theorem adoptions_pass {p : Pass names} (h : InStep names l) (hfit : Fit l (.pass p)) (drivers : ℕ) :
    (List.replicate drivers (.adopt [] : Event names)).foldl Holding.step (Holding.step l (.pass p)) = Holding.step l (.pass p) := by
  induction drivers with
  | zero => rfl
  | succ drivers ih => rw [List.replicate_succ, List.foldl_cons, adopt_pass h hfit, ih]

/-- a pass that finds what was said last says nothing -/
theorem speaks_nil {p : Pass names} (hdecisions : p.decisions = l.held) (hholds : p.holds = l.holding) : p.speaks l = [] := by
  rw [Pass.speaks, hdecisions, hholds, reportDecisions, reportHolds, Reported.begun_self, Reported.ended_self, Reported.begun_self,
    Reported.ended_self]
  simp

theorem inStep_empty : InStep names {} where
  plain r hr := by simp at hr
  pending name g := by simp
  spelled reference hin := by simp at hin
  holding node read := by simp
  asWritten node raw read hget := by simp at hget

end Accounts

/-! ## Runs -/

def anyName : Names := ⟨fun _ => true, fun _ => true⟩

/-- a pass over a graph with nothing in flight and nothing awaited -/
def Pass.idle (tasks : List Node) (statuses : StrMap NodeStatus) (waiting : List Surface) : Pass anyName where
  questions := { graph := .ofNodes tasks, statuses, waiting, pending := none }
  standing :=
    { graph := .ofNodes tasks, crossDag := ∅, statuses, inFlight := ∅, awaitingRelease := ∅, awaitingWorkspace := ∅
      awaitingSource := ∅, named := by simp }

/-- a task on another, and a surface about the other one that is still to be answered -/
def asked : Pass anyName :=
  .idle [.direct "a" [], .direct "b" ["a"]] ∅
    [{ id := 3, kind := "finding", workstream := some "a", blocking := true, abandoned := false }]

/-- a hold of a kind this build has no word for -/
def laterHold : Spoken := .nodeHeld "b" [.obj [("kind", .str "quota")]]

/-- a person's task, named as a surface is -/
def person : Node := { id := "surface:7", deps := [], kind := .human, task := some "sign the release" }

def personWaits : Pass anyName :=
  .idle [person, .direct "b" ["surface:7"]] ((∅ : StrMap NodeStatus).insert "surface:7" .waiting) []

/-- nothing holds the node a later build's hold is on -/
def free : Pass anyName := .idle [.direct "b" []] ∅ []

end OnePipeline.Holding
