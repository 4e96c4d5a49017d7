/-
The notes a dispatch is composed with, beside the ones the whole record holds.

A dispatch reads the notes standing for its node only where the projected state says one can stand. What carries that is
the planner context owed to a node no dispatch was announced for: it lists at least every note standing for the node
(`Owed`), through every record this crate's writers append.

Results:
- `pendingContext_foldOne`, `pendingContext_foldRecord`: what each record leaves owed to a node's next dispatch;
- `validate_carried`: what a withdrawal commits is the note its envelope sent;
- `withdraw_owed`: a withdrawal that takes its own note back leaves every other note listed;
- `Tracked.commit`, `Tracked.dispatch`, `Tracked.quiet`: one record;
- `composed_as_recorded`: in every run whose withdrawals take their own notes back, a dispatch is composed as the whole
  record says;
- `withdrawn_twice_forgets`: one note taken back twice by one envelope, and another note forgotten.
-/
import OnePipeline.Laws.Carried
import OnePipeline.Laws.Notes
import OnePipeline.Model.AtDispatch

namespace OnePipeline

open RunState

/-! ## What is owed to a node's next dispatch -/

namespace RunState

variable {host : Host} {s : RunState} {e : Envelope} {«at» : Option ℕ}

/-- what one operation leaves of the planner context owed to a node -/
def owedBy (node : String) (context : Option String) : Operation → Option String
  | .contextAdded whose note .deferred => if whose = node then some note else context
  | .noteDelivered whose _ text _ (.carried _) _ _ => if whose = node then some (withCarried context text) else context
  | .noteWithdrawn whose _ _ .carried text alikeAfter =>
    if whose = node then context.bind fun c => withoutCarried c text alikeAfter else context
  | _ => context

theorem pendingContext_owe (node whose : String) (context : Option String) :
    (s.owe whose context).pendingContext[node]? = if whose = node then context else s.pendingContext[node]? := by
  cases context with
  | none =>
    rw [owe, Maps.get_erase]
    simp only [eq_comm]
  | some context =>
    rw [owe, Maps.get_insert]
    simp only [eq_comm]

theorem pendingContext_foldOne (node : String) (op : Operation) :
    (foldOne host «at» s op).pendingContext[node]? = owedBy node s.pendingContext[node]? op := by
  cases op with
  | reparent whose was deps =>
    simp only [foldOne, foldOperation]
    split_ifs <;> rfl
  | landingFromEvidence whose landing =>
    simp only [foldOne, foldOperation]
    cases StatedLanding.parse host.toSiblings landing <;> rfl
  | contextAdded whose note delivery =>
    cases delivery with
    | live => rfl
    | deferred => exact pendingContext_owe node whose _
  | noteDelivered whose addressee text criterion reached envelope index =>
    cases reached with
    | carried waiting =>
      rw [foldOne, foldOperation, pendingContext_owe, owedBy]
      split_ifs with h
      · rw [h]
      · rfl
    | _ => rfl
  | noteWithdrawn whose envelope index «from» text alikeAfter =>
    cases «from» with
    | live => rfl
    | carried =>
      rw [foldOne, foldOperation, pendingContext_owe, owedBy]
      split_ifs with h
      · rw [h]
      · rfl
  | _ => rfl

theorem pendingContext_foldOperations (node : String) (ops : List Operation) :
    (s.foldOperations host ops «at»).pendingContext[node]? = ops.foldl (owedBy node) s.pendingContext[node]? := by
  unfold foldOperations
  induction ops generalizing s with
  | nil => rfl
  | cons op ops ih => rw [List.foldl_cons, List.foldl_cons, ih, pendingContext_foldOne]

theorem pendingContext_foldSettled (node : String) (settled : Settlement) :
    (s.foldSettled node settled).pendingContext = s.pendingContext := by
  have hstatus (status : Option NodeStatus) (t : RunState) : (t.foldStatus node status).pendingContext = t.pendingContext := by
    cases status with
    | none => rfl
    | some status =>
      simp only [foldStatus, foldSettledStatus]
      split_ifs <;> rfl
  have hretract (outcome : Option String) (t : RunState) :
      (t.retractStated node outcome).pendingContext = t.pendingContext := by
    unfold retractStated
    split_ifs <;> rfl
  have hpin (status : Option NodeStatus) (t : RunState) : (t.pinSettled node status).pendingContext = t.pendingContext := by
    cases status with
    | none => rfl
    | some status =>
      simp only [pinSettled, pinPreservedBranch]
      split_ifs
      · cases t.branches[node]? <;> rfl
      · rfl
  exact (hpin settled.status _).trans ((hretract settled.outcome _).trans (hstatus settled.status s))

theorem pendingContext_foldChecksRead (read : NodeChecksRead) : (s.foldChecksRead read).pendingContext = s.pendingContext := by
  unfold foldChecksRead
  cases read.verdict with
  | failed => rfl
  | _ =>
    simp only
    split_ifs <;> rfl

theorem pendingContext_foldAdopted : s.foldAdopted.pendingContext = s.pendingContext := by
  have hfold (l : List (String × DispatchSession)) (t : RunState) :
      (l.foldl abandonOne t).pendingContext = t.pendingContext := by
    induction l generalizing t with
    | nil => rfl
    | cons p l ih => exact ih (t.abandonOne p)
  exact hfold s.sessionsInFlight s

/-- **A record of another kind.** It leaves what is owed to every node. -/
theorem pendingContext_other (h : Writers.isOther e = true) : (foldRecord host s e).pendingContext = s.pendingContext := by
  have hkept (s : RunState) : (s.kept e).pendingContext = s.pendingContext := by
    unfold kept
    split_ifs <;> rfl
  have hpipeline (s : RunState) : (s.foldPipeline host e).pendingContext = s.pendingContext := by
    obtain ⟨v, ts, stream, seq, node, body⟩ := e
    cases body with
    | editCommitted operations => cases h
    | commandAccepted operations => cases h
    | nodeDispatched composed => cases h
    | releaseAdopted next note => cases h
    | nodeRequeued => cases node <;> rfl
    | nodeSettled settled =>
      cases node with
      | none => rfl
      | some node => exact pendingContext_foldSettled node settled
    | nodeChecksRead read =>
      cases read with
      | none => rfl
      | some read => exact pendingContext_foldChecksRead read
    | driverAdopted => exact pendingContext_foldAdopted
    | runStarted plan => cases plan <;> rfl
    | nodeRestackStarted started => cases started <;> rfl
    | nodeRestacked restacked => cases restacked <;> rfl
    | nodeReadjusted readjusted => cases readjusted <;> rfl
    | changeRetitled retitled => cases retitled <;> rfl
    | nodeLanded landed => cases landed <;> rfl
    | nodeAbsorbed absorbed => cases absorbed <;> rfl
    | humanAttested reference => cases reference <;> rfl
    | _ => rfl
  have hrelayed (s : RunState) (node : Option String) (record : Relayed) :
      (s.foldRelayed node record).pendingContext = s.pendingContext := by
    unfold foldRelayed
    split <;> rfl
  by_cases hp : e.isPipeline = true
  · by_cases hx : ∀ v ts stream seq node, e ≠ ⟨v, ts, stream, seq, node, .driverExited⟩
    · rw [foldRecord_pipeline host s hp hx]
      split_ifs
      · rw [hpipeline, hkept]
      · rfl
    · simp only [not_forall, not_not] at hx
      obtain ⟨v, ts, stream, seq, node, rfl⟩ := hx
      rfl
  · obtain ⟨v, ts, stream, seq, node, body⟩ := e
    cases body with
    | relayed record closes =>
      rw [foldRecord]
      simp only
      split_ifs
      · exact hrelayed s node record
      · exact hrelayed s node record
    | _ => exact absurd rfl hp

/-- a commit leaves what its operations leave -/
theorem pendingContext_commit {ops : List Operation} (hc : commits e = some (some ops)) (hk : writtenAtAKnownVersion e = true)
    (node : String) : (foldRecord host s e).pendingContext[node]? = ops.foldl (owedBy node) s.pendingContext[node]? := by
  have hwhole : foldRecord host s e = s.foldEdit host e (some ops) := by
    obtain ⟨v, ts, stream, seq, whose, body⟩ := e
    cases body with
    | editCommitted operations =>
      cases hc
      exact if_pos hk
    | commandAccepted operations =>
      cases hc
      exact if_pos hk
    | _ => cases hc
  rw [hwhole]
  exact pendingContext_foldOperations node ops

/-- a node's releases told leave what is owed to every other node -/
theorem pendingContext_arrival {next : Bool} {note : Option String} (hb : e.body = .releaseAdopted next note) {node : String}
    (hne : e.node ≠ some node) : (foldRecord host s e).pendingContext[node]? = s.pendingContext[node]? := by
  obtain ⟨v, ts, stream, seq, whose, body⟩ := e
  cases hb
  have hkept (t : RunState) (f : Envelope) : (t.kept f).pendingContext = t.pendingContext := by
    unfold kept
    split_ifs <;> rfl
  simp only [foldRecord]
  split_ifs
  · cases next with
    | false => rw [foldPipeline, hkept]
    | true =>
      cases note with
      | none => rw [foldPipeline, hkept]
      | some note =>
        cases whose with
        | none => rw [foldPipeline, hkept]
        | some whose =>
          have hwhose : node ≠ whose := fun h => hne (congrArg some h.symm)
          simp only [foldPipeline, foldReleaseAdopted, Maps.get_insert, if_neg hwhose, hkept]
  · rfl

/-- a dispatch leaves what is owed to every other node -/
theorem pendingContext_dispatch {composed : Composed} (hb : e.body = .nodeDispatched composed) {node : String}
    (hne : e.node ≠ some node) : (foldRecord host s e).pendingContext[node]? = s.pendingContext[node]? := by
  obtain ⟨v, ts, stream, seq, whose, body⟩ := e
  cases hb
  have hkept (t : RunState) (f : Envelope) : (t.kept f).pendingContext = t.pendingContext := by
    unfold kept
    split_ifs <;> rfl
  simp only [foldRecord]
  split_ifs
  · cases whose with
    | none => rw [foldPipeline, hkept]
    | some whose =>
      have hwhose : node ≠ whose := fun h => hne (congrArg some h.symm)
      simp only [foldPipeline, foldDispatched, Maps.get_erase, if_neg hwhose, hkept]
  · rfl

end RunState

/-! ## A context that lists what stands -/

namespace Carried

open Text

variable {context : Option String} {notes : List NoteText}

theorem level_none : Level none := fun _ h => by cases h

theorem eq_of_kept {c : Option String} (h : kept c = some t) : c = some t := (kept_eq_some.mp h).1

/-- what is left of a text, none where it is blank, is its own reading -/
theorem kept_visible (l : List Char) :
    kept (if (trimChars l).isEmpty then none else some (String.ofList l)) =
      if (trimChars l).isEmpty then none else some (String.ofList l) := by
  split_ifs with hblank
  · rfl
  · rw [kept, Option.filter_some, isBlank_ofList]
    simp [hblank]

/-- a note carried onto a context that lists notes is listed after them -/
theorem carry_lists (h : context = listing none notes) (t : NoteText) :
    some (withCarried context t.text) = listing none (notes ++ [t]) := by
  have hstart : kept context = listing none notes := by rw [h, kept_listing]
  have hkept := carry_listed hstart t
  have hsome : listing none (notes ++ [t]) ≠ none := by
    rw [listing]
    split_ifs with hnil
    · simp [texts] at hnil
    · simp
  obtain ⟨l, hl⟩ := Option.ne_none_iff_exists'.mp hsome
  rw [hl] at hkept ⊢
  exact eq_of_kept hkept

/-- **A withdrawal.** It leaves the context as it was, or takes out one entry reading as the withdrawn note. -/
theorem withdraw_lists (h : context = listing none notes) (text : String) (k : ℕ) :
    ∃ left, (context.bind fun c => withoutCarried c text k) = listing none left ∧
      (left = notes ∨ ∃ i, (notes.map NoteText.entry)[i]? = some (entryOf text) ∧ left = notes.eraseIdx i) := by
  subst h
  by_cases hnil : texts none notes = []
  · exact ⟨notes, by rw [listing, if_pos hnil]; rfl, .inl rfl⟩
  rw [listing, if_neg hnil, Option.bind_some, withoutCarried]
  simp only [String.toList_ofList, split_pieces level_none hnil]
  have hpieces : pieces none notes = notes.map NoteText.entry := rfl
  cases hplace : (alike (entryOf text) (pieces none notes)).reverse[k]? with
  | none => exact ⟨notes, by rw [listing, if_neg hnil], .inl rfl⟩
  | some i =>
    have herase : (pieces none notes).eraseIdx i = pieces none (notes.eraseIdx i) := by
      rw [hpieces, List.eraseIdx_map]
      rfl
    refine ⟨notes.eraseIdx i, ?_, .inr ⟨i, hpieces ▸ getElem?_of_alike hplace, rfl⟩⟩
    simp only [herase]
    rw [← kept_visible, kept_unless_blank, kept_join_pieces]

end Carried

/-- a standing note, as its node's planner context writes it -/
def Held.entry (held : Held) : List Char := entryOf held.note.text

/-- a planner context that lists at least the notes standing for its node, none of which a dispatch was composed with -/
structure Owed (context : Option String) (held : List Held) : Prop where
  since : ∀ h ∈ held, h.placement = .deliveredSince
  listed : ∃ notes : List Carried.NoteText,
    context = Carried.listing none notes ∧ (held.map Held.entry).Subperm (notes.map Carried.NoteText.entry)

namespace Owed

variable {context : Option String} {held : List Held}

theorem start : Owed none [] where
  since := nofun
  listed := ⟨[], rfl, List.Subperm.refl _⟩

/-- nothing owed is nothing standing -/
theorem eq_nil (h : Owed none held) : held = [] := by
  obtain ⟨notes, hcontext, hsub⟩ := h.listed
  have hnil : Carried.texts none notes = [] := by
    by_contra hne
    rw [Carried.listing, if_neg hne] at hcontext
    cases hcontext
  have hnotes : notes.map Carried.NoteText.entry = [] := hnil
  rw [hnotes, List.subperm_nil] at hsub
  exact List.map_eq_nil_iff.mp hsub

/-- a note carried is listed -/
theorem carry (h : Owed context held) (note : RecordedNote) (sent : Option (UInt64 × UInt32))
    (hvisible : Text.isBlank note.text = false) :
    Owed (some (withCarried context note.text)) (held ++ [{ note, placement := .deliveredSince, sent }]) := by
  obtain ⟨notes, hcontext, hsub⟩ := h.listed
  refine ⟨fun g hg => ?_, notes ++ [⟨note.text, hvisible⟩], Carried.carry_lists hcontext ⟨note.text, hvisible⟩, ?_⟩
  · rcases List.mem_append.mp hg with hg | hg
    · exact h.since g hg
    · rw [List.mem_singleton.mp hg]
  · rw [List.map_append, List.map_append]
    exact (List.subperm_append_right _).mpr hsub

/-- what a withdrawal takes out of a context is its own entry alone -/
theorem withdraw (h : Owed context held) {left : List Held} (text : String) (k : ℕ)
    (hleft : ∀ g ∈ left, g ∈ held) (hsub : (left.map Held.entry).Subperm ((held.map Held.entry).erase (entryOf text))) :
    Owed (context.bind fun c => withoutCarried c text k) left := by
  obtain ⟨notes, hcontext, hlist⟩ := h.listed
  obtain ⟨kept, hkept, hnotes⟩ := Carried.withdraw_lists hcontext text k
  refine ⟨fun g hg => h.since g (hleft g hg), kept, hkept, ?_⟩
  have hrest : (left.map Held.entry).Subperm ((notes.map Carried.NoteText.entry).erase (entryOf text)) :=
    hsub.trans (hlist.erase _)
  rcases hnotes with rfl | ⟨i, hi, rfl⟩
  · exact hrest.trans (List.erase_sublist).subperm
  · rw [← List.eraseIdx_map]
    obtain ⟨hlt, hentry⟩ := List.getElem?_eq_some_iff.mp hi
    have hperm := List.perm_cons_erase (a := entryOf text) (l := notes.map Carried.NoteText.entry) (hentry ▸ List.getElem_mem hlt)
    have hcut : (notes.map Carried.NoteText.entry).Perm
        (entryOf text :: (notes.map Carried.NoteText.entry).eraseIdx i) := by
      rw [← hentry]
      exact (List.getElem_cons_eraseIdx_perm hlt).symm
    exact hrest.trans ((List.perm_cons _).mp (hperm.symm.trans hcut)).subperm

/-- notes standing no longer need not be listed -/
theorem part (h : Owed context held) {left : List Held} (hleft : left.Sublist held) : Owed context left := by
  obtain ⟨notes, hcontext, hlist⟩ := h.listed
  exact ⟨fun g hg => h.since g (hleft.subset hg), notes, hcontext, (hleft.map Held.entry).subperm.trans hlist⟩

end Owed

/-! ## What a withdrawal commits -/

namespace Withdrawal

variable {channel : Channel} {journal : List Envelope} {refused : UInt64 → UInt32 → Option String}

theorem carriedBack_ok {id : UInt64} {index : UInt32} {node text : String} {ops : List Operation}
    (h : carriedBack journal id index node text = .ok (.carried ops)) :
    ∃ k, ops = [.noteWithdrawn node id index .carried text k] := by
  obtain ⟨held, -, h⟩ := Checks.bind_eq_ok.mp h
  simp only at h
  cases hplace : (held.filter fun h => h.placement = .deliveredSince).findIdx? fun h => h.sent = some (id, index) with
  | none =>
    rw [hplace] at h
    cases h
  | some i =>
    rw [hplace] at h
    cases h
    exact ⟨_, rfl⟩

theorem carriedBack_not_live {id : UInt64} {index : UInt32} {node text : String} {op : Operation} :
    carriedBack journal id index node text ≠ .ok (.live op) := by
  intro h
  obtain ⟨held, -, h⟩ := Checks.bind_eq_ok.mp h
  simp only at h
  cases hplace : (held.filter fun h => h.placement = .deliveredSince).findIdx? fun h => h.sent = some (id, index) with
  | none =>
    rw [hplace] at h
    cases h
  | some i =>
    rw [hplace] at h
    cases h

theorem liveBack_ok {id : UInt64} {index : UInt32} {node text : String} {v : Validated}
    (h : liveBack channel refused id index node text = .ok v) : v = .live (.noteWithdrawn node id index .live text 0) := by
  unfold liveBack at h
  cases hrefused : refused id index with
  | some reason =>
    rw [hrefused] at h
    cases h
  | none =>
    rw [hrefused] at h
    cases hresult : (channel.outcomeOf id).bind fun outcome => outcome.results[index.toNat]? with
    | none =>
      simp only [hresult] at h
      exact (Except.ok.inj h).symm
    | some result =>
      simp only [hresult] at h
      cases hverdict : result.outcome <;> rw [hverdict] at h <;> first | exact (Except.ok.inj h).symm | cases h

/-- **What a `withdraw-note` commits.** The withdrawal of the note at the place it names, of the node it was sent to. -/
theorem validate_ok {envelope reason : String} {index : UInt32} {v : Validated}
    (h : validate channel journal refused envelope index reason = .ok v) :
    ∃ id node text, noteAt channel id index = .ok (node, text) ∧
      (v = .live (.noteWithdrawn node id index .live text 0) ∨
        ∃ k, v = .carried [.noteWithdrawn node id index .carried text k]) := by
  obtain ⟨-, -, h⟩ := Checks.bind_eq_ok.mp h
  obtain ⟨id, -, h⟩ := Checks.bind_eq_ok.mp h
  obtain ⟨⟨node, text⟩, hat, h⟩ := Checks.bind_eq_ok.mp h
  obtain ⟨records, -, h⟩ := Checks.bind_eq_ok.mp h
  refine ⟨id, node, text, hat, ?_⟩
  rw [ruled] at h
  split_ifs at h
  split at h
  · cases v with
    | carried ops =>
      obtain ⟨k, rfl⟩ := carriedBack_ok h
      exact .inr ⟨k, rfl⟩
    | live op => exact absurd h carriedBack_not_live
  · cases h
  · exact .inl (liveBack_ok h)

end Withdrawal

/-! ## One record -/

namespace Writers

variable {host : Host} {channel : UInt64 → Option (List Command)} {judged journal : List Envelope} {e : Envelope}

/-- whether the carried note a record takes back still stands, or else no note standing for its node reads as it does -/
def TakesItsOwn (journal : List Envelope) (e : Envelope) : Prop :=
  ∀ node id index text k, commits e = some (some [.noteWithdrawn node id index .carried text k]) →
    ∀ held, standing journal node = .ok held →
      (∃ h ∈ held, h.placement = .deliveredSince ∧ h.sent = some (id, index)) ∨
        ∀ h ∈ held, h.placement = .deliveredSince → readsAlike h.note.text text = false

/-- a record a writer appends, judged against an earlier moment of the journal -/
inductive Pens (host : Host) (channel : UInt64 → Option (List Command)) (judged : List Envelope) (e : Envelope) : Prop where
  | commit (ops : List Operation) (body : commits e = some (some ops)) (known : writtenAtAKnownVersion e = true)
      (each : ∀ op ∈ ops, Commits channel judged op)
  | withdrawal (node : String) (id : UInt64) (index : UInt32) («from» : WithdrawnFrom) (text : String) (k : ℕ)
      (body : commits e = some (some [.noteWithdrawn node id index «from» text k]))
      (known : writtenAtAKnownVersion e = true)
      (sent : Withdrawal.noteAt { commandsOf := channel } id index = .ok (node, text))
  | dispatch (node : String) (composed : Composed) (body : e.body = .nodeDispatched composed) (node' : e.node = some node)
      (known : writtenAtAKnownVersion e = true) (dated : (millisOf e.ts).isSome) (composes : Composes host judged node composed)
  | arrival (node : String) (next : Bool) (note : Option String) (body : e.body = .releaseAdopted next note)
      (node' : e.node = some node) (known : writtenAtAKnownVersion e = true) (told : node ∈ dispatchedAt judged)
  | other (body : isOther e = true) (known : e.isPipeline = true → writtenAtAKnownVersion e = true)

/-- whether every note standing since the last dispatch is one its envelope sent -/
def AllSent (channel : UInt64 → Option (List Command)) (node : String) (held : List Held) : Prop :=
  ∀ h ∈ held, h.placement = .deliveredSince → ∀ id index, h.sent = some (id, index) →
    Withdrawal.noteAt { commandsOf := channel } id index = .ok (node, h.note.text)

/-- what stands for a node by the whole journal, and what the projection holds of it -/
structure Tracked (host : Host) (channel : UInt64 → Option (List Command)) (journal : List Envelope) (node : String)
    (said : Said) (held : List Held) : Prop where
  tracks : Tracks node (RunState.fold host journal) said held held
  stands : standing journal node = .ok held
  whole : said.leftOut = false
  composed : said.composed = true → said.noted = true
  sent : AllSent channel node held
  owed : node ∉ dispatchedAt journal → Owed (RunState.fold host journal).pendingContext[node]? held

theorem fold_append : RunState.fold host (journal ++ [e]) = foldRecord host (RunState.fold host journal) e := by
  rw [RunState.fold, List.foldl_append]
  rfl

theorem dispatchedAt_append : dispatchedAt (journal ++ [e]) = foldDispatchedAt (dispatchedAt journal) e := by
  rw [dispatchedAt, List.foldl_append]
  rfl

theorem mem_written {V : Type} {m : StrMap V} {node whose : String} {v : Option V} :
    node ∈ written m whose v ↔ node ∈ m ∨ node = whose ∧ v.isSome := by
  cases v with
  | none => simp [written]
  | some v => simp [written, or_comm, @eq_comm _ node whose]

/-- a node once dispatched stays dispatched -/
theorem mem_dispatchedAt_append {node : String} (h : node ∈ dispatchedAt journal) : node ∈ dispatchedAt (journal ++ [e]) := by
  rw [dispatchedAt_append, foldDispatchedAt]
  split_ifs
  · split
    · exact mem_written.mpr (.inl h)
    · exact mem_written.mpr (.inl h)
    · exact h
  · exact h

theorem mem_dispatchedAt_mono {node : String} (hpart : judged <+: journal) (h : node ∈ dispatchedAt judged) :
    node ∈ dispatchedAt journal := by
  obtain ⟨rest, rfl⟩ := hpart
  induction rest using List.reverseRecOn with
  | nil => rwa [List.append_nil]
  | append_singleton rest e ih =>
    rw [← List.append_assoc]
    exact mem_dispatchedAt_append ih

/-- a sibling's record is of no node's notes, kept whole or not -/
theorem past_written {node : String} {s : RunState} {said : Said} {kept all : List Held} (h : Tracks node s said kept all)
    (hk : e.isPipeline = true → writtenAtAKnownVersion e = true) : Tracks.Past host node s said all e := by
  by_cases hp : e.isPipeline = true
  · exact h.past hp (hk hp)
  · obtain ⟨v, ts, stream, seq, whose, body⟩ := e
    cases body with
    | relayed record closes =>
      refine .inr ⟨kept, all, rfl, ?_⟩
      have hrelayed : (s.foldRelayed whose record).recalled = s.recalled ∧ (s.foldRelayed whose record).noted = s.noted := by
        unfold foldRelayed
        split <;> exact ⟨rfl, rfl⟩
      refine h.quiet ?_ ?_
      · rw [foldRecord]
        simp only
        split_ifs
        · rw [hrelayed.1, standing_append, h.read]
          rfl
        · rw [hrelayed.1]
      · rw [foldRecord]
        simp only
        split_ifs
        · rw [hrelayed.2]
        · rw [hrelayed.2]
    | _ => exact absurd rfl hp

namespace Tracked

variable {node : String} {said : Said} {held held' : List Held}

theorem extend (h : Tracked host channel journal node said held) (hk : e.isPipeline = true → writtenAtAKnownVersion e = true)
    (hone : standOne node held e = .ok held') (hwhole : (said.with node e).leftOut = false)
    (hcomposed : (said.with node e).composed = true → (said.with node e).noted = true)
    (hsent : AllSent channel node held')
    (howed : node ∉ dispatchedAt (journal ++ [e]) →
      Owed (foldRecord host (RunState.fold host journal) e).pendingContext[node]? held') :
    Tracked host channel (journal ++ [e]) node (said.with node e) held' := by
  rcases (past_written h.tracks hk : Tracks.Past host node _ said held e) with ⟨error, herror, -⟩ | ⟨kept', all', hall, htracks⟩
  · rw [hone] at herror
    cases herror
  · rw [hone] at hall
    cases hall
    rw [htracks.same hwhole] at htracks
    rw [← fold_append] at htracks howed
    refine ⟨htracks, ?_, hwhole, hcomposed, hsent, howed⟩
    rw [standing_append, h.stands]
    exact hone

/-- a record that says nothing of the node's notes, and leaves what is owed to it -/
theorem quiet (h : Tracked host channel journal node said held) (hk : e.isPipeline = true → writtenAtAKnownVersion e = true)
    (hone : standOne node held e = .ok held) (hsaid : said.with node e = said)
    (howed : node ∉ dispatchedAt (journal ++ [e]) → (foldRecord host (RunState.fold host journal) e).pendingContext[node]? =
      (RunState.fold host journal).pendingContext[node]?) :
    Tracked host channel (journal ++ [e]) node said held := by
  have hnext := h.extend hk hone (by rw [hsaid, h.whole]) (by rw [hsaid]; exact h.composed) h.sent fun hout => by
    rw [howed hout]
    exact h.owed fun hin => hout (mem_dispatchedAt_append hin)
  rwa [hsaid] at hnext

theorem other (h : Tracked host channel journal node said held) (hbody : isOther e = true)
    (hk : e.isPipeline = true → writtenAtAKnownVersion e = true) : Tracked host channel (journal ++ [e]) node said held := by
  refine h.quiet hk ?_ ?_ fun _ => by rw [pendingContext_other hbody]
  · obtain ⟨v, ts, stream, seq, whose, body⟩ := e
    cases body <;> first | rfl | cases hbody
  · obtain ⟨v, ts, stream, seq, whose, body⟩ := e
    cases body <;> first | rfl | cases hbody

theorem arrival (h : Tracked host channel journal node said held) {whose : String} {next : Bool} {note : Option String}
    (hbody : e.body = .releaseAdopted next note) (hwhose : e.node = some whose) (hk : writtenAtAKnownVersion e = true)
    (htold : whose ∈ dispatchedAt journal) : Tracked host channel (journal ++ [e]) node said held := by
  refine h.quiet (fun _ => hk) ?_ ?_ fun hout => pendingContext_arrival hbody fun heq => ?_
  · simp only [standOne, hbody]
    rfl
  · simp only [Said.with, hbody]
  · rw [hwhose] at heq
    exact hout (mem_dispatchedAt_append (Option.some.inj heq ▸ htold))

/-- a dispatch resets what stands for its node, and leaves every other node's -/
theorem dispatch (h : Tracked host channel journal node said held) {whose : String} {composed : Composed}
    (hbody : e.body = .nodeDispatched composed) (hwhose : e.node = some whose) (hk : writtenAtAKnownVersion e = true)
    (hdated : (millisOf e.ts).isSome)
    (hcomposes : composed = .unstated ∨ ∃ notes, composed = .notes notes ∧ (whose = node → said.noted = true)) :
    ∃ said held, Tracked host channel (journal ++ [e]) node said held := by
  by_cases hown : whose = node
  · subst hown
    have hin : whose ∈ dispatchedAt (journal ++ [e]) := by
      rw [dispatchedAt_append, foldDispatchedAt, if_pos hk, hbody, hwhose]
      exact mem_written.mpr (.inr ⟨rfl, hdated⟩)
    have hone : standOne whose held e = (composedOf e composed).map composedHeld := by
      simp only [standOne, hbody, if_pos hwhose]
      cases composedOf e composed <;> rfl
    have hsent (notes : List RecordedNote) : AllSent channel whose (composedHeld notes) := by
      intro g hg hplaced
      rw [composedHeld_placed g hg] at hplaced
      cases hplaced
    rcases hcomposes with rfl | ⟨notes, rfl, hnoted⟩
    · refine ⟨_, composedHeld [], h.extend (fun _ => hk) hone ?_ ?_ (hsent []) fun hout => absurd hin hout⟩
      · simp only [Said.with, hbody, if_pos hwhose]
        cases hn : said.noted with
        | true => rfl
        | false =>
          -- with no note ever delivered, no dispatch was composed with one
          have hcomposed : said.composed = false := by
            by_contra hc
            rw [h.composed (by simpa using hc)] at hn
            cases hn
          exact hcomposed
      · simp only [Said.with, hbody, if_pos hwhose]
        cases hn : said.noted with
        | true => exact fun hc => absurd hc Bool.false_ne_true
        | false => exact fun hc => (h.composed hc).symm.trans hn |> fun h => by cases h
    · refine ⟨_, composedHeld notes, h.extend (fun _ => hk) hone ?_ ?_ (hsent notes) fun hout => absurd hin hout⟩
      · simp only [Said.with, hbody, if_pos hwhose]
      · simp only [Said.with, hbody, if_pos hwhose]
        exact fun _ => hnoted rfl
  · have hne : e.node ≠ some node := fun heq => hown (Option.some.inj (hwhose ▸ heq))
    refine ⟨said, held, h.quiet (fun _ => hk) ?_ ?_ fun _ => pendingContext_dispatch hbody hne⟩
    · simp only [standOne, hbody, if_neg hne]
      rfl
    · simp only [Said.with, hbody, if_neg hne]

/-- a commit's operations onto what stands and what is owed -/
theorem commit (h : Tracked host channel journal node said held) {ops : List Operation} (hbody : commits e = some (some ops))
    (hk : writtenAtAKnownVersion e = true)
    (hsent : AllSent channel node (standOperations node held ops))
    (howed : node ∉ dispatchedAt journal → Owed (RunState.fold host journal).pendingContext[node]? held →
      Owed (ops.foldl (owedBy node) (RunState.fold host journal).pendingContext[node]?) (standOperations node held ops)) :
    ∃ said, Tracked host channel (journal ++ [e]) node said (standOperations node held ops) := by
  have hsaid : said.with node e = { said with noted := said.noted || node ∈ notedBy ops } := by
    obtain ⟨v, ts, stream, seq, whose, body⟩ := e
    cases body <;> cases hbody <;> rfl
  have hone : standOne node held e = .ok (standOperations node held ops) := by
    obtain ⟨v, ts, stream, seq, whose, body⟩ := e
    cases body <;> cases hbody <;> rfl
  refine ⟨_, h.extend (fun _ => hk) hone ?_ ?_ hsent fun hout => ?_⟩
  · rw [hsaid]
    exact h.whole
  · rw [hsaid]
    intro hc
    simp [h.composed hc]
  · have hbefore : node ∉ dispatchedAt journal := fun hin => hout (mem_dispatchedAt_append hin)
    rw [pendingContext_commit hbody hk]
    exact howed hbefore (h.owed hbefore)

end Tracked

/-! ### The operations of a commit -/

section Operations

variable {node : String} {held : List Held}

/-- one operation of a command that takes no note back -/
theorem commits_one (context : Option String) {op : Operation} (h : Commits channel judged op)
    (hsent : AllSent channel node held) :
    AllSent channel node (standOperation node held op) ∧
      (node ∉ dispatchedAt judged → Owed context held → Owed (owedBy node context op) (standOperation node held op)) := by
  cases op with
  | noteWithdrawn whose id index «from» text k => exact h.elim
  | contextAdded whose note delivery => exact h.elim
  | noteDelivered whose addressee text criterion reached envelope index =>
    obtain ⟨hvisible, hread, hat⟩ := h
    by_cases hwhose : whose = node
    · subst hwhose
      simp only [standOperation, if_true, RecordedNote.ofDelivery]
      constructor
      · intro g hg hplaced id at_ hplace
        rcases List.mem_append.mp hg with hg | hg
        · exact hsent g hg hplaced id at_ hplace
        · obtain rfl := List.mem_singleton.mp hg
          obtain ⟨id', henvelope, hindex⟩ := Option.bind_eq_some_iff.mp hplace
          obtain ⟨at', hindex, hpair⟩ := Option.map_eq_some_iff.mp hindex
          cases hpair
          exact hat id at_ henvelope hindex
      · intro hout howed
        cases reached with
        | carried reason =>
          rw [owedBy, if_pos rfl]
          exact howed.carry { addressee, text, criterion, reached := .carried reason } _ hvisible
        | _ => exact absurd (hread rfl) hout
    · have hstand : standOperation node held (.noteDelivered whose addressee text criterion reached envelope index) = held :=
        if_neg hwhose
      have howedBy : owedBy node context (.noteDelivered whose addressee text criterion reached envelope index) = context := by
        cases reached with
        | carried reason => exact if_neg hwhose
        | _ => rfl
      rw [hstand, howedBy]
      exact ⟨hsent, fun _ howed => howed⟩
  | _ => exact ⟨hsent, fun _ howed => howed⟩

theorem commits_all (context : Option String) {ops : List Operation} (h : ∀ op ∈ ops, Commits channel judged op)
    (hsent : AllSent channel node held) :
    AllSent channel node (standOperations node held ops) ∧
      (node ∉ dispatchedAt judged → Owed context held →
        Owed (ops.foldl (owedBy node) context) (standOperations node held ops)) := by
  induction ops generalizing held context with
  | nil => exact ⟨hsent, fun _ howed => howed⟩
  | cons op ops ih =>
    have hone := commits_one context (h op List.mem_cons_self) hsent
    have hrest := ih (owedBy node context op) (fun op hop => h op (List.mem_cons_of_mem _ hop)) hone.1
    exact ⟨hrest.1, fun hout howed => hrest.2 hout (hone.2 hout howed)⟩

/-- a note taken out of those standing leaves the entries of the rest -/
theorem subperm_taken {l : List Held} {p : Held → Bool} {h : Held} (hin : h ∈ l) (hp : p h = false) :
    ((l.filter p).map Held.entry).Subperm ((l.map Held.entry).erase h.entry) := by
  obtain ⟨front, back, rfl⟩ := List.append_of_mem hin
  have hfilter : (front ++ h :: back).filter p = front.filter p ++ back.filter p := by
    rw [List.filter_append, List.filter_cons_of_neg (by simp [hp])]
  have hsub : ((front.filter p ++ back.filter p).map Held.entry).Subperm ((front ++ back).map Held.entry) :=
    ((List.filter_sublist.append List.filter_sublist).map Held.entry).subperm
  have hperm : ((front ++ h :: back).map Held.entry).Perm (h.entry :: (front ++ back).map Held.entry) := by
    rw [← List.map_cons]
    exact List.perm_middle.map Held.entry
  have herase := hperm.erase h.entry
  rw [List.erase_cons_head] at herase
  rw [hfilter]
  exact hsub.trans herase.symm.subperm

/-- **A withdrawal that takes its own note back.** Every other note standing is still listed. -/
theorem withdraw_owed {context : Option String} {id : UInt64} {index : UInt32} {text : String} {k : ℕ}
    (hsent : AllSent channel node held)
    (hat : Withdrawal.noteAt { commandsOf := channel } id index = .ok (node, text))
    (hown : (∃ h ∈ held, h.placement = .deliveredSince ∧ h.sent = some (id, index)) ∨
      ∀ h ∈ held, h.placement = .deliveredSince → readsAlike h.note.text text = false) (howed : Owed context held) :
    Owed (owedBy node context (.noteWithdrawn node id index .carried text k))
      (standOperation node held (.noteWithdrawn node id index .carried text k)) := by
  rw [owedBy, if_pos rfl, standOperation, if_pos rfl]
  refine howed.withdraw text k (fun g hg => List.mem_of_mem_filter hg) ?_
  rcases hown with ⟨h, hin, hplaced, hplace⟩ | hother
  · have htext : h.note.text = text := by
      have hnote := hsent h hin hplaced id index hplace
      rw [hat] at hnote
      exact (Prod.mk.inj (Except.ok.inj hnote)).2.symm
    have hentry : h.entry = entryOf text := by rw [Held.entry, htext]
    rw [← hentry]
    exact subperm_taken hin (by simp [hplaced, hplace])
  · have hnone : entryOf text ∉ held.map Held.entry := by
      intro hmem
      obtain ⟨h, hin, hentry⟩ := List.mem_map.mp hmem
      have hapart := hother h hin (howed.since h hin)
      rw [readsAlike, decide_eq_false_iff_not] at hapart
      exact hapart hentry
    rw [List.erase_of_not_mem hnone]
    exact (List.filter_sublist.map Held.entry).subperm

/-- one withdrawal, of a note carried or live -/
theorem withdrawal_one (context : Option String) («from» : WithdrawnFrom) (k : ℕ) {whose : String} {id : UInt64}
    {index : UInt32} {text : String} (hsent : AllSent channel node held)
    (hat : Withdrawal.noteAt { commandsOf := channel } id index = .ok (whose, text))
    (hown : «from» = .carried → whose = node → (∃ h ∈ held, h.placement = .deliveredSince ∧ h.sent = some (id, index)) ∨
      ∀ h ∈ held, h.placement = .deliveredSince → readsAlike h.note.text text = false) :
    AllSent channel node (standOperation node held (.noteWithdrawn whose id index «from» text k)) ∧
      (Owed context held → Owed (owedBy node context (.noteWithdrawn whose id index «from» text k))
        (standOperation node held (.noteWithdrawn whose id index «from» text k))) := by
  by_cases hwhose : whose = node
  · subst hwhose
    constructor
    · rw [standOperation, if_pos rfl]
      exact fun g hg => hsent g (List.mem_of_mem_filter hg)
    · intro howed
      cases «from» with
      | live =>
        rw [standOperation, if_pos rfl]
        exact howed.part List.filter_sublist
      | carried => exact withdraw_owed hsent hat (hown rfl rfl) howed
  · have hstand : standOperation node held (.noteWithdrawn whose id index «from» text k) = held := if_neg hwhose
    have howedBy : owedBy node context (.noteWithdrawn whose id index «from» text k) = context := by
      cases «from» with
      | live => rfl
      | carried => exact if_neg hwhose
    rw [hstand, howedBy]
    exact ⟨hsent, fun howed => howed⟩

end Operations

/-! ## A run -/

/-- every node tracked, at every moment of a journal -/
def Watched (host : Host) (channel : UInt64 → Option (List Command)) (journal : List Envelope) : Prop :=
  ∀ part, part <+: journal → ∀ node, ∃ said held, Tracked host channel part node said held

theorem watched_nil : Watched host channel [] := by
  intro part hpart node
  rw [List.prefix_nil.mp hpart]
  refine ⟨{}, [], Tracks.start node, rfl, rfl, nofun, nofun, fun _ => ?_⟩
  exact Owed.start

theorem Watched.append (h : Watched host channel journal)
    (hnext : ∀ node, ∃ said held, Tracked host channel (journal ++ [e]) node said held) :
    Watched host channel (journal ++ [e]) := by
  intro part hpart
  rcases List.prefix_concat_iff.mp hpart with rfl | hpart
  · exact hnext
  · exact h part hpart

/-- a node once noted stays noted -/
theorem mem_noted_foldRecord {s : RunState} {node : String} (h : node ∈ s.noted) : node ∈ (foldRecord host s e).noted := by
  by_cases hp : e.isPipeline = true
  · by_cases hk : writtenAtAKnownVersion e = true
    · exact (noted_foldRecord hp hk s node).mpr (.inl h)
    · obtain ⟨v, ts, stream, seq, whose, body⟩ := e
      cases body with
      | relayed record closes => cases hp
      | driverExited => exact h
      | _ =>
        simp only [foldRecord, if_neg hk]
        exact h
  · obtain ⟨v, ts, stream, seq, whose, body⟩ := e
    cases body with
    | relayed record closes =>
      have hrelayed : (s.foldRelayed whose record).noted = s.noted := by
        unfold foldRelayed
        split <;> rfl
      simp only [foldRecord]
      split_ifs
      · exact hrelayed ▸ h
      · exact hrelayed ▸ h
    | _ => exact absurd rfl hp

theorem mem_noted_mono {node : String} (hpart : judged <+: journal) (h : node ∈ (RunState.fold host judged).noted) :
    node ∈ (RunState.fold host journal).noted := by
  obtain ⟨rest, rfl⟩ := hpart
  induction rest using List.reverseRecOn with
  | nil => rwa [List.append_nil]
  | append_singleton rest e ih =>
    rw [← List.append_assoc, fold_append]
    exact mem_noted_foldRecord ih

/-- a node notes stand for was delivered one -/
theorem noted_of_stands {node : String} {said : Said} {held : List Held} (h : Tracked host channel journal node said held)
    (hne : held ≠ []) : node ∈ (RunState.fold host journal).noted := by
  apply h.tracks.noted.mp
  by_contra hn
  have hn : said.noted = false := by simpa using hn
  have hcomposed := h.composed ((h.tracks.composed hn).mpr hne)
  rw [hn] at hcomposed
  cases hcomposed

/-- **One record more.** -/
theorem Watched.next (h : Watched host channel journal) (hpart : judged <+: journal) (hpens : Pens host channel judged e)
    (hown : TakesItsOwn journal e) : Watched host channel (journal ++ [e]) := by
  refine h.append fun node => ?_
  obtain ⟨said, held, htracked⟩ := h journal (List.prefix_refl _) node
  cases hpens with
  | commit ops hbody hk heach =>
    have hall := commits_all (RunState.fold host journal).pendingContext[node]? heach htracked.sent
    obtain ⟨said', hnext⟩ := htracked.commit hbody hk hall.1 fun hout =>
      hall.2 fun hin => hout (mem_dispatchedAt_mono hpart hin)
    exact ⟨said', _, hnext⟩
  | withdrawal whose id index «from» text k hbody hk hat =>
    have hone := withdrawal_one (RunState.fold host journal).pendingContext[node]? «from» k htracked.sent hat
      fun hfrom hwhose => by
        subst hfrom hwhose
        exact hown _ id index text k hbody held htracked.stands
    obtain ⟨said', hnext⟩ := htracked.commit hbody hk hone.1 fun _ => hone.2
    exact ⟨said', _, hnext⟩
  | dispatch whose composed hbody hwhose hk hdated hcomposes =>
    refine htracked.dispatch hbody hwhose hk hdated ?_
    rcases hcomposes with hnone | ⟨part, hpart', was, hread, hne, hnotes⟩
    · exact .inl hnone
    · refine .inr ⟨_, hnotes, fun heq => ?_⟩
      subst heq
      obtain ⟨said', held', hthen⟩ := h part (hpart'.trans hpart) whose
      have hwas : held' = was := Except.ok.inj (hthen.tracks.read.symm.trans hread)
      have hnoted := noted_of_stands hthen (by rwa [hwas])
      exact htracked.tracks.noted.mpr (mem_noted_mono (hpart'.trans hpart) hnoted)
  | arrival whose next note hbody hwhose hk htold =>
    exact ⟨said, held, htracked.arrival hbody hwhose hk (mem_dispatchedAt_mono hpart htold)⟩
  | other hbody hk => exact ⟨said, held, htracked.other hbody hk⟩

theorem commits_commitRecord (stamp : Stamp) (ops : List Operation) : commits (commitRecord stamp ops) = some (some ops) := by
  rw [commitRecord]
  cases Recovery.journalledAs ops <;> rfl

theorem known_envelope (stamp : Stamp) (node : Option String) (body : Body) :
    writtenAtAKnownVersion (stamp.envelope node body) = true := by
  rw [writtenAtAKnownVersion, decide_eq_true_eq]
  exact List.mem_cons_self

/-- an envelope's records, each a command's own -/
theorem pens_journalled {outcomes : UInt64 → Option Recovery.CommandOutcome} {refused : UInt64 → UInt32 → Option String}
    {asked : List (Stamp × Asked)} {written : List Envelope} (h : journalled channel judged outcomes refused asked = .ok written)
    (hasked : ∀ p ∈ asked, ∀ ops, p.2 = .commits ops → ∀ op ∈ ops, Commits channel judged op) :
    ∀ e ∈ written, Pens host channel judged e := by
  induction asked generalizing written with
  | nil =>
    cases h
    exact fun e he => (List.not_mem_nil he).elim
  | cons p asked ih =>
    obtain ⟨stamp, command⟩ := p
    obtain ⟨ops, hops, h⟩ := Checks.bind_eq_ok.mp h
    obtain ⟨rest, hrest, h⟩ := Checks.bind_eq_ok.mp h
    cases h
    intro e he
    rcases List.mem_cons.mp he with rfl | he
    · have hbody := commits_commitRecord stamp ops
      have hknown : writtenAtAKnownVersion (commitRecord stamp ops) = true := known_envelope stamp none _
      cases command with
      | commits operations =>
        cases hops
        exact .commit ops hbody hknown (hasked _ List.mem_cons_self ops rfl)
      | withdraw envelope index reason =>
        obtain ⟨v, hv, hmap⟩ := Checks.map_eq_ok.mp hops
        obtain ⟨id, node, text, hat, hlive | ⟨k, hcarried⟩⟩ := Withdrawal.validate_ok hv
        · subst hlive hmap
          exact .withdrawal node id index .live text 0 hbody hknown hat
        · subst hcarried hmap
          exact .withdrawal node id index .carried text k hbody hknown hat
    · exact ih hrest (fun p hp => hasked p (List.mem_cons_of_mem _ hp)) e he

theorem pens_records {w : Write} (h : Writes channel host judged w) : ∀ e ∈ records channel judged w, Pens host channel judged e := by
  cases w with
  | dispatch stamp node composed =>
    intro e he
    obtain rfl := List.mem_singleton.mp he
    exact .dispatch node composed rfl rfl (known_envelope ..) h.1 h.2
  | envelope outcomes refused asked =>
    simp only [records]
    cases hwritten : journalled channel judged outcomes refused asked with
    | error why => exact fun e he => (List.not_mem_nil he).elim
    | ok written => exact pens_journalled hwritten h
  | arrival stamp node next note =>
    intro e he
    obtain rfl := List.mem_singleton.mp he
    exact .arrival node next note rfl rfl (known_envelope ..) h
  | other record =>
    intro e he
    obtain rfl := List.mem_singleton.mp he
    exact .other h.1 h.2

/-- whether every withdrawal of a write takes its own note back, in the journal as its record finds it -/
def TakesTheirOwn (channel : UInt64 → Option (List Command)) (journal : List Envelope) (w : Write) : Prop :=
  Runs.Admits (fun j e => j ++ [e]) TakesItsOwn journal (records channel journal w)

theorem Watched.records {written : List Envelope} (h : Watched host channel journal) (hpart : judged <+: journal)
    (hpens : ∀ e ∈ written, Pens host channel judged e) (hown : Runs.Admits (fun j e => j ++ [e]) TakesItsOwn journal written) :
    Watched host channel (journal ++ written) := by
  induction written generalizing journal with
  | nil => rwa [List.append_nil]
  | cons e written ih =>
    have hnext := h.next hpart (hpens e List.mem_cons_self) hown.1
    rw [← List.singleton_append, ← List.append_assoc]
    exact ih hnext (hpart.trans (List.prefix_append ..)) (fun e he => hpens e (List.mem_cons_of_mem _ he)) hown.2

/-- whether every dispatch of a run would be composed as its whole journal says: what `notes_at_dispatch` answers of a node
is what the whole record answers, and a node whose own dispatch it rules out, with those it supersedes, holds no note -/
def AsRecorded (host : Host) (journal : List Envelope) : Prop :=
  let s := RunState.fold host journal
  ∀ node, notesAtDispatch s (dispatchedAt journal) node = composedFrom journal (s.supersedes node) node ∧
    ((∀ id ∈ node :: s.supersedes node, s.mayHoldANote (dispatchedAt journal) id = false) →
      ∀ id ∈ node :: s.supersedes node, standing journal id = .ok [])

theorem stands_nothing (h : Watched host channel journal) {id : String}
    (hno : (RunState.fold host journal).mayHoldANote (dispatchedAt journal) id = false) : standing journal id = .ok [] := by
  obtain ⟨said, held, htracked⟩ := h journal (List.prefix_refl _) id
  simp only [mayHoldANote, Bool.or_eq_false_iff, decide_eq_false_iff_not] at hno
  have howed := htracked.owed hno.1
  rw [Maps.not_mem_iff.mp hno.2] at howed
  rw [htracked.stands, howed.eq_nil]

theorem standing_recalled (h : Watched host channel journal) (id : String) :
    standing (RunState.fold host journal).recalled id = standing journal id := by
  obtain ⟨said, held, htracked⟩ := h journal (List.prefix_refl _) id
  rw [htracked.tracks.read, htracked.stands]

theorem supersededNotes_nil {ids : List String} (h : ∀ id ∈ ids, standing journal id = .ok []) :
    supersededNotes journal ids = .ok [] := by
  induction ids with
  | nil => rfl
  | cons id ids ih =>
    rw [supersededNotes, h id List.mem_cons_self, ih fun id hid => h id (List.mem_cons_of_mem _ hid)]
    rfl

theorem supersededNotes_congr {journal' : List Envelope} (h : ∀ id, standing journal id = standing journal' id)
    (ids : List String) : supersededNotes journal ids = supersededNotes journal' ids := by
  induction ids with
  | nil => rfl
  | cons id ids ih => rw [supersededNotes, supersededNotes, h, ih]

theorem asRecorded_of_watched (h : Watched host channel journal) : AsRecorded host journal := by
  intro node
  constructor
  · rw [notesAtDispatch]
    split_ifs with hguard
    · rw [Bool.and_eq_true, Bool.not_eq_true', Bool.not_eq_true', List.any_eq_false] at hguard
      have hown := stands_nothing h hguard.1
      have hsuperseded := supersededNotes_nil fun id hid => stands_nothing h (by simpa using hguard.2 id hid)
      rw [composedFrom, hown, hsuperseded]
      rfl
    · rw [composedFrom, composedFrom, standing_recalled h, supersededNotes_congr (standing_recalled h)]
  · exact fun hno id hid => stands_nothing h (hno id hid)

/-- **A dispatch is composed as the record says.** In every run of this crate's writers whose withdrawals of carried notes
each find their own note still standing, or else no note standing for its node that reads as it does, what a dispatch reads
over the kept records where the projected state says a note can stand is what it would read over the whole journal. -/
theorem composed_as_recorded (host : Host) (channel : UInt64 → Option (List Command)) {writes : List Write}
    (h : Runs.Admits (step channel) (fun journal w => Writes channel host journal w ∧ TakesTheirOwn channel journal w) []
      writes) : AsRecorded host (writes.foldl (step channel) []) := by
  have hwatched : Watched host channel (writes.foldl (step channel) []) := ?_
  · exact asRecorded_of_watched hwatched
  refine h.invariant (I := Watched host channel) (fun journal w hw hok => ?_) watched_nil
  exact hw.records (List.prefix_refl _) (pens_records hok.1) hok.2

/-! ### Two notes that read alike -/

/-- two envelopes, each of one note reading alike to a node no dispatch of which was announced -/
def twoAlike : UInt64 → Option (List Command) := fun id =>
  if id = 1 ∨ id = 2 then some [.note "a" .worker "use tabs" none .next true none] else none

/-- what one of them commits -/
def carriedTo (id : UInt64) : Asked := .commits [.noteDelivered "a" .worker "use tabs" none (.carried none) (some id) (some 0)]

def applied (asked : List Asked) : Write := .envelope (fun _ => none) (fun _ _ => none) (asked.map fun a => ({}, a))

/-- a run that carries the two -/
def carryingBoth : List Write := [.other (.own 0 none (.runStarted (some .single))), applied [carriedTo 1], applied [carriedTo 2]]

theorem carries (journal : List Envelope) {id : UInt64} (hid : id = 1 ∨ id = 2) :
    Writes twoAlike .lenient journal (applied [carriedTo id]) := by
  intro p hp ops hops op hop
  obtain rfl := List.mem_singleton.mp hp
  cases hops
  obtain rfl := List.mem_singleton.mp hop
  refine ⟨by decide, nofun, fun id' at_ hid' hat => ?_⟩
  cases hid'
  cases hat
  rcases hid with rfl | rfl
  · rfl
  · rfl

theorem withdraws (journal : List Envelope) (asked : List Asked)
    (h : ∀ a ∈ asked, ∀ ops, a ≠ .commits ops) : Writes twoAlike .lenient journal (applied asked) := by
  intro p hp ops hops
  obtain ⟨a, ha, rfl⟩ := List.mem_map.mp hp
  exact absurd hops (h a ha ops)

/-- the later note taken back by a `withdraw-note` -/
def takenBack : Asked := .withdraw "2" 0 "no longer wanted"

theorem writes_carryingBoth (last : Write) (h : ∀ journal, Writes twoAlike .lenient journal last) :
    Runs.Admits (step twoAlike) (Writes twoAlike .lenient) [] (carryingBoth ++ [last]) := by
  refine .of_forall fun w hw journal => ?_
  rcases List.mem_append.mp hw with hw | hw
  · rcases List.mem_cons.mp hw with rfl | hw
    · exact ⟨rfl, fun _ => by decide⟩
    · rcases List.mem_cons.mp hw with rfl | hw
      · exact carries journal (.inl rfl)
      · obtain rfl := List.mem_singleton.mp hw
        exact carries journal (.inr rfl)
  · obtain rfl := List.mem_singleton.mp hw
    exact h journal

/-! ### One note taken back once -/

/-- the journal of the two notes carried -/
def bothCarried : List Envelope := carryingBoth.foldl (step twoAlike) []

theorem takes_carried (journal : List Envelope) (id : UInt64) : TakesTheirOwn twoAlike journal (applied [carriedTo id]) := by
  refine ⟨fun node id' index text k hbody => ?_, trivial⟩
  rw [commits_commitRecord] at hbody
  cases hbody

theorem records_takenBack : records twoAlike bothCarried (applied [takenBack]) =
    [commitRecord {} [.noteWithdrawn "a" 2 0 .carried "use tabs" 0]] := by
  rfl

theorem takes_takenBack : TakesTheirOwn twoAlike bothCarried (applied [takenBack]) := by
  rw [TakesTheirOwn, records_takenBack]
  refine ⟨fun node id index text k hbody held hstands => .inl ?_, trivial⟩
  rw [commits_commitRecord] at hbody
  cases hbody
  let note : RecordedNote := { addressee := .worker, text := "use tabs", criterion := none, reached := .carried none }
  have hboth : standing bothCarried "a" = .ok [⟨note, .deliveredSince, some (1, 0)⟩, ⟨note, .deliveredSince, some (2, 0)⟩] := rfl
  rw [hboth] at hstands
  cases hstands
  exact ⟨⟨note, .deliveredSince, some (2, 0)⟩, by simp, rfl, rfl⟩

theorem takenBack_composed : AsRecorded .lenient ((carryingBoth ++ [applied [takenBack]]).foldl (step twoAlike) []) := by
  refine composed_as_recorded .lenient twoAlike ?_
  have hstarts : TakesTheirOwn twoAlike [] (.other (.own 0 none (.runStarted (some .single)))) :=
    ⟨fun node id index text k hbody => (by cases hbody), trivial⟩
  exact ⟨⟨⟨rfl, fun _ => by decide⟩, hstarts⟩, ⟨carries _ (.inl rfl), takes_carried _ 1⟩,
    ⟨carries _ (.inr rfl), takes_carried _ 2⟩, ⟨withdraws _ _ (by simp [takenBack]), takes_takenBack⟩, trivial⟩

/-! ### One note taken back twice -/

/-- **One note taken back twice.** Where one envelope names the later note twice, the earlier one comes off what is owed to
the node: the record still holds it, and the node's dispatch is composed without it. -/
theorem withdrawn_twice_forgets :
    Runs.Admits (step twoAlike) (Writes twoAlike .lenient) [] (carryingBoth ++ [applied [takenBack, takenBack]]) ∧
      notesAtDispatch (RunState.fold .lenient ((carryingBoth ++ [applied [takenBack, takenBack]]).foldl (step twoAlike) []))
          (dispatchedAt ((carryingBoth ++ [applied [takenBack, takenBack]]).foldl (step twoAlike) [])) "a" = .ok {} ∧
        composedFrom ((carryingBoth ++ [applied [takenBack, takenBack]]).foldl (step twoAlike) []) [] "a" =
          .ok { carriedIn := [{ addressee := .worker, text := "use tabs", criterion := none, reached := .carried none }] } ∧
          ¬AsRecorded .lenient ((carryingBoth ++ [applied [takenBack, takenBack]]).foldl (step twoAlike) []) := by
  have hruns := writes_carryingBoth (applied [takenBack, takenBack]) fun journal =>
    withdraws journal _ (by simp [takenBack])
  have hforgets : notesAtDispatch
      (RunState.fold .lenient ((carryingBoth ++ [applied [takenBack, takenBack]]).foldl (step twoAlike) []))
      (dispatchedAt ((carryingBoth ++ [applied [takenBack, takenBack]]).foldl (step twoAlike) [])) "a" = .ok {} := by
    decide
  have hsupersedes : (RunState.fold .lenient
      ((carryingBoth ++ [applied [takenBack, takenBack]]).foldl (step twoAlike) [])).supersedes "a" = [] := by
    decide
  have hholds : composedFrom ((carryingBoth ++ [applied [takenBack, takenBack]]).foldl (step twoAlike) []) [] "a" =
      .ok { carriedIn := [{ addressee := .worker, text := "use tabs", criterion := none, reached := .carried none }] } := by
    decide
  refine ⟨hruns, hforgets, hholds, fun h => ?_⟩
  have heq := (h "a").1
  rw [hforgets, hsupersedes, hholds] at heq
  exact absurd heq (by decide)

end Writers

end OnePipeline
