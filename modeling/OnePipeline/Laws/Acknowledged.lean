/-
An action on the human-item journal is refused with nothing recorded and acknowledged with one record, but where its record
is written into the emergency reserve and the record of the full disk after it is not.

What an action comes to is settled before anything is written (`verdictOf`): it is refused, answered with what stands, has
one event to append, or replaces a stale approval. Only the append writes, so the two kinds of run that break the rule are
read off the verdict and the writes to come.

Results:
- `applyAction_eq`: an action is its verdict, then the append the verdict asks for;
- `append_lands`, `append_spills`, `append_fails`: the three ways an append ends, and what each leaves in the journal;
- `accounted_iff`: an action is accounted for exactly where its record does not spill and the opening does not itself resolve
  the item of an action it then refuses;
- `spilled_refused`: a dismissal taken from the reserve, refused as not acknowledged, and in the journal.
-/
import Mathlib.Tactic
import OnePipeline.Laws.ItemWriter

namespace OnePipeline.HumanItems

variable {store : Store} {w w' : Writer} {item : HumanItem} {event : HumanItemEventAction} {by_ : Option HumanItemEventBy}

/-! ## What an action comes to -/

/-- what an action comes to, of what its writer read -/
inductive Verdict where
  | refused
  | stands (receipt : HumanItemReceipt)
  | records (item : HumanItem) (event : HumanItemEventAction) (by_ : Option HumanItemEventBy)
  | replaces (item : HumanItem) (actor : Actor) (replacement : HumanItemInput)

def raiseVerdict (store : Store) (input : HumanItemInput) (w : Writer) : Verdict :=
  match validateInput input with
  | .error _ => .refused
  | .ok () =>
    match w.items[store.itemIdFor input.dedupKey]? with
    | none => .records (raisedItem (store.itemIdFor input.dedupKey) (w.clock w.nextSeq) input) .raised none
    | some existing =>
      if existing.kind ≠ input.kind ∨ existing.owner ≠ input.owner ∨ existing.block ≠ input.block then .refused
      else if (existing.title = input.title ∧ existing.body = input.body ∧ existing.priority = input.priority ∧
          existing.approval = input.approval) ∨ existing.state ≠ .open then
        .stands { item := existing, event := (w.events[store.itemIdFor input.dedupKey]?).getD 0 }
      else
        .records { existing with
          title := input.title, body := input.body, priority := input.priority, approval := input.approval
          updatedAt := w.clock w.nextSeq } .raised none

def settleVerdict (complete : HumanItem → Actor → Except String (Option HumanItemInput)) (id : String) (actor : Actor)
    (state : HumanItemState) (event : HumanItemEventAction) (text reason : Option String) (w : Writer) : Verdict :=
  if Text.isBlank actor.actor then .refused
  else
    match w.items[id]? with
    | none => .refused
    | some item =>
      if (state = .answered ∧ item.kind ≠ .question) ∨ (state = .completed ∧ item.kind ≠ .task) then .refused
      else if item.state ≠ .open then
        if item.state = state ∧ item.resolution.any fun r => r.text = text ∧ r.reason = reason then
          .stands { item, event := (w.events[id]?).getD 0 }
        else .refused
      else if state = .completed ∧ item.approval.isSome then
        match complete item actor with
        | .error _ => .refused
        | .ok none => .records (resolvedItem item state actor text reason (w.clock w.nextSeq)) event none
        | .ok (some replacement) => .replaces item actor replacement
      else .records (resolvedItem item state actor text reason (w.clock w.nextSeq)) event none

def reopenVerdict (store : Store) (id : String) (actor : Actor) (w : Writer) : Verdict :=
  if Text.isBlank actor.actor then .refused
  else
    match w.items[id]? with
    | none => .refused
    | some item =>
      if (reopenRefusal item (store.undoable item)).isSome then .refused
      else if item.state = .completed ∧ item.approval.isSome ∧ (store.undo item actor).toOption.isNone then .refused
      else .records { item with state := .open, resolution := none, updatedAt := w.clock w.nextSeq } .reopened
        (some { actor := actor.actor, onBehalfOf := actor.onBehalfOf })

def noteVerdict (id text : String) (actor : Actor) (w : Writer) : Verdict :=
  if Text.isBlank text ∨ Text.isBlank actor.actor then .refused
  else
    match w.items[id]? with
    | none => .refused
    | some item =>
      match item.resolution.bind (notedResolution item.state text) with
      | none => .refused
      | some resolution => .records { item with resolution := some resolution, updatedAt := w.clock w.nextSeq } .noted
          (some { actor := actor.actor, onBehalfOf := actor.onBehalfOf })

def verdictOf (store : Store) (complete : HumanItem → Actor → Except String (Option HumanItemInput)) (w : Writer) :
    HumanItemAction → Verdict
  | .raise input => raiseVerdict store input w
  | .reopen id actor => reopenVerdict store id actor w
  | .note id text actor => noteVerdict id text actor w
  | .answer id text actor =>
    if Text.isBlank text then .refused else settleVerdict complete id actor .answered .answered (some text) none w
  | .complete id actor => settleVerdict complete id actor .completed .completed none none w
  | .dismiss id reason actor =>
    settleVerdict complete id actor .dismissed .dismissed none ((reason.map Text.trim).filter (· ≠ "")) w

/-- one event appended, answered with its receipt -/
def recording (store : Store) (item : HumanItem) (event : HumanItemEventAction) (by_ : Option HumanItemEventBy) :
    Writing HumanItemReceipt := do pure { item, event := ← appendBy store item event by_ }

/-- a stale approval's replacement raised, and its task dismissed -/
def replacing (store : Store) (item : HumanItem) (actor : Actor) (replacement : HumanItemInput) : Writing HumanItemReceipt := do
  let _ ← raise store replacement
  let _ ← resolve store item .dismissed .dismissed actor none (some reread)
  Act.fail reread

/-- an action's run, by its verdict -/
def Enacts (store : Store) (w : Writer) (run : Except String HumanItemReceipt × Writer) : Verdict → Prop
  | .refused => ∃ why, run = (.error why, w)
  | .stands receipt => run = (.ok receipt, w)
  | .records item event by_ => run = recording store item event by_ w
  | .replaces item actor replacement => run = replacing store item actor replacement w

/-- a raise is its verdict, over any append -/
theorem raiseBy_eq (store : Store) (append : HumanItem → HumanItemEventAction → Writing ℕ) (input : HumanItemInput) (w : Writer) :
    match raiseVerdict store input w with
    | .refused => ∃ why, raiseBy store append input w = (.error why, w)
    | .stands receipt => raiseBy store append input w = (.ok receipt, w)
    | .records item event by_ => event = .raised ∧ by_ = none ∧
        raiseBy store append input w = (do pure { item, event := ← append item .raised } : Writing HumanItemReceipt) w
    | .replaces _ _ _ => False := by
  unfold raiseBy raiseVerdict
  cases validateInput input with
  | error why => exact ⟨why, rfl⟩
  | ok u =>
    simp only [Act.lift_ok_bind, Act.read_bind]
    cases w.items[store.itemIdFor input.dedupKey]? with
    | none => exact ⟨rfl, rfl, rfl⟩
    | some existing =>
      simp only []
      split_ifs
      · exact ⟨_, rfl⟩
      · exact rfl
      · exact ⟨rfl, rfl, rfl⟩

theorem raise_eq (store : Store) (input : HumanItemInput) (w : Writer) :
    Enacts store w (raise store input w) (raiseVerdict store input w) := by
  have heq := raiseBy_eq store (append store) input w
  cases hverdict : raiseVerdict store input w with
  | refused =>
    rw [hverdict] at heq
    exact heq
  | stands receipt =>
    rw [hverdict] at heq
    exact heq
  | records item event by_ =>
    rw [hverdict] at heq
    obtain ⟨rfl, rfl, hrun⟩ := heq
    exact hrun
  | replaces item actor replacement =>
    rw [hverdict] at heq
    exact heq.elim

theorem settle_eq (store : Store) (complete : HumanItem → Actor → Except String (Option HumanItemInput)) (id : String)
    (actor : Actor) (state : HumanItemState) (event : HumanItemEventAction) (text reason : Option String) (w : Writer) :
    Enacts store w (settle store complete id actor state event text reason w)
      (settleVerdict complete id actor state event text reason w) := by
  unfold settle settleVerdict
  by_cases hblank : Text.isBlank actor.actor = true
  · rw [if_pos hblank, if_pos hblank]
    exact ⟨_, rfl⟩
  rw [if_neg hblank, if_neg hblank, Act.read_bind]
  cases w.items[id]? with
  | none => exact ⟨_, rfl⟩
  | some item =>
    by_cases hkind : (state = .answered ∧ item.kind ≠ .question) ∨ (state = .completed ∧ item.kind ≠ .task)
    · simp only [if_pos hkind]
      split_ifs <;> exact ⟨_, rfl⟩
    simp only [if_neg hkind]
    split_ifs
    · exact rfl
    · exact ⟨_, rfl⟩
    · cases complete item actor with
      | error why => exact ⟨why, rfl⟩
      | ok answered =>
        cases answered with
        | none => exact rfl
        | some replacement => exact rfl
    · exact rfl

theorem actedOn_eq (id : String) (actor : Actor) (w : Writer) :
    actedOn id actor w = if Text.isBlank actor.actor then (.error "an action names its actor", w)
      else match w.items[id]? with
        | some item => (.ok item, w)
        | none => (.error s!"no such human item {id}", w) := by
  unfold actedOn
  split_ifs
  · rfl
  · rw [Act.read_bind]
    cases w.items[id]? <;> rfl

theorem reopen_eq (store : Store) (id : String) (actor : Actor) (w : Writer) :
    Enacts store w (reopen store id actor w) (reopenVerdict store id actor w) := by
  have hacted := actedOn_eq id actor w
  unfold reopen reopenVerdict
  split_ifs at hacted ⊢ with hblank
  · rw [Act.bind_error hacted]
    exact ⟨_, rfl⟩
  · cases hfound : w.items[id]? with
    | none =>
      rw [hfound] at hacted
      rw [Act.bind_error hacted]
      exact ⟨_, rfl⟩
    | some item =>
      rw [hfound] at hacted
      rw [Act.bind_ok hacted]
      simp only []
      cases reopenRefusal item (store.undoable item) with
      | some reason => exact ⟨reason, rfl⟩
      | none =>
        simp only [Option.isSome_none, Bool.false_eq_true, if_false]
        by_cases hundo : item.state = .completed ∧ item.approval.isSome = true
        · rw [if_pos hundo]
          cases store.undo item actor with
          | error why =>
            rw [if_pos ⟨hundo.1, hundo.2, rfl⟩]
            exact ⟨why, rfl⟩
          | ok u =>
            rw [if_neg fun h => Bool.false_ne_true h.2.2]
            exact rfl
        · rw [if_neg hundo, if_neg fun h => hundo ⟨h.1, h.2.1⟩]
          exact rfl

theorem note_eq (store : Store) (id text : String) (actor : Actor) (w : Writer) :
    Enacts store w (note store id text actor w) (noteVerdict id text actor w) := by
  have hacted := actedOn_eq id actor w
  unfold note noteVerdict
  by_cases htext : Text.isBlank text = true
  · rw [if_pos htext, if_pos (.inl htext)]
    exact ⟨_, rfl⟩
  rw [if_neg htext]
  by_cases hblank : Text.isBlank actor.actor = true
  · rw [if_pos hblank] at hacted
    rw [if_pos (.inr hblank), Act.bind_error hacted]
    exact ⟨_, rfl⟩
  rw [if_neg hblank] at hacted
  rw [if_neg fun h => h.elim htext hblank]
  cases hfound : w.items[id]? with
  | none =>
    rw [hfound] at hacted
    rw [Act.bind_error hacted]
    exact ⟨_, rfl⟩
  | some item =>
    rw [hfound] at hacted
    rw [Act.bind_ok hacted]
    simp only []
    cases item.resolution.bind (notedResolution item.state text) with
    | none => exact ⟨_, rfl⟩
    | some resolution => exact rfl

/-- an action is its verdict, then the append the verdict asks for -/
theorem applyAction_eq (store : Store) (complete : HumanItem → Actor → Except String (Option HumanItemInput))
    (action : HumanItemAction) (w : Writer) :
    Enacts store w (applyAction store complete action w) (verdictOf store complete w action) := by
  cases action with
  | raise input => exact raise_eq store input w
  | reopen id actor => exact reopen_eq store id actor w
  | note id text actor => exact note_eq store id text actor w
  | answer id text actor =>
    simp only [applyAction, verdictOf]
    split_ifs
    · exact ⟨_, rfl⟩
    · exact settle_eq store complete id actor .answered .answered (some text) none w
  | complete id actor => exact settle_eq store complete id actor .completed .completed none none w
  | dismiss id reason actor => exact settle_eq store complete id actor .dismissed .dismissed none _ w

/-! ## A writer over the journal it read -/

/-- a writer whose items are its journal's last records, with every sequence below its own -/
structure Reads (w : Writer) : Prop where
  fresh : ∀ line ∈ w.journal, line.seq < w.nextSeq
  owned : ∀ line ∈ w.journal, line.payload.itemId = line.payload.item.id
  items : ∀ id : String, w.items[id]? = standing w.journal id

theorem Reads.id (h : Reads w) {id : String} (hitem : w.items[id]? = some item) : item.id = id := by
  rw [h.items] at hitem
  obtain ⟨line, hline, hid, rfl⟩ := mem_of_standing hitem
  rw [← h.owned line hline, hid]

/-- how the writes to come answer one append: into space the filesystem has, or the reserve held -/
def lands : List WriteOutcome → Bool
  | [] | .written :: _ | [.noSpace _] | .noSpace _ :: .written :: _ => true
  | _ => false

/-- whether an append takes the reserve -/
def takesReserve (w : Writer) : Bool :=
  w.reserve &&
    match w.outcomes with
    | [.noSpace _] | .noSpace _ :: .written :: _ => true
    | _ => false

theorem durableAppend_lands (path : String) (line : Envelope) (h : lands w.outcomes = true) :
    ∃ w', durableAppend path line w = (.ok (if takesReserve w then .fromReserve else .normally), w') ∧
      w'.journal = w.journal ++ [line] := by
  unfold lands at h
  unfold durableAppend takesReserve writeSynced
  split at h
  case h_5 => cases h
  all_goals
    rename_i heq
    simp only [bind, Act.read, Act.update, heq, Bool.and_true, Bool.and_false]
    exact ⟨_, rfl, rfl⟩

theorem durableAppend_fails (path : String) (line : Envelope) (h : lands w.outcomes = false) :
    ∃ why w', durableAppend path line w = (.error why, w') := by
  obtain ⟨e, rest, houtcomes⟩ | ⟨e, again, rest, houtcomes, hagain⟩ :
      (∃ e rest, w.outcomes = .failed e :: rest) ∨
        ∃ e again rest, w.outcomes = .noSpace e :: again :: rest ∧ again ≠ .written := by
    unfold lands at h
    rcases houtcomes : w.outcomes with _ | ⟨_ | e | e, rest⟩
    · rw [houtcomes] at h; cases h
    · rw [houtcomes] at h; cases h
    · rcases rest with _ | ⟨again, rest⟩
      · rw [houtcomes] at h; cases h
      · refine .inr ⟨e, again, rest, rfl, ?_⟩
        rintro rfl
        rw [houtcomes] at h
        cases h
    · exact .inl ⟨e, rest, rfl⟩
  · unfold durableAppend writeSynced
    simp only [bind, houtcomes]
    exact ⟨_, _, rfl⟩
  · unfold durableAppend writeSynced
    simp only [bind, houtcomes, Act.read, Act.update]
    cases again with
    | written => exact absurd rfl hagain
    | noSpace why => exact ⟨_, _, rfl⟩
    | failed why => exact ⟨_, _, rfl⟩

/-! ## One append -/

/-- a writer left with its journal and what it read of it -/
theorem Reads.of_appends {line : Envelope} {why : String} (h : Reads w) (happends : Appends line w (.error why) w') :
    Reads w' ∧ w'.journal = w.journal := by
  have hjournal := happends.error why rfl
  refine ⟨⟨?_, ?_, ?_⟩, hjournal⟩
  · rw [hjournal, happends.nextSeq]
    exact h.fresh
  · rw [hjournal]
    exact h.owned
  · rw [hjournal, happends.items]
    exact h.items

/-- an event recorded, where its append lands -/
theorem record_lands (h : Reads w) (store : Store) (item : HumanItem) (event : HumanItemEventAction)
    (by_ : Option HumanItemEventBy) (hlands : lands w.outcomes = true) :
    ∃ w', record store item event by_ w = (.ok (w.nextSeq, if takesReserve w then .fromReserve else .normally), w') ∧
      w'.journal = w.journal ++ [lineOf w.nextSeq item event by_] ∧ Reads w' := by
  obtain ⟨w₁, hrun, hjournal⟩ := durableAppend_lands store.path (lineOf w.nextSeq item event by_) hlands
  have happends := durableAppend_appends store.path (lineOf w.nextSeq item event by_) w
  rw [hrun] at happends
  unfold record
  rw [Act.read_bind, Act.bind_ok hrun]
  refine ⟨_, rfl, hjournal, ?_, ?_, ?_⟩
  · intro line hline
    show line.seq < w.nextSeq + 1
    rcases List.mem_append.mp (hjournal ▸ hline) with hold | hnew
    · exact Nat.lt_succ_of_lt (h.fresh line hold)
    · rw [List.mem_singleton.mp hnew]
      exact Nat.lt_succ_self w.nextSeq
  · intro line hline
    rcases List.mem_append.mp (hjournal ▸ hline) with hold | hnew
    · exact h.owned line hold
    · rw [List.mem_singleton.mp hnew]
      rfl
  · intro id
    show (w₁.items.insert item.id item)[id]? = standing w₁.journal id
    rw [hjournal, standing_append, Maps.get_insert, happends.items, h.items]
    show _ = if item.id = id then some item else standing w.journal id
    by_cases hid : id = item.id
    · rw [if_pos hid, if_pos hid.symm]
    · rw [if_neg hid, if_neg (Ne.symm hid)]

theorem record_fails (h : Reads w) (store : Store) (item : HumanItem) (event : HumanItemEventAction)
    (by_ : Option HumanItemEventBy) (hlands : lands w.outcomes = false) :
    ∃ why w', record store item event by_ w = (.error why, w') ∧ w'.journal = w.journal ∧ Reads w' := by
  obtain ⟨why, w₁, hrun⟩ := durableAppend_fails store.path (lineOf w.nextSeq item event by_) hlands
  have happends := durableAppend_appends store.path (lineOf w.nextSeq item event by_) w
  rw [hrun] at happends
  unfold record
  rw [Act.read_bind, Act.bind_error hrun]
  obtain ⟨hreads, hjournal⟩ := h.of_appends happends
  exact ⟨why, w₁, rfl, hjournal, hreads⟩

/-! ## The host's own records -/

/-- a record that tells a host of an outage -/
def HostReport (store : Store) (line : Envelope) : Prop :=
  line.payload.action = .raised ∧
    ∃ condition : HostCondition, ∃ seq : ℕ,
      line.payload.itemId = store.itemIdFor s!"{hostConditionPrefix}{condition.asStr}:{seq}"

/-- a record the engine makes of its host: an outage found over, or one found -/
def HostRecord (store : Store) (line : Envelope) : Prop := line.payload.action = .autoResolved ∨ HostReport store line

/-- a writer that has added records of one kind to a journal -/
structure Adds (kind : Envelope → Prop) (base : List Envelope) (w : Writer) : Prop extends Reads w where
  added : ∃ lines, w.journal = base ++ lines ∧ ∀ line ∈ lines, kind line

variable {base : List Envelope} {kind : Envelope → Prop}

theorem Reads.adds (h : Reads w) (kind : Envelope → Prop) : Adds kind w.journal w :=
  ⟨h, [], (List.append_nil _).symm, fun _ hl => (nomatch hl)⟩

theorem Adds.append {lines : List Envelope} (h : Adds kind base w) (hreads : Reads w') (hjournal : w'.journal = w.journal ++ lines)
    (hkind : ∀ line ∈ lines, kind line) : Adds kind base w' := by
  obtain ⟨before, hbefore, hall⟩ := h.added
  refine ⟨hreads, before ++ lines, ?_, ?_⟩
  · rw [hjournal, hbefore, List.append_assoc]
  · exact fun l hl => (List.mem_append.mp hl).elim (hall l) (hkind l)

theorem Adds.of_journal (h : Adds kind base w) (hreads : Reads w') (hjournal : w'.journal = w.journal) : Adds kind base w' :=
  h.append hreads (hjournal.trans (List.append_nil _).symm) fun _ hl => (nomatch hl)

theorem Adds.mono {kind' : Envelope → Prop} (h : Adds kind base w) (hle : ∀ line, kind line → kind' line) : Adds kind' base w := by
  obtain ⟨lines, hlines, hall⟩ := h.added
  exact ⟨h.toReads, lines, hlines, fun line hline => hle line (hall line hline)⟩

/-- a record of the kind, made or not -/
theorem record_adds (store : Store) (base : List Envelope) (item : HumanItem) (event : HumanItemEventAction)
    (by_ : Option HumanItemEventBy) (hkind : ∀ seq, kind (lineOf seq item event by_)) :
    Act.Keeps (Adds kind base) (record store item event by_) := by
  intro w hw
  cases hlands : lands w.outcomes with
  | true =>
    obtain ⟨w', hrun, hjournal, hreads⟩ := record_lands hw.toReads store item event by_ hlands
    rw [hrun]
    refine hw.append hreads hjournal fun line hline => ?_
    rw [List.mem_singleton.mp hline]
    exact hkind w.nextSeq
  | false =>
    obtain ⟨why, w', hrun, hjournal, hreads⟩ := record_fails hw.toReads store item event by_ hlands
    rw [hrun]
    exact hw.of_journal hreads hjournal

/-- what a raise records is under the id its key mints -/
theorem raiseVerdict_id {input : HumanItemInput} (h : Reads w) (hverdict : raiseVerdict store input w = .records item event by_) :
    item.id = store.itemIdFor input.dedupKey := by
  unfold raiseVerdict at hverdict
  cases hinput : validateInput input with
  | error why => rw [hinput] at hverdict; cases hverdict
  | ok u =>
    rw [hinput] at hverdict
    simp only [] at hverdict
    cases hfound : w.items[store.itemIdFor input.dedupKey]? with
    | none =>
      rw [hfound] at hverdict
      cases hverdict
      rfl
    | some existing =>
      rw [hfound] at hverdict
      simp only [] at hverdict
      split_ifs at hverdict
      have hid := h.id hfound
      cases hverdict
      exact hid

/-- the full disk's own record: made, or refused with the journal as it was -/
theorem report_cases (h : Reads w) (store : Store) (condition : HostCondition) (session title body : String) :
    (∃ receipt w' reported, conditionBy store (recorded store) condition session title body w = (.ok receipt, w') ∧
        w'.journal = w.journal ++ reported ∧ (∀ line ∈ reported, HostReport store line) ∧ Reads w') ∨
      ∃ why w', conditionBy store (recorded store) condition session title body w = (.error why, w') ∧
        w'.journal = w.journal ∧ Reads w' := by
  unfold conditionBy
  rw [Act.read_bind]
  cases openCondition condition w with
  | some found => exact .inl ⟨_, w, [], rfl, (List.append_nil _).symm, fun _ hl => (nomatch hl), h⟩
  | none =>
    simp only [Act.read_bind]
    have heq := raiseBy_eq store (recorded store) (conditionInput condition w.nextSeq session title body) w
    cases hverdict : raiseVerdict store (conditionInput condition w.nextSeq session title body) w with
    | refused =>
      rw [hverdict] at heq
      obtain ⟨why, hrun⟩ := heq
      exact .inr ⟨why, w, hrun, rfl, h⟩
    | stands receipt =>
      rw [hverdict] at heq
      exact .inl ⟨receipt, w, [], heq, (List.append_nil _).symm, fun _ hl => (nomatch hl), h⟩
    | replaces item actor replacement =>
      rw [hverdict] at heq
      exact heq.elim
    | records item event by_ =>
      rw [hverdict] at heq
      obtain ⟨rfl, rfl, hrun⟩ := heq
      have hid := raiseVerdict_id h hverdict
      rw [hrun]
      cases hlands : lands w.outcomes with
      | true =>
        obtain ⟨w', hrecord, hjournal, hreads⟩ := record_lands h store item .raised none hlands
        refine .inl ⟨{ item, event := w.nextSeq }, w', _, ?_, hjournal, ?_, hreads⟩
        · show (recorded store item .raised >>= _) w = _
          exact Act.bind_ok (Act.bind_ok hrecord)
        · intro line hline
          rw [List.mem_singleton.mp hline]
          exact ⟨rfl, condition, w.nextSeq, hid⟩
      | false =>
        obtain ⟨why, w', hrecord, hjournal, hreads⟩ := record_fails h store item .raised none hlands
        refine .inr ⟨why, w', ?_, hjournal, hreads⟩
        show (recorded store item .raised >>= _) w = _
        exact Act.bind_error (Act.bind_error hrecord)

/-- the full disk's own record, of an event's item -/
def report (store : Store) (item : HumanItem) : Writing HumanItemReceipt :=
  conditionBy store (recorded store) .journalNoSpace item.owner.session "Free space for the human-item journal"
    (noSpaceBody store.path)

/-- an append that takes the reserve, the record of the full disk refused after it -/
def Spills (store : Store) (w : Writer) (item : HumanItem) (event : HumanItemEventAction) (by_ : Option HumanItemEventBy) : Prop :=
  takesReserve w = true ∧ ∃ why, (report store item (record store item event by_ w).2).1 = .error why

/-- a raise of a key nothing is under, refused where its record does not land -/
theorem raiseBy_fails {input : HumanItemInput} (hnew : w.items[store.itemIdFor input.dedupKey]? = none)
    (hlands : lands w.outcomes = false) : ∃ why, (raiseBy store (recorded store) input w).1 = .error why := by
  unfold raiseBy
  cases validateInput input with
  | error why => exact ⟨why, rfl⟩
  | ok u =>
    obtain ⟨why, w', hrun⟩ := durableAppend_fails store.path
      (lineOf w.nextSeq (raisedItem (store.itemIdFor input.dedupKey) (w.clock w.nextSeq) input) .raised none) hlands
    refine ⟨why, ?_⟩
    rw [Act.lift_ok_bind]
    simp only [Act.read_bind, hnew]
    exact congrArg Prod.fst (Act.bind_error (Act.bind_error (Act.bind_error hrun)))

/-- the record of the full disk refused: nothing recorded it before, and its append does not land -/
theorem report_fails {item : HumanItem} (hfree : openCondition .journalNoSpace w = none)
    (hnew : w.items[store.itemIdFor (conditionInput .journalNoSpace w.nextSeq "" "" "").dedupKey]? = none)
    (hlands : lands w.outcomes = false) : ∃ why, (report store item w).1 = .error why := by
  unfold report conditionBy
  rw [Act.read_bind, hfree]
  simp only [Act.read_bind]
  exact raiseBy_fails hnew hlands

/-- an event appended, and the host's own record after it -/
theorem append_lands (h : Reads w) (hlands : lands w.outcomes = true) (hspills : ¬Spills store w item event by_) :
    ∃ w' reported, appendBy store item event by_ w = (.ok w.nextSeq, w') ∧
      w'.journal = w.journal ++ lineOf w.nextSeq item event by_ :: reported ∧ (∀ line ∈ reported, HostReport store line) ∧
      Reads w' := by
  obtain ⟨w₁, hrecord, hjournal, hreads⟩ := record_lands h store item event by_ hlands
  unfold appendBy
  rw [Act.bind_ok hrecord]
  simp only []
  cases htakes : takesReserve w with
  | false => exact ⟨w₁, [], rfl, hjournal, fun _ hl => (nomatch hl), hreads⟩
  | true =>
    rcases report_cases hreads store .journalNoSpace item.owner.session "Free space for the human-item journal"
      (noSpaceBody store.path) with ⟨receipt, w₂, reported, hreport, hjournal', hhost, hreads'⟩ | ⟨why, w₂, hreport, -⟩
    · refine ⟨w₂, reported, ?_, ?_, hhost, hreads'⟩
      · exact Act.bind_ok hreport
      · rw [hjournal', hjournal, List.append_assoc, List.singleton_append]
    · refine absurd ⟨htakes, why, ?_⟩ hspills
      rw [hrecord]
      exact congrArg Prod.fst hreport

theorem Spills.lands (h : Spills store w item event by_) : lands w.outcomes = true := by
  have houtcomes := (Bool.and_eq_true_iff.mp h.1).2
  split at houtcomes
  case h_1 heq => rw [heq]; rfl
  case h_2 heq => rw [heq]; rfl
  case h_3 => cases houtcomes

/-- an event appended and refused -/
theorem append_spills (h : Reads w) (hspills : Spills store w item event by_) :
    ∃ why w', appendBy store item event by_ w = (.error why, w') ∧
      w'.journal = w.journal ++ [lineOf w.nextSeq item event by_] := by
  have hlands := hspills.lands
  obtain ⟨htakes, why, hwhy⟩ := hspills
  obtain ⟨w₁, hrecord, hjournal, hreads⟩ := record_lands h store item event by_ hlands
  rw [hrecord] at hwhy
  unfold appendBy
  rw [Act.bind_ok hrecord]
  simp only [htakes, if_true]
  rcases report_cases hreads store .journalNoSpace item.owner.session "Free space for the human-item journal"
    (noSpaceBody store.path) with ⟨receipt, w₂, reported, hreport, -⟩ | ⟨why', w₂, hreport, hjournal', -⟩
  · rw [show report store item w₁ = _ from hreport] at hwhy
    cases hwhy
  · exact ⟨why', w₂, Act.bind_error hreport, hjournal'.trans hjournal⟩

/-- an event refused and not appended -/
theorem append_fails (h : Reads w) (hlands : lands w.outcomes = false) (store : Store) (item : HumanItem)
    (event : HumanItemEventAction) (by_ : Option HumanItemEventBy) :
    ∃ why w', appendBy store item event by_ w = (.error why, w') ∧ w'.journal = w.journal ∧ Reads w' := by
  obtain ⟨why, w₁, hrecord, hjournal, hreads⟩ := record_fails h store item event by_ hlands
  exact ⟨why, w₁, Act.bind_error hrecord, hjournal, hreads⟩

/-! ## The opening -/

theorem report_adds (hhost : ∀ line, HostReport store line → kind line) (base : List Envelope) (condition : HostCondition)
    (session title body : String) :
    Act.Keeps (Adds kind base) (conditionBy store (recorded store) condition session title body) := by
  intro w hw
  rcases report_cases hw.toReads store condition session title body with
    ⟨receipt, w', reported, hrun, hjournal, hreported, hreads⟩ | ⟨why, w', hrun, hjournal, hreads⟩
  · rw [hrun]
    exact hw.append hreads hjournal fun line hline => hhost line (hreported line hline)
  · rw [hrun]
    exact hw.of_journal hreads hjournal

theorem appendBy_adds (hhost : ∀ line, HostReport store line → kind line) (base : List Envelope)
    (hkind : ∀ seq, kind (lineOf seq item event by_)) : Act.Keeps (Adds kind base) (appendBy store item event by_) := by
  refine (record_adds store base item event by_ hkind).bind ?_
  rintro ⟨seq, appended⟩
  simp only []
  split_ifs
  · exact (report_adds hhost base _ _ _ _).bind fun _ => Act.Keeps.pure seq
  · exact Act.Keeps.pure seq

/-- a resolution's record of a kind, made or not -/
theorem resolve_adds {state : HumanItemState} {actor : Actor} {text reason : Option String}
    (hhost : ∀ line, HostReport store line → kind line)
    (hkind : ∀ now seq, kind (lineOf seq (resolvedItem item state actor text reason now) event none)) :
    Act.Keeps (Adds kind base) (resolve store item state event actor text reason) := by
  refine (Act.Keeps.read _).bind fun now => ?_
  have happend : Act.Keeps (Adds kind base) (append store (resolvedItem item state actor text reason now) event) :=
    appendBy_adds hhost base (hkind now)
  exact happend.bind fun _ => Act.Keeps.pure _

theorem clear_adds (store : Store) (base : List Envelope) (condition : HostCondition) (reason : String) :
    Act.Keeps (Adds (HostRecord store) base) (clear store condition reason) := by
  intro w hw
  unfold clear
  rw [Act.read_bind]
  cases openCondition condition w with
  | none => exact hw
  | some found =>
    have hresolve : Act.Keeps (Adds (HostRecord store) base) (autoResolve store found reason) :=
      resolve_adds (fun _ => .inr) fun _ _ => .inl rfl
    exact (hresolve.bind fun _ => Act.Keeps.pure ()) w hw

theorem writerOf_reads {journal : List Envelope} {reserve : Bool} {opening : Opening} {fold : Fold}
    (hfold : foldRecords journal = .ok fold) : Reads (writerOf journal reserve opening fold) := by
  have hread := readAs hfold
  refine ⟨fun line hline => ?_, fun line hline => (hread.valid line hline).2, hread.items⟩
  exact lt_of_lt_of_le (hread.fresh line hline) (writerOf_nextSeq hread)

/-! ## What is owed for an answer -/

/-- the item an action names -/
def HumanItemAction.target (store : Store) : HumanItemAction → String
  | .raise input => store.itemIdFor input.dedupKey
  | .answer id _ _ | .complete id _ | .dismiss id _ _ | .reopen id _ | .note id _ _ => id

/-- the event an action is recorded as -/
def HumanItemAction.eventAction : HumanItemAction → HumanItemEventAction
  | .raise _ => .raised
  | .answer _ _ _ => .answered
  | .complete _ _ => .completed
  | .dismiss _ _ _ => .dismissed
  | .reopen _ _ => .reopened
  | .note _ _ _ => .noted

/-- an item as an action leaves it; a raise leaves a resolved item as it is -/
def Stands (item : HumanItem) : HumanItemAction → Prop
  | .raise input =>
    item.kind = input.kind ∧ item.owner = input.owner ∧ item.block = input.block ∧
      (item.state ≠ .open ∨
        item.title = input.title ∧ item.body = input.body ∧ item.priority = input.priority ∧ item.approval = input.approval)
  | .answer _ text _ => item.state = .answered ∧ ∃ r, item.resolution = some r ∧ r.text = some text ∧ r.reason = none
  | .complete _ _ => item.state = .completed ∧ ∃ r, item.resolution = some r ∧ r.text = none ∧ r.reason = none
  | .dismiss _ reason _ =>
    item.state = .dismissed ∧
      ∃ r, item.resolution = some r ∧ r.text = none ∧ r.reason = (reason.map Text.trim).filter (· ≠ "")
  | .reopen _ _ => item.state = .open ∧ item.resolution = none
  | .note _ text _ => ∃ r, item.resolution = some r ∧
      (item.state = .completed ∧ r.text = some text ∨ item.state = .dismissed ∧ r.reason = some text)

/-- a receipt's record: one of the action, or none where its item stood so already; what else was recorded is the host's -/
def RecordedOnce (store : Store) (action : HumanItemAction) (before after : List Envelope) (receipt : HumanItemReceipt) : Prop :=
  Stands receipt.item action ∧
    ∃ opened mine reported, after = before ++ opened ++ mine ++ reported ∧
      (∀ line ∈ opened ++ reported, HostRecord store line) ∧
      ((∃ line, mine = [line] ∧ line.payload.itemId = action.target store ∧ line.payload.action = action.eventAction ∧
          line.payload.item = receipt.item ∧ line.seq = receipt.event) ∨
        mine = [] ∧ standing (before ++ opened) (action.target store) = some receipt.item)

/-- the records a stale approval's completion makes: the replacement's raise, the task's dismissal, and the host's reports -/
def Supersedes (store : Store) (id : String) (actor : Actor) (replacement : HumanItemInput) (line : Envelope) : Prop :=
  HostReport store line ∨
    (line.payload.action = .raised ∧ line.payload.itemId = store.itemIdFor replacement.dedupKey) ∨
    (line.payload.action = .dismissed ∧ line.payload.itemId = id ∧
      line.payload.item.resolution =
        some { actor := actor.actor, onBehalfOf := actor.onBehalfOf, text := none, reason := some reread })

/-- a stale approval's completion, on the writer as it opened -/
def Superseded (store : Store) (complete : HumanItem → Actor → Except String (Option HumanItemInput)) (action : HumanItemAction)
    (opened : Writer) (after : List Envelope) : Prop :=
  ∃ item actor replacement, verdictOf store complete opened action = .replaces item actor replacement ∧
    ∃ lines, after = opened.journal ++ lines ∧ ∀ line ∈ lines, Supersedes store (action.target store) actor replacement line

/-- the writer of an action as its opening leaves it, and whether the opening was refused -/
def opened (store : Store) (opening : Opening) (files : HostFiles) : Option (Except String Unit × Writer) :=
  (foldRecords files.journal).toOption.map fun fold =>
    probe store opening (writerOf files.journal files.reserve opening fold)

/-- an action accounted for: the journal is what it was and its records after it; a receipt's action is recorded once, and a
refusal leaves the item's record as it was, but for a stale approval's -/
structure Accounted (store : Store) (complete : HumanItem → Actor → Except String (Option HumanItemInput)) (opening : Opening)
    (action : HumanItemAction) (before : HostFiles) (run : Except String HumanItemReceipt × HostFiles) : Prop where
  kept : before.journal <+: run.2.journal
  receipt : ∀ receipt, run.1 = .ok receipt → RecordedOnce store action before.journal run.2.journal receipt
  refusal : ∀ why, run.1 = .error why →
    lastLine run.2.journal (action.target store) = lastLine before.journal (action.target store) ∨
      ∃ w, opened store opening before = some (.ok (), w) ∧ Superseded store complete action w run.2.journal

/-- whether an action's verdict is answered, or refused by its own rule alone -/
def Answered (w : Writer) : Verdict → Prop
  | .refused => False
  | .stands _ | .replaces _ _ _ => True
  | .records _ _ _ => lands w.outcomes = true

/-- an action whose record does not spill, over an opening that does not itself resolve the item of an action then refused -/
structure Clean (store : Store) (complete : HumanItem → Actor → Except String (Option HumanItemInput)) (opening : Opening)
    (action : HumanItemAction) (before : HostFiles) : Prop where
  unresolved : ∀ answer w, opened store opening before = some (answer, w) →
    lastLine w.journal (action.target store) = lastLine before.journal (action.target store) ∨
      answer = .ok () ∧ Answered w (verdictOf store complete w action)
  unspilled : ∀ w item event by_, opened store opening before = some (.ok (), w) →
    verdictOf store complete w action = .records item event by_ → ¬Spills store w item event by_

/-! ## What a verdict says -/

variable {complete : HumanItem → Actor → Except String (Option HumanItemInput)} {action : HumanItemAction}

theorem raiseVerdict_records {input : HumanItemInput} (h : Reads w) (hverdict : raiseVerdict store input w = .records item event by_) :
    item.id = (HumanItemAction.raise input).target store ∧ event = .raised ∧ Stands item (.raise input) := by
  refine ⟨raiseVerdict_id h hverdict, ?_⟩
  unfold raiseVerdict at hverdict
  cases hinput : validateInput input with
  | error why => rw [hinput] at hverdict; cases hverdict
  | ok u =>
    rw [hinput] at hverdict
    simp only [] at hverdict
    cases hfound : w.items[store.itemIdFor input.dedupKey]? with
    | none =>
      rw [hfound] at hverdict
      cases hverdict
      exact ⟨rfl, rfl, rfl, rfl, .inr ⟨rfl, rfl, rfl, rfl⟩⟩
    | some existing =>
      rw [hfound] at hverdict
      simp only [] at hverdict
      split_ifs at hverdict with hother hsettled
      push Not at hother
      cases hverdict
      exact ⟨rfl, hother.1, hother.2.1, hother.2.2, .inr ⟨rfl, rfl, rfl, rfl⟩⟩

theorem raiseVerdict_stands {input : HumanItemInput} {receipt : HumanItemReceipt}
    (hverdict : raiseVerdict store input w = .stands receipt) :
    w.items[store.itemIdFor input.dedupKey]? = some receipt.item ∧ Stands receipt.item (.raise input) := by
  unfold raiseVerdict at hverdict
  cases hinput : validateInput input with
  | error why => rw [hinput] at hverdict; cases hverdict
  | ok u =>
    rw [hinput] at hverdict
    simp only [] at hverdict
    cases hfound : w.items[store.itemIdFor input.dedupKey]? with
    | none => rw [hfound] at hverdict; cases hverdict
    | some existing =>
      rw [hfound] at hverdict
      simp only [] at hverdict
      split_ifs at hverdict with hother hsettled
      push Not at hother
      cases hverdict
      exact ⟨rfl, hother.1, hother.2.1, hother.2.2, hsettled.symm⟩

/-- what a settlement's verdict says of its item -/
theorem settleVerdict_cases (complete : HumanItem → Actor → Except String (Option HumanItemInput)) (id : String) (actor : Actor)
    (state : HumanItemState) (event : HumanItemEventAction) (text reason : Option String) (w : Writer) :
    match settleVerdict complete id actor state event text reason w with
    | .refused => True
    | .stands receipt => w.items[id]? = some receipt.item ∧ receipt.item.state = state ∧
        ∃ r, receipt.item.resolution = some r ∧ r.text = text ∧ r.reason = reason
    | .records item' event' by_ => event' = event ∧ by_ = none ∧
        ∃ item, w.items[id]? = some item ∧ item' = resolvedItem item state actor text reason (w.clock w.nextSeq)
    | .replaces item actor' replacement =>
      state = .completed ∧ actor' = actor ∧ complete item actor = .ok (some replacement) ∧ w.items[id]? = some item := by
  unfold settleVerdict
  by_cases hblank : Text.isBlank actor.actor = true
  · rw [if_pos hblank]
    trivial
  rw [if_neg hblank]
  cases hfound : w.items[id]? with
  | none => trivial
  | some item =>
    simp only []
    split_ifs with hkind hclosed hstands happroval
    · trivial
    · obtain ⟨hstate, hres⟩ := hstands
      obtain ⟨r, hr, hsaid⟩ := (Option.any_eq_true _ _).mp hres
      exact ⟨rfl, hstate, r, hr, by simpa using hsaid⟩
    · trivial
    · cases hcomplete : complete item actor with
      | error why => trivial
      | ok answered =>
        cases answered with
        | none => exact ⟨rfl, rfl, item, rfl, rfl⟩
        | some replacement => exact ⟨happroval.1, rfl, hcomplete, rfl⟩
    · exact ⟨rfl, rfl, item, rfl, rfl⟩

/-- a reopen's verdict leaves its item open -/
theorem reopenVerdict_cases (store : Store) (id : String) (actor : Actor) (w : Writer) :
    match reopenVerdict store id actor w with
    | .refused => True
    | .stands _ | .replaces _ _ _ => False
    | .records item event _ => event = .reopened ∧
        ∃ old, w.items[id]? = some old ∧ reopenRefusal old (store.undoable old) = none ∧ Same old item ∧ item.state = .open ∧
          item.resolution = none := by
  unfold reopenVerdict
  by_cases hblank : Text.isBlank actor.actor = true
  · rw [if_pos hblank]
    trivial
  rw [if_neg hblank]
  cases hfound : w.items[id]? with
  | none => trivial
  | some old =>
    simp only []
    split_ifs with hrefusal hundo
    · trivial
    · trivial
    · exact ⟨rfl, old, rfl, by simpa using hrefusal, ⟨rfl, rfl, rfl, rfl, rfl, rfl⟩, rfl, rfl⟩

/-- a note's verdict sets the comment of a completed item, or the reason of a dismissed one -/
theorem noteVerdict_cases (id text : String) (actor : Actor) (w : Writer) :
    match noteVerdict id text actor w with
    | .refused => True
    | .stands _ | .replaces _ _ _ => False
    | .records item event _ => event = .noted ∧
        ∃ old, w.items[id]? = some old ∧ Same old item ∧ ∃ r, item.resolution = some r ∧
          (item.state = .completed ∧ r.text = some text ∨ item.state = .dismissed ∧ r.reason = some text) := by
  unfold noteVerdict
  by_cases hblank : Text.isBlank text = true ∨ Text.isBlank actor.actor = true
  · rw [if_pos hblank]
    trivial
  rw [if_neg hblank]
  cases hfound : w.items[id]? with
  | none => trivial
  | some old =>
    simp only []
    cases hnoted : old.resolution.bind (notedResolution old.state text) with
    | none => trivial
    | some noted =>
      obtain ⟨resolution, -, hset⟩ := Option.bind_eq_some_iff.mp hnoted
      refine ⟨rfl, old, rfl, ⟨rfl, rfl, rfl, rfl, rfl, rfl⟩, noted, rfl, ?_⟩
      unfold notedResolution at hset
      show old.state = .completed ∧ _ ∨ old.state = .dismissed ∧ _
      cases hs : old.state with
      | «open» => rw [hs] at hset; cases hset
      | answered => rw [hs] at hset; cases hset
      | completed =>
        rw [hs] at hset
        cases hset
        exact .inl ⟨rfl, rfl⟩
      | dismissed =>
        rw [hs] at hset
        cases hset
        exact .inr ⟨rfl, rfl⟩

/-- what a verdict says of the item its action names -/
def VerdictHolds (store : Store) (w : Writer) (action : HumanItemAction) : Verdict → Prop
  | .refused => True
  | .stands receipt => w.items[action.target store]? = some receipt.item ∧ Stands receipt.item action
  | .records item event _ => item.id = action.target store ∧ event = action.eventAction ∧ Stands item action
  | .replaces item _ _ => w.items[action.target store]? = some item

theorem settleVerdict_holds (h : Reads w) {id : String} {actor : Actor} {state : HumanItemState} {text reason : Option String}
    (htarget : action.target store = id) (hevent : action.eventAction = event)
    (hstands : ∀ item : HumanItem, item.state = state →
      (∃ r, item.resolution = some r ∧ r.text = text ∧ r.reason = reason) → Stands item action) :
    VerdictHolds store w action (settleVerdict complete id actor state event text reason w) := by
  have hcases := settleVerdict_cases complete id actor state event text reason w
  cases hverdict : settleVerdict complete id actor state event text reason w with
  | refused => trivial
  | stands receipt =>
    rw [hverdict] at hcases
    obtain ⟨hitem, hstate, hres⟩ := hcases
    exact ⟨by rw [htarget, hitem], hstands _ hstate hres⟩
  | records item event' by_ =>
    rw [hverdict] at hcases
    obtain ⟨rfl, -, old, hold, rfl⟩ := hcases
    have hid : old.id = id := h.id hold
    exact ⟨hid.trans htarget.symm, hevent.symm, hstands _ rfl ⟨_, rfl, rfl, rfl⟩⟩
  | replaces item actor' replacement =>
    rw [hverdict] at hcases
    show w.items[action.target store]? = some item
    rw [htarget]
    exact hcases.2.2.2

theorem verdict_holds (h : Reads w) (store : Store) (complete : HumanItem → Actor → Except String (Option HumanItemInput))
    (action : HumanItemAction) : VerdictHolds store w action (verdictOf store complete w action) := by
  cases action with
  | raise input =>
    have heq := raiseBy_eq store (append store) input w
    show VerdictHolds store w (.raise input) (raiseVerdict store input w)
    cases hverdict : raiseVerdict store input w with
    | refused => trivial
    | stands receipt => exact raiseVerdict_stands hverdict
    | records item event by_ => exact raiseVerdict_records h hverdict
    | replaces item actor replacement =>
      rw [hverdict] at heq
      exact heq.elim
  | answer id text actor =>
    simp only [verdictOf]
    split_ifs with hblank
    · trivial
    · exact settleVerdict_holds h rfl rfl fun item hstate hres => ⟨hstate, hres⟩
  | complete id actor => exact settleVerdict_holds h rfl rfl fun item hstate hres => ⟨hstate, hres⟩
  | dismiss id reason actor => exact settleVerdict_holds h rfl rfl fun item hstate hres => ⟨hstate, hres⟩
  | reopen id actor =>
    have hcases := reopenVerdict_cases store id actor w
    show VerdictHolds store w (.reopen id actor) (reopenVerdict store id actor w)
    cases hverdict : reopenVerdict store id actor w with
    | refused => trivial
    | records item event by_ =>
      rw [hverdict] at hcases
      obtain ⟨rfl, old, hold, -, hsame, hstate, hres⟩ := hcases
      exact ⟨hsame.id.trans (h.id hold), rfl, hstate, hres⟩
    | stands receipt =>
      rw [hverdict] at hcases
      exact hcases.elim
    | replaces item actor' replacement =>
      rw [hverdict] at hcases
      exact hcases.elim
  | note id text actor =>
    have hcases := noteVerdict_cases id text actor w
    show VerdictHolds store w (.note id text actor) (noteVerdict id text actor w)
    cases hverdict : noteVerdict id text actor w with
    | refused => trivial
    | records item event by_ =>
      rw [hverdict] at hcases
      obtain ⟨rfl, old, hold, hsame, hset⟩ := hcases
      exact ⟨hsame.id.trans (h.id hold), rfl, hset⟩
    | stands receipt =>
      rw [hverdict] at hcases
      exact hcases.elim
    | replaces item actor' replacement =>
      rw [hverdict] at hcases
      exact hcases.elim

/-! ## A stale approval -/

theorem raise_adds {input : HumanItemInput} (hhost : ∀ line, HostReport store line → kind line)
    (hkind : ∀ w item, Adds kind base w → raiseVerdict store input w = .records item .raised none →
      ∀ seq, kind (lineOf seq item .raised none)) :
    Act.Keeps (Adds kind base) (raise store input) := by
  intro w hw
  have heq := raise_eq store input w
  cases hverdict : raiseVerdict store input w with
  | refused =>
    rw [hverdict] at heq
    obtain ⟨why, hrun⟩ := heq
    rw [hrun]
    exact hw
  | stands receipt =>
    rw [hverdict] at heq
    rw [show raise store input w = (.ok receipt, w) from heq]
    exact hw
  | records item event by_ =>
    have heq' := raiseBy_eq store (append store) input w
    rw [hverdict] at heq'
    obtain ⟨rfl, rfl, hrun⟩ := heq'
    rw [show raise store input w = _ from hrun]
    exact ((appendBy_adds hhost base (hkind w item hw hverdict)).bind fun _ => Act.Keeps.pure _) w hw
  | replaces item actor replacement =>
    have heq' := raiseBy_eq store (append store) input w
    rw [hverdict] at heq'
    exact heq'.elim

theorem replacing_adds {actor : Actor} {replacement : HumanItemInput} :
    Act.Keeps (Adds (Supersedes store item.id actor replacement) base) (replacing store item actor replacement) := by
  have hhost : ∀ line, HostReport store line → Supersedes store item.id actor replacement line := fun _ => .inl
  have hresolve : Act.Keeps (Adds (Supersedes store item.id actor replacement) base)
      (resolve store item .dismissed .dismissed actor none (some reread)) :=
    resolve_adds hhost fun _ _ => .inr (.inr ⟨rfl, rfl, rfl⟩)
  exact (raise_adds hhost fun w i hw hv seq => .inr (.inl ⟨rfl, raiseVerdict_id hw.toReads hv⟩)).bind fun _ => hresolve.bind fun _ => Act.Keeps.fail reread

/-- a stale approval's completion is refused, whatever came of its records -/
theorem replacing_refused (store : Store) (item : HumanItem) (actor : Actor) (replacement : HumanItemInput) (w : Writer) :
    ∃ why w', replacing store item actor replacement w = (.error why, w') := by
  unfold replacing
  cases hraise : raise store replacement w with
  | mk answer w₁ =>
    cases answer with
    | error why => exact ⟨why, w₁, Act.bind_error hraise⟩
    | ok receipt =>
      rw [Act.bind_ok hraise]
      cases hresolve : resolve store item .dismissed .dismissed actor none (some reread) w₁ with
      | mk answer w₂ =>
        cases answer with
        | error why => exact ⟨why, w₂, Act.bind_error hresolve⟩
        | ok receipt => exact ⟨reread, w₂, Act.bind_ok hresolve⟩

/-! ## Runs -/

/-- an action over the writer it opened -/
theorem writing_opened {opening : Opening} {files : HostFiles} {w : Writer} (hopened : opened store opening files = some (.ok (), w)) :
    writing store opening (applyAction store complete action) files =
      ((applyAction store complete action w).1,
        { journal := (applyAction store complete action w).2.journal, reserve := (applyAction store complete action w).2.reserve }) := by
  unfold opened at hopened
  unfold writing
  cases hfold : foldRecords files.journal with
  | error why => rw [hfold] at hopened; cases hopened
  | ok fold =>
    rw [hfold] at hopened
    have hprobe : probe store opening (writerOf files.journal files.reserve opening fold) = (.ok (), w) := Option.some.inj hopened
    simp only []
    rw [Act.bind_ok hprobe]

/-- an action whose opening is refused -/
theorem writing_refused {opening : Opening} {files : HostFiles} {w : Writer} {why : String}
    (hopened : opened store opening files = some (.error why, w)) :
    writing store opening (applyAction store complete action) files =
      (.error why, { journal := w.journal, reserve := w.reserve }) := by
  unfold opened at hopened
  unfold writing
  cases hfold : foldRecords files.journal with
  | error why => rw [hfold] at hopened; cases hopened
  | ok fold =>
    rw [hfold] at hopened
    have hprobe : probe store opening (writerOf files.journal files.reserve opening fold) = (.error why, w) :=
      Option.some.inj hopened
    simp only []
    rw [Act.bind_error hprobe]

/-- a journal that cannot be read is left as it is -/
theorem writing_unread {opening : Opening} {files : HostFiles} (hopened : opened store opening files = none) :
    ∃ why, writing store opening (applyAction store complete action) files = (.error why, files) := by
  unfold opened at hopened
  unfold writing
  cases hfold : foldRecords files.journal with
  | error why => exact ⟨_, rfl⟩
  | ok fold => rw [hfold] at hopened; cases hopened

theorem opened_adds {opening : Opening} {files : HostFiles} {answer : Except String Unit} {w : Writer}
    (hopened : opened store opening files = some (answer, w)) : Adds (HostRecord store) files.journal w := by
  unfold opened at hopened
  cases hfold : foldRecords files.journal with
  | error why => rw [hfold] at hopened; cases hopened
  | ok fold =>
    rw [hfold] at hopened
    have hprobe : probe store opening (writerOf files.journal files.reserve opening fold) = (answer, w) := Option.some.inj hopened
    have hreads : Reads (writerOf files.journal files.reserve opening fold) := writerOf_reads hfold
    have hkeep := probe_keeps (clear_adds store files.journal) opening _ (hreads.adds (HostRecord store))
    rw [hprobe] at hkeep
    exact hkeep

/-- a new record is never one of those read -/
theorem lastLine_new {files : HostFiles} {id : String} (hadds : Adds kind files.journal w) {line : Envelope}
    (hseq : line.seq = w.nextSeq) (hid : line.payload.itemId = id) :
    lastLine (w.journal ++ [line]) id ≠ lastLine files.journal id := by
  rw [lastLine_append, if_pos hid]
  intro heq
  obtain ⟨lines, hlines, -⟩ := hadds.added
  have hmem : line ∈ w.journal := hlines ▸ List.mem_append_left lines (mem_of_lastLine heq.symm).1
  exact absurd (hadds.fresh line hmem) (by omega)

variable {opening : Opening} {files : HostFiles}

/-- an opened writer's action is accounted for exactly where its verdict lets it be -/
theorem accounted_opened (hopened : opened store opening files = some (.ok (), w)) :
    Accounted store complete opening action files (writing store opening (applyAction store complete action) files) ↔
      (lastLine w.journal (action.target store) = lastLine files.journal (action.target store) ∨
          Answered w (verdictOf store complete w action)) ∧
        ∀ item event by_, verdictOf store complete w action = .records item event by_ → ¬Spills store w item event by_ := by
  have hadds := opened_adds hopened
  obtain ⟨openedLines, hjournal, hhost⟩ := hadds.added
  have hgrown : files.journal <+: w.journal := ⟨openedLines, hjournal.symm⟩
  have heq := applyAction_eq store complete action w
  have hholds := verdict_holds hadds.toReads store complete action
  rw [writing_opened hopened]
  cases hverdict : verdictOf store complete w action with
  | refused =>
    rw [hverdict] at heq
    obtain ⟨why, hrun⟩ := heq
    rw [hrun]
    constructor
    · intro h
      refine ⟨.inl ?_, fun _ _ _ h => (nomatch h)⟩
      rcases h.refusal why rfl with hlast | ⟨w', hw', item, actor, replacement, hreplaces, -⟩
      · exact hlast
      · cases hopened.symm.trans hw'
        rw [hverdict] at hreplaces
        cases hreplaces
    · intro h
      exact ⟨hgrown, fun _ h => (nomatch h), fun _ _ => .inl (h.1.resolve_right id)⟩
  | stands receipt =>
    rw [hverdict] at heq hholds
    rw [show applyAction store complete action w = (.ok receipt, w) from heq]
    refine ⟨fun _ => ⟨.inr trivial, fun _ _ _ h => (nomatch h)⟩, fun _ => ⟨hgrown, ?_, fun _ h => (nomatch h)⟩⟩
    rintro receipt' ⟨⟩
    refine ⟨hholds.2, openedLines, [], [], by simp [hjournal], by simpa using hhost, .inr ⟨rfl, ?_⟩⟩
    rw [← hjournal, ← hadds.items, hholds.1]
  | replaces item actor replacement =>
    rw [hverdict] at heq hholds
    rw [show applyAction store complete action w = replacing store item actor replacement w from heq]
    obtain ⟨why, w', hrun⟩ := replacing_refused store item actor replacement w
    have hkeep : Adds (Supersedes store item.id actor replacement) w.journal (replacing store item actor replacement w).2 :=
      replacing_adds w (hadds.toReads.adds (Supersedes store item.id actor replacement))
    rw [hrun] at hkeep ⊢
    obtain ⟨lines, hlines, hall⟩ := hkeep.added
    refine ⟨fun _ => ⟨.inr trivial, fun _ _ _ h => (nomatch h)⟩, fun _ => ⟨?_, fun _ h => (nomatch h), fun _ _ => .inr ?_⟩⟩
    · exact hgrown.trans ⟨lines, hlines.symm⟩
    · refine ⟨w, hopened, item, actor, replacement, hverdict, lines, hlines, ?_⟩
      rw [← hadds.toReads.id hholds]
      exact hall
  | records item event by_ =>
    rw [hverdict] at heq hholds
    obtain ⟨hid, hevent, hstands⟩ := hholds
    rw [show applyAction store complete action w = recording store item event by_ w from heq]
    by_cases hspills : Spills store w item event by_
    · -- appended, and refused: the item's last record is the new one
      obtain ⟨why, w', hrun, hjournal'⟩ := append_spills hadds.toReads hspills
      rw [show recording store item event by_ w = (.error why, w') from Act.bind_error hrun]
      constructor
      · intro h
        rcases h.refusal why rfl with hlast | ⟨w₁, hw₁, item', actor, replacement, hreplaces, -⟩
        · rw [hjournal'] at hlast
          exact absurd hlast (lastLine_new hadds rfl hid)
        · cases hopened.symm.trans hw₁
          rw [hverdict] at hreplaces
          cases hreplaces
      · exact fun h => absurd hspills (h.2 item event by_ rfl)
    · have hunspilled : ∀ item' event' by_', Verdict.records item event by_ = .records item' event' by_' →
          ¬Spills store w item' event' by_' := by
        rintro _ _ _ ⟨⟩
        exact hspills
      cases hlands : lands w.outcomes with
      | true =>
        obtain ⟨w', reported, hrun, hjournal', hreported, -⟩ := append_lands hadds.toReads hlands hspills
        rw [show recording store item event by_ w = (.ok { item, event := w.nextSeq }, w') from Act.bind_ok hrun]
        refine ⟨fun _ => ⟨.inr hlands, hunspilled⟩, fun _ => ⟨?_, ?_, fun _ h => (nomatch h)⟩⟩
        · exact hgrown.trans ⟨_, hjournal'.symm⟩
        · rintro receipt ⟨⟩
          refine ⟨hstands, openedLines, [lineOf w.nextSeq item event by_], reported, ?_, ?_, .inl ⟨_, rfl, hid, hevent, rfl, rfl⟩⟩
          · rw [hjournal', hjournal]
            simp
          · exact fun line hline => (List.mem_append.mp hline).elim (hhost line) fun h => .inr (hreported line h)
      | false =>
        obtain ⟨why, w', hrun, hjournal', -⟩ := append_fails hadds.toReads hlands store item event by_
        rw [show recording store item event by_ w = (.error why, w') from Act.bind_error hrun]
        constructor
        · intro h
          refine ⟨.inl ?_, hunspilled⟩
          rcases h.refusal why rfl with hlast | ⟨w₁, hw₁, item', actor, replacement, hreplaces, -⟩
          · rw [← hlast]
            exact congrArg (lastLine · _) hjournal'.symm
          · cases hopened.symm.trans hw₁
            rw [hverdict] at hreplaces
            cases hreplaces
        · intro h
          have hlast := h.1.resolve_right fun hanswered => Bool.false_ne_true (hlands.symm.trans hanswered)
          refine ⟨?_, fun _ h => (nomatch h), fun _ _ => .inl ?_⟩
          · show files.journal <+: w'.journal
            rw [hjournal']
            exact hgrown
          · show lastLine w'.journal _ = _
            rw [hjournal', hlast]

/-- **An action accounted for.** A refused action leaves the item it names as it was (a stale approval's apart) and an
acknowledged one is recorded once, over every journal and however each write ends, exactly where the action's record does not
take the reserve with the record of the full disk refused after it, and the opening does not itself resolve the item of an
action that is then refused. -/
theorem accounted_iff (store : Store) (complete : HumanItem → Actor → Except String (Option HumanItemInput)) (opening : Opening)
    (action : HumanItemAction) (files : HostFiles) :
    Accounted store complete opening action files (writing store opening (applyAction store complete action) files) ↔
      Clean store complete opening action files := by
  cases hopened : opened store opening files with
  | none =>
    obtain ⟨why, hrun⟩ : ∃ why, writing store opening (applyAction store complete action) files = (.error why, files) :=
      writing_unread hopened
    rw [hrun]
    refine ⟨fun _ => ⟨?_, ?_⟩, fun _ => ⟨List.prefix_refl _, fun _ h => (nomatch h), fun _ _ => .inl rfl⟩⟩
    · intro answer w h
      rw [hopened] at h
      cases h
    · intro w _ _ _ h
      rw [hopened] at h
      cases h
  | some run =>
    obtain ⟨answer, w⟩ := run
    cases answer with
    | error why =>
      rw [writing_refused hopened]
      have hadds := opened_adds hopened
      obtain ⟨lines, hjournal, -⟩ := hadds.added
      constructor
      · intro h
        refine ⟨?_, ?_⟩
        · rintro answer w' hw'
          cases hopened.symm.trans hw'
          rcases h.refusal why rfl with hlast | ⟨w₁, hw₁, -⟩
          · exact .inl hlast
          · cases hopened.symm.trans hw₁
        · intro w' _ _ _ hw'
          cases hopened.symm.trans hw'
      · intro h
        refine ⟨⟨lines, hjournal.symm⟩, fun _ h => (nomatch h), fun _ _ => .inl ?_⟩
        exact (h.unresolved (.error why) w hopened).resolve_right fun h => (nomatch h.1)
    | ok u =>
      rw [accounted_opened hopened]
      constructor
      · rintro ⟨hlast, hspills⟩
        refine ⟨?_, ?_⟩
        · intro answer w' hw'
          cases hopened.symm.trans hw'
          exact hlast.imp id fun h => ⟨rfl, h⟩
        · intro w' item event by_ hw'
          cases hopened.symm.trans hw'
          exact hspills item event by_
      · intro h
        exact ⟨(h.unresolved (.ok ()) w hopened).imp id fun h => h.2, fun item event by_ => h.unspilled w item event by_ hopened⟩

/-! ## A dismissal taken from the reserve -/

def plainStore : Store := { path := "j", itemIdFor := fun key => key, undoable := fun _ => false, undo := fun _ _ => .error "" }

def openTask : HumanItem :=
  { id := "k", dedupKey := "k", kind := .task, title := "t", body := "b", priority := .high
    owner := { session := "s", run := none, plan := none }, block := .nothing, createdAt := "", updatedAt := "" }

def oneTask : HostFiles := { journal := [lineOf 0 openTask .raised none], reserve := true }

/-- no room but the reserve's, and then an error -/
def fullDisk : Opening := { room := true, outcomes := [.noSpace "no space left", .written, .failed "input/output error"] }

def dismissTask : HumanItemAction := .dismiss "k" none { actor := "p", onBehalfOf := none }

/-- a dismissal written into the reserve is refused as not acknowledged where the record of the full disk fails after it: the
task stands dismissed -/
theorem spilled_refused :
    ¬Accounted plainStore (fun _ _ => .ok none) fullDisk dismissTask oneTask
      (writing plainStore fullDisk (applyAction plainStore (fun _ _ => .ok none) dismissTask) oneTask) := by
  have hreads : (opened plainStore fullDisk oneTask).any (fun p => p.1.toOption.isSome && takesReserve p.2 &&
      match verdictOf plainStore (fun _ _ => .ok none) p.2 dismissTask with
      | .records item event by_ =>
        let w := (record plainStore item event by_ p.2).2
        (openCondition .journalNoSpace w).isNone && !lands w.outcomes &&
          (w.items[plainStore.itemIdFor (conditionInput .journalNoSpace w.nextSeq "" "" "").dedupKey]?).isNone
      | _ => false) = true := by
    decide
  obtain ⟨⟨answer, w⟩, hopened, hall⟩ := (Option.any_eq_true _ _).mp hreads
  cases hverdict : verdictOf plainStore (fun _ _ => .ok none) w dismissTask with
  | records item event by_ =>
    simp only [hverdict, Bool.and_eq_true, Option.isNone_iff_eq_none, Bool.not_eq_true'] at hall
    obtain ⟨⟨hok, htakes⟩, ⟨hfree, hlands⟩, hnew⟩ := hall
    cases answer with
    | error why => cases hok
    | ok u =>
      intro h
      exact ((accounted_opened hopened).mp h).2 item event by_ hverdict ⟨htakes, report_fails hfree hnew hlands⟩
  | refused | stands | replaces => simp [hverdict] at hall

end OnePipeline.HumanItems
