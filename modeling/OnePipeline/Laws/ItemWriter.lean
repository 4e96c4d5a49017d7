/-
No accepted action makes the human-item journal unreadable or breaks an item's history.

Every record is written by an action on the item the writer read, so what a record may say is settled where it is made: the
rules below carry one invariant of the writer through each action, and through a list of items held open beside it.

Results:
- `Lawful`: a journal a reader folds whole, one item a dedup key, what an item's records never differ in, and the record
  that may follow each;
- `Kept.append`, `record_holding`: a record an action may make of an item keeps the journal lawful and what is held open;
- `journal_lawful`: the journal is lawful after every sequence of actions.
-/
import Mathlib.Tactic
import OnePipeline.Core.Maps
import OnePipeline.Model.ItemWriter

namespace OnePipeline.HumanItems

/-! ## What a journal's records may say -/

/-- an item's last record -/
def lastLine (journal : List Envelope) (id : String) : Option Envelope :=
  journal.reverse.find? fun line => line.payload.itemId = id

/-- the item an item's last record leaves -/
def standing (journal : List Envelope) (id : String) : Option HumanItem := (lastLine journal id).map (·.payload.item)

/-- what the records of one item never differ in -/
structure Same (old new : HumanItem) : Prop where
  id : new.id = old.id
  dedupKey : new.dedupKey = old.dedupKey
  kind : new.kind = old.kind
  owner : new.owner = old.owner
  block : new.block = old.block
  createdAt : new.createdAt = old.createdAt

/-- what an event of an action makes of an item -/
def Follows (old : HumanItem) (action : HumanItemEventAction) (new : HumanItem) : Prop :=
  match action with
  | .raised => old.state = .open ∧ new.state = .open ∧ new.resolution = none
  | .answered => old.state = .open ∧ new.state = .answered ∧ new.resolution.isSome
  | .completed => old.state = .open ∧ new.state = .completed ∧ new.resolution.isSome
  | .dismissed | .autoResolved => old.state = .open ∧ new.state = .dismissed ∧ new.resolution.isSome
  | .reopened => (old.state = .completed ∨ old.state = .dismissed) ∧ new.state = .open ∧ new.resolution = none
  | .noted => ∃ resolution text, old.resolution = some resolution ∧ new.state = old.state ∧
      (old.state = .completed ∧ new.resolution = some { resolution with text := some text } ∨
        old.state = .dismissed ∧ new.resolution = some { resolution with reason := some text })

/-- an item's first record raises it, and each after it makes of the item what its action may -/
def Continues (before : Option HumanItem) (action : HumanItemEventAction) (item : HumanItem) : Prop :=
  match before with
  | none => action = .raised ∧ item.state = .open ∧ item.resolution = none
  | some old => Same old item ∧ Follows old action item

/-- a journal no record of which breaks an item's history -/
structure Lawful (journal : List Envelope) : Prop where
  /-- every record parses, above the sequences before it -/
  readable : ∃ fold, foldRecords journal = .ok fold
  /-- one item a dedup key -/
  oneItem : ∀ a ∈ journal, ∀ b ∈ journal, a.payload.item.dedupKey = b.payload.item.dedupKey → a.payload.itemId = b.payload.itemId
  fixed : ∀ a ∈ journal, ∀ b ∈ journal, a.payload.itemId = b.payload.itemId → Same a.payload.item b.payload.item
  history : ∀ before line after, journal = before ++ line :: after →
    Continues (standing before line.payload.itemId) line.payload.action line.payload.item

variable {journal : List Envelope} {line : Envelope} {id : String} {item old new : HumanItem}

namespace Same

theorem rfl' (item : HumanItem) : Same item item := ⟨rfl, rfl, rfl, rfl, rfl, rfl⟩

theorem trans {a b c : HumanItem} (h : Same a b) (h' : Same b c) : Same a c :=
  ⟨h'.id.trans h.id, h'.dedupKey.trans h.dedupKey, h'.kind.trans h.kind, h'.owner.trans h.owner, h'.block.trans h.block,
    h'.createdAt.trans h.createdAt⟩

theorem symm {a b : HumanItem} (h : Same a b) : Same b a :=
  ⟨h.id.symm, h.dedupKey.symm, h.kind.symm, h.owner.symm, h.block.symm, h.createdAt.symm⟩

end Same

theorem lastLine_append (journal : List Envelope) (line : Envelope) (id : String) :
    lastLine (journal ++ [line]) id = if line.payload.itemId = id then some line else lastLine journal id := by
  unfold lastLine
  rw [List.reverse_append, List.reverse_singleton, List.singleton_append, List.find?_cons]
  by_cases h : line.payload.itemId = id
  · simp [h]
  · simp [h]

theorem mem_of_lastLine (h : lastLine journal id = some line) : line ∈ journal ∧ line.payload.itemId = id := by
  unfold lastLine at h
  have hid := List.find?_some h
  exact ⟨List.mem_reverse.mp (List.mem_of_find?_eq_some h), by simpa using hid⟩

theorem standing_append (journal : List Envelope) (line : Envelope) (id : String) :
    standing (journal ++ [line]) id = if line.payload.itemId = id then some line.payload.item else standing journal id := by
  unfold standing
  rw [lastLine_append]
  split_ifs <;> rfl

theorem mem_of_standing (h : standing journal id = some item) :
    ∃ line ∈ journal, line.payload.itemId = id ∧ line.payload.item = item := by
  obtain ⟨line, hlast, hitem⟩ := Option.map_eq_some_iff.mp h
  exact ⟨line, (mem_of_lastLine hlast).1, (mem_of_lastLine hlast).2, hitem⟩

theorem standing_of_mem (h : line ∈ journal) : ∃ item, standing journal line.payload.itemId = some item := by
  unfold standing lastLine
  have hsome : (journal.reverse.find? fun l => l.payload.itemId = line.payload.itemId).isSome := by
    rw [List.find?_isSome]
    exact ⟨line, List.mem_reverse.mpr h, by simp⟩
  obtain ⟨found, hfound⟩ := Option.isSome_iff_exists.mp hsome
  exact ⟨found.payload.item, by rw [hfound]; rfl⟩

/-! ## What a record a reader accepts says -/

/-- what the reader asks of an item -/
structure Valid (item : HumanItem) : Prop where
  schemaVersion : item.schemaVersion = 1
  priority : item.priority ≠ .none
  title : Text.isBlank item.title = false
  body : Text.isBlank item.body = false
  resolved : resolvedAs item.kind item.state item.resolution = true
  approval : item.kind = .question → item.approval = none

theorem validate_ok_iff : item.validate = .ok () ↔ Valid item := by
  constructor
  · intro h
    unfold HumanItem.validate at h
    split_ifs at h with h1 h2 h3 h4
    push Not at h1 h2 h4
    exact ⟨h1, h2.1, by simpa using h2.2.1, by simpa using h2.2.2, by simpa using h3, fun hk => by simpa using h4 hk⟩
  · intro h
    unfold HumanItem.validate
    rw [if_neg (not_not_intro h.schemaVersion), if_neg (by simp [h.priority, h.title, h.body]),
      if_neg (by simp [h.resolved]), if_neg (by rintro ⟨hk, ha⟩; simp [h.approval hk] at ha)]

/-- an open item has no resolution -/
theorem Valid.resolution_none (h : Valid item) (hopen : item.state = .open) : item.resolution = none := by
  have hr := h.resolved
  rw [hopen] at hr
  cases hres : item.resolution with
  | none => rfl
  | some r =>
    rw [hres] at hr
    cases hk : item.kind <;> rw [hk] at hr <;> exact absurd hr (by simp [resolvedAs])

/-- a resolved item has one -/
theorem Valid.resolution_some (h : Valid item) (hstate : item.state ≠ .open) : ∃ r, item.resolution = some r := by
  have hr := h.resolved
  cases hres : item.resolution with
  | some r => exact ⟨r, rfl⟩
  | none =>
    rw [hres] at hr
    cases hs : item.state with
    | «open» => exact absurd hs hstate
    | answered => rw [hs] at hr; cases hk : item.kind <;> rw [hk] at hr <;> exact absurd hr (by simp [resolvedAs])
    | completed => rw [hs] at hr; cases hk : item.kind <;> rw [hk] at hr <;> exact absurd hr (by simp [resolvedAs])
    | dismissed => rw [hs] at hr; cases hk : item.kind <;> rw [hk] at hr <;> exact absurd hr (by simp [resolvedAs])

/-- who an event of an action says acted: a person for a reopen or a note, and nobody for any other -/
def SaysWho (action : HumanItemEventAction) (by_ : Option HumanItemEventBy) : Prop :=
  (eventRule action).2 = by_.isSome ∧ ∀ who ∈ by_, Text.isBlank who.actor = false

/-- the record an event of an item is written as is one a reader accepts -/
theorem parseRecord_lineOf {seq : ℕ} {action : HumanItemEventAction} {by_ : Option HumanItemEventBy} (hvalid : Valid item)
    (hstate : item.state ∈ (eventRule action).1) (hby : SaysWho action by_) :
    parseRecord (lineOf seq item action by_) = .ok (seq, (lineOf seq item action by_).payload) := by
  have hpayload : (lineOf seq item action by_).payload.validate = .ok () := by
    unfold HumanItemEventPayload.validate lineOf
    simp only [validate_ok_iff.mpr hvalid, hstate, hby.1]
    simp [bind, Except.bind, pure, Except.pure]
  have hdecode : (lineOf seq item action by_).payload.decode = .ok (lineOf seq item action by_).payload := by
    unfold HumanItemEventPayload.decode
    rw [hpayload]
    have hany : ((lineOf seq item action by_).payload.by.any fun who => Text.isBlank who.actor) = false := by
      cases hwho : by_ with
      | none => simp [lineOf]
      | some who => simpa [lineOf] using hby.2 who hwho
    rw [hany]
    rfl
  unfold parseRecord
  rw [hdecode]
  simp [lineOf, envelopeVersion, envelopeVersionsRead, bind, Except.bind, pure, Except.pure]

theorem parseRecord_ok {parsed : ℕ × HumanItemEventPayload} (h : parseRecord line = .ok parsed) :
    parsed = (line.seq, line.payload) ∧ Valid line.payload.item ∧ line.payload.itemId = line.payload.item.id := by
  unfold parseRecord at h
  simp only [bind, Except.bind, pure, Except.pure] at h
  split_ifs at h with hstream hversion
  cases hdecode : line.payload.decode with
  | error why => rw [hdecode] at h; exact absurd h (by simp)
  | ok payload =>
    rw [hdecode] at h
    unfold HumanItemEventPayload.decode at hdecode
    simp only [bind, Except.bind, pure, Except.pure] at hdecode
    split_ifs at hdecode with hwho
    cases hvalidate : line.payload.validate with
    | error why => rw [hvalidate] at hdecode; exact absurd hdecode (by simp)
    | ok u =>
      rw [hvalidate] at hdecode
      cases hdecode
      unfold HumanItemEventPayload.validate at hvalidate
      simp only [bind, Except.bind, pure, Except.pure] at hvalidate
      cases hitem : line.payload.item.validate with
      | error why => rw [hitem] at hvalidate; exact absurd hvalidate (by simp)
      | ok u =>
        rw [hitem] at hvalidate
        simp only [] at hvalidate h
        split_ifs at hvalidate with hsame
        split_ifs at h with hkind
        push Not at hsame
        exact ⟨(Except.ok.inj h).symm, validate_ok_iff.mp hitem, hsame.2.1⟩

/-! ## What a reader folds -/

theorem foldRecords_append (journal : List Envelope) (line : Envelope) :
    foldRecords (journal ++ [line]) = (foldRecords journal).bind fun fold => foldOne fold line := by
  unfold foldRecords
  rw [List.foldlM_append]
  cases h : journal.foldlM foldOne {} with
  | error why => rfl
  | ok fold =>
    show (foldOne fold line >>= pure) = foldOne fold line
    cases foldOne fold line <;> rfl

/-- what a fold of a whole journal holds of it -/
structure ReadAs (journal : List Envelope) (fold : Fold) : Prop where
  items : ∀ id : String, fold.items[id]? = standing journal id
  unread : fold.records = 0 → fold.nextSeq = 0
  /-- the last record is still its item's last event -/
  last : 0 < fold.nextSeq → ∃ id : String, fold.events[id]? = some (fold.nextSeq - 1)
  fresh : ∀ line ∈ journal, line.seq < fold.nextSeq
  valid : ∀ line ∈ journal, Valid line.payload.item ∧ line.payload.itemId = line.payload.item.id

theorem ReadAs.nil : ReadAs [] {} where
  items _ := Std.ExtTreeMap.getElem?_empty
  unread _ := rfl
  last h := absurd h (lt_irrefl 0)
  fresh _ h := nomatch h
  valid _ h := nomatch h

theorem ReadAs.append {fold fold' : Fold} (hread : ReadAs journal fold) (h : foldOne fold line = .ok fold') :
    ReadAs (journal ++ [line]) fold' := by
  unfold foldOne at h
  cases hparse : parseRecord line with
  | error why => rw [hparse] at h; exact absurd h (by simp)
  | ok parsed =>
    obtain ⟨hparsed, hvalid, hid⟩ := parseRecord_ok hparse
    rw [hparse, hparsed] at h
    simp only [] at h
    split_ifs at h with hseq
    have hnext : max fold.nextSeq (line.seq + 1) = line.seq + 1 := by
      rcases Nat.eq_zero_or_pos fold.records with hnone | hsome
      · rw [hread.unread hnone, Nat.zero_max]
      · have hle : fold.nextSeq ≤ line.seq := not_lt.mp fun hlt => hseq ⟨hsome, hlt⟩
        exact max_eq_right (Nat.le_succ_of_le hle)
    cases h
    constructor
    · intro id
      rw [standing_append, Maps.get_insert, hread.items]
      by_cases heq : line.payload.itemId = id
      · rw [if_pos heq, if_pos heq.symm]
      · rw [if_neg heq, if_neg (Ne.symm heq)]
    · intro hzero
      exact absurd hzero (Nat.succ_ne_zero _)
    · intro _
      refine ⟨line.payload.itemId, ?_⟩
      rw [Maps.get_insert, if_pos rfl, hnext, Nat.add_sub_cancel]
    · intro l hl
      show l.seq < max fold.nextSeq (line.seq + 1)
      rcases List.mem_append.mp hl with hl | hl
      · exact lt_max_of_lt_left (hread.fresh l hl)
      · rw [List.mem_singleton.mp hl]
        exact lt_max_of_lt_right (Nat.lt_succ_self _)
    · intro l hl
      rcases List.mem_append.mp hl with hl | hl
      · exact hread.valid l hl
      · rw [List.mem_singleton.mp hl]
        exact ⟨hvalid, hid⟩

theorem readAs {fold : Fold} (h : foldRecords journal = .ok fold) : ReadAs journal fold := by
  induction journal using List.reverseRecOn generalizing fold with
  | nil =>
    cases h
    exact ReadAs.nil
  | append_singleton journal line ih =>
    rw [foldRecords_append] at h
    cases hfold : foldRecords journal with
    | error why => rw [hfold] at h; exact absurd h (by simp [Except.bind])
    | ok before =>
      rw [hfold] at h
      exact (ih hfold).append h

/-! ## What may be appended -/

/-- a record an action may make of an item, of what the items are -/
structure Writable (store : Store) (items : StrMap HumanItem) (item : HumanItem) (action : HumanItemEventAction)
    (by_ : Option HumanItemEventBy) : Prop where
  valid : Valid item
  state : item.state ∈ (eventRule action).1
  who : SaysWho action by_
  minted : item.id = store.itemIdFor item.dedupKey
  continues : Continues items[item.id]? action item

/-- a lawful journal whose every item goes under the id its dedup key mints -/
structure Kept (store : Store) (journal : List Envelope) : Prop extends Lawful journal where
  minted : ∀ line ∈ journal, line.payload.item.id = store.itemIdFor line.payload.item.dedupKey

variable {store : Store}

theorem Kept.nil (store : Store) : Kept store [] where
  readable := ⟨{}, rfl⟩
  oneItem _ h := nomatch h
  fixed _ h := nomatch h
  history before line after h := by simp at h
  minted _ h := nomatch h

/-- a list ending in one more element, cut at any of its elements -/
theorem cut_append {α : Type} {l before after : List α} {x a : α} (h : l ++ [x] = before ++ a :: after) :
    (before = l ∧ a = x) ∨ ∃ rest, l = before ++ a :: rest := by
  rcases List.eq_nil_or_concat after with rfl | ⟨rest, y, rfl⟩
  · obtain ⟨hl, hx⟩ := List.append_inj' h rfl
    exact .inl ⟨hl.symm, (List.singleton_inj.mp hx).symm⟩
  · have h' : l ++ [x] = (before ++ a :: rest) ++ [y] := by rw [h]; simp
    exact .inr ⟨rest, (List.append_inj' h' rfl).1⟩

theorem Kept.append {seq : ℕ} {action : HumanItemEventAction} {by_ : Option HumanItemEventBy} {fold : Fold}
    (hkept : Kept store journal) (hfold : foldRecords journal = .ok fold) (hseq : fold.nextSeq ≤ seq)
    (hw : Writable store fold.items item action by_) :
    Kept store (journal ++ [lineOf seq item action by_]) ∧
      ∃ fold', foldRecords (journal ++ [lineOf seq item action by_]) = .ok fold' ∧
        fold'.items = fold.items.insert item.id item ∧ fold'.nextSeq ≤ seq + 1 := by
  have hread := readAs hfold
  have hone : foldOne fold (lineOf seq item action by_) = .ok
      { items := fold.items.insert item.id item
        events := fold.events.insert item.id seq
        records := fold.records + 1
        nextSeq := max fold.nextSeq (seq + 1) } := by
    unfold foldOne
    rw [parseRecord_lineOf hw.valid hw.state hw.who]
    simp only []
    rw [if_neg fun h => absurd h.2 (not_lt.mpr hseq)]
    rfl
  have hfold' := foldRecords_append journal (lineOf seq item action by_)
  rw [hfold] at hfold'
  have hfold'' := hfold'.trans hone
  -- the last record before it of the item it is of
  have hstanding : ∀ l ∈ journal, l.payload.itemId = item.id → Same l.payload.item item := by
    intro l hl hid
    obtain ⟨old, hold⟩ := standing_of_mem hl
    obtain ⟨o, ho, hoid, hoitem⟩ := mem_of_standing hold
    have hcontinues := hw.continues
    rw [hread.items, ← hid, hold] at hcontinues
    have hlo := hkept.fixed l hl o ho hoid.symm
    rw [hoitem] at hlo
    exact hlo.trans hcontinues.1
  have hminted : ∀ l ∈ journal ++ [lineOf seq item action by_],
      l.payload.item.id = store.itemIdFor l.payload.item.dedupKey ∧ l.payload.itemId = l.payload.item.id := by
    intro l hl
    rcases List.mem_append.mp hl with hl | hl
    · exact ⟨hkept.minted l hl, (hread.valid l hl).2⟩
    · rw [List.mem_singleton.mp hl]
      exact ⟨hw.minted, rfl⟩
  refine ⟨⟨⟨⟨_, hfold''⟩, ?_, ?_, ?_⟩, fun l hl => (hminted l hl).1⟩, _, hfold'', rfl, ?_⟩
  · intro a ha b hb hkey
    rw [(hminted a ha).2, (hminted a ha).1, (hminted b hb).2, (hminted b hb).1, hkey]
  · intro a ha b hb hid
    rcases List.mem_append.mp ha with ha | ha <;> rcases List.mem_append.mp hb with hb | hb
    · exact hkept.fixed a ha b hb hid
    · rw [List.mem_singleton.mp hb] at hid ⊢
      exact hstanding a ha hid
    · rw [List.mem_singleton.mp ha] at hid ⊢
      exact (hstanding b hb hid.symm).symm
    · rw [List.mem_singleton.mp ha, List.mem_singleton.mp hb]
      exact Same.rfl' item
  · intro before l after hcut
    rcases cut_append hcut with ⟨rfl, rfl⟩ | ⟨rest, hrest⟩
    · have hcontinues := hw.continues
      rw [hread.items] at hcontinues
      exact hcontinues
    · exact hkept.history before l rest hrest
  · exact max_le (Nat.le_succ_of_le hseq) le_rfl

/-! ## A writer that holds what it read -/

/-- a writer whose items are its journal's -/
structure Sound (store : Store) (w : Writer) : Prop where
  kept : Kept store w.journal
  read : ∃ fold, foldRecords w.journal = .ok fold ∧ fold.items = w.items ∧ fold.nextSeq ≤ w.nextSeq

/-- and some of them, read before, open still -/
structure Holding (store : Store) (held : List HumanItem) (w : Writer) : Prop extends Sound store w where
  stillOpen : ∀ item ∈ held, ∃ now, w.items[item.id]? = some now ∧ now.state = .open ∧ Same item now

variable {w : Writer} {held : List HumanItem} {action : HumanItemEventAction} {by_ : Option HumanItemEventBy}

theorem Sound.holding (h : Sound store w) : Holding store [] w := ⟨h, fun _ hitem => (nomatch hitem)⟩

theorem Holding.mono {held' : List HumanItem} (h : Holding store held w) (hsub : ∀ item ∈ held', item ∈ held) :
    Holding store held' w :=
  ⟨h.toSound, fun item hitem => h.stillOpen item (hsub item hitem)⟩

/-- an item read is as a record says it -/
theorem Sound.read_item (h : Sound store w) (hitem : w.items[id]? = some item) :
    Valid item ∧ item.id = id ∧ item.id = store.itemIdFor item.dedupKey := by
  obtain ⟨fold, hfold, hitems, -⟩ := h.read
  have hread := readAs hfold
  rw [← hitems, hread.items] at hitem
  obtain ⟨line, hline, hid, rfl⟩ := mem_of_standing hitem
  obtain ⟨hvalid, hown⟩ := hread.valid line hline
  exact ⟨hvalid, hown.symm.trans hid, h.kept.minted line hline⟩

/-- what an append leaves as it was, and what it does to the journal -/
structure Appends (line : Envelope) (w : Writer) (answer : Except String Appended) (w' : Writer) : Prop where
  items : w'.items = w.items
  nextSeq : w'.nextSeq = w.nextSeq
  ok : ∀ appended, answer = .ok appended → w'.journal = w.journal ++ [line]
  error : ∀ why, answer = .error why → w'.journal = w.journal

theorem writeSynced_journal (line : Envelope) (w : Writer) :
    ∃ outcome w', writeSynced line w = (.ok outcome, w') ∧ w'.items = w.items ∧ w'.nextSeq = w.nextSeq ∧
      w'.journal = if outcome = .written then w.journal ++ [line] else w.journal := by
  unfold writeSynced
  split <;> exact ⟨_, _, rfl, rfl, rfl, rfl⟩

theorem durableAppend_appends (path : String) (line : Envelope) (w : Writer) :
    Appends line w (durableAppend path line w).1 (durableAppend path line w).2 := by
  obtain ⟨outcome, w₁, hwrite, hitems, hnext, hjournal⟩ := writeSynced_journal line w
  unfold durableAppend
  rw [Act.bind_ok hwrite]
  cases outcome with
  | written => exact ⟨hitems, hnext, fun _ _ => hjournal, fun _ h => (nomatch h)⟩
  | failed error => exact ⟨hitems, hnext, fun _ h => (nomatch h), fun _ _ => hjournal⟩
  | noSpace error =>
    obtain ⟨again, w₂, hagain, hitems', hnext', hjournal'⟩ := writeSynced_journal line { w₁ with reserve := false }
    simp only [Act.read_bind, Act.update_bind]
    rw [Act.bind_ok hagain]
    cases again with
    | written =>
      refine ⟨hitems'.trans hitems, hnext'.trans hnext, fun _ _ => ?_, fun _ h => (nomatch h)⟩
      exact hjournal'.trans (congrArg (· ++ [line]) hjournal)
    | noSpace why => exact ⟨hitems'.trans hitems, hnext'.trans hnext, fun _ h => (nomatch h), fun _ _ => hjournal'.trans hjournal⟩
    | failed why => exact ⟨hitems'.trans hitems, hnext'.trans hnext, fun _ h => (nomatch h), fun _ _ => hjournal'.trans hjournal⟩

/-- a writer about to record an event: one its item may have, leaving what is held open -/
structure Ready (store : Store) (held : List HumanItem) (item : HumanItem) (action : HumanItemEventAction)
    (by_ : Option HumanItemEventBy) (w : Writer) : Prop extends Holding store held w where
  writable : Writable store w.items item action by_
  others : ∀ other ∈ held, item.state = .open ∨ item.id ≠ other.id

/-- an event its item may have is recorded, or nothing is; what is held stays open -/
theorem record_holding (store : Store) (held : List HumanItem) (item : HumanItem) (action : HumanItemEventAction)
    (by_ : Option HumanItemEventBy) :
    Act.Triple (Ready store held item action by_) (record store item action by_) fun _ => Holding store held := by
  intro w hw
  obtain ⟨fold, hfold, hitems, hnext⟩ := hw.read
  have happends := durableAppend_appends store.path (lineOf w.nextSeq item action by_) w
  unfold record
  simp only [Act.read_bind]
  cases hrun : durableAppend store.path (lineOf w.nextSeq item action by_) w with
  | mk answer w' =>
    rw [hrun] at happends
    cases answer with
    | error why =>
      rw [Act.bind_error hrun]
      have hjournal := happends.error why rfl
      refine ⟨⟨?_, ?_⟩, ?_⟩
      · rw [hjournal]
        exact hw.kept
      · exact ⟨fold, by rw [hjournal, hfold], hitems.trans happends.items.symm, hnext.trans_eq happends.nextSeq.symm⟩
      · intro other hother
        rw [happends.items]
        exact hw.stillOpen other hother
    | ok appended =>
      rw [Act.bind_ok hrun]
      have hjournal := happends.ok appended rfl
      have hwritable : Writable store fold.items item action by_ := by
        rw [hitems]
        exact hw.writable
      obtain ⟨hkept, fold', hfold', hitems', hnext'⟩ := hw.kept.append hfold hnext hwritable
      simp only [Act.update_bind, Act.pure_apply]
      refine ⟨⟨?_, ?_⟩, ?_⟩
      · rw [hjournal]
        exact hkept
      · exact ⟨fold', by rw [hjournal, hfold'], by rw [hitems', hitems, happends.items], hnext'⟩
      · intro other hother
        obtain ⟨now, hnow, hopen, hsame⟩ := hw.stillOpen other hother
        rw [happends.items, Maps.get_insert]
        by_cases hid : other.id = item.id
        · rw [if_pos hid]
          have hcontinues := hw.writable.continues
          rw [← hid, hnow] at hcontinues
          refine ⟨item, rfl, ?_, hsame.trans hcontinues.1⟩
          exact (hw.others other hother).resolve_right fun h => h hid.symm
        · rw [if_neg hid]
          exact ⟨now, hnow, hopen, hsame⟩

/-! ## Raises -/

theorem validateInput_ok {input : HumanItemInput} (h : validateInput input = .ok ()) :
    input.schemaVersion = 1 ∧ (input.kind = .question → input.approval = none) ∧ input.priority ≠ .none ∧
      Text.isBlank input.title = false ∧ Text.isBlank input.body = false := by
  have hvalid : input.validate = .ok () := by
    unfold validateInput at h
    cases hinput : input.validate with
    | ok u => rfl
    | error why => rw [hinput] at h; exact absurd h (by simp [bind, Except.bind])
  unfold HumanItemInput.validate at hvalid
  split_ifs at hvalid with hversion hquestion hsaid
  push Not at hversion hsaid
  refine ⟨hversion, fun hk => ?_, hsaid.1, by simpa using hsaid.2.1, by simpa using hsaid.2.2⟩
  exact Option.not_isSome_iff_eq_none.mp fun ha => hquestion ⟨hk, ha⟩

theorem SaysWho.none_of (h : (eventRule action).2 = false) : SaysWho action none := ⟨h, fun _ hwho => (nomatch hwho)⟩

/-- the record a raise makes of an item, new or open -/
theorem ready_raised (h : Holding store held w) (hvalid : Valid item) (hopen : item.state = .open)
    (hminted : item.id = store.itemIdFor item.dedupKey)
    (hsame : ∀ existing, w.items[item.id]? = some existing → existing.state = .open ∧ Same existing item) :
    Ready store held item .raised none w := by
  refine ⟨h, ⟨hvalid, by simp [eventRule, hopen], SaysWho.none_of rfl, hminted, ?_⟩, fun _ _ => .inl hopen⟩
  cases hfound : w.items[item.id]? with
  | none => exact ⟨rfl, hopen, hvalid.resolution_none hopen⟩
  | some existing => exact ⟨(hsame existing hfound).2, (hsame existing hfound).1, hopen, hvalid.resolution_none hopen⟩

/-- an append of a raise that leaves a lawful journal and what is held open -/
def Raises (store : Store) (append : HumanItem → HumanItemEventAction → Writing ℕ) : Prop :=
  ∀ held item, Act.Triple (Ready store held item .raised none) (append item .raised) fun _ => Holding store held

theorem raises_recorded (store : Store) : Raises store (recorded store) := by
  intro held item
  exact Act.Keeps.after (record_holding store held item .raised none) fun _ => Act.Keeps.pure _

theorem raiseBy_holding {append : HumanItem → HumanItemEventAction → Writing ℕ} (happend : Raises store append)
    (held : List HumanItem) (input : HumanItemInput) : Act.Keeps (Holding store held) (raiseBy store append input) := by
  intro w hw
  unfold raiseBy
  cases hinput : validateInput input with
  | error why =>
    rw [Act.lift_error_bind]
    exact hw
  | ok u =>
    obtain ⟨hversion, hquestion, hpriority, htitle, hbody⟩ := validateInput_ok hinput
    simp only [Act.lift_ok_bind, Act.read_bind]
    cases hfound : w.items[store.itemIdFor input.dedupKey]? with
    | none =>
      have hvalid : Valid (raisedItem (store.itemIdFor input.dedupKey) (w.clock w.nextSeq) input) :=
        ⟨rfl, hpriority, htitle, hbody, by simp [raisedItem, resolvedAs], hquestion⟩
      have hready : Ready store held (raisedItem (store.itemIdFor input.dedupKey) (w.clock w.nextSeq) input) .raised none w :=
        ready_raised hw hvalid rfl rfl fun existing hexisting => by
          rw [show (raisedItem (store.itemIdFor input.dedupKey) (w.clock w.nextSeq) input).id = store.itemIdFor input.dedupKey
            from rfl, hfound] at hexisting
          exact absurd hexisting (by simp)
      exact Act.Keeps.after (happend held _) (fun _ => Act.Keeps.pure _) w hready
    | some existing =>
      obtain ⟨hexisting, hid, hminted⟩ := hw.toSound.read_item hfound
      simp only []
      split_ifs with hother hsettled
      · exact hw
      · exact hw
      · push Not at hother hsettled
        have hopen : existing.state = .open := hsettled.2
        have hvalid : Valid { existing with
            title := input.title, body := input.body, priority := input.priority, approval := input.approval
            updatedAt := w.clock w.nextSeq } :=
          ⟨hexisting.schemaVersion, hpriority, htitle, hbody, hexisting.resolved,
            fun hk => hquestion (hother.1.symm.trans hk)⟩
        have hready := ready_raised hw hvalid hopen hminted fun old hold => by
          have hold' : w.items[existing.id]? = some old := hold
          rw [hid, hfound] at hold'
          cases hold'
          exact ⟨hopen, rfl, rfl, rfl, rfl, rfl, rfl⟩
        exact Act.Keeps.after (happend held _) (fun _ => Act.Keeps.pure _) w hready

theorem conditionBy_holding {append : HumanItem → HumanItemEventAction → Writing ℕ} (happend : Raises store append)
    (held : List HumanItem) (condition : HostCondition) (session title body : String) :
    Act.Keeps (Holding store held) (conditionBy store append condition session title body) := by
  intro w hw
  unfold conditionBy
  simp only [Act.read_bind]
  cases openCondition condition w with
  | some found => exact hw
  | none => exact raiseBy_holding happend held _ w hw

/-- an event recorded, and the full disk's own record after it, leave what is held open -/
theorem appendBy_holding (store : Store) (held : List HumanItem) (item : HumanItem) (action : HumanItemEventAction)
    (by_ : Option HumanItemEventBy) :
    Act.Triple (Ready store held item action by_) (appendBy store item action by_) fun _ => Holding store held := by
  refine Act.Keeps.after (record_holding store held item action by_) ?_
  rintro ⟨seq, appended⟩
  have hreport := conditionBy_holding (raises_recorded store) held .journalNoSpace item.owner.session
    "Free space for the human-item journal" (noSpaceBody store.path)
  simp only []
  split_ifs with hreserve
  · exact hreport.bind fun _ => Act.Keeps.pure seq
  · exact Act.Keeps.pure seq

theorem raises_append (store : Store) : Raises store (append store) :=
  fun held item => appendBy_holding store held item .raised none

theorem raise_holding (store : Store) (held : List HumanItem) (input : HumanItemInput) :
    Act.Keeps (Holding store held) (raise store input) :=
  raiseBy_holding (raises_append store) held input

theorem condition_holding (store : Store) (held : List HumanItem) (outage : HostCondition) (session title body : String) :
    Act.Keeps (Holding store held) (condition store outage session title body) :=
  conditionBy_holding (raises_append store) held outage session title body

/-! ## Resolutions -/

/-- the state an event that resolves its item leaves it in -/
def Ends : HumanItemEventAction → HumanItemState → Prop
  | .answered, state => state = .answered
  | .completed, state => state = .completed
  | .dismissed, state | .autoResolved, state => state = .dismissed
  | .raised, _ | .reopened, _ | .noted, _ => False

theorem Ends.state_ne {state : HumanItemState} (h : Ends action state) : state ≠ .open := by
  rintro rfl
  cases action <;> cases h

/-- an item held open, resolved, with what else is held left open -/
theorem resolve_holding {state : HumanItemState} {actor : Actor} {text reason : Option String}
    (h : Holding store (item :: held) w) (hvalid : Valid item) (hothers : ∀ other ∈ held, item.id ≠ other.id)
    (hends : Ends action state)
    (hresolved : resolvedAs item.kind state
      (some { actor := actor.actor, onBehalfOf := actor.onBehalfOf, text, reason }) = true) :
    Holding store held (resolve store item state action actor text reason w).2 := by
  obtain ⟨now, hnow, hopen, hsame⟩ := h.stillOpen item List.mem_cons_self
  obtain ⟨-, -, hminted⟩ := h.toSound.read_item hnow
  have hready : Ready store held (resolvedItem item state actor text reason (w.clock w.nextSeq)) action none w := by
    refine ⟨h.mono fun _ => List.mem_cons_of_mem item, ⟨?_, ?_, ?_, ?_, ?_⟩, fun other hother => .inr (hothers other hother)⟩
    · exact ⟨hvalid.schemaVersion, hvalid.priority, hvalid.title, hvalid.body, hresolved, hvalid.approval⟩
    · cases action <;> cases hends <;> simp [eventRule, resolvedItem]
    · cases action <;> cases hends <;> exact SaysWho.none_of rfl
    · show item.id = store.itemIdFor item.dedupKey
      rw [← hsame.id, hminted, hsame.dedupKey]
    · show Continues w.items[item.id]? action _
      rw [hnow]
      refine ⟨⟨hsame.id.symm, hsame.dedupKey.symm, hsame.kind.symm, hsame.owner.symm, hsame.block.symm, hsame.createdAt.symm⟩, ?_⟩
      cases action <;> cases hends <;> exact ⟨hopen, rfl, rfl⟩
  unfold resolve
  rw [Act.read_bind]
  exact Act.Keeps.after (appendBy_holding store held _ action none) (fun _ => Act.Keeps.pure _) w hready

theorem autoResolve_holding (h : Holding store (item :: held) w) (hvalid : Valid item)
    (hothers : ∀ other ∈ held, item.id ≠ other.id) (reason : String) :
    Holding store held (autoResolve store item reason w).2 :=
  resolve_holding h hvalid hothers rfl (by cases item.kind <;> rfl)

/-- an open item read, held -/
theorem Sound.hold (h : Sound store w) (hitem : w.items[id]? = some item) (hopen : item.state = .open) :
    Holding store [item] w := by
  refine ⟨h, fun other hother => ?_⟩
  rw [List.mem_singleton.mp hother, (h.read_item hitem).2.1]
  exact ⟨item, hitem, hopen, Same.rfl' item⟩

theorem autoResolve_sound (h : Sound store w) (hitem : w.items[id]? = some item) (hopen : item.state = .open)
    (reason : String) : Sound store (autoResolve store item reason w).2 :=
  (autoResolve_holding (h.hold hitem hopen) (h.read_item hitem).1 (fun _ hother => (nomatch hother)) reason).toSound

theorem openCondition_some {condition : HostCondition} (h : openCondition condition w = some item) :
    (∃ id : String, w.items[id]? = some item) ∧ item.state = .open := by
  unfold openCondition at h
  have hopen := List.find?_some h
  simp only [Bool.and_eq_true, decide_eq_true_eq] at hopen
  exact ⟨Maps.mem_values.mp (List.mem_of_find?_eq_some h), hopen.1⟩

theorem clear_sound (store : Store) (condition : HostCondition) (reason : String) :
    Act.Keeps (Sound store) (clear store condition reason) := by
  intro w hw
  unfold clear
  rw [Act.read_bind]
  cases hfound : openCondition condition w with
  | none => exact hw
  | some found =>
    obtain ⟨⟨id, hid⟩, hopen⟩ := openCondition_some hfound
    refine Act.Keeps.after (P := fun w' => w' = w) ?_ (fun _ => Act.Keeps.pure ()) w rfl
    rintro w' rfl
    exact autoResolve_sound hw hid hopen reason

/-! ## After the fact -/

/-- an event of an item read and changed after the fact -/
theorem afterTheFact_sound {actor : Actor} (hw : Sound store w) (hitem : w.items[id]? = some old) (hsame : Same old item)
    (hactor : Text.isBlank actor.actor = false) (hwho : (eventRule action).2 = true)
    (hvalid : Valid item) (hstate : item.state ∈ (eventRule action).1)
    (hfollows : Follows old action { item with updatedAt := w.clock w.nextSeq }) :
    Sound store (afterTheFact store item action actor w).2 := by
  obtain ⟨-, hid, hminted⟩ := hw.read_item hitem
  have hready : Ready store [] { item with updatedAt := w.clock w.nextSeq } action
      (some { actor := actor.actor, onBehalfOf := actor.onBehalfOf }) w := by
    refine ⟨hw.holding, ⟨?_, hstate, ⟨hwho, ?_⟩, ?_, ?_⟩, fun _ hother => (nomatch hother)⟩
    · exact ⟨hvalid.schemaVersion, hvalid.priority, hvalid.title, hvalid.body, hvalid.resolved, hvalid.approval⟩
    · rintro who ⟨⟩
      exact hactor
    · show item.id = store.itemIdFor item.dedupKey
      rw [hsame.id, hminted, hsame.dedupKey]
    · have hstanding : w.items[item.id]? = some old := by rw [hsame.id, hid, hitem]
      show Continues w.items[item.id]? action _
      rw [hstanding]
      exact ⟨⟨hsame.id, hsame.dedupKey, hsame.kind, hsame.owner, hsame.block, hsame.createdAt⟩, hfollows⟩
  unfold afterTheFact
  rw [Act.read_bind]
  exact (Act.Keeps.after (appendBy_holding store [] _ action _) (fun _ => Act.Keeps.pure _) w hready).toSound

theorem actedOn_ok {actor : Actor} {w' : Writer} (h : actedOn id actor w = (.ok item, w')) :
    w' = w ∧ w.items[id]? = some item ∧ Text.isBlank actor.actor = false := by
  unfold actedOn at h
  split_ifs at h with hblank
  · cases h
  · rw [Act.read_bind] at h
    cases hfound : w.items[id]? with
    | none => rw [hfound] at h; cases h
    | some found =>
      rw [hfound] at h
      cases h
      exact ⟨rfl, rfl, by simpa using hblank⟩

theorem actedOn_error {actor : Actor} {w' : Writer} {why : String} (h : actedOn id actor w = (.error why, w')) : w' = w := by
  unfold actedOn at h
  split_ifs at h with hblank
  · cases h
    rfl
  · rw [Act.read_bind] at h
    cases hfound : w.items[id]? <;> rw [hfound] at h <;> cases h
    rfl

/-- only a resolved item may be reopened -/
theorem reopenRefusal_none {undoable : Bool} (h : reopenRefusal item undoable = none) :
    item.state = .completed ∨ item.state = .dismissed := by
  unfold reopenRefusal at h
  cases hs : item.state with
  | «open» => rw [hs] at h; exact absurd h (by simp)
  | answered => rw [hs] at h; exact absurd h (by simp)
  | completed => exact .inl rfl
  | dismissed => exact .inr rfl

theorem reopen_sound (store : Store) (id : String) (actor : Actor) : Act.Keeps (Sound store) (reopen store id actor) := by
  intro w hw
  unfold reopen
  cases hacted : actedOn id actor w with
  | mk answer w' =>
    cases answer with
    | error why =>
      rw [Act.bind_error hacted, actedOn_error hacted]
      exact hw
    | ok item =>
      obtain ⟨rfl, hitem, hactor⟩ := actedOn_ok hacted
      rw [Act.bind_ok hacted]
      cases hrefusal : reopenRefusal item (store.undoable item) with
      | some reason => exact hw
      | none =>
        have hstate := reopenRefusal_none hrefusal
        have hvalid := (hw.read_item hitem).1
        have hreopened : Sound store
            (afterTheFact store { item with state := .open, resolution := none } .reopened actor w').2 :=
          afterTheFact_sound hw hitem ⟨rfl, rfl, rfl, rfl, rfl, rfl⟩ hactor rfl
            ⟨hvalid.schemaVersion, hvalid.priority, hvalid.title, hvalid.body, by simp [resolvedAs], hvalid.approval⟩
            (by simp [eventRule]) ⟨hstate, rfl, rfl⟩
        simp only []
        split_ifs with hundo
        · cases store.undo item actor with
          | error why => exact hw
          | ok u => exact hreopened
        · exact hreopened

/-- the resolution a note leaves is one its item may have -/
theorem notedResolution_some {text : String} {resolution noted : HumanItemResolution} (hvalid : Valid item)
    (hres : item.resolution = some resolution) (hnoted : notedResolution item.state text resolution = some noted)
    (htext : Text.isBlank text = false) :
    (item.state = .completed ∧ noted = { resolution with text := some text } ∨
      item.state = .dismissed ∧ noted = { resolution with reason := some text }) ∧
      resolvedAs item.kind item.state (some noted) = true := by
  have hresolved := hvalid.resolved
  rw [hres] at hresolved
  unfold notedResolution at hnoted
  cases hs : item.state with
  | «open» => rw [hs] at hnoted; cases hnoted
  | answered => rw [hs] at hnoted; cases hnoted
  | completed =>
    rw [hs] at hnoted hresolved
    cases hnoted
    refine ⟨.inl ⟨rfl, rfl⟩, ?_⟩
    cases hk : item.kind with
    | question => rw [hk] at hresolved; exact absurd hresolved (by simp [resolvedAs])
    | task =>
      rw [hk] at hresolved
      simp only [resolvedAs, Bool.and_eq_true] at hresolved ⊢
      exact ⟨by simp [htext], hresolved.2⟩
  | dismissed =>
    rw [hs] at hnoted hresolved
    cases hnoted
    refine ⟨.inr ⟨rfl, rfl⟩, ?_⟩
    cases hk : item.kind <;> rw [hk] at hresolved <;> exact hresolved

theorem note_sound (store : Store) (id text : String) (actor : Actor) : Act.Keeps (Sound store) (note store id text actor) := by
  intro w hw
  unfold note
  split_ifs with hblank
  · exact hw
  · cases hacted : actedOn id actor w with
    | mk answer w' =>
      cases answer with
      | error why =>
        rw [Act.bind_error hacted, actedOn_error hacted]
        exact hw
      | ok item =>
        obtain ⟨rfl, hitem, hactor⟩ := actedOn_ok hacted
        rw [Act.bind_ok hacted]
        cases hnoted : item.resolution.bind (notedResolution item.state text) with
        | none => exact hw
        | some noted =>
          obtain ⟨resolution, hres, hnoted⟩ := Option.bind_eq_some_iff.mp hnoted
          have hvalid := (hw.read_item hitem).1
          obtain ⟨hset, hresolved⟩ := notedResolution_some hvalid hres hnoted (by simpa using hblank)
          refine afterTheFact_sound hw hitem ⟨rfl, rfl, rfl, rfl, rfl, rfl⟩ hactor rfl
            ⟨hvalid.schemaVersion, hvalid.priority, hvalid.title, hvalid.body, hresolved, hvalid.approval⟩ ?_ ?_
          · rcases hset with ⟨hs, -⟩ | ⟨hs, -⟩ <;> simp [eventRule, hs]
          · refine ⟨resolution, text, hres, rfl, ?_⟩
            exact hset.imp (fun h => ⟨h.1, congrArg some h.2⟩) fun h => ⟨h.1, congrArg some h.2⟩

/-! ## Actions -/

/-- what a settlement may end its item with, whatever the item -/
structure Ending (state : HumanItemState) (action : HumanItemEventAction) (text reason : Option String) : Prop where
  ends : Ends action state
  answers : state = .answered → ∃ said, text = some said ∧ Text.isBlank said = false
  unsaid : state ≠ .answered → text = none
  unreasoned : state ≠ .dismissed → reason = none

theorem Ending.resolvedAs {state : HumanItemState} {text reason : Option String} (h : Ending state action text reason)
    (hkind : ¬((state = .answered ∧ item.kind ≠ .question) ∨ (state = .completed ∧ item.kind ≠ .task))) (actor : Actor) :
    resolvedAs item.kind state (some { actor := actor.actor, onBehalfOf := actor.onBehalfOf, text, reason }) = true := by
  push Not at hkind
  cases state with
  | «open» => exact absurd rfl h.ends.state_ne
  | answered =>
    obtain ⟨said, rfl, hsaid⟩ := h.answers rfl
    rw [hkind.1 rfl, h.unreasoned (by decide)]
    simp [HumanItems.resolvedAs, hsaid]
  | completed =>
    rw [hkind.2 rfl, h.unreasoned (by decide), h.unsaid (by decide)]
    rfl
  | dismissed =>
    rw [h.unsaid (by decide)]
    cases item.kind <;> rfl

theorem settle_sound (store : Store) (complete : HumanItem → Actor → Except String (Option HumanItemInput)) (id : String)
    (actor : Actor) {state : HumanItemState} {action : HumanItemEventAction} {text reason : Option String}
    (h : Ending state action text reason) : Act.Keeps (Sound store) (settle store complete id actor state action text reason) := by
  intro w hw
  unfold settle
  by_cases hblank : Text.isBlank actor.actor = true
  · rw [if_pos hblank]
    exact hw
  rw [if_neg hblank, Act.read_bind]
  cases hfound : w.items[id]? with
  | none => exact hw
  | some item =>
    have hvalid := (hw.read_item hfound).1
    have hnone : ∀ other ∈ ([] : List HumanItem), item.id ≠ other.id := fun _ hother => (nomatch hother)
    by_cases hkind : (state = .answered ∧ item.kind ≠ .question) ∨ (state = .completed ∧ item.kind ≠ .task)
    · simp only [if_pos hkind]
      split_ifs <;> exact hw
    simp only [if_neg hkind]
    split_ifs with hclosed hstands happroval
    · exact hw
    · exact hw
    · -- an approval's adapter answers: the item stands complete, or its replacement is raised beside it first
      have hopen : item.state = .open := not_not.mp hclosed
      have hheld := hw.hold hfound hopen
      cases complete item actor with
      | error why => exact hw
      | ok completed =>
        rw [Act.lift_ok_bind]
        cases completed with
        | none => exact (resolve_holding hheld hvalid hnone h.ends (h.resolvedAs hkind actor)).toSound
        | some replacement =>
          have hraised := raise_holding store [item] replacement w hheld
          simp only []
          cases hrun : raise store replacement w with
          | mk answer w' =>
            rw [hrun] at hraised
            cases answer with
            | error why =>
              rw [Act.bind_error hrun]
              exact hraised.toSound
            | ok receipt =>
              rw [Act.bind_ok hrun]
              refine Act.Keeps.after (P := fun v => v = w') ?_ (fun _ => Act.Keeps.fail reread) w' rfl
              rintro v rfl
              have hends : Ends .dismissed .dismissed := rfl
              exact (resolve_holding hraised hvalid hnone hends (by cases item.kind <;> rfl)).toSound
    · have hopen : item.state = .open := not_not.mp hclosed
      exact (resolve_holding (hw.hold hfound hopen) hvalid hnone h.ends (h.resolvedAs hkind actor)).toSound

theorem applyAction_sound (store : Store) (complete : HumanItem → Actor → Except String (Option HumanItemInput))
    (action : HumanItemAction) : Act.Keeps (Sound store) (applyAction store complete action) := by
  cases action with
  | raise input => exact fun w hw => (raise_holding store [] input w hw.holding).toSound
  | reopen id actor => exact reopen_sound store id actor
  | note id text actor => exact note_sound store id text actor
  | answer id text actor =>
    simp only [applyAction]
    split_ifs with hblank
    · exact Act.Keeps.fail _
    · exact settle_sound store complete id actor
        ⟨rfl, fun _ => ⟨text, rfl, by simpa using hblank⟩, fun h => absurd rfl h, fun _ => rfl⟩
  | complete id actor =>
    exact settle_sound store complete id actor ⟨rfl, fun h => (nomatch h), fun _ => rfl, fun _ => rfl⟩
  | dismiss id reason actor =>
    exact settle_sound store complete id actor ⟨rfl, fun h => (nomatch h), fun _ => rfl, fun h => absurd rfl h⟩

/-! ## The other entry points -/

theorem autoResolveOpen_sound (store : Store) (id reason : String) : Act.Keeps (Sound store) (autoResolveOpen store id reason) := by
  intro w hw
  unfold autoResolveOpen
  rw [Act.read_bind]
  cases hfound : w.items[id]? with
  | none => exact hw
  | some item =>
    simp only []
    split_ifs with hopen
    · refine Act.Keeps.after (P := fun v => v = w) ?_ (fun _ => Act.Keeps.pure ()) w rfl
      rintro v rfl
      exact autoResolve_sound hw hfound hopen reason
    · exact hw

theorem bindTracker_sound (store : Store) (id : String) (tracker : HumanItemTracker) :
    Act.Keeps (Sound store) (bindTracker store id tracker) := by
  intro w hw
  unfold bindTracker
  rw [Act.read_bind]
  cases hfound : w.items[id]? with
  | none => exact hw
  | some item =>
    obtain ⟨hvalid, hid, hminted⟩ := hw.read_item hfound
    simp only []
    split_ifs with hopen
    · have hready : Ready store [] { item with tracker := some tracker, updatedAt := w.clock w.nextSeq } .raised none w := by
        refine ready_raised hw.holding ?_ hopen hminted fun old hold => ?_
        · exact ⟨hvalid.schemaVersion, hvalid.priority, hvalid.title, hvalid.body, hvalid.resolved, hvalid.approval⟩
        · have hold' : w.items[item.id]? = some old := hold
          rw [hid, hfound] at hold'
          cases hold'
          exact ⟨hopen, rfl, rfl, rfl, rfl, rfl, rfl⟩
      rw [Act.read_bind]
      exact (Act.Keeps.after (raises_append store [] _) (fun _ => Act.Keeps.pure ()) w hready).toSound
    · exact hw

/-- every item of a list held open is resolved, one after another -/
theorem autoResolve_each (store : Store) (reason : String) (items : List HumanItem) (hvalid : ∀ item ∈ items, Valid item)
    (hdistinct : items.Pairwise fun a b => a.id ≠ b.id) :
    Act.Triple (Holding store items)
      (Act.each (fun item => do let _ ← autoResolve store item reason) items) fun _ => Sound store := by
  induction items with
  | nil => exact fun w hw => hw.toSound
  | cons item items ih =>
    obtain ⟨hother, hrest⟩ := List.pairwise_cons.mp hdistinct
    have hone : Act.Triple (Holding store (item :: items)) (do let _ ← autoResolve store item reason : Writing Unit)
        fun _ => Holding store items :=
      Act.Keeps.after (fun w hw => autoResolve_holding hw (hvalid item List.mem_cons_self) hother reason)
        fun _ => Act.Keeps.pure ()
    exact Act.Triple.bind hone (fun _ => ih (fun i hi => hvalid i (List.mem_cons_of_mem item hi)) hrest)
      fun _ _ h => h.toSound

/-- the items a writer holds, each under its own id -/
theorem Sound.values_distinct (h : Sound store w) : w.items.values.Pairwise fun a b => a.id ≠ b.id := by
  rw [Maps.values_eq, List.pairwise_map]
  have hown : ∀ p ∈ w.items.toList, p.2.id = p.1 := fun p hp =>
    (h.read_item (Std.ExtTreeMap.mem_toList_iff_getElem?_eq_some.mp hp)).2.1
  refine Std.ExtTreeMap.distinct_keys_toList.imp_of_mem fun {p q} hp hq hne heq => hne ?_
  rw [← hown p hp, ← hown q hq, heq]
  exact Std.ReflCmp.compare_self

theorem runEnded_sound (store : Store) (run : String) : Act.Keeps (Sound store) (Entry.action store (.runEnded run)) := by
  intro w hw
  simp only [Entry.action, Act.read_bind]
  have hread : ∀ item ∈ w.items.values.filter (holdsRun run), w.items[item.id]? = some item ∧ item.state = .open := by
    intro item hitem
    obtain ⟨hvalue, hholds⟩ := List.mem_filter.mp hitem
    obtain ⟨id, hid⟩ := Maps.mem_values.mp hvalue
    unfold holdsRun at hholds
    rw [(hw.read_item hid).2.1]
    exact ⟨hid, by simpa using (Bool.and_eq_true_iff.mp hholds).1⟩
  have hheld : Holding store (w.items.values.filter (holdsRun run)) w :=
    ⟨hw, fun item hitem => ⟨item, (hread item hitem).1, (hread item hitem).2, Same.rfl' item⟩⟩
  exact autoResolve_each store runEndedReason _ (fun item hitem => (hw.read_item (hread item hitem).1).1)
    (hw.values_distinct.filter _) w hheld

theorem action_sound (store : Store) (entry : Entry) : Act.Keeps (Sound store) (entry.action store) := by
  have hkeep {α : Type} {x : Writing α} (h : Act.Keeps (Holding store []) x) : Act.Keeps (Sound store) x :=
    fun w hw => (h w hw.holding).toSound
  cases entry with
  | apply action complete => exact (applyAction_sound store complete action).bind fun _ => Act.Keeps.pure ()
  | raisePhase raised retired =>
    refine (Act.Keeps.each fun input _ => ?_).bind fun _ => Act.Keeps.each fun r _ => ?_
    · exact (hkeep (raise_holding store [] input)).bind fun _ => Act.Keeps.pure ()
    · exact autoResolveOpen_sound store _ r.2
  | runEnded run => exact runEnded_sound store run
  | raiseCondition outage session title body =>
    exact (hkeep (condition_holding store [] outage session title body)).bind fun _ => Act.Keeps.pure ()
  | raiseEngine input => exact (hkeep (raise_holding store [] input)).bind fun _ => Act.Keeps.pure ()
  | autoResolveItem id reason => exact autoResolveOpen_sound store id reason
  | tracked id tracker => exact bindTracker_sound store id tracker
  | probe => exact Act.Keeps.pure ()

/-- what each clearing of an outage keeps, an opening keeps -/
theorem probe_keeps {I : Writer → Prop} (hclear : ∀ condition reason, Act.Keeps I (clear store condition reason)) (opening : Opening) :
    Act.Keeps I (probe store opening) := by
  have hnothing : Act.Keeps I (pure () : Writing Unit) := Act.Keeps.pure ()
  unfold probe
  refine (Act.Keeps.read Writer.reserve).bind fun held => ?_
  cases hidentities : opening.identitiesClear with
  | none =>
    cases hdispatch : opening.dispatchClears with
    | none =>
      split_ifs
      · exact (hclear .journalNoSpace _).bind fun _ => hnothing
      · exact hnothing
    | some reason =>
      split_ifs
      · exact (hclear .journalNoSpace _).bind fun _ => (hclear .dispatchNoSpace reason).bind fun _ => hnothing
      · exact (hclear .dispatchNoSpace reason).bind fun _ => hnothing
  | some why =>
    have hrefused := hclear .identitiesRefused why
    cases hdispatch : opening.dispatchClears with
    | none =>
      split_ifs
      · exact (hclear .journalNoSpace _).bind fun _ => hrefused
      · exact hrefused
    | some reason =>
      split_ifs
      · exact (hclear .journalNoSpace _).bind fun _ => (hclear .dispatchNoSpace reason).bind fun _ => hrefused
      · exact (hclear .dispatchNoSpace reason).bind fun _ => hrefused

/-! ## Runs of actions -/

/-- a writer's next sequence is above every one it read -/
theorem writerOf_nextSeq {reserve : Bool} {opening : Opening} {fold : Fold} (hread : ReadAs journal fold) :
    fold.nextSeq ≤ (writerOf journal reserve opening fold).nextSeq := by
  rcases Nat.eq_zero_or_pos fold.nextSeq with hzero | hpos
  · rw [hzero]
    exact Nat.zero_le _
  · obtain ⟨id, hid⟩ := hread.last hpos
    have hmem : fold.nextSeq - 1 ∈ fold.events.values := Maps.mem_values.mpr ⟨id, hid⟩
    show fold.nextSeq ≤ (fold.events.values.max?).elim 0 (· + 1)
    cases hmax : fold.events.values.max? with
    | none => rw [List.max?_eq_none_iff.mp hmax] at hmem; cases hmem
    | some top =>
      have hle := (List.max?_eq_some_iff.mp hmax).2 _ hmem
      show fold.nextSeq ≤ top + 1
      omega

theorem writerOf_sound {reserve : Bool} {opening : Opening} {fold : Fold} (hkept : Kept store journal)
    (hfold : foldRecords journal = .ok fold) : Sound store (writerOf journal reserve opening fold) :=
  ⟨hkept, fold, hfold, rfl, writerOf_nextSeq (readAs hfold)⟩

theorem writing_kept {α : Type} {action : Writing α} (haction : Act.Keeps (Sound store) action) (opening : Opening)
    {files : HostFiles} (h : Kept store files.journal) : Kept store (writing store opening action files).2.journal := by
  unfold writing
  cases hfold : foldRecords files.journal with
  | error why => exact h
  | ok fold => exact (((probe_keeps (clear_sound store) opening).bind fun _ => haction) _ (writerOf_sound h hfold)).kept

theorem take_kept {files : HostFiles} (h : Kept store files.journal) (taken : Opening × Entry) :
    Kept store (take store files taken).journal := by
  unfold take
  split_ifs with hopens
  · exact writing_kept (action_sound store taken.2) taken.1 h
  · exact h

/-- **A journal that stays lawful.** After every sequence of raises, answers, completions, dismissals, reopens, notes,
retirements, automatic resolutions and bindings, however each write ends, a reader folds the journal whole; there is one item
a dedup key, what an item is never changes, and each record of it makes of it only what its action may. -/
theorem journal_lawful (store : Store) (taken : List (Opening × Entry)) : Lawful (taken.foldl (take store) {}).journal := by
  have hrun : ∀ files : HostFiles, Kept store files.journal → Kept store (taken.foldl (take store) files).journal := by
    induction taken with
    | nil => exact fun files h => h
    | cons t taken ih => exact fun files h => ih _ (take_kept h t)
  exact (hrun {} (Kept.nil store)).toLawful

end OnePipeline.HumanItems
