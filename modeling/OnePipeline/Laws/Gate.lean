/-
A waiting human step has a person asked about it, but where its id names a step whose item was resolved before.

An item is found by its run and node alone, a raise answers a resolved one as success, and a driver's memory of what it
raised and released is kept by node id: a step added under the id of one that was answered or dismissed is released by the
old resolution, and one whose item a run's end dismissed waits with nothing open.

Results:
- `Grown`: what every writer of the host makes of the items of a run's steps;
- `pass_asks`: a look whose raises and read succeed leaves every waiting step asked about, of a driver in order;
- `waiting_step_asked`: in every run whose steps enter under ids with no resolved item, whose releases end their steps and
  which ends with no step left waiting, after every such look;
- `dropped_step_returns`: a step dismissed, dropped and added again is due a drop nobody asked for.
-/
import Mathlib.Tactic
import OnePipeline.Core.Runs
import OnePipeline.Laws.Acknowledged
import OnePipeline.Model.Edits
import OnePipeline.Model.Gate

namespace OnePipeline.HumanItems

open Runs

/-! ## The item of a step -/

theorem nodeKey_toList (run node : String) : (nodeKey run node).toList = "run:".toList ++ (run.toList ++ '#' :: node.toList) := by
  show ("run:" ++ run ++ "#" ++ node).toList = _
  simp [String.toList_append]

theorem nodeKey_injective (run : String) : Function.Injective (nodeKey run) := by
  intro a b h
  have hlist := congrArg String.toList h
  rw [nodeKey_toList, nodeKey_toList] at hlist
  exact String.toList_injective (List.cons_injective (List.append_cancel_left (List.append_cancel_left hlist)))

/-- text that starts with more starts with less -/
theorem startsWith_prefix {condition : HostCondition} {l : List Char}
    (h : Text.startsWith s!"{hostConditionPrefix}{condition.asStr}:".toList l = true) :
    Text.startsWith hostConditionPrefix.toList l = true := by
  have hsplit : s!"{hostConditionPrefix}{condition.asStr}:".toList =
      hostConditionPrefix.toList ++ (condition.asStr.toList ++ [':']) := by
    show (hostConditionPrefix ++ condition.asStr ++ ":").toList = _
    simp [String.toList_append]
  rw [hsplit] at h
  exact Text.startsWith_of_append h

/-- a run of an id a launch mints: a path segment, and no `#` in it -/
structure Minted (run : String) : Prop where
  valid : isValidRunId run = true
  unhashed : '#' ∉ run.toList

/-- an item under a step's own key, holding that step's work for its run -/
structure StandsFor (run node : String) (item : HumanItem) : Prop where
  dedupKey : item.dedupKey = nodeKey run node
  block : item.block = .work run node
  owner : item.owner.run = some run

variable {store : Store} {launch : Launch} {run node : String} {item : HumanItem}

theorem StandsFor.nodeOf (h : StandsFor run node item) (hrun : Minted run) : nodeOf item = some (run, node) := by
  unfold HumanItems.nodeOf
  rw [h.dedupKey, nodeKey_toList, Text.stripPrefix_append]
  simp only [Option.bind_eq_bind, Option.bind_some, Text.splitOnce_append hrun.unhashed, String.ofList_toList]
  rw [if_pos ⟨h.block, hrun.valid, h.owner⟩]

/-- an item of one step's stands for no other -/
theorem StandsFor.same {other : HumanItem} (h : StandsFor run node item) (hsame : Same item other) : StandsFor run node other :=
  ⟨hsame.dedupKey.trans h.dedupKey, hsame.block.trans h.block, by rw [hsame.owner, h.owner]⟩

/-- the key of a step is no host condition's -/
theorem nodeKey_ne_host (run node : String) (condition : HostCondition) (seq : ℕ) :
    nodeKey run node ≠ s!"{hostConditionPrefix}{condition.asStr}:{seq}" := by
  intro h
  have hlist : (nodeKey run node).toList = ("host:" ++ condition.asStr ++ ":" ++ toString seq).toList := congrArg String.toList h
  rw [nodeKey_toList] at hlist
  simp [String.toList_append] at hlist

theorem startsWith_host_ne (h : Text.startsWith hostConditionPrefix.toList item.dedupKey.toList = true) :
    ¬StandsFor run node item := by
  intro hs
  rw [hs.dedupKey, nodeKey_toList] at h
  simp [hostConditionPrefix, Text.startsWith, Text.stripPrefix] at h

/-! ## What the host makes of a step's item -/

variable (store launch) in
/-- a record of no step's item -/
def Off (line : Envelope) : Prop := ∀ node, line.payload.itemId ≠ stepItem store launch node

variable (store launch) in
/-- a record that, where it is of a step's item, is of an item standing for that step -/
def Bound (line : Envelope) : Prop :=
  ∀ node, line.payload.itemId = stepItem store launch node → StandsFor launch.run node line.payload.item

variable (store launch) in
/-- a record that, where it is of a step's item, resolves it by a person, or by the engine for a step it is spared -/
def Tame (spare : String → Prop) (line : Envelope) : Prop :=
  ∀ node, line.payload.itemId = stepItem store launch node → StandsFor launch.run node line.payload.item ∧
    match line.payload.action with
    | .raised | .noted => True
    | .answered | .completed | .dismissed => ∀ r, line.payload.item.resolution = some r → r.actor ≠ engineActor
    | .autoResolved => spare node
    | .reopened => False

variable {spare : String → Prop} {line : Envelope} {journal journal' : List Envelope}

theorem Off.tame (h : Off store launch line) : Tame store launch spare line := fun node hnode => absurd hnode (h node)

theorem Off.bound (h : Off store launch line) : Bound store launch line := fun node hnode => absurd hnode (h node)

theorem Tame.bound (h : Tame store launch spare line) : Bound store launch line := fun node hnode => (h node hnode).1

variable (store launch) in
/-- a journal grown by tame records, lawful and with every step's item standing for its step -/
structure Grown (spare : String → Prop) (journal journal' : List Envelope) : Prop where
  kept : Kept store journal'
  bound : ∀ line ∈ journal', Bound store launch line
  added : ∃ lines, journal' = journal ++ lines ∧ ∀ line ∈ lines, Tame store launch spare line

theorem Grown.trans {journal'' : List Envelope} (h : Grown store launch spare journal journal')
    (h' : Grown store launch spare journal' journal'') : Grown store launch spare journal journal'' := by
  obtain ⟨lines, hlines, hall⟩ := h.added
  obtain ⟨lines', hlines', hall'⟩ := h'.added
  refine ⟨h'.kept, h'.bound, lines ++ lines', ?_, ?_⟩
  · rw [hlines', hlines, List.append_assoc]
  · exact fun l hl => (List.mem_append.mp hl).elim (hall l) (hall' l)

theorem Grown.extends (h : Grown store launch spare journal journal') : journal <+: journal' := by
  obtain ⟨lines, hlines, -⟩ := h.added
  exact ⟨lines, hlines.symm⟩

theorem Grown.mono {spare' : String → Prop} (h : Grown store launch spare journal journal') (hspare : ∀ n, spare n → spare' n) :
    Grown store launch spare' journal journal' := by
  obtain ⟨lines, hlines, hall⟩ := h.added
  refine ⟨h.kept, h.bound, lines, hlines, fun l hl node hnode => ⟨(hall l hl node hnode).1, ?_⟩⟩
  have htame := (hall l hl node hnode).2
  cases haction : l.payload.action <;> rw [haction] at htame
  case autoResolved => exact hspare node htame
  all_goals exact htame

/-- what each record of a step's item keeps of the item, a journal grown keeps -/
theorem Grown.keeps (h : Grown store launch spare journal journal') {P : Option HumanItem → Prop}
    (hstep : ∀ before line, Tame store launch spare line → line.payload.itemId = stepItem store launch node →
      Continues before line.payload.action line.payload.item → P before → P (some line.payload.item))
    (hP : P (standing journal (stepItem store launch node))) : P (standing journal' (stepItem store launch node)) := by
  obtain ⟨lines, hlines, hall⟩ := h.added
  have hrun : ∀ part rest, lines = part ++ rest → P (standing (journal ++ part) (stepItem store launch node)) := by
    intro part
    induction part using List.reverseRecOn with
    | nil =>
      intro rest hrest
      rw [List.append_nil]
      exact hP
    | append_singleton part line ih =>
      intro rest hrest
      have hbefore := ih (line :: rest) (by rw [hrest]; simp)
      rw [← List.append_assoc, standing_append]
      split_ifs with hid
      · have hmem : line ∈ lines := by rw [hrest]; simp
        have hcontinues := h.kept.history (journal ++ part) line rest (by rw [hlines, hrest]; simp)
        rw [hid] at hcontinues
        exact hstep _ line (hall line hmem) hid hcontinues hbefore
      · exact hbefore
  have hwhole := hrun lines [] (List.append_nil _).symm
  rw [← hlines] at hwhole
  exact hwhole

theorem Grown.isSome (h : Grown store launch spare journal journal')
    (hitem : (standing journal (stepItem store launch node)).isSome = true) :
    (standing journal' (stepItem store launch node)).isSome = true :=
  h.keeps (P := fun item => item.isSome = true) (fun _ _ _ _ _ _ => rfl) hitem

/-- a step's resolved item stays as it is -/
theorem Grown.resolved (h : Grown store launch spare journal journal') {state : HumanItemState} (hstate : state ≠ .open)
    (hitem : ∃ item, standing journal (stepItem store launch node) = some item ∧ item.state = state) :
    ∃ item, standing journal' (stepItem store launch node) = some item ∧ item.state = state := by
  refine h.keeps (P := fun found => ∃ item, found = some item ∧ item.state = state) ?_ hitem
  rintro _ line htame hid hcontinues ⟨old, rfl, hold⟩
  have hopen : old.state ≠ .open := by rwa [hold]
  have hfollows : Follows old line.payload.action line.payload.item := hcontinues.2
  have hallowed := (htame node hid).2
  refine ⟨line.payload.item, rfl, ?_⟩
  cases haction : line.payload.action <;> rw [haction] at hfollows hallowed
  case noted =>
    obtain ⟨_, _, -, hkeep, -⟩ := hfollows
    exact hkeep.trans hold
  case reopened => exact hallowed.elim
  all_goals exact absurd hfollows.1 hopen

/-- an item no one resolved, or a person did -/
def ByPerson (item : HumanItem) : Prop := item.state = .open ∨ ∃ r, item.resolution = some r ∧ r.actor ≠ engineActor

/-- a step that is not spared is resolved by people -/
theorem Grown.byPerson (h : Grown store launch spare journal journal') (hspare : ¬spare node)
    (hitem : ∀ item, standing journal (stepItem store launch node) = some item → ByPerson item) :
    ∀ item, standing journal' (stepItem store launch node) = some item → ByPerson item := by
  refine h.keeps (P := fun found => ∀ item, found = some item → ByPerson item) ?_ hitem
  rintro before line htame hid hcontinues hbefore _ ⟨⟩
  have hallowed := (htame node hid).2
  cases before with
  | none => exact .inl hcontinues.2.1
  | some old =>
    have hfollows : Follows old line.payload.action line.payload.item := hcontinues.2
    have hold := hbefore old rfl
    cases haction : line.payload.action <;> rw [haction] at hfollows hallowed
    case raised => exact .inl hfollows.2.1
    case reopened => exact hallowed.elim
    case autoResolved => exact absurd hallowed hspare
    case noted =>
      obtain ⟨resolution, text, hres, -, hset⟩ := hfollows
      rcases hold with hopen | ⟨r, hr, hactor⟩
      · rcases hset with ⟨hs, -⟩ | ⟨hs, -⟩ <;> rw [hopen] at hs <;> cases hs
      · cases hres.symm.trans hr
        rcases hset with ⟨-, hnew⟩ | ⟨-, hnew⟩
        · exact .inr ⟨_, hnew, hactor⟩
        · exact .inr ⟨_, hnew, hactor⟩
    all_goals
      obtain ⟨r, hr⟩ := Option.isSome_iff_exists.mp hfollows.2.2
      exact .inr ⟨r, hr, hallowed r hr⟩

/-! ## What each writer records -/

variable {w : Writer} {base : List Envelope} {kind : Envelope → Prop}

/-- a step's item as a writer holds it stands for the step -/
theorem Adds.standsFor (h : Adds kind base w) (hbase : ∀ line ∈ base, Bound store launch line)
    (hkind : ∀ line, kind line → Bound store launch line) {id : String} (hitem : w.items[id]? = some item)
    (hid : item.id = stepItem store launch node) : StandsFor launch.run node item := by
  have hbound : ∀ line ∈ w.journal, Bound store launch line := by
    obtain ⟨lines, hlines, hall⟩ := h.added
    rw [hlines]
    exact fun l hl => (List.mem_append.mp hl).elim (hbase l) fun hl => hkind l (hall l hl)
  have hown := h.toReads.id hitem
  rw [h.items] at hitem
  obtain ⟨line, hline, hlid, rfl⟩ := mem_of_standing hitem
  exact hbound line hline node (hlid.trans (hown.symm.trans hid))

theorem HostReport.off (hkeys : Function.Injective store.itemIdFor) (h : HostReport store line) : Off store launch line := by
  intro node hnode
  obtain ⟨-, condition, seq, hid⟩ := h
  exact nodeKey_ne_host launch.run node condition seq (hkeys (hnode.symm.trans hid))

/-- an opening's records are of no step's item -/
theorem clear_off (hkeys : Function.Injective store.itemIdFor) (hbase : ∀ line ∈ base, Bound store launch line)
    (condition : HostCondition) (reason : String) :
    Act.Keeps (Adds (Off store launch) base) (clear store condition reason) := by
  intro w hw
  unfold clear
  rw [Act.read_bind]
  cases hfound : openCondition condition w with
  | none => exact hw
  | some found =>
    obtain ⟨⟨id, hid⟩, -⟩ := openCondition_some hfound
    have hstarts : Text.startsWith hostConditionPrefix.toList found.dedupKey.toList = true := by
      unfold openCondition at hfound
      have hsome := List.find?_some hfound
      simp only [Bool.and_eq_true, decide_eq_true_eq] at hsome
      exact startsWith_prefix hsome.2
    have hoff : ∀ seq reason now, Off store launch
        (lineOf seq (resolvedItem found .dismissed engine none (some reason) now) .autoResolved none) := by
      intro seq reason now node hnode
      exact startsWith_host_ne hstarts (hw.standsFor hbase (fun _ => Off.bound) hid hnode)
    have hresolve : Act.Keeps (Adds (Off store launch) base) (autoResolve store found reason) :=
      resolve_adds (fun _ => HostReport.off hkeys) fun now seq => hoff seq reason now
    exact (hresolve.bind fun _ => Act.Keeps.pure ()) w hw

/-- what a raise records of an item it found is that item's still -/
theorem raiseVerdict_item {input : HumanItemInput} (h : raiseVerdict store input w = .records item .raised none) :
    item = raisedItem (store.itemIdFor input.dedupKey) (w.clock w.nextSeq) input ∨
      ∃ existing, w.items[store.itemIdFor input.dedupKey]? = some existing ∧ Same existing item := by
  unfold raiseVerdict at h
  cases hinput : validateInput input with
  | error why => rw [hinput] at h; cases h
  | ok u =>
    rw [hinput] at h
    simp only [] at h
    cases hfound : w.items[store.itemIdFor input.dedupKey]? with
    | none =>
      rw [hfound] at h
      cases h
      exact .inl rfl
    | some existing =>
      rw [hfound] at h
      simp only [] at h
      split_ifs at h
      cases h
      exact .inr ⟨existing, rfl, rfl, rfl, rfl, rfl, rfl, rfl⟩

section Writers

variable (hkeys : Function.Injective store.itemIdFor) (hbase : ∀ line ∈ base, Bound store launch line)

include hkeys

/-- a raise under none of a run's step keys -/
theorem raise_other {input : HumanItemInput} (hinput : ∀ node, input.dedupKey ≠ nodeKey launch.run node) :
    Act.Keeps (Adds (Tame store launch spare) base) (raise store input) := by
  refine raise_adds (fun _ h => (h.off hkeys).tame) fun w item hw hverdict seq => Off.tame fun node hnode => ?_
  exact hinput node (hkeys ((raiseVerdict_id hw.toReads hverdict).symm.trans hnode))

theorem appendBy_tame {event : HumanItemEventAction} {by_ : Option HumanItemEventBy}
    (htame : ∀ seq, Tame store launch spare (lineOf seq item event by_)) :
    Act.Keeps (Adds (Tame store launch spare) base) (appendBy store item event by_) :=
  appendBy_adds (fun _ h => (h.off hkeys).tame) base htame

include hbase

/-- a run's own raise of a step -/
theorem raise_step (view : View) (node : String) :
    Act.Keeps (Adds (Tame store launch spare) base) (raise store (stepInput launch view node)) := by
  refine raise_adds (fun _ h => (h.off hkeys).tame) fun w item hw hverdict seq other hother => ⟨?_, trivial⟩
  have hid : item.id = store.itemIdFor (nodeKey launch.run node) := raiseVerdict_id hw.toReads hverdict
  have hnode : other = node := nodeKey_injective launch.run (hkeys (hother.symm.trans hid))
  subst hnode
  rcases raiseVerdict_item hverdict with rfl | ⟨existing, hexisting, hsame⟩
  · exact ⟨rfl, rfl, rfl⟩
  · exact (hw.standsFor hbase (fun _ => Tame.bound) hexisting (hsame.id.symm.trans hid)).same hsame

omit hkeys in
/-- an item read, resolved by a person or, for a step it is spared, by the engine -/
theorem resolve_tame {id : String} {state : HumanItemState} {event : HumanItemEventAction} {actor : Actor}
    {text reason : Option String} (hw : Adds (Tame store launch spare) base w) (hitem : w.items[id]? = some item)
    (hevent : event = .answered ∨ event = .completed ∨ event = .dismissed ∨ event = .autoResolved)
    (hactor : event ≠ .autoResolved → actor.actor ≠ engineActor)
    (hspare : event = .autoResolved → ∀ node, item.id = stepItem store launch node → spare node) :
    ∀ now seq, Tame store launch spare (lineOf seq (resolvedItem item state actor text reason now) event none) := by
  intro now seq node hnode
  have hstands := hw.standsFor hbase (fun _ => Tame.bound) hitem hnode
  have hperson (h : event ≠ .autoResolved) : ∀ r, some ({ actor := actor.actor, onBehalfOf := actor.onBehalfOf, text, reason } :
      HumanItemResolution) = some r → r.actor ≠ engineActor := by
    rintro _ ⟨⟩
    exact hactor h
  refine ⟨⟨hstands.dedupKey, hstands.block, hstands.owner⟩, ?_⟩
  rcases hevent with rfl | rfl | rfl | rfl
  · exact hperson (by decide)
  · exact hperson (by decide)
  · exact hperson (by decide)
  · exact hspare rfl node hnode

/-- a settlement by a person, of any item -/
theorem settle_tame {id : String} {actor : Actor} {state : HumanItemState} {event : HumanItemEventAction}
    {text reason : Option String} {complete : HumanItem → Actor → Except String (Option HumanItemInput)}
    (hevent : event = .answered ∨ event = .completed ∨ event = .dismissed) (hactor : actor.actor ≠ engineActor)
    (hcomplete : ∀ item actor input, complete item actor = .ok (some input) → ∀ node, input.dedupKey ≠ nodeKey launch.run node) :
    Act.Keeps (Adds (Tame store launch spare) base) (settle store complete id actor state event text reason) := by
  have hkinds : ∀ event, (event = HumanItemEventAction.answered ∨ event = .completed ∨ event = .dismissed) →
      event = .answered ∨ event = .completed ∨ event = .dismissed ∨ event = .autoResolved := by
    rintro event (h | h | h)
    · exact .inl h
    · exact .inr (.inl h)
    · exact .inr (.inr (.inl h))
  have hnotAuto : ∀ event, (event = HumanItemEventAction.answered ∨ event = .completed ∨ event = .dismissed) →
      event ≠ .autoResolved := by
    rintro event (rfl | rfl | rfl) <;> decide
  intro w hw
  have heq := settle_eq store complete id actor state event text reason w
  have hcases := settleVerdict_cases complete id actor state event text reason w
  cases hverdict : settleVerdict complete id actor state event text reason w with
  | refused =>
    rw [hverdict] at heq
    obtain ⟨why, hrun⟩ := heq
    rw [hrun]
    exact hw
  | stands receipt =>
    rw [hverdict] at heq
    rw [show settle store complete id actor state event text reason w = (.ok receipt, w) from heq]
    exact hw
  | records item event' by_ =>
    rw [hverdict] at heq hcases
    obtain ⟨rfl, rfl, old, hold, rfl⟩ := hcases
    rw [show settle store complete id actor state event' text reason w = _ from heq]
    have htame : ∀ now seq, Tame store launch spare (lineOf seq (resolvedItem old state actor text reason now) event' none) :=
      resolve_tame hbase hw hold (hkinds event' hevent) (fun _ => hactor) fun h => absurd h (hnotAuto event' hevent)
    exact ((appendBy_tame hkeys (htame _)).bind fun _ => Act.Keeps.pure _) w hw
  | replaces item actor' replacement =>
    rw [hverdict] at heq hcases
    obtain ⟨-, rfl, hanswer, hitem⟩ := hcases
    rw [show settle store complete id actor' state event text reason w = _ from heq]
    have htame : ∀ now seq, Tame store launch spare
        (lineOf seq (resolvedItem item .dismissed actor' none (some reread) now) .dismissed none) :=
      resolve_tame hbase hw hitem (.inr (.inr (.inl rfl))) (fun _ => hactor) fun h => nomatch h
    have hresolve : Act.Keeps (Adds (Tame store launch spare) base)
        (resolve store item .dismissed .dismissed actor' none (some reread)) :=
      resolve_adds (fun _ h => (h.off hkeys).tame) htame
    exact ((raise_other hkeys (hcomplete item actor' replacement hanswer)).bind fun _ =>
      hresolve.bind fun _ => Act.Keeps.fail reread) w hw

theorem note_tame (id text : String) (actor : Actor) :
    Act.Keeps (Adds (Tame store launch spare) base) (note store id text actor) := by
  intro w hw
  have heq := note_eq store id text actor w
  have hcases := noteVerdict_cases id text actor w
  cases hverdict : noteVerdict id text actor w with
  | refused =>
    rw [hverdict] at heq
    obtain ⟨why, hrun⟩ := heq
    rw [hrun]
    exact hw
  | records item event by_ =>
    rw [hverdict] at heq hcases
    obtain ⟨rfl, old, hold, hsame, -⟩ := hcases
    rw [show note store id text actor w = _ from heq]
    have htame : ∀ seq, Tame store launch spare (lineOf seq item .noted by_) := fun seq node hnode =>
      ⟨(hw.standsFor hbase (fun _ => Tame.bound) hold (hsame.id.symm.trans hnode)).same hsame, trivial⟩
    exact ((appendBy_tame hkeys htame).bind fun _ => Act.Keeps.pure _) w hw
  | stands receipt =>
    rw [hverdict] at hcases
    exact hcases.elim
  | replaces item actor' replacement =>
    rw [hverdict] at hcases
    exact hcases.elim

/-- a step's item is never reopened -/
theorem reopen_tame (hrun : Minted launch.run) (id : String) (actor : Actor) :
    Act.Keeps (Adds (Tame store launch spare) base) (reopen store id actor) := by
  intro w hw
  have heq := reopen_eq store id actor w
  have hcases := reopenVerdict_cases store id actor w
  cases hverdict : reopenVerdict store id actor w with
  | refused =>
    rw [hverdict] at heq
    obtain ⟨why, hrun⟩ := heq
    rw [hrun]
    exact hw
  | records item event by_ =>
    rw [hverdict] at heq hcases
    obtain ⟨rfl, old, hold, hrefusal, hsame, -⟩ := hcases
    rw [show reopen store id actor w = _ from heq]
    have htame : ∀ seq, Tame store launch spare (lineOf seq item .reopened by_) := by
      refine fun seq => Off.tame fun node hnode => ?_
      have hstands := hw.standsFor hbase (fun _ => Tame.bound) hold (hsame.id.symm.trans hnode)
      have hstate := reopenRefusal_none hrefusal
      unfold reopenRefusal at hrefusal
      rw [hstands.nodeOf hrun] at hrefusal
      rcases hstate with hs | hs <;> rw [hs] at hrefusal <;> exact absurd hrefusal (by simp)
    exact ((appendBy_tame hkeys htame).bind fun _ => Act.Keeps.pure _) w hw
  | stands receipt =>
    rw [hverdict] at hcases
    exact hcases.elim
  | replaces item actor' replacement =>
    rw [hverdict] at hcases
    exact hcases.elim

end Writers

/-! ## The rest of the host -/

/-- who takes an action -/
def HumanItemAction.takenBy : HumanItemAction → Option Actor
  | .raise _ => none
  | .answer _ _ actor | .complete _ actor | .dismiss _ _ actor | .reopen _ actor | .note _ _ actor => some actor

variable (store launch) in
/-- what the rest of the host does to a run's steps: nothing under a key, or of an id, of theirs but what people do -/
def Entry.Elsewhere : Entry → Prop
  | .apply _ complete =>
    ∀ item actor input, complete item actor = .ok (some input) → ∀ node, input.dedupKey ≠ nodeKey launch.run node
  | .raisePhase raised retired =>
    (∀ input ∈ raised, ∀ node, input.dedupKey ≠ nodeKey launch.run node) ∧ ∀ r ∈ retired, ∀ node, r.1 ≠ nodeKey launch.run node
  | .runEnded run => run ≠ launch.run
  | .raiseEngine input => ∀ node, input.dedupKey ≠ nodeKey launch.run node
  | .autoResolveItem id _ => ∀ node, id ≠ stepItem store launch node
  | .raiseCondition .. | .tracked .. | .probe => True

/-- no person acts under the engine's name -/
def Entry.ByPeople : Entry → Prop
  | .apply action _ => ∀ actor ∈ action.takenBy, actor.actor ≠ engineActor
  | _ => True

/-- a raise a caller may make is under no step's key -/
theorem refusedCaller_none {input : HumanItemInput} (h : refusedCaller (.raise input) = none) (run node : String) :
    input.dedupKey ≠ nodeKey run node := by
  intro hkey
  unfold refusedCaller at h
  have hstarts : Text.startsWith "run:".toList input.dedupKey.toList = true := by
    rw [hkey, nodeKey_toList]
    unfold Text.startsWith
    rw [Text.stripPrefix_append]
    rfl
  simp only [engineKeys, List.find?_cons, hstarts] at h
  cases h

section

variable (hkeys : Function.Injective store.itemIdFor) (hbase : ∀ line ∈ base, Bound store launch line)

include hkeys hbase

theorem applyAction_tame (hrun : Minted launch.run) {complete : HumanItem → Actor → Except String (Option HumanItemInput)}
    {action : HumanItemAction} (hcaller : refusedCaller action = none) (hactor : ∀ actor ∈ action.takenBy, actor.actor ≠ engineActor)
    (hcomplete : ∀ item actor input, complete item actor = .ok (some input) → ∀ node, input.dedupKey ≠ nodeKey launch.run node) :
    Act.Keeps (Adds (Tame store launch spare) base) (applyAction store complete action) := by
  cases action with
  | raise input => exact raise_other hkeys (refusedCaller_none hcaller launch.run)
  | reopen id actor => exact reopen_tame hkeys hbase hrun id actor
  | note id text actor => exact note_tame hkeys hbase id text actor
  | answer id text actor =>
    simp only [applyAction]
    split_ifs
    · exact Act.Keeps.fail _
    · exact settle_tame hkeys hbase (.inl rfl) (hactor actor rfl) hcomplete
  | complete id actor => exact settle_tame hkeys hbase (.inr (.inl rfl)) (hactor actor rfl) hcomplete
  | dismiss id reason actor => exact settle_tame hkeys hbase (.inr (.inr rfl)) (hactor actor rfl) hcomplete

/-- an item of an id resolved by the engine, where it stands for no step but one it is spared -/
theorem autoResolveOpen_tame {id : String} (hspare : ∀ node, id = stepItem store launch node → spare node) (reason : String) :
    Act.Keeps (Adds (Tame store launch spare) base) (autoResolveOpen store id reason) := by
  intro w hw
  unfold autoResolveOpen
  rw [Act.read_bind]
  cases hfound : w.items[id]? with
  | none => exact hw
  | some item =>
    simp only []
    split_ifs with hopen
    · have htame : ∀ now seq, Tame store launch spare
          (lineOf seq (resolvedItem item .dismissed engine none (some reason) now) .autoResolved none) :=
        resolve_tame hbase hw hfound (.inr (.inr (.inr rfl))) (fun h => absurd rfl h) fun _ node hnode =>
          hspare node ((hw.toReads.id hfound).symm.trans hnode)
      have hresolve : Act.Keeps (Adds (Tame store launch spare) base) (autoResolve store item reason) :=
        resolve_adds (fun _ h => (h.off hkeys).tame) htame
      exact (hresolve.bind fun _ => Act.Keeps.pure ()) w hw
    · exact hw

theorem bindTracker_tame (id : String) (tracker : HumanItemTracker) :
    Act.Keeps (Adds (Tame store launch spare) base) (bindTracker store id tracker) := by
  intro w hw
  unfold bindTracker
  rw [Act.read_bind]
  cases hfound : w.items[id]? with
  | none => exact hw
  | some item =>
    simp only []
    split_ifs with hopen
    · have htame : ∀ now seq, Tame store launch spare
          (lineOf seq { item with tracker := some tracker, updatedAt := now } .raised none) := by
        intro now seq node hnode
        have hstands := hw.standsFor hbase (fun _ => Tame.bound) hfound hnode
        exact ⟨⟨hstands.dedupKey, hstands.block, hstands.owner⟩, trivial⟩
      rw [Act.read_bind]
      exact ((appendBy_tame hkeys (htame _)).bind fun _ => Act.Keeps.pure ()) w hw
    · exact hw

/-- a run's end, where every item it dismisses stands for no step but one it is spared -/
theorem runEnded_tame {run : String}
    (hspare : ∀ w, Adds (Off store launch) base w → ∀ (id : String) item, w.items[id]? = some item → holdsRun run item = true →
      ∀ node, item.id = stepItem store launch node → spare node) :
    Act.Triple (Adds (Off store launch) base) (Entry.action store (.runEnded run)) fun _ => Adds (Tame store launch spare) base := by
  intro w hw
  simp only [Entry.action, Act.read_bind]
  have hw' : Adds (Tame store launch spare) base w := hw.mono fun _ => Off.tame
  refine Act.Keeps.each (fun item hitem => ?_) w hw'
  obtain ⟨hvalue, hholds⟩ := List.mem_filter.mp hitem
  obtain ⟨id, hid⟩ := Maps.mem_values.mp hvalue
  have htame : ∀ now seq, Tame store launch spare
      (lineOf seq (resolvedItem item .dismissed engine none (some runEndedReason) now) .autoResolved none) :=
    resolve_tame hbase hw' hid (.inr (.inr (.inr rfl))) (fun h => absurd rfl h) fun _ node hnode =>
      hspare w hw id item hid hholds node hnode
  have hresolve : Act.Keeps (Adds (Tame store launch spare) base) (autoResolve store item runEndedReason) :=
    resolve_adds (fun _ h => (h.off hkeys).tame) htame
  exact hresolve.bind fun _ => Act.Keeps.pure ()

theorem action_tame (hrun : Minted launch.run) {entry : Entry} (hopens : entry.opens = true) (helse : entry.Elsewhere store launch)
    (hpeople : entry.ByPeople) :
    Act.Triple (Adds (Off store launch) base) (entry.action store) fun _ => Adds (Tame store launch spare) base := by
  have hkeep {x : Writing Unit} (h : Act.Keeps (Adds (Tame store launch spare) base) x) :
      Act.Triple (Adds (Off store launch) base) x fun _ => Adds (Tame store launch spare) base :=
    fun w hw => h w (hw.mono fun _ => Off.tame)
  cases entry with
  | apply action complete =>
    have hcaller : refusedCaller action = none := by simpa [Entry.opens] using hopens
    exact hkeep ((applyAction_tame hkeys hbase hrun hcaller hpeople helse).bind fun _ => Act.Keeps.pure ())
  | raisePhase raised retired =>
    refine hkeep ((Act.Keeps.each fun input hinput => ?_).bind fun _ => Act.Keeps.each fun r hr => ?_)
    · exact (raise_other hkeys (helse.1 input hinput)).bind fun _ => Act.Keeps.pure ()
    · exact autoResolveOpen_tame hkeys hbase (fun node hnode => absurd (hkeys hnode) (helse.2 r hr node)) r.2
  | runEnded run =>
    refine runEnded_tame hkeys hbase fun w hw id item hid hholds node hnode => ?_
    have hstands := hw.standsFor hbase (fun _ => Off.bound) hid hnode
    unfold holdsRun at hholds
    rw [hstands.block] at hholds
    have hsame : launch.run = run := by simpa using (Bool.and_eq_true_iff.mp hholds).2
    exact absurd hsame.symm helse
  | raiseCondition outage session title body =>
    refine hkeep (Act.Keeps.bind (fun w hw => ?_) fun _ => Act.Keeps.pure ())
    unfold condition conditionBy
    rw [Act.read_bind]
    cases openCondition outage w with
    | some found => exact hw
    | none => exact raise_other hkeys (fun node h => nodeKey_ne_host launch.run node outage _ h.symm) w hw
  | raiseEngine input => exact hkeep ((raise_other hkeys helse).bind fun _ => Act.Keeps.pure ())
  | autoResolveItem id reason =>
    exact hkeep (autoResolveOpen_tame hkeys hbase (fun node hnode => absurd hnode (helse node)) reason)
  | tracked id tracker => exact hkeep (bindTracker_tame hkeys hbase id tracker)
  | probe => exact hkeep (Act.Keeps.pure ())

end

/-! ## Journals grown -/

theorem Grown.refl (hkept : Kept store journal) (hbound : ∀ line ∈ journal, Bound store launch line) :
    Grown store launch spare journal journal :=
  ⟨hkept, hbound, [], (List.append_nil _).symm, fun _ hl => (nomatch hl)⟩

/-- a writer opened and its action taken grow the journal by tame records -/
theorem writing_grown {α : Type} {action : Writing α} {files : HostFiles} {opening : Opening}
    (hkeys : Function.Injective store.itemIdFor) (hkept : Kept store files.journal)
    (hbound : ∀ line ∈ files.journal, Bound store launch line) (hsound : Act.Keeps (Sound store) action)
    (haction : Act.Triple (Adds (Off store launch) files.journal) action fun _ => Adds (Tame store launch spare) files.journal) :
    Grown store launch spare files.journal (writing store opening action files).2.journal := by
  have hkept' := writing_kept hsound opening hkept
  unfold writing at hkept' ⊢
  cases hfold : foldRecords files.journal with
  | error why => exact Grown.refl hkept hbound
  | ok fold =>
    rw [hfold] at hkept'
    have hreads : Reads (writerOf files.journal files.reserve opening fold) := writerOf_reads hfold
    have hopened : Act.Triple (Adds (Off store launch) files.journal) (probe store opening >>= fun _ => action)
        fun _ => Adds (Tame store launch spare) files.journal :=
      Act.Triple.bind (probe_keeps (clear_off hkeys hbound) opening) (fun _ => haction) fun _ _ h => h.mono fun _ => Off.tame
    obtain ⟨lines, hlines, hall⟩ := (hopened _ (hreads.adds (Off store launch))).added
    refine ⟨hkept', fun line hline => ?_, lines, hlines, hall⟩
    have hmem : line ∈ files.journal ++ lines := hlines ▸ hline
    rcases List.mem_append.mp hmem with hold | hnew
    · exact hbound line hold
    · exact (hall line hnew).bound

/-- what the rest of the host does grows the journal by tame records -/
theorem take_grown (hkeys : Function.Injective store.itemIdFor) (hrun : Minted launch.run) {files : HostFiles}
    (hkept : Kept store files.journal) (hbound : ∀ line ∈ files.journal, Bound store launch line) {taken : Opening × Entry}
    (helse : taken.2.Elsewhere store launch) (hpeople : taken.2.ByPeople) :
    Grown store launch spare files.journal (take store files taken).journal := by
  unfold take
  split_ifs with hopens
  · exact writing_grown hkeys hkept hbound (action_sound store taken.2) (action_tame hkeys hbound hrun hopens helse hpeople)
  · exact Grown.refl hkept hbound

theorem takes_grown (hkeys : Function.Injective store.itemIdFor) (hrun : Minted launch.run) {taken : List (Opening × Entry)}
    (hall : ∀ t ∈ taken, t.2.Elsewhere store launch ∧ t.2.ByPeople) {files : HostFiles} (hkept : Kept store files.journal)
    (hbound : ∀ line ∈ files.journal, Bound store launch line) :
    Grown store launch spare files.journal (taken.foldl (take store) files).journal := by
  induction taken generalizing files with
  | nil => exact Grown.refl hkept hbound
  | cons t taken ih =>
    obtain ⟨helse, hpeople⟩ := hall t List.mem_cons_self
    have hone : Grown store launch spare files.journal (take store files t).journal := take_grown hkeys hrun hkept hbound helse hpeople
    exact hone.trans (ih (fun t' ht' => hall t' (List.mem_cons_of_mem t ht')) hone.kept hone.bound)

/-! ## The run's own records of its steps -/

/-- a step's own raise, answered or refused -/
theorem raise_grown (hkeys : Function.Injective store.itemIdFor) {files : HostFiles} (hkept : Kept store files.journal)
    (hbound : ∀ line ∈ files.journal, Bound store launch line) (opening : Opening) (view : View) (node : String) :
    Grown store launch spare files.journal (writing store opening (raise store (stepInput launch view node)) files).2.journal :=
  writing_grown hkeys hkept hbound (fun w hw => (raise_holding store [] _ w hw.holding).toSound)
    fun w hw => raise_step hkeys hbound view node w (hw.mono fun _ => Off.tame)

/-- a raise answered leaves an item under its key -/
theorem raise_isSome {input : HumanItemInput} {receipt : HumanItemReceipt} {w' : Writer} (hreads : Reads w)
    (h : raise store input w = (.ok receipt, w')) : (standing w'.journal (store.itemIdFor input.dedupKey)).isSome = true := by
  have heq := raise_eq store input w
  cases hverdict : raiseVerdict store input w with
  | refused =>
    rw [hverdict] at heq
    obtain ⟨why, hrun⟩ := heq
    cases hrun.symm.trans h
  | stands found =>
    rw [hverdict] at heq
    cases heq.symm.trans h
    rw [← hreads.items, (raiseVerdict_stands hverdict).1]
    rfl
  | replaces item actor replacement =>
    have heq' := raiseBy_eq store (append store) input w
    rw [hverdict] at heq'
    exact heq'.elim
  | records item event by_ =>
    have hid := raiseVerdict_id hreads hverdict
    rw [hverdict] at heq
    have hrun : recording store item event by_ w = (.ok receipt, w') := heq.symm.trans h
    by_cases hspills : Spills store w item event by_
    · obtain ⟨why, w₁, happend, -⟩ := append_spills hreads hspills
      cases (show recording store item event by_ w = (.error why, w₁) from Act.bind_error happend).symm.trans hrun
    · cases hlands : lands w.outcomes with
      | false =>
        obtain ⟨why, w₁, happend, -⟩ := append_fails hreads hlands store item event by_
        cases (show recording store item event by_ w = (.error why, w₁) from Act.bind_error happend).symm.trans hrun
      | true =>
        obtain ⟨w₁, reported, happend, hjournal, -⟩ := append_lands hreads hlands hspills
        cases (show recording store item event by_ w = (.ok { item, event := w.nextSeq }, w₁) from Act.bind_ok happend).symm.trans hrun
        have hmem : lineOf w.nextSeq item event by_ ∈ w'.journal := by
          rw [hjournal]
          simp
        obtain ⟨found, hfound⟩ := standing_of_mem hmem
        rw [← hid]
        exact Option.isSome_iff_exists.mpr ⟨found, hfound⟩

/-- a step whose raise is answered has an item -/
theorem raise_stands {files : HostFiles} {opening : Opening} {view : View} {receipt : HumanItemReceipt}
    (h : (writing store opening (raise store (stepInput launch view node)) files).1 = .ok receipt) :
    (standing (writing store opening (raise store (stepInput launch view node)) files).2.journal
      (stepItem store launch node)).isSome = true := by
  have hraise : raise store (stepInput launch view node) =
    applyAction store (fun _ _ => .ok none) (.raise (stepInput launch view node)) := rfl
  rw [hraise] at h ⊢
  cases hopened : opened store opening files with
  | none =>
    obtain ⟨why, hrun⟩ : ∃ why, writing store opening
        (applyAction store (fun _ _ => .ok none) (.raise (stepInput launch view node))) files = (.error why, files) :=
      writing_unread hopened
    rw [hrun] at h
    cases h
  | some run =>
    obtain ⟨answer, w⟩ := run
    cases answer with
    | error why =>
      rw [writing_refused hopened] at h
      cases h
    | ok u =>
      rw [writing_opened hopened] at h ⊢
      exact raise_isSome (opened_adds hopened).toReads (Prod.ext h rfl)

/-- a step spared, its item resolved by the engine -/
theorem autoResolve_grown (hkeys : Function.Injective store.itemIdFor) {files : HostFiles} (hkept : Kept store files.journal)
    (hbound : ∀ line ∈ files.journal, Bound store launch line) (opening : Opening) {id : String}
    (hspare : ∀ node, id = stepItem store launch node → spare node) (reason : String) :
    Grown store launch spare files.journal (take store files (opening, .autoResolveItem id reason)).journal :=
  writing_grown hkeys hkept hbound (autoResolveOpen_sound store id reason) fun w hw =>
    autoResolveOpen_tame hkeys hbound hspare reason w (hw.mono fun _ => Off.tame)

/-- records of other items leave an item as it stands -/
theorem standing_of_others {lines : List Envelope} {id : String} (h : ∀ line ∈ lines, line.payload.itemId ≠ id) :
    standing (journal ++ lines) id = standing journal id := by
  induction lines using List.reverseRecOn with
  | nil => rw [List.append_nil]
  | append_singleton lines line ih =>
    rw [← List.append_assoc, standing_append, if_neg (h line (by simp))]
    exact ih fun l hl => h l (by simp [hl])

/-- records of no step's item leave each step's as it stands -/
theorem Adds.standing_off (h : Adds (Off store launch) base w) (node : String) :
    standing w.journal (stepItem store launch node) = standing base (stepItem store launch node) := by
  obtain ⟨lines, hlines, hall⟩ := h.added
  rw [hlines]
  exact standing_of_others fun line hline => hall line hline node

/-- a run's end, where every step with an item open is spared -/
theorem ended_grown (hkeys : Function.Injective store.itemIdFor) {files : HostFiles} (hkept : Kept store files.journal)
    (hbound : ∀ line ∈ files.journal, Bound store launch line) (opening : Opening)
    (hspare : ∀ node item, standing files.journal (stepItem store launch node) = some item → item.state = .open → spare node) :
    Grown store launch spare files.journal (take store files (opening, .runEnded launch.run)).journal := by
  refine writing_grown hkeys hkept hbound (runEnded_sound store launch.run) (runEnded_tame hkeys hbound ?_)
  intro w hw id item hitem hholds node hnode
  have hopen : item.state = .open := by
    unfold holdsRun at hholds
    simpa using (Bool.and_eq_true_iff.mp hholds).1
  refine hspare node item ?_ hopen
  rw [← hw.standing_off, ← hw.items, ← hnode, hw.toReads.id hitem, hitem]

/-- an item of one id resolved by the engine leaves every other step's as it stands -/
theorem autoResolve_others (hkeys : Function.Injective store.itemIdFor) {files : HostFiles}
    (hbound : ∀ line ∈ files.journal, Bound store launch line) (opening : Opening) {id : String} (reason : String)
    (hother : id ≠ stepItem store launch node) :
    standing (take store files (opening, .autoResolveItem id reason)).journal (stepItem store launch node) =
      standing files.journal (stepItem store launch node) := by
  show standing (writing store opening (autoResolveOpen store id reason) files).2.journal _ = _
  unfold writing
  cases hfold : foldRecords files.journal with
  | error why => rfl
  | ok fold =>
    have hreads : Reads (writerOf files.journal files.reserve opening fold) := writerOf_reads hfold
    have hhost (line : Envelope) (h : HostReport store line) : line.payload.itemId ≠ stepItem store launch node :=
      h.off hkeys node
    have hresolve : Act.Keeps (Adds (fun line => line.payload.itemId ≠ stepItem store launch node) files.journal)
        (autoResolveOpen store id reason) := by
      intro w hw
      unfold autoResolveOpen
      rw [Act.read_bind]
      cases hfound : w.items[id]? with
      | none => exact hw
      | some item =>
        simp only []
        split_ifs with hopen
        · have hne : item.id ≠ stepItem store launch node := by
            rw [hw.toReads.id hfound]
            exact hother
          have hresolve : Act.Keeps (Adds (fun line => line.payload.itemId ≠ stepItem store launch node) files.journal)
              (autoResolve store item reason) :=
            resolve_adds hhost fun _ _ => hne
          exact (hresolve.bind fun _ => Act.Keeps.pure ()) w hw
        · exact hw
    have hopened : Act.Triple (Adds (Off store launch) files.journal)
        (probe store opening >>= fun _ => autoResolveOpen store id reason)
        fun _ => Adds (fun line => line.payload.itemId ≠ stepItem store launch node) files.journal :=
      Act.Triple.bind (probe_keeps (clear_off hkeys hbound) opening)
        (fun _ w hw => hresolve w (hw.mono fun _ h => h node)) fun _ _ h => h.mono fun _ h => h node
    obtain ⟨lines, hlines, hall⟩ := (hopened _ (hreads.adds (Off store launch))).added
    show standing ((probe store opening >>= fun _ => autoResolveOpen store id reason)
      (writerOf files.journal files.reserve opening fold)).2.journal _ = _
    rw [hlines]
    exact standing_of_others hall

/-- an opening alone leaves every step's item as it stands -/
theorem probe_others (hkeys : Function.Injective store.itemIdFor) {files : HostFiles}
    (hbound : ∀ line ∈ files.journal, Bound store launch line) (opening : Opening) (node : String) :
    standing (take store files (opening, .probe)).journal (stepItem store launch node) =
      standing files.journal (stepItem store launch node) := by
  show standing (writing store opening (pure ()) files).2.journal _ = _
  unfold writing
  cases hfold : foldRecords files.journal with
  | error why => rfl
  | ok fold =>
    have hreads : Reads (writerOf files.journal files.reserve opening fold) := writerOf_reads hfold
    have hopened : Act.Keeps (Adds (Off store launch) files.journal) (probe store opening >>= fun _ => pure ()) :=
      (probe_keeps (clear_off hkeys hbound) opening).bind fun _ => Act.Keeps.pure ()
    exact (hopened _ (hreads.adds (Off store launch))).standing_off node

/-! ## A driver in order -/

/-- the command that releases a step, by what its item was resolved as -/
def Releases (node : String) : HumanItemState → Command → Prop
  | .answered, .attest n | .completed, .attest n => n = node
  | .dismissed, .drop n dependents _ => n = node ∧ dependents = .detach
  | _, _ => False

instance (node : String) (state : HumanItemState) (command : Command) : Decidable (Releases node state command) := by
  unfold Releases
  split <;> infer_instance

theorem releaseCommand_some {command : Command} {at_ : String × String} (hnode : nodeOf item = some at_)
    (h : releaseCommand item = some command) : item.state ≠ .open ∧ Releases at_.2 item.state command := by
  unfold releaseCommand at h
  rw [hnode] at h
  simp only [Option.bind_eq_bind, Option.bind_some] at h
  cases hs : item.state with
  | «open» => rw [hs] at h; cases h
  | answered =>
    rw [hs] at h
    cases h
    exact ⟨by decide, rfl⟩
  | completed =>
    rw [hs] at h
    cases h
    exact ⟨by decide, rfl⟩
  | dismissed =>
    rw [hs] at h
    simp only [] at h
    split_ifs at h
    cases h
    exact ⟨by decide, rfl, rfl⟩

/-- a step a person resolved has its release -/
theorem releaseCommand_isSome {at_ : String × String} (hnode : nodeOf item = some at_) (hperson : ByPerson item)
    (hstate : item.state ≠ .open) : ∃ command, releaseCommand item = some command := by
  obtain ⟨r, hr, hactor⟩ := hperson.resolve_left hstate
  unfold releaseCommand
  rw [hnode]
  simp only [Option.bind_eq_bind, Option.bind_some]
  cases hs : item.state with
  | «open» => exact absurd hs hstate
  | answered => exact ⟨_, rfl⟩
  | completed => exact ⟨_, rfl⟩
  | dismissed =>
    simp only []
    rw [if_pos (by simp [hr, hactor])]
    exact ⟨_, rfl⟩

variable {view : View} {s : Standing}

/-- a step that is done, or no longer in the graph -/
def View.Spares (view : View) (node : String) : Prop := node ∈ view.steps → view.done node = true

variable (store launch view) in
/-- a driver's memory true of the journal, and its people's steps theirs -/
structure Ordered (s : Standing) : Prop where
  kept : Kept store s.files.journal
  bound : ∀ line ∈ s.files.journal, Bound store launch line
  raised : ∀ n ∈ s.gate.raised, (standing s.files.journal (stepItem store launch n)).isSome = true
  /-- a step released was resolved, and until it is done its release waits in the queue -/
  released : ∀ n ∈ s.gate.released, ∃ state, state ≠ .open ∧
    (∃ item, standing s.files.journal (stepItem store launch n) = some item ∧ item.state = state) ∧
      (n ∈ view.steps → view.done n = false → ∃ command ∈ s.queue, Releases n state command)
  people : ∀ n ∈ view.steps, view.done n = false →
    ∀ item, standing s.files.journal (stepItem store launch n) = some item → ByPerson item

namespace Ordered

theorem grow (h : Ordered store launch view s) {files : HostFiles}
    (hgrown : Grown store launch view.Spares s.files.journal files.journal) : Ordered store launch view { s with files } := by
  refine ⟨hgrown.kept, hgrown.bound, fun n hn => hgrown.isSome (h.raised n hn), fun n hn => ?_, fun n hn hdone => ?_⟩
  · obtain ⟨state, hstate, hitem, hqueue⟩ := h.released n hn
    exact ⟨state, hstate, hgrown.resolved hstate hitem, hqueue⟩
  · have hspare : ¬view.Spares n := fun hspared => Bool.false_ne_true (hdone.symm.trans (hspared hn))
    exact hgrown.byPerson hspare (h.people n hn hdone)

/-- a driver's holds, its due time and whether it read are nothing the rest is told by -/
theorem of_gate (h : Ordered store launch view s) {gate : Gate} (hraised : gate.raised = s.gate.raised)
    (hreleased : gate.released = s.gate.released) : Ordered store launch view { s with gate } := by
  refine ⟨h.kept, h.bound, fun n hn => h.raised n ?_, fun n hn => h.released n ?_, h.people⟩
  · rw [← hraised]
    exact hn
  · rw [← hreleased]
    exact hn

/-- a fresh gate remembers nothing -/
theorem fresh (h : Ordered store launch view s) : Ordered store launch view { s with gate := {} } :=
  ⟨h.kept, h.bound, fun _ hn => (nomatch hn), fun _ hn => (nomatch hn), h.people⟩

theorem push (h : Ordered store launch view s) (commands : List Command) :
    Ordered store launch view { s with queue := s.queue ++ commands } := by
  refine ⟨h.kept, h.bound, h.raised, fun n hn => ?_, h.people⟩
  obtain ⟨state, hstate, hitem, hqueue⟩ := h.released n hn
  refine ⟨state, hstate, hitem, fun hsteps hdone => ?_⟩
  obtain ⟨command, hmem, hreleases⟩ := hqueue hsteps hdone
  exact ⟨command, List.mem_append_left _ hmem, hreleases⟩

theorem standsFor (h : Ordered store launch view s) (hitem : standing s.files.journal (stepItem store launch node) = some item) :
    StandsFor launch.run node item := by
  obtain ⟨line, hline, hid, rfl⟩ := mem_of_standing hitem
  exact h.bound line hline node hid

/-- a step's release queued, once -/
theorem queueRelease (h : Ordered store launch view s) (hrun : Minted launch.run)
    (hitem : standing s.files.journal (stepItem store launch node) = some item) (submits : String → Bool) :
    Ordered store launch view
      { s with
        gate := (HumanItems.queueRelease submits (s.gate, s.queue) item).1
        queue := (HumanItems.queueRelease submits (s.gate, s.queue) item).2 } := by
  have hnode := (h.standsFor hitem).nodeOf hrun
  unfold HumanItems.queueRelease
  rw [hnode]
  cases hcommand : releaseCommand item with
  | none => exact h
  | some command =>
    simp only []
    split_ifs with hreleased hsubmits
    · exact h
    · obtain ⟨hstate, hreleases⟩ := releaseCommand_some hnode hcommand
      have hpushed := h.push [command]
      refine ⟨h.kept, h.bound, h.raised, fun n hn => ?_, h.people⟩
      rcases List.mem_append.mp hn with hold | hnew
      · exact hpushed.released n hold
      · rw [List.mem_singleton.mp hnew]
        exact ⟨item.state, hstate, ⟨item, hitem, rfl⟩, fun _ _ => ⟨command, by simp, hreleases⟩⟩
    · exact h

end Ordered

variable (store launch view) in
/-- a driver in order still, the journal grown -/
structure Onward (s s' : Standing) : Prop extends Ordered store launch view s' where
  grown : s.files.journal <+: s'.files.journal

theorem Onward.trans {s' s'' : Standing} (h : Onward store launch view s s') (h' : Onward store launch view s' s'') :
    Onward store launch view s s'' :=
  ⟨h'.toOrdered, h.grown.trans h'.grown⟩

/-! ## One look -/

variable {look : Look} {items : StrMap HumanItem}

theorem stepItem_injective (hkeys : Function.Injective store.itemIdFor) : Function.Injective (stepItem store launch) :=
  hkeys.comp (nodeKey_injective launch.run)

variable (look) in
theorem raiseStep_ordered (hkeys : Function.Injective store.itemIdFor) (h : Ordered store launch view s) (node : String) :
    Onward store launch view s
      { s with
        gate := (raiseStep store launch view look (s.gate, s.files) node).1
        files := (raiseStep store launch view look (s.gate, s.files) node).2 } := by
  unfold raiseStep
  split_ifs with hskip
  · exact ⟨h, List.prefix_refl _⟩
  · have hgrown : Grown store launch view.Spares s.files.journal
        (writing store (look.raising node) (raise store (stepInput launch view node)) s.files).2.journal :=
      raise_grown hkeys h.kept h.bound (look.raising node) view node
    have hgrow := h.grow hgrown
    have hextends := hgrown.extends
    cases hwriting : writing store (look.raising node) (raise store (stepInput launch view node)) s.files with
    | mk answer files =>
      rw [hwriting] at hgrow hextends
      cases answer with
      | error why => exact ⟨hgrow, hextends⟩
      | ok receipt =>
        refine ⟨⟨hgrow.kept, hgrow.bound, fun n hn => ?_, hgrow.released, hgrow.people⟩, hextends⟩
        rcases List.mem_append.mp hn with hold | hnew
        · exact hgrow.raised n hold
        · have hstands := raise_stands (congrArg Prod.fst hwriting)
          rw [hwriting] at hstands
          rw [List.mem_singleton.mp hnew]
          exact hstands

variable (look) in
theorem raiseSteps_ordered (hkeys : Function.Injective store.itemIdFor) (h : Ordered store launch view s) (nodes : List String) :
    Onward store launch view s
      { s with
        gate := (nodes.foldl (raiseStep store launch view look) (s.gate, s.files)).1
        files := (nodes.foldl (raiseStep store launch view look) (s.gate, s.files)).2 } := by
  induction nodes generalizing s with
  | nil => exact ⟨h, List.prefix_refl _⟩
  | cons node nodes ih =>
    have hone := raiseStep_ordered look hkeys h node
    exact hone.trans (ih hone.toOrdered)

variable (store launch view items) in
/-- a driver in order, with each step that is not done read as it stands -/
structure Reconciling (s : Standing) : Prop extends Ordered store launch view s where
  read : ∀ n, view.done n = false → standing s.files.journal (stepItem store launch n) = items[stepItem store launch n]?

theorem waiting_not_done (h : view.waiting node = true) : view.done node = false := by
  unfold View.waiting at h
  unfold View.done
  rw [of_decide_eq_true h]
  decide

/-- an open item of a step that is done, resolved -/
theorem Ordered.settled (h : Ordered store launch view s) (hkeys : Function.Injective store.itemIdFor)
    (hid : item.id = stepItem store launch node) (hdone : view.done node = true) (opening : Opening) :
    Grown store launch view.Spares s.files.journal
      (take store s.files (opening, .autoResolveItem item.id settledElsewhere)).journal := by
  refine autoResolve_grown hkeys h.kept h.bound opening (fun n hn _ => ?_) settledElsewhere
  rw [stepItem_injective hkeys (hn.symm.trans hid)]
  exact hdone

variable (look) in
theorem reconcileStep_ordered (hkeys : Function.Injective store.itemIdFor) (hrun : Minted launch.run)
    (hids : ∀ (id : String) item, items[id]? = some item → item.id = id) (h : Reconciling store launch view items s) (node : String) :
    Reconciling store launch view items (reconcileStep store launch view look items s node) := by
  unfold reconcileStep
  cases hitem : items[stepItem store launch node]? with
  | none => exact h
  | some item =>
    simp only []
    split_ifs with hopen hdone hwaiting hdue
    · -- a step that is done: its item is resolved by the engine, and every other step's stands
      have hid := hids _ item hitem
      refine ⟨h.toOrdered.grow (h.toOrdered.settled hkeys hid hdone (look.resolving node)), fun n hn => ?_⟩
      have hother : item.id ≠ stepItem store launch n := by
        intro heq
        have hsame : n = node := stepItem_injective hkeys (heq.symm.trans hid)
        rw [hsame, hdone] at hn
        cases hn
      show standing (take store s.files (look.resolving node, .autoResolveItem item.id settledElsewhere)).journal _ = _
      rw [autoResolve_others hkeys h.bound (look.resolving node) settledElsewhere hother]
      exact h.read n hn
    · exact h
    · have hstanding : standing s.files.journal (stepItem store launch node) = some item := by
        rw [h.read node (waiting_not_done hwaiting.1), hitem]
      exact ⟨h.toOrdered.queueRelease hrun hstanding look.submits, h.read⟩
    · exact ⟨h.toOrdered.of_gate rfl rfl, h.read⟩
    · exact h

variable (look) in
theorem reconcileStep_grown (hkeys : Function.Injective store.itemIdFor)
    (hids : ∀ (id : String) item, items[id]? = some item → item.id = id) (h : Reconciling store launch view items s) (node : String) :
    s.files.journal <+: (reconcileStep store launch view look items s node).files.journal := by
  unfold reconcileStep
  cases hitem : items[stepItem store launch node]? with
  | none => exact List.prefix_refl _
  | some item =>
    simp only []
    split_ifs with hopen hdone hwaiting hdue
    · exact (h.toOrdered.settled hkeys (hids _ item hitem) hdone (look.resolving node)).extends
    all_goals exact List.prefix_refl _

/-- when a resolved item's release falls due -/
def Look.dueOf (look : Look) (item : HumanItem) : ℕ := (look.millisOf item.updatedAt).getD look.now + grace

variable (look) in
/-- a release due already, or at a time the gate looks again by -/
def Due (gate : Gate) (item : HumanItem) : Prop :=
  (∃ due, gate.due = some due ∧ due ≤ look.dueOf item) ∨ look.dueOf item ≤ look.now

variable (look) in
/-- a release made, or due -/
def Owed (gate : Gate) (node : String) (item : HumanItem) : Prop := node ∈ gate.released ∨ Due look gate item

theorem queueRelease_released {submits : String → Bool} {queue : List Command} {gate : Gate} :
    (∀ n ∈ gate.released, n ∈ (queueRelease submits (gate, queue) item).1.released) ∧
      (queueRelease submits (gate, queue) item).1.due = gate.due := by
  unfold queueRelease
  split
  · split_ifs
    · exact ⟨fun _ hn => hn, rfl⟩
    · exact ⟨fun _ hn => List.mem_append_left _ hn, rfl⟩
    · exact ⟨fun _ hn => hn, rfl⟩
  · exact ⟨fun _ hn => hn, rfl⟩

/-- what is owed stays owed through the rest of a look -/
theorem reconcileStep_owed {other : HumanItem} (h : Owed look s.gate node other) (n : String) :
    Owed look (reconcileStep store launch view look items s n).gate node other := by
  unfold reconcileStep
  cases items[stepItem store launch n]? with
  | none => exact h
  | some item =>
    simp only []
    split_ifs with hopen hdone hwaiting hdue
    · exact h
    · exact h
    · obtain ⟨hreleased, hkeep⟩ :=
        @queueRelease_released item look.submits s.queue s.gate
      rcases h with hin | ⟨due, heq, hle⟩ | hnow
      · exact .inl (hreleased node hin)
      · exact .inr (.inl ⟨due, hkeep.trans heq, hle⟩)
      · exact .inr (.inr hnow)
    · rcases h with hin | ⟨due, heq, hle⟩ | hnow
      · exact .inl hin
      · refine .inr (.inl ⟨min due ((look.millisOf item.updatedAt).getD look.now + grace), ?_, min_le_of_left_le hle⟩)
        show some (s.gate.due.elim _ _) = _
        rw [heq]
        rfl
      · exact .inr (.inr hnow)
    · exact h

/-- a resolved item's waiting step is owed its release once looked at -/
theorem reconcileStep_owes (hitem : items[stepItem store launch node]? = some item) (hstate : item.state ≠ .open)
    (hwaiting : view.waiting node = true) : Owed look (reconcileStep store launch view look items s node).gate node item := by
  unfold reconcileStep
  rw [hitem]
  simp only []
  rw [if_neg hstate]
  split_ifs with hfree hdue
  · exact .inr (.inr hdue)
  · refine .inr (.inl ⟨_, rfl, ?_⟩)
    show s.gate.due.elim _ _ ≤ look.dueOf item
    cases s.gate.due with
    | none => exact le_refl _
    | some earlier => exact min_le_right _ _
  · exact .inl (by simpa [hwaiting] using hfree)

variable (look) in
/-- a look's reconciliation: in order still, and every resolved item's waiting step owed its release -/
theorem reconcileSteps (hkeys : Function.Injective store.itemIdFor) (hrun : Minted launch.run)
    (hids : ∀ (id : String) item, items[id]? = some item → item.id = id) (nodes : List String)
    (h : Reconciling store launch view items s) :
    (Reconciling store launch view items (nodes.foldl (reconcileStep store launch view look items) s) ∧
      s.files.journal <+: (nodes.foldl (reconcileStep store launch view look items) s).files.journal) ∧
      ∀ node item, (node ∈ nodes ∨ Owed look s.gate node item) → items[stepItem store launch node]? = some item →
        item.state ≠ .open → view.waiting node = true →
          Owed look (nodes.foldl (reconcileStep store launch view look items) s).gate node item := by
  induction nodes generalizing s with
  | nil => exact ⟨⟨h, List.prefix_refl _⟩, fun node item hin _ _ _ => hin.resolve_left fun hmem => (nomatch hmem)⟩
  | cons n nodes ih =>
    obtain ⟨⟨hkept, hgrown⟩, howed⟩ := ih (reconcileStep_ordered look hkeys hrun hids h n)
    refine ⟨⟨hkept, (reconcileStep_grown look hkeys hids h n).trans hgrown⟩, fun node item hin hitem hstate hwaiting => howed node item ?_ hitem hstate hwaiting⟩
    rcases hin with hmem | hbefore
    · rcases List.mem_cons.mp hmem with rfl | hrest
      · exact .inr (reconcileStep_owes hitem hstate hwaiting)
      · exact .inl hrest
    · exact .inr (reconcileStep_owed hbefore n)

variable (store launch view look) in
/-- where a look leaves its raises and what others did meanwhile -/
def raisedUp (s : Standing) : Standing :=
  let raised := view.steps.foldl (raiseStep store launch view look) (s.gate, s.files)
  { s with gate := raised.1, files := look.meanwhile.foldl (take store) raised.2 }

theorem raisedUp_ordered (hkeys : Function.Injective store.itemIdFor) (hrun : Minted launch.run)
    (hmeanwhile : ∀ t ∈ look.meanwhile, t.2.Elsewhere store launch ∧ t.2.ByPeople) (h : Ordered store launch view s) :
    Onward store launch view s (raisedUp store launch view look s) := by
  have hraised := raiseSteps_ordered look hkeys h view.steps
  have hgrown : Grown store launch view.Spares
      (view.steps.foldl (raiseStep store launch view look) (s.gate, s.files)).2.journal
      (look.meanwhile.foldl (take store) (view.steps.foldl (raiseStep store launch view look) (s.gate, s.files)).2).journal :=
    takes_grown hkeys hrun hmeanwhile hraised.kept hraised.bound
  exact ⟨hraised.toOrdered.grow hgrown, hraised.grown.trans hgrown.extends⟩

/-- a look that is made and reads the journal -/
theorem pass_read {fold : Fold} (hrecent : look.recent = false) (hunread : look.unread = false)
    (hfold : foldRecords (raisedUp store launch view look s).files.journal = .ok fold) :
    ∃ files gate, Gate.pass store launch view look s =
        { view.steps.foldl (reconcileStep store launch view look fold.items)
            { raisedUp store launch view look s with
              gate := { (raisedUp store launch view look s).gate with read := true, due := none }, files } with gate } ∧
      files = (if hostOutage fold.items then take store (raisedUp store launch view look s).files (look.probing, .probe)
        else (raisedUp store launch view look s).files) ∧
      ∃ held, gate = { (view.steps.foldl (reconcileStep store launch view look fold.items)
            { raisedUp store launch view look s with
              gate := { (raisedUp store launch view look s).gate with read := true, due := none }, files }).gate with held } := by
  unfold Gate.pass
  rw [hrecent, hunread]
  unfold raisedUp at hfold
  simp only [Bool.false_eq_true, if_false, hfold]
  exact ⟨_, _, rfl, rfl, _, rfl⟩

/-- a read of a journal as it is, and what of it the reconciliation starts from -/
theorem reconciling_start (hkeys : Function.Injective store.itemIdFor) (hrun : Minted launch.run) {up : Standing}
    (hup : Ordered store launch view up) {fold : Fold} (hread : ReadAs up.files.journal fold) (opening : Opening) :
    Reconciling store launch view fold.items
        { up with
          gate := { up.gate with read := true, due := none }
          files := if hostOutage fold.items then take store up.files (opening, .probe) else up.files } ∧
      up.files.journal <+: (if hostOutage fold.items then take store up.files (opening, .probe) else up.files).journal := by
  split_ifs
  · have hgrown : Grown store launch view.Spares up.files.journal (take store up.files (opening, .probe)).journal :=
      take_grown hkeys hrun hup.kept hup.bound trivial trivial
    refine ⟨⟨(hup.grow hgrown).of_gate rfl rfl, fun n _ => ?_⟩, hgrown.extends⟩
    show standing (take store up.files (opening, .probe)).journal _ = _
    rw [probe_others hkeys hup.bound, hread.items]
  · exact ⟨⟨hup.of_gate rfl rfl, fun n _ => (hread.items _).symm⟩, List.prefix_refl _⟩

theorem ReadAs.ids {fold : Fold} (hread : ReadAs journal fold) {id : String} (hitem : fold.items[id]? = some item) : item.id = id := by
  rw [hread.items] at hitem
  obtain ⟨line, hline, hid, rfl⟩ := mem_of_standing hitem
  exact (hread.valid line hline).2.symm.trans hid

/-- every look leaves a driver in order -/
theorem pass_ordered (hkeys : Function.Injective store.itemIdFor) (hrun : Minted launch.run)
    (hmeanwhile : ∀ t ∈ look.meanwhile, t.2.Elsewhere store launch ∧ t.2.ByPeople) (h : Ordered store launch view s) :
    Onward store launch view s (Gate.pass store launch view look s) := by
  have hup := raisedUp_ordered hkeys hrun hmeanwhile h
  obtain ⟨fold, hfold⟩ := hup.kept.readable
  cases hrecent : look.recent with
  | true =>
    unfold Gate.pass
    rw [if_pos hrecent]
    exact ⟨h, List.prefix_refl _⟩
  | false =>
    cases hunread : look.unread with
    | false =>
      obtain ⟨files, gate, hpass, hfiles, held, hgate⟩ := pass_read hrecent hunread hfold
      obtain ⟨hstart, hprobed⟩ := reconciling_start hkeys hrun hup.toOrdered (readAs hfold) look.probing
      rw [← hfiles] at hstart hprobed
      obtain ⟨⟨hreconciled, hgrown⟩, -⟩ := reconcileSteps look hkeys hrun (fun id item => (readAs hfold).ids) view.steps hstart
      rw [hpass]
      exact ⟨hreconciled.toOrdered.of_gate (by rw [hgate]) (by rw [hgate]), (hup.grown.trans hprobed).trans hgrown⟩
    | true =>
      unfold Gate.pass
      rw [if_neg (by simp [hrecent])]
      unfold raisedUp at hup hfold
      simp only [hfold, hunread, if_true]
      split_ifs
      · exact hup
      · exact ⟨hup.toOrdered.of_gate rfl rfl, hup.grown⟩

/-- **What a look leaves asked.** A look that is made, raises every waiting step's item and reads the journal leaves each with
an item open, or one a person resolved whose release is in the queue or due. -/
theorem pass_asks (hkeys : Function.Injective store.itemIdFor) (hrun : Minted launch.run)
    (hmeanwhile : ∀ t ∈ look.meanwhile, t.2.Elsewhere store launch ∧ t.2.ByPeople) (h : Ordered store launch view s)
    (hrecent : look.recent = false) (hunread : look.unread = false)
    (hraised : ∀ n ∈ view.steps, view.waiting n = true → n ∈ (raisedUp store launch view look s).gate.raised) :
    Ordered store launch view (Gate.pass store launch view look s) ∧
      ∀ n ∈ view.steps, view.waiting n = true →
        ∃ item, standing (Gate.pass store launch view look s).files.journal (stepItem store launch n) = some item ∧
          (item.state = .open ∨ item.state ≠ .open ∧ ByPerson item ∧
            ((∃ command ∈ (Gate.pass store launch view look s).queue, Releases n item.state command) ∨
              Due look (Gate.pass store launch view look s).gate item)) := by
  have hup := raisedUp_ordered hkeys hrun hmeanwhile h
  obtain ⟨fold, hfold⟩ := hup.kept.readable
  have hread := readAs hfold
  obtain ⟨files, gate, hpass, hfiles, held, hgate⟩ := pass_read hrecent hunread hfold
  obtain ⟨hstart, -⟩ := reconciling_start hkeys hrun hup.toOrdered hread look.probing
  rw [← hfiles] at hstart
  obtain ⟨⟨hreconciled, -⟩, howed⟩ := reconcileSteps look hkeys hrun (fun id item => hread.ids) view.steps hstart
  rw [hpass]
  have hordered : Ordered store launch view { view.steps.foldl (reconcileStep store launch view look fold.items)
      { raisedUp store launch view look s with
        gate := { (raisedUp store launch view look s).gate with read := true, due := none }, files } with gate } :=
    hreconciled.toOrdered.of_gate (by rw [hgate]) (by rw [hgate])
  refine ⟨hordered, fun n hn hwaiting => ?_⟩
  have hdone := waiting_not_done hwaiting
  obtain ⟨item, hitem⟩ := Option.isSome_iff_exists.mp (hup.raised n (hraised n hn hwaiting))
  have hfound : fold.items[stepItem store launch n]? = some item := by rw [hread.items, hitem]
  have hstanding := (hreconciled.read n hdone).trans hfound
  refine ⟨item, hstanding, ?_⟩
  by_cases hopen : item.state = .open
  · exact .inl hopen
  refine .inr ⟨hopen, hordered.people n hn hdone item hstanding, ?_⟩
  rcases howed n item (.inl hn) hfound hopen hwaiting with hreleased | hdue
  · obtain ⟨state, -, ⟨item', hitem', hstate⟩, hqueue⟩ := hreconciled.released n hreleased
    cases hstanding.symm.trans hitem'
    rw [hstate]
    exact .inl (hqueue hn hdone)
  · refine .inr ?_
    rw [hgate]
    exact hdue

/-! ## Runs -/

/-- the occurrence of a step a view carries on from another -/
def Carried (before after : View) (entering : List String) (node : String) : Prop :=
  node ∈ before.steps ∧ node ∉ entering ∧ node ∈ after.steps

/-- a step attested stays so -/
def StaysDone (before after : View) (entering : List String) : Prop :=
  ∀ n, Carried before after entering n → before.done n = true → after.done n = true

variable (store launch) in
/-- what can happen to a run: an attestation is never taken back, and the rest of the host does to its steps what people do -/
def RunWorld.Allowed (w : RunWorld) : Move → Prop
  | .plan view entering | .applied view entering => StaysDone w.view view entering
  | .store _ entry => entry.Elsewhere store launch
  | .look look => ∀ t ∈ look.meanwhile, t.2.Elsewhere store launch
  | .handed _ | .drive .. | .ended _ => True

/-- the item of a step as the journal stands -/
def RunWorld.itemOf (store : Store) (launch : Launch) (w : RunWorld) (node : String) : Option HumanItem :=
  standing w.at_.files.journal (stepItem store launch node)

variable (store launch) in
/-- a step enters the graph under an id no item of is resolved -/
def RunWorld.Fresh (w : RunWorld) (view : View) (entering : List String) : Prop :=
  ∀ n ∈ view.steps, ¬Carried w.view view entering n → ∀ item, w.itemOf store launch n = some item → item.state = .open

variable (store launch) in
/-- the moves of a run in which every waiting step is asked about: steps enter under fresh ids, a release taken ends its step,
nobody acts as the engine, and the run ends with no step left to a person -/
def RunWorld.Steady (w : RunWorld) : Move → Prop
  | .plan view entering => w.Fresh store launch view entering
  | .applied view entering =>
    w.Fresh store launch view entering ∧ ∀ command ∈ w.at_.queue.head?, ∀ n state,
      Carried w.view view entering n → Releases n state command → view.done n = true
  | .store _ entry => entry.ByPeople
  | .look look => ∀ t ∈ look.meanwhile, t.2.ByPeople
  | .ended _ => ∀ n ∈ w.view.steps, w.view.done n = false → ∀ item, w.itemOf store launch n = some item → item.state ≠ .open
  | .handed _ | .drive .. => True

variable (store launch) in
/-- a run in order, with no step's item resolved when its occurrence entered -/
structure RunWorld.Inv (w : RunWorld) : Prop where
  ordered : Ordered store launch w.view w.at_
  entered : ∀ n ∈ w.view.steps, w.entered n ≤ w.at_.files.journal.length
  unresolved : ∀ n ∈ w.view.steps, ∀ item,
    standing (w.at_.files.journal.take (w.entered n)) (stepItem store launch n) = some item → item.state = .open

/-- a journal grown, or kept, under what a run remembers of it -/
theorem RunWorld.Inv.at_grown {w : RunWorld} (h : w.Inv store launch) {s' : Standing} (hordered : Ordered store launch w.view s')
    (hgrown : w.at_.files.journal <+: s'.files.journal) : RunWorld.Inv store launch { w with at_ := s' } := by
  obtain ⟨lines, hlines⟩ := hgrown
  refine ⟨hordered, fun n hn => ?_, fun n hn item hitem => h.unresolved n hn item ?_⟩
  · show w.entered n ≤ s'.files.journal.length
    rw [← hlines, List.length_append]
    exact (h.entered n hn).trans (Nat.le_add_right _ _)
  · have htake : s'.files.journal.take (w.entered n) = w.at_.files.journal.take (w.entered n) := by
      rw [← hlines, List.take_append_of_le_length (h.entered n hn)]
    rw [← htake]
    exact hitem

/-- the record moved on, with steps entering under fresh ids -/
theorem RunWorld.Inv.moved {w : RunWorld} (h : w.Inv store launch) {view : View} {entering : List String}
    (hdone : StaysDone w.view view entering) (hfresh : w.Fresh store launch view entering) {queue : List Command}
    (hqueue : ∀ n ∈ w.at_.gate.released, Carried w.view view entering n → view.done n = false → ∀ state,
      (∃ command ∈ w.at_.queue, Releases n state command) → ∃ command ∈ queue, Releases n state command) :
    RunWorld.Inv store launch { w.moved view entering with at_ := { w.at_ with queue } } := by
  have hnew : ∀ n ∈ view.steps, ¬Carried w.view view entering n →
      (w.moved view entering).entered n = w.at_.files.journal.length := by
    intro n hn hcarried
    refine if_neg fun hold => hcarried ⟨hold.1, hold.2, hn⟩
  have hold : ∀ n, Carried w.view view entering n → (w.moved view entering).entered n = w.entered n :=
    fun n hcarried => if_pos ⟨hcarried.1, hcarried.2.1⟩
  refine ⟨⟨h.ordered.kept, h.ordered.bound, h.ordered.raised, fun n hn => ?_, fun n hn hundone item hitem => ?_⟩, fun n hn => ?_,
    fun n hn item hitem => ?_⟩
  · obtain ⟨state, hstate, ⟨item, hitem, hitemState⟩, hwaits⟩ := h.ordered.released n hn
    refine ⟨state, hstate, ⟨item, hitem, hitemState⟩, fun hsteps hundone => ?_⟩
    have hundone' : view.done n = false := hundone
    by_cases hcarried : Carried w.view view entering n
    · have hbefore : w.view.done n = false := by
        by_contra hwas
        rw [hdone n hcarried (by simpa using hwas)] at hundone'
        cases hundone'
      exact hqueue n hn hcarried hundone' state (hwaits hcarried.1 hbefore)
    · exact absurd (hitemState.symm.trans (hfresh n hsteps hcarried item hitem)) hstate
  · by_cases hcarried : Carried w.view view entering n
    · refine h.ordered.people n hcarried.1 ?_ item hitem
      by_contra hwas
      have hundone' : view.done n = false := hundone
      rw [hdone n hcarried (by simpa using hwas)] at hundone'
      cases hundone'
    · exact .inl (hfresh n hn hcarried item hitem)
  · by_cases hcarried : Carried w.view view entering n
    · exact (hold n hcarried).trans_le (h.entered n hcarried.1)
    · exact (hnew n hn hcarried).le
  · have hitem' : standing (w.at_.files.journal.take ((w.moved view entering).entered n)) (stepItem store launch n) = some item :=
      hitem
    by_cases hcarried : Carried w.view view entering n
    · rw [hold n hcarried] at hitem'
      exact h.unresolved n hcarried.1 item hitem'
    · rw [hnew n hn hcarried, List.take_length] at hitem'
      exact hfresh n hn hcarried item hitem'

/-- what a driver finds owed as it starts, queued -/
theorem queueOwed_ordered (hrun : Minted launch.run) (submits : String → Bool) (h : Ordered store launch view s) :
    Ordered store launch view (Gate.queueOwed store launch view submits s) ∧
      (Gate.queueOwed store launch view submits s).files = s.files := by
  unfold Gate.queueOwed
  obtain ⟨fold, hfold⟩ := h.kept.readable
  have hread := readAs hfold
  simp only [hfold]
  induction view.steps using List.reverseRecOn with
  | nil => exact ⟨h, rfl⟩
  | append_singleton nodes node ih =>
    rw [List.foldl_append, List.foldl_cons, List.foldl_nil]
    obtain ⟨hordered, hfiles⟩ := ih
    unfold oweStep
    cases hwaiting : view.waiting node with
    | false => exact ⟨hordered, hfiles⟩
    | true =>
      cases hitem : fold.items[stepItem store launch node]? with
      | none => exact ⟨hordered, hfiles⟩
      | some item =>
        have hstanding : standing (nodes.foldl (oweStep store launch view submits fold.items) s).files.journal
            (stepItem store launch node) = some item := by
          rw [hfiles, ← hread.items, hitem]
        exact ⟨hordered.queueRelease hrun hstanding submits, hfiles⟩

theorem handOver_ordered (h : Ordered store launch view s) (node : String) :
    Ordered store launch view (handOver store launch s node) ∧ (handOver store launch s node).files = s.files := by
  unfold handOver
  obtain ⟨fold, hfold⟩ := h.kept.readable
  simp only [hfold]
  cases (fold.items[stepItem store launch node]?).bind releaseCommand with
  | none => exact ⟨h, rfl⟩
  | some command => exact ⟨h.push [command], rfl⟩

/-- each steady move keeps a run in order -/
theorem step_inv (hkeys : Function.Injective store.itemIdFor) (hrun : Minted launch.run) {w : RunWorld} (h : w.Inv store launch)
    {move : Move} (hallowed : w.Allowed store launch move) (hsteady : w.Steady store launch move) :
    (w.step store launch move).Inv store launch := by
  cases move with
  | plan view entering =>
    exact h.moved hallowed hsteady fun n _ _ _ state hqueue => hqueue
  | applied view entering =>
    refine h.moved hallowed hsteady.1 fun n hn hcarried hundone state => ?_
    rintro ⟨command, hmem, hreleases⟩
    cases hqueue : w.at_.queue with
    | nil => rw [hqueue] at hmem; cases hmem
    | cons first rest =>
      rw [hqueue] at hmem
      rcases List.mem_cons.mp hmem with rfl | hrest
      · have hdone := hsteady.2 command (by rw [hqueue]; rfl) n state hcarried hreleases
        rw [hdone] at hundone
        cases hundone
      · exact ⟨command, hrest, hreleases⟩
  | store opening entry =>
    have hgrown : Grown store launch w.view.Spares w.at_.files.journal (take store w.at_.files (opening, entry)).journal :=
      take_grown hkeys hrun h.ordered.kept h.ordered.bound hallowed hsteady
    exact h.at_grown (h.ordered.grow hgrown) hgrown.extends
  | handed node =>
    obtain ⟨hordered, hfiles⟩ := handOver_ordered h.ordered node
    refine h.at_grown hordered ?_
    rw [hfiles]
  | drive starting submits =>
    cases starting with
    | false => exact h.at_grown h.ordered.fresh (List.prefix_refl _)
    | true =>
      obtain ⟨hordered, hfiles⟩ := queueOwed_ordered hrun submits h.ordered.fresh
      refine h.at_grown hordered ?_
      show w.at_.files.journal <+: (Gate.queueOwed store launch w.view submits { w.at_ with gate := {} }).files.journal
      rw [hfiles]
  | look look =>
    have hpass := pass_ordered hkeys hrun (fun t ht => ⟨hallowed t ht, hsteady t ht⟩) h.ordered
    exact h.at_grown hpass.toOrdered hpass.grown
  | ended opening =>
    have hspare : ∀ node item, standing w.at_.files.journal (stepItem store launch node) = some item → item.state = .open →
        w.view.Spares node := by
      intro node item hitem hopen hnode
      by_contra hundone
      exact hsteady node hnode (by simpa using hundone) item hitem hopen
    have hgrown : Grown store launch w.view.Spares w.at_.files.journal (take store w.at_.files (opening, .runEnded launch.run)).journal :=
      ended_grown hkeys h.ordered.kept h.ordered.bound opening hspare
    exact h.at_grown (h.ordered.grow hgrown) hgrown.extends

theorem inv_start : RunWorld.Inv store launch {} := by
  refine ⟨⟨Kept.nil store, fun _ hl => (nomatch hl), fun _ hn => (nomatch hn), fun _ hn => (nomatch hn), fun _ _ _ _ hitem => ?_⟩,
    fun _ _ => le_refl _, fun _ _ _ hitem => ?_⟩
  all_goals cases hitem

/-- a look's reconciliation raises nothing -/
theorem reconcileStep_raised (n : String) :
    (reconcileStep store launch view look items s n).gate.raised = s.gate.raised := by
  unfold reconcileStep
  cases items[stepItem store launch n]? with
  | none => rfl
  | some item =>
    simp only []
    split_ifs
    · rfl
    · rfl
    · show (HumanItems.queueRelease look.submits (s.gate, s.queue) item).1.raised = _
      unfold queueRelease
      split
      · split_ifs <;> rfl
      · rfl
    · rfl
    · rfl

theorem pass_raised (hkept : Kept store (raisedUp store launch view look s).files.journal) (hrecent : look.recent = false)
    (hunread : look.unread = false) :
    (Gate.pass store launch view look s).gate.raised = (raisedUp store launch view look s).gate.raised := by
  obtain ⟨fold, hfold⟩ := hkept.readable
  obtain ⟨files, gate, hpass, -, held, hgate⟩ := pass_read hrecent hunread hfold
  rw [hpass]
  show gate.raised = _
  rw [hgate]
  show Gate.raised (Standing.gate (List.foldl _ _ _)) = _
  induction view.steps using List.reverseRecOn with
  | nil => rfl
  | append_singleton nodes node ih =>
    rw [List.foldl_append, List.foldl_cons, List.foldl_nil, reconcileStep_raised]
    exact ih

variable (store launch look) in
/-- a step with its item open, or resolved by a person since its occurrence entered, its release in the queue or due -/
def RunWorld.Asked (w : RunWorld) (node : String) : Prop :=
  ∃ item, w.itemOf store launch node = some item ∧
    (item.state = .open ∨ item.state ≠ .open ∧ ByPerson item ∧
      (∀ old, standing (w.at_.files.journal.take (w.entered node)) (stepItem store launch node) = some old → old.state = .open) ∧
      ((∃ command ∈ w.at_.queue, Releases node item.state command) ∨ Due look w.at_.gate item))

variable (store launch look) in
/-- a look made, with each waiting step's raise answered and the journal read -/
def RunWorld.Looked (w : RunWorld) : Prop :=
  look.recent = false ∧ look.unread = false ∧
    ∀ n ∈ w.view.steps, w.view.waiting n = true → n ∈ (Gate.pass store launch w.view look w.at_).gate.raised

variable (look) in
/-- **A waiting step is asked about.** In every run each move of which is steady, each look that is made, raises every waiting
step and reads the journal leaves every waiting step asked about. -/
theorem waiting_step_asked (hkeys : Function.Injective store.itemIdFor) (hrun : Minted launch.run) (moves : List Move)
    (hmoves : Admits (RunWorld.step store launch) (fun w move => w.Allowed store launch move ∧ w.Steady store launch move) {}
      (moves ++ [Move.look look]))
    (hlooked : (moves.foldl (RunWorld.step store launch) {}).Looked store launch look) {node : String}
    (hnode : node ∈ (moves.foldl (RunWorld.step store launch) {}).view.steps)
    (hwaiting : (moves.foldl (RunWorld.step store launch) {}).view.waiting node = true) :
    ((moves ++ [Move.look look]).foldl (RunWorld.step store launch) {}).Asked store launch look node := by
  obtain ⟨hbefore, ⟨hallowed, hsteady⟩, -⟩ := Admits.append.mp hmoves
  have hinv : (moves.foldl (RunWorld.step store launch) {}).Inv store launch :=
    hbefore.invariant (I := RunWorld.Inv store launch) (fun w move h hm => step_inv hkeys hrun h hm.1 hm.2) inv_start
  have hafter := step_inv hkeys hrun hinv hallowed hsteady
  rw [List.foldl_append, List.foldl_cons, List.foldl_nil]
  generalize moves.foldl (RunWorld.step store launch) {} = w at *
  obtain ⟨hrecent, hunread, hraised⟩ := hlooked
  have hmeanwhile : ∀ t ∈ look.meanwhile, t.2.Elsewhere store launch ∧ t.2.ByPeople := fun t ht => ⟨hallowed t ht, hsteady t ht⟩
  have hup := raisedUp_ordered hkeys hrun hmeanwhile hinv.ordered
  rw [pass_raised hup.kept hrecent hunread] at hraised
  obtain ⟨-, hasks⟩ := pass_asks hkeys hrun hmeanwhile hinv.ordered hrecent hunread hraised
  obtain ⟨item, hitem, hasked⟩ := hasks node hnode hwaiting
  refine ⟨item, hitem, hasked.imp id ?_⟩
  rintro ⟨hstate, hperson, hrelease⟩
  exact ⟨hstate, hperson, hafter.unresolved node hnode, hrelease⟩

/-! ## A step dismissed, dropped and added again -/

def oneRun : Launch := { run := "r", session := "s", project := "p" }

def waitingStep : View :=
  { graph := .ofNodes [{ id := "a", kind := .human, task := some "sign" }]
    statuses := (∅ : StrMap NodeStatus).insert "a" .waiting
    metadata := fun _ => { kind := .task, title := "t", body := "b", priority := .high } }

def promptLook : Look := { now := 0 }

/-- the waiting step raised -/
theorem waiting_step_raised :
    ([.plan waitingStep ["a"], .look promptLook].foldl (RunWorld.step plainStore oneRun) {}).Asked plainStore oneRun promptLook "a" :=
  waiting_step_asked promptLook (fun _ _ h => h) ⟨by decide, by decide⟩ [.plan waitingStep ["a"]]
    ⟨⟨fun _ h => (List.not_mem_nil h.1).elim, fun _ _ _ _ hitem => (nomatch hitem)⟩,
      ⟨fun _ ht => (List.not_mem_nil ht).elim, fun _ ht => (List.not_mem_nil ht).elim⟩, trivial⟩
    ⟨rfl, rfl, by decide⟩ (by decide) (by decide)

/-- a person's dismissal drops the step, and the plan adds one of its id again -/
def droppedAndAdded : List Move :=
  [.plan waitingStep ["a"], .look promptLook,
    .store { room := true } (.apply (.dismiss "run:r#a" none { actor := "p", onBehalfOf := none }) fun _ _ => .ok none),
    .handed "a", .applied {} [], .plan waitingStep ["a"]]

/-- a look once the grace of a dismissal at time nought has passed -/
def laterLook : Look := { now := grace, millisOf := fun _ => some 0 }

def oldItem (w : RunWorld) : Option HumanItem := w.itemOf plainStore oneRun "a"

/-- the journal when the step of the same id entered again -/
def atEntry (w : RunWorld) : Option HumanItem :=
  standing (w.at_.files.journal.take (w.entered "a")) (stepItem plainStore oneRun "a")

/-- a step added under the id of one a person dismissed waits with nothing open, and the old dismissal drops it: nobody was
asked about it -/
theorem dropped_step_returns :
    Admits (RunWorld.step plainStore oneRun) (RunWorld.Allowed plainStore oneRun) {} (droppedAndAdded ++ [Move.look promptLook]) ∧
      (droppedAndAdded.foldl (RunWorld.step plainStore oneRun) {}).Looked plainStore oneRun promptLook ∧
      (droppedAndAdded.foldl (RunWorld.step plainStore oneRun) {}).view.waiting "a" = true ∧
      ¬((droppedAndAdded ++ [Move.look promptLook]).foldl (RunWorld.step plainStore oneRun) {}).Asked plainStore oneRun promptLook "a" ∧
      ∃ command ∈ ((droppedAndAdded ++ [Move.look laterLook]).foldl (RunWorld.step plainStore oneRun) {}).at_.queue,
        Releases "a" .dismissed command := by
  refine ⟨⟨?_, ?_, ?_, trivial, ?_, ?_, ?_, trivial⟩, ⟨rfl, rfl, by decide⟩, by decide, ?_, by decide⟩
  · exact fun _ h => (List.not_mem_nil h.1).elim
  · exact fun _ ht => (List.not_mem_nil ht).elim
  · exact fun _ _ _ h => (nomatch h)
  · exact fun _ h => (List.not_mem_nil h.2.2).elim
  · exact fun _ h => (List.not_mem_nil h.1).elim
  · exact fun _ ht => (List.not_mem_nil ht).elim
  · rintro ⟨item, hitem, hasked⟩
    have hnow : (oldItem ((droppedAndAdded ++ [Move.look promptLook]).foldl (RunWorld.step plainStore oneRun) {})).map
        HumanItem.state = some .dismissed := by decide
    have hbefore : (atEntry ((droppedAndAdded ++ [Move.look promptLook]).foldl (RunWorld.step plainStore oneRun) {})).map
        HumanItem.state = some .dismissed := by decide
    rcases hasked with hopen | ⟨-, -, hentry, -⟩
    · rw [oldItem, hitem, Option.map_some, hopen] at hnow
      exact absurd hnow (by decide)
    · obtain ⟨old, hold, hdismissed⟩ := Option.map_eq_some_iff.mp hbefore
      rw [hentry old hold] at hdismissed
      cases hdismissed

end OnePipeline.HumanItems
