/-
What is told of a landed retry's earlier attempts.

Results:
- `owed_of_mem`, `mem_of_owed`: an attempt of a landed lineage is a node its head superseded, on another branch, and where
  the lineage map is a forest every such node is one;
- `Turn.Sound`: what a turn asks, the pairs it records of it, and what the journal has of it after;
- `superseded_once`: over whole runs every question is about an owed attempt, none repeats a pair that was accepted and
  journalled, and what is owed is asked by the driver that first finds it landed or by the next `--record`.
-/
import Mathlib.Tactic
import OnePipeline.Core.Runs
import OnePipeline.Laws.Forest
import OnePipeline.Model.Supersession

namespace OnePipeline.Supersession

open Chase RunState Runs

/-! ## The walk -/

section

variable {s : RunState} {ids : List String} {a b head : String}

theorem mem_of_predecessors (h : (predecessors s)[b]? = some a) : s.superseded[a]? = some b := by
  have hpairs (l : List (String × String)) (m : StrMap String)
      (hl : (l.foldl (fun m p => m.insert p.2 p.1) m)[b]? = some a) : (a, b) ∈ l ∨ m[b]? = some a := by
    induction l generalizing m with
    | nil => exact .inr hl
    | cons p l ih =>
      rcases ih _ hl with hin | hm
      · exact .inl (List.mem_cons_of_mem _ hin)
      · rw [Maps.get_insert] at hm
        split_ifs at hm with heq
        · obtain ⟨x, y⟩ := p
          cases hm
          cases heq
          exact .inl List.mem_cons_self
        · exact .inr hm
  rcases hpairs _ _ h with hin | hnone
  · exact Std.ExtTreeMap.mem_toList_iff_getElem?_eq_some.mp hin
  · rw [Std.ExtTreeMap.getElem?_empty] at hnone
    cases hnone

theorem predecessors_of_mem (hinj : ∀ x y c : String, s.superseded[x]? = some c → s.superseded[y]? = some c → x = y)
    (h : s.superseded[a]? = some b) : (predecessors s)[b]? = some a := by
  have hsame : ∀ c ∈ s.superseded.toList, ∀ d ∈ s.superseded.toList, c.2 = d.2 → c.1 = d.1 := by
    rintro ⟨x, y⟩ hc ⟨x', y'⟩ hd rfl
    exact hinj x x' y (Std.ExtTreeMap.mem_toList_iff_getElem?_eq_some.mp hc) (Std.ExtTreeMap.mem_toList_iff_getElem?_eq_some.mp hd)
  exact Maps.get_foldl_insert_same Prod.snd Prod.fst hsame ∅ (Std.ExtTreeMap.mem_toList_iff_getElem?_eq_some.mpr h)

/-- whether a node is superseded by another, through however many -/
def Earlier (s : RunState) (a b : String) : Prop := Relation.TransGen (fun a b : String => s.superseded[a]? = some b) a b

theorem gather_eq (s : RunState) (head : String) :
    Chase.gather (fun id => (predecessors s)[id]?) (s.superseded.size + 1) [head] head = head :: chain s head := by
  have hstarts : [head] <+: Chase.gather (fun id => (predecessors s)[id]?) (s.superseded.size + 1) [head] head := prefix_gather
  obtain ⟨rest, hrest⟩ := hstarts
  rw [chain, ← hrest]
  rfl

theorem nodup_chain (s : RunState) (head : String) : (head :: chain s head).Nodup := by
  rw [← gather_eq]
  exact nodup_gather (List.nodup_singleton head)

theorem earlier_of_mem (h : a ∈ chain s head) : Earlier s a head := by
  have hin : a ∈ Chase.gather (fun id => (predecessors s)[id]?) (s.superseded.size + 1) [head] head := by
    rw [gather_eq]
    exact List.mem_cons_of_mem _ h
  rcases mem_gather hin with hself | hback
  · rw [List.mem_singleton.mp hself] at h
    exact absurd h (List.nodup_cons.mp (nodup_chain s head)).1
  · rw [Earlier, ← Relation.transGen_swap]
    exact Relation.TransGen.mono (fun x y hxy => mem_of_predecessors hxy) _ _ hback

theorem predecessors_bounded (s : RunState) :
    ∃ K : Finset String, K.card ≤ s.superseded.size ∧ ∀ c, ((predecessors s)[c]?).isSome = true → c ∈ K := by
  refine ⟨(s.superseded.toList.map Prod.snd).toFinset, ?_, fun c hc => ?_⟩
  · calc (s.superseded.toList.map Prod.snd).toFinset.card ≤ (s.superseded.toList.map Prod.snd).length := List.toFinset_card_le _
      _ = s.superseded.size := by rw [List.length_map, Std.ExtTreeMap.length_toList]
  · obtain ⟨a, ha⟩ := Option.isSome_iff_exists.mp hc
    have hin : (a, c) ∈ s.superseded.toList := Std.ExtTreeMap.mem_toList_iff_getElem?_eq_some.mpr (mem_of_predecessors ha)
    exact List.mem_toFinset.mpr (List.mem_map.mpr ⟨_, hin, rfl⟩)

/-- where each replacement superseded one node, the walk misses none of a lineage -/
theorem mem_chain_of_forest (h : Forest s.superseded ids) (hearlier : Earlier s a head) : a ∈ chain s head := by
  have hback (x y : String) : links s.superseded x = some y ↔ (predecessors s)[y]? = some x :=
    ⟨predecessors_of_mem h.injective, mem_of_predecessors⟩
  obtain ⟨K, hcard, hK⟩ := predecessors_bounded s
  obtain ⟨first, l, ht⟩ := h.stopped.undone hK hback head
  have hfuel : l.length ≤ s.superseded.size + 1 + 1 := (ht.length_le hK).trans (by omega)
  have hreach : Relation.ReflTransGen (fun x y => (predecessors s)[x]? = some y) head a := by
    refine Relation.TransGen.to_reflTransGen ?_
    rw [← Relation.transGen_swap]
    exact Relation.TransGen.mono (fun x y hxy => predecessors_of_mem h.injective hxy) _ _ hearlier
  have hon : a ∈ l := Trail.of_reaches hreach ht
  have hne : a ≠ head := by
    rintro rfl
    exact h.acyclic a hearlier
  have hwhole := ht.gather hfuel fun c hc hin => by
    rw [List.mem_singleton.mp hin] at hc
    have hnodup := ht.nodup
    have hcons : l = head :: l.tail := by cases ht <;> rfl
    rw [hcons, List.nodup_cons] at hnodup
    exact hnodup.1 hc
  rw [gather_eq, List.singleton_append] at hwhole
  rw [(List.cons.inj hwhole).2]
  cases ht with
  | stop => exact absurd (List.mem_singleton.mp hon) hne
  | step => exact (List.mem_cons.mp hon).resolve_left hne

end

/-! ## What a landed lineage owes -/

section

variable {sib : Siblings} {s : RunState} {lineage : Lineage} {attempt : Attempt}

/-- an attempt `onevcs` is owed: a node superseded, through however many, by one that landed from another branch -/
structure Owed (sib : Siblings) (s : RunState) (lineage : Lineage) (attempt : Attempt) : Prop where
  landed : landed s lineage.node = true
  branch : branchOf s lineage.node = some lineage.branch
  landing : landingOf sib s lineage.node = some lineage.landing
  repo : (s.graph.get lineage.node).bind Node.repo = some lineage.repo
  earlier : Earlier s attempt.node lineage.node
  left : branchOf s attempt.node = some attempt.branch
  apart : attempt.branch ≠ lineage.branch

theorem mem_heads {node : String} : node ∈ heads s ↔ (node ∈ s.landings ∨ node ∈ s.landingCommits) ∧ node ∈ predecessors s := by
  have hset (l : List String) (m : StrSet) : node ∈ l.foldl (fun m id => m.insert id) m ↔ node ∈ m ∨ node ∈ l := by
    induction l generalizing m with
    | nil => simp
    | cons id l ih =>
      rw [List.foldl_cons, ih, Std.ExtTreeSet.mem_insert, compare_eq_iff_eq, List.mem_cons]
      tauto
  rw [heads, List.mem_filter, Std.ExtTreeSet.mem_toList, hset, decide_eq_true_eq, List.mem_append]
  simp [Std.ExtTreeMap.mem_keys]

theorem mem_lineages : lineage ∈ lineages sib s ↔
    lineage.node ∈ heads s ∧ Supersession.landed s lineage.node = true ∧ lineageOf sib s lineage.node = some lineage := by
  have hnode {node : String} (h : lineageOf sib s node = some lineage) : lineage.node = node := by
    simp only [lineageOf, bind, Option.bind_eq_some_iff, pure, Option.some.injEq] at h
    obtain ⟨_, -, _, -, _, -, rfl⟩ := h
    rfl
  rw [lineages, List.mem_filterMap]
  constructor
  · rintro ⟨node, hin, hof⟩
    obtain ⟨hhead, hlanded⟩ := List.mem_filter.mp hin
    rw [← hnode hof] at hhead hlanded hof
    exact ⟨hhead, hlanded, hof⟩
  · rintro ⟨hhead, hlanded, hof⟩
    exact ⟨_, List.mem_filter.mpr ⟨hhead, hlanded⟩, hof⟩

theorem nodup_heads : (heads s).Nodup := by
  refine List.Nodup.filter _ ?_
  exact Std.ExtTreeSet.distinct_toList.imp fun h heq => h (by rw [heq]; exact Std.ReflCmp.compare_self)

theorem nodup_lineages : ((lineages sib s).map Lineage.node).Nodup := by
  have hsub : ((lineages sib s).map Lineage.node).Sublist (heads s) := by
    have hmap (l : List String) : ((l.filterMap (lineageOf sib s)).map Lineage.node).Sublist l := by
      induction l with
      | nil => exact List.Sublist.slnil
      | cons node l ih =>
        rw [List.filterMap_cons]
        cases hof : lineageOf sib s node with
        | none => exact ih.cons _
        | some lineage =>
          have hnode : lineage.node = node := by
            simp only [lineageOf, bind, Option.bind_eq_some_iff, pure, Option.some.injEq] at hof
            obtain ⟨_, -, _, -, _, -, rfl⟩ := hof
            rfl
          rw [List.map_cons, hnode]
          exact ih.cons_cons _
    exact (hmap _).trans List.filter_sublist
  exact hsub.nodup nodup_heads

theorem lineageOf_eq_some {node : String} : lineageOf sib s node = some lineage ↔
    branchOf s node = some lineage.branch ∧ landingOf sib s node = some lineage.landing ∧
      (s.graph.get node).bind Node.repo = some lineage.repo ∧ lineage.node = node ∧
      lineage.superseded = (chain s node).reverse.filterMap fun attempt =>
        ((branchOf s attempt).filter fun left => left ≠ lineage.branch).map fun left => { node := attempt, branch := left } := by
  obtain ⟨name, branch, repo, landing, superseded⟩ := lineage
  simp only [lineageOf, bind, Option.bind_eq_some_iff, pure, Option.some.injEq, Lineage.mk.injEq]
  constructor
  · rintro ⟨branch', hbranch, landing', hlanding, repo', hrepo, rfl, rfl, rfl, rfl, rfl⟩
    exact ⟨hbranch, hlanding, hrepo, rfl, rfl⟩
  · rintro ⟨hbranch, hlanding, hrepo, rfl, hsuperseded⟩
    exact ⟨branch, hbranch, landing, hlanding, repo, hrepo, rfl, rfl, rfl, rfl, hsuperseded.symm⟩

theorem mem_superseded_iff (h : lineageOf sib s lineage.node = some lineage) : attempt ∈ lineage.superseded ↔
    attempt.node ∈ chain s lineage.node ∧ branchOf s attempt.node = some attempt.branch ∧ attempt.branch ≠ lineage.branch := by
  obtain ⟨-, -, -, -, hsuperseded⟩ := lineageOf_eq_some.mp h
  rw [hsuperseded, List.mem_filterMap]
  constructor
  · rintro ⟨node, hin, hof⟩
    obtain ⟨left, hleft, rfl⟩ := Option.map_eq_some_iff.mp hof
    obtain ⟨hbranch, hne⟩ := Option.filter_eq_some_iff.mp hleft
    exact ⟨List.mem_reverse.mp hin, hbranch, by simpa using hne⟩
  · rintro ⟨hin, hbranch, hne⟩
    exact ⟨attempt.node, List.mem_reverse.mpr hin, by simp [hbranch, hne]⟩

/-- **Abandoned.** An attempt of a landed lineage is owed. -/
theorem owed_of_mem (h : lineage ∈ lineages sib s) (hin : attempt ∈ lineage.superseded) : Owed sib s lineage attempt := by
  obtain ⟨-, hlanded, hof⟩ := mem_lineages.mp h
  obtain ⟨hbranch, hlanding, hrepo, -, -⟩ := lineageOf_eq_some.mp hof
  obtain ⟨hchain, hleft, hapart⟩ := (mem_superseded_iff hof).mp hin
  exact ⟨hlanded, hbranch, hlanding, hrepo, earlier_of_mem hchain, hleft, hapart⟩

/-- **None missed.** Where each replacement superseded one node, every attempt owed is one of a landed lineage. -/
theorem mem_of_owed {ids : List String} (h : Forest s.superseded ids) (howed : Owed sib s lineage attempt) :
    ∃ found ∈ lineages sib s, found.node = lineage.node ∧ found.landing = lineage.landing ∧ attempt ∈ found.superseded := by
  obtain ⟨found, hfound⟩ : ∃ found, lineageOf sib s lineage.node = some found := by
    let attempts := (chain s lineage.node).reverse.filterMap fun attempt =>
      ((branchOf s attempt).filter fun left => left ≠ lineage.branch).map fun left => { node := attempt, branch := left : Attempt }
    exact ⟨{ lineage with superseded := attempts }, lineageOf_eq_some.mpr ⟨howed.branch, howed.landing, howed.repo, rfl, rfl⟩⟩
  obtain ⟨hbranch, hlanding, -, hnode, -⟩ := lineageOf_eq_some.mp hfound
  have hlanding' : found.landing = lineage.landing := Option.some.inj (hlanding.symm.trans howed.landing)
  have hbranch' : found.branch = lineage.branch := Option.some.inj (hbranch.symm.trans howed.branch)
  rw [← hnode] at hfound
  have hhead : found.node ∈ heads s := by
    obtain ⟨x, -, hlast⟩ := Relation.TransGen.tail'_iff.mp howed.earlier
    rw [hnode]
    refine mem_heads.mpr ⟨?_, Maps.mem_iff.mpr ⟨x, predecessors_of_mem h.injective hlast⟩⟩
    have hlanded := howed.landed
    simp only [Supersession.landed, Bool.or_eq_true, decide_eq_true_eq] at hlanded
    exact hlanded.imp_left fun hl => Maps.mem_iff.mpr ⟨_, hl⟩
  refine ⟨found, mem_lineages.mpr ⟨hhead, hnode ▸ howed.landed, hfound⟩, hnode, hlanding', ?_⟩
  refine (mem_superseded_iff hfound).mpr ⟨?_, howed.left, hbranch' ▸ howed.apart⟩
  rw [hnode]
  exact mem_chain_of_forest h howed.earlier

end

/-! ## One turn -/

section

variable {known : List RecordedPair} {journal : List Entry} {passed : List Lineage} {t : Turn} {service : Service}
  {lineage : Lineage} {pending : List Attempt}

/-- whether an attempt names a node and a branch, as every one this crate asks about does -/
def Attempt.Named (attempt : Attempt) : Prop := attempt.node ≠ "" ∧ attempt.branch ≠ ""

theorem recordedIn_append (l m : List Entry) : recordedIn (l ++ m) = recordedIn l ++ recordedIn m := List.flatMap_append

theorem pairs_entryOf {seq : ℕ} {done : Recorded} {p : RecordedPair} : p ∈ (entryOf seq lineage done).pairs ↔
    ∃ attempt ∈ done.recorded, attempt.Named ∧ (lineage.node, lineage.landing.reference, attempt) = p := by
  simp [entryOf, Entry.pairs, Envelope.own, Attempt.Named, and_assoc]

theorem mem_recorded {run : String} {answers : Answers} {attempt : Attempt} :
    attempt ∈ (record run answers lineage pending).recorded ↔ attempt ∈ pending ∧ answers (tell run lineage attempt) = none := by
  simp [record, List.mem_filter]

/-- a turn over lineages as far as it has come -/
structure Turn.Sound (known : List RecordedPair) (journal : List Entry) (passed : List Lineage) (t : Turn) : Prop where
  grows : journal <+: t.journal
  asks : ∀ asked ∈ t.asked, asked.lineage ∈ passed ∧ asked.attempt ∈ asked.lineage.superseded ∧ asked.pair ∉ known
  records : ∀ asked ∈ t.asked, asked.accepted → asked.journalled → asked.attempt.Named → asked.pair ∈ recordedIn t.journal
  once : (t.asked.map fun asked => (asked.lineage.node, asked.attempt)).Nodup

theorem Turn.Sound.start (watch : Watch) : Turn.Sound known journal [] { watch, journal } where
  grows := List.prefix_refl _
  asks := fun _ hasked => by cases hasked
  records := fun _ hasked => by cases hasked
  once := List.nodup_nil

/-- a lineage nothing is asked of -/
theorem Turn.Sound.skip (h : t.Sound known journal passed) : t.Sound known journal (passed ++ [lineage]) :=
  { h with asks := fun asked hasked => (h.asks asked hasked).imp_left fun hin => List.mem_append_left _ hin }

theorem Turn.Sound.of_watch (h : t.Sound known journal passed) (watch : Watch) :
    Turn.Sound known journal passed { t with watch } := ⟨h.grows, h.asks, h.records, h.once⟩

theorem mem_ask_asked {asked : Asked} : asked ∈ (t.ask service lineage pending).asked ↔ asked ∈ t.asked ∨
    ∃ attempt ∈ pending, asked = ⟨lineage, attempt, attempt ∈ (record service.run service.answers lineage pending).recorded, service.takes lineage⟩ := by
  have hasked : (t.ask service lineage pending).asked = t.asked ++ pending.map fun attempt =>
      ⟨lineage, attempt, attempt ∈ (record service.run service.answers lineage pending).recorded, service.takes lineage⟩ := by
    unfold Turn.ask
    simp only []
    split_ifs <;> rfl
  rw [hasked, List.mem_append, List.mem_map]
  simp only [eq_comm]

theorem journal_ask : (t.ask service lineage pending).journal =
    if service.takes lineage then
      t.journal ++ [entryOf t.journal.length lineage (record service.run service.answers lineage pending)]
    else t.journal := by
  unfold Turn.ask
  simp only []
  split_ifs <;> rfl

/-- a lineage asked of attempts nothing known records -/
theorem Turn.Sound.ask (h : t.Sound known journal passed) (hnew : lineage.node ∉ passed.map Lineage.node)
    (hpending : ∀ attempt ∈ pending, attempt ∈ unrecorded lineage known) (hnodup : pending.Nodup) :
    (t.ask service lineage pending).Sound known journal (passed ++ [lineage]) := by
  have hgrows : t.journal <+: (t.ask service lineage pending).journal := by
    rw [journal_ask]
    split_ifs
    · exact List.prefix_append _ _
    · exact List.prefix_refl _
  refine ⟨h.grows.trans hgrows, fun asked hasked => ?_, fun asked hasked haccepted hjournalled hnamed => ?_, ?_⟩
  · rcases mem_ask_asked.mp hasked with hold | ⟨attempt, hin, rfl⟩
    · exact (h.asks asked hold).imp_left fun hin => List.mem_append_left _ hin
    · obtain ⟨hsuperseded, hunknown⟩ := List.mem_filter.mp (hpending attempt hin)
      exact ⟨List.mem_append_right _ List.mem_cons_self, hsuperseded, by simpa [Asked.pair] using hunknown⟩
  · rcases mem_ask_asked.mp hasked with hold | ⟨attempt, hin, rfl⟩
    · obtain ⟨more, hmore⟩ := hgrows
      rw [← hmore, recordedIn_append]
      exact List.mem_append_left _ (h.records asked hold haccepted hjournalled hnamed)
    · rw [journal_ask, if_pos hjournalled, recordedIn_append]
      refine List.mem_append_right _ (List.mem_flatMap.mpr ⟨_, List.mem_cons_self, pairs_entryOf.mpr ⟨attempt, ?_, hnamed, rfl⟩⟩)
      exact of_decide_eq_true haccepted
  · have hasked : (t.ask service lineage pending).asked.map (fun asked => (asked.lineage.node, asked.attempt)) =
        t.asked.map (fun asked => (asked.lineage.node, asked.attempt)) ++ pending.map fun attempt => (lineage.node, attempt) := by
      unfold Turn.ask
      simp only []
      split_ifs <;> simp [Function.comp_def]
    rw [hasked]
    refine List.nodup_append.mpr ⟨h.once, hnodup.map fun a b hab => (Prod.mk.inj hab).2, fun p hp q hq heq => ?_⟩
    obtain ⟨asked, hold, rfl⟩ := List.mem_map.mp hp
    obtain ⟨attempt, -, rfl⟩ := List.mem_map.mp hq
    -- the lineages before are of other heads
    exact hnew ((Prod.mk.inj heq).1 ▸ List.mem_map_of_mem (h.asks asked hold).1)

end

/-! ## A turn over every lineage -/

section

variable {sib : Siblings} {s : RunState} {known recorded : List RecordedPair} {journal : List Entry} {passed ls : List Lineage}
  {t : Turn} {watch : Watch} {service : Service} {lineage : Lineage} {attempt : Attempt} {pending : List Attempt}

theorem nodup_superseded (h : lineageOf sib s lineage.node = some lineage) : lineage.superseded.Nodup := by
  obtain ⟨-, -, -, -, hsuperseded⟩ := lineageOf_eq_some.mp h
  have hnodup : (chain s lineage.node).reverse.Nodup := List.nodup_reverse.mpr (List.nodup_cons.mp (nodup_chain s _)).2
  rw [hsuperseded]
  refine hnodup.filterMap fun a a' b hb hb' => ?_
  obtain ⟨_, -, rfl⟩ := Option.map_eq_some_iff.mp hb
  obtain ⟨_, -, heq⟩ := Option.map_eq_some_iff.mp hb'
  exact (Attempt.mk.inj heq).1.symm

/-- lineages of one head each, that hold each attempt once -/
structure Apart (ls : List Lineage) : Prop where
  heads : (ls.map Lineage.node).Nodup
  attempts : ∀ lineage ∈ ls, lineage.superseded.Nodup

theorem apart_lineages : Apart (lineages sib s) where
  heads := nodup_lineages
  attempts := fun _ h => nodup_superseded (mem_lineages.mp h).2.2

/-- what a driver holds as recorded, through a turn that found `recorded` -/
structure Turn.Held (recorded : List RecordedPair) (t : Turn) : Prop where
  covers : ∀ p ∈ recordedIn t.journal, p ∈ t.watch.recorded
  keeps : ∀ p ∈ recorded, p ∈ t.watch.recorded
  asked : ∀ p ∈ t.watch.recorded, p ∈ recorded ∨ ∃ asked ∈ t.asked, asked.accepted = true ∧ asked.pair = p

theorem Turn.Held.ask (h : t.Held recorded) : (t.ask service lineage pending).Held recorded := by
  have hold {asked : Asked} (hin : asked ∈ t.asked) : asked ∈ (t.ask service lineage pending).asked :=
    mem_ask_asked.mpr (.inl hin)
  have hrecorded : (t.ask service lineage pending).watch.recorded = if service.takes lineage then
      t.watch.recorded ++ (record service.run service.answers lineage pending).recorded.map fun attempt =>
        (lineage.node, lineage.landing.reference, attempt)
      else t.watch.recorded := by
    unfold Turn.ask
    simp only []
    split_ifs <;> rfl
  refine ⟨fun p hp => ?_, fun p hp => ?_, fun p hp => ?_⟩
  · rw [journal_ask] at hp
    rw [hrecorded]
    split_ifs at hp ⊢
    · rw [recordedIn_append] at hp
      rcases List.mem_append.mp hp with hp | hp
      · exact List.mem_append_left _ (h.covers p hp)
      · simp only [recordedIn, List.flatMap_cons, List.flatMap_nil, List.append_nil] at hp
        obtain ⟨attempt, hin, -, rfl⟩ := pairs_entryOf.mp hp
        exact List.mem_append_right _ (List.mem_map_of_mem hin)
    · exact h.covers p hp
  · rw [hrecorded]
    split_ifs
    · exact List.mem_append_left _ (h.keeps p hp)
    · exact h.keeps p hp
  · rw [hrecorded] at hp
    have hbefore (hp : p ∈ t.watch.recorded) :
        p ∈ recorded ∨ ∃ asked ∈ (t.ask service lineage pending).asked, asked.accepted = true ∧ asked.pair = p :=
      (h.asked p hp).imp_right fun ⟨asked, hin, haccepted⟩ => ⟨asked, hold hin, haccepted⟩
    split_ifs at hp
    · rcases List.mem_append.mp hp with hp | hp
      · exact hbefore hp
      · obtain ⟨attempt, hin, rfl⟩ := List.mem_map.mp hp
        exact .inr ⟨_, mem_ask_asked.mpr (.inr ⟨attempt, (mem_recorded.mp hin).1, rfl⟩), decide_eq_true hin, rfl⟩
    · exact hbefore hp

theorem Turn.Held.of_answered (h : t.Held recorded) (answered : List String) :
    Turn.Held recorded { t with watch := { t.watch with answered } } := ⟨h.covers, h.keeps, h.asked⟩

/-- one lineage in a driver's pass -/
theorem passOver_cases (service : Service) (t : Turn) (lineage : Lineage) :
    (t.ended = true ∨ lineage.node ∈ t.watch.answered) ∧ t.passOver service lineage = t ∨
      t.ended = false ∧ lineage.node ∉ t.watch.answered ∧
        (unrecorded lineage t.watch.recorded = [] ∧
            t.passOver service lineage = { t with watch := { t.watch with answered := t.watch.answered ++ [lineage.node] } } ∨
          t.passOver service lineage =
            Turn.ask service { t with watch := { t.watch with answered := t.watch.answered ++ [lineage.node] } } lineage
              (unrecorded lineage t.watch.recorded)) := by
  unfold Turn.passOver
  by_cases hover : (t.ended || decide (lineage.node ∈ t.watch.answered)) = true
  · rw [if_pos hover]
    simp only [Bool.or_eq_true, decide_eq_true_eq] at hover
    exact .inl ⟨hover, rfl⟩
  · rw [if_neg hover]
    simp only [Bool.or_eq_true, decide_eq_true_eq, not_or, Bool.not_eq_true] at hover
    refine .inr ⟨hover.1, hover.2, ?_⟩
    cases hpending : unrecorded lineage t.watch.recorded with
    | nil => exact .inl ⟨rfl, by simp only [hpending]⟩
    | cons attempt rest => exact .inr (by simp only [hpending])

/-- one lineage in a `supersessions --record` -/
theorem recordOver_cases (service : Service) (already : List RecordedPair) (t : Turn) (lineage : Lineage) :
    t.ended = true ∧ t.recordOver service already lineage = t ∨
      t.ended = false ∧ (unrecorded lineage already = [] ∧ t.recordOver service already lineage = t ∨
        t.recordOver service already lineage = t.ask service lineage (unrecorded lineage already)) := by
  unfold Turn.recordOver
  by_cases hover : t.ended = true
  · exact .inl ⟨hover, if_pos hover⟩
  · rw [if_neg hover]
    refine .inr ⟨Bool.not_eq_true _ ▸ hover, ?_⟩
    cases hpending : unrecorded lineage already with
    | nil => exact .inl ⟨rfl, rfl⟩
    | cons attempt rest => exact .inr rfl

theorem Turn.Sound.passOver (h : t.Sound known journal passed) (hknown : ∀ p ∈ known, p ∈ t.watch.recorded)
    (hnew : lineage.node ∉ passed.map Lineage.node) (hnodup : lineage.superseded.Nodup) :
    (t.passOver service lineage).Sound known journal (passed ++ [lineage]) := by
  rcases passOver_cases service t lineage with ⟨-, hsame⟩ | ⟨-, -, ⟨-, hnone⟩ | hasked⟩
  · rw [hsame]
    exact h.skip
  · rw [hnone]
    exact (h.of_watch _).skip
  · rw [hasked]
    refine (h.of_watch _).ask hnew (fun attempt hin => ?_) (hnodup.filter _)
    obtain ⟨hsuperseded, hunrecorded⟩ := List.mem_filter.mp hin
    refine List.mem_filter.mpr ⟨hsuperseded, decide_eq_true fun hin => ?_⟩
    exact of_decide_eq_true hunrecorded (hknown _ hin)

theorem Turn.Held.passOver (h : t.Held recorded) : (t.passOver service lineage).Held recorded := by
  rcases passOver_cases service t lineage with ⟨-, hsame⟩ | ⟨-, -, ⟨-, hnone⟩ | hasked⟩
  · rw [hsame]
    exact h
  · rw [hnone]
    exact h.of_answered _
  · rw [hasked]
    exact (h.of_answered _).ask

/-- a pass over lineages, from what a driver holds -/
theorem pass_sound (service : Service) (hcovers : ∀ p ∈ recordedIn journal, p ∈ watch.recorded) (hls : Apart ls) :
    (watch.pass service ls journal).Sound (recordedIn journal) journal ls ∧ (watch.pass service ls journal).Held watch.recorded := by
  have hfold (passed ls : List Lineage) (t : Turn) (hls : Apart (passed ++ ls)) (hsound : t.Sound (recordedIn journal) journal passed)
      (hheld : t.Held watch.recorded) :
      (ls.foldl (Turn.passOver service) t).Sound (recordedIn journal) journal (passed ++ ls) ∧
        (ls.foldl (Turn.passOver service) t).Held watch.recorded := by
    induction ls generalizing passed t with
    | nil =>
      rw [List.append_nil]
      exact ⟨hsound, hheld⟩
    | cons lineage ls ih =>
      have hnew : lineage.node ∉ passed.map Lineage.node := by
        have hheads := hls.heads
        rw [List.map_append, List.map_cons, List.nodup_append] at hheads
        exact fun hin => hheads.2.2 _ hin _ List.mem_cons_self rfl
      have hnodup := hls.attempts lineage (List.mem_append_right _ List.mem_cons_self)
      have hassoc : passed ++ lineage :: ls = passed ++ [lineage] ++ ls := by rw [List.append_assoc, List.singleton_append]
      rw [hassoc] at hls ⊢
      refine ih _ _ hls (hsound.passOver (fun p hp => hheld.keeps p (hcovers p hp)) hnew hnodup) hheld.passOver
  exact hfold [] ls _ hls (Turn.Sound.start watch) ⟨hcovers, fun _ hp => hp, fun _ hp => .inl hp⟩

/-- a `supersessions --record` over lineages -/
theorem record_sound (hls : Apart ls) (t : Turn) (hsound : t.Sound known journal passed)
    (hpassed : Apart (passed ++ ls)) : (ls.foldl (Turn.recordOver service known) t).Sound known journal (passed ++ ls) := by
  induction ls generalizing passed t with
  | nil =>
    rw [List.append_nil]
    exact hsound
  | cons lineage ls ih =>
    have hnew : lineage.node ∉ passed.map Lineage.node := by
      have hheads := hpassed.heads
      rw [List.map_append, List.map_cons, List.nodup_append] at hheads
      exact fun hin => hheads.2.2 _ hin _ List.mem_cons_self rfl
    have hnodup := hls.attempts lineage List.mem_cons_self
    have hassoc : passed ++ lineage :: ls = passed ++ [lineage] ++ ls := by rw [List.append_assoc, List.singleton_append]
    have hrest : Apart ls := ⟨(List.nodup_cons.mp hls.heads).2, fun l hl => hls.attempts l (List.mem_cons_of_mem _ hl)⟩
    have hturn : (t.recordOver service known lineage).Sound known journal (passed ++ [lineage]) := by
      rcases recordOver_cases service known t lineage with ⟨-, hsame⟩ | ⟨-, ⟨-, hsame⟩ | hasked⟩
      · rw [hsame]
        exact hsound.skip
      · rw [hsame]
        exact hsound.skip
      · rw [hasked]
        exact hsound.ask hnew (fun _ hin => hin) (hnodup.filter _)
    rw [hassoc] at hpassed ⊢
    exact ih hrest _ hturn hpassed

/-! ### What a whole turn asks -/

theorem asked_passOver (service : Service) (t : Turn) (lineage : Lineage) {asked : Asked} (h : asked ∈ t.asked) :
    asked ∈ (t.passOver service lineage).asked := by
  rcases passOver_cases service t lineage with ⟨-, hsame⟩ | ⟨-, -, ⟨-, hnone⟩ | hasked⟩
  · rw [hsame]
    exact h
  · rw [hnone]
    exact h
  · rw [hasked]
    exact mem_ask_asked.mpr (.inl h)

theorem ended_ask (h : service.takes lineage = true) : (t.ask service lineage pending).ended = t.ended := by
  unfold Turn.ask
  simp only [h, if_true]

theorem answered_ask : (t.ask service lineage pending).watch.answered = t.watch.answered := by
  unfold Turn.ask
  simp only []
  split_ifs <;> rfl

/-- the heads answered after a lineage: those before, and its own -/
theorem answered_passOver {node : String} (h : node ∈ (t.passOver service lineage).watch.answered) :
    node ∈ t.watch.answered ∨ node = lineage.node := by
  rcases passOver_cases service t lineage with ⟨-, hsame⟩ | ⟨-, -, ⟨-, hnone⟩ | hasked⟩
  · exact .inl (hsame ▸ h)
  · rw [hnone] at h
    exact (List.mem_append.mp h).imp_right List.mem_singleton.mp
  · rw [hasked, answered_ask] at h
    exact (List.mem_append.mp h).imp_right List.mem_singleton.mp

theorem answered_pass {node : String} (h : node ∈ (watch.pass service ls journal).watch.answered) :
    node ∈ watch.answered ∨ node ∈ ls.map Lineage.node := by
  have hfold (ls : List Lineage) (t : Turn) (h : node ∈ (ls.foldl (Turn.passOver service) t).watch.answered) :
      node ∈ t.watch.answered ∨ node ∈ ls.map Lineage.node := by
    induction ls generalizing t with
    | nil => exact .inl h
    | cons lineage ls ih =>
      rcases ih _ h with hin | hin
      · refine (answered_passOver hin).imp_right fun heq => ?_
        rw [heq]
        exact List.mem_cons_self
      · exact .inr (List.mem_cons_of_mem _ hin)
  exact hfold ls _ h

/-- **Asked at the landing.** A pass whose records the journal takes asks every attempt of a lineage it answers for the
first time, but those the driver holds as recorded. -/
theorem pass_asks (htakes : ∀ lineage, service.takes lineage = true) (hcovers : ∀ p ∈ recordedIn journal, p ∈ watch.recorded)
    (hls : Apart ls) (hin : lineage ∈ ls) (hfirst : lineage.node ∉ watch.answered) (hattempt : attempt ∈ lineage.superseded) :
    (lineage.node, lineage.landing.reference, attempt) ∈ watch.recorded ∨
      ∃ asked ∈ (watch.pass service ls journal).asked, asked.lineage = lineage ∧ asked.attempt = attempt := by
  obtain ⟨before, after, rfl⟩ := List.append_of_mem hin
  obtain ⟨hheads, hothers⟩ : Apart before ∧ lineage.node ∉ before.map Lineage.node := by
    have hnodup := hls.heads
    rw [List.map_append, List.map_cons, List.nodup_append] at hnodup
    exact ⟨⟨hnodup.1, fun l hl => hls.attempts l (List.mem_append_left _ hl)⟩, fun hin => hnodup.2.2 _ hin _ List.mem_cons_self rfl⟩
  obtain ⟨hsound, hheld⟩ := pass_sound service hcovers hheads
  let t := watch.pass service before journal
  have hended : t.ended = false := by
    have hfold (ls : List Lineage) (t : Turn) (h : t.ended = false) : (ls.foldl (Turn.passOver service) t).ended = false := by
      induction ls generalizing t with
      | nil => exact h
      | cons lineage ls ih =>
        refine ih _ ?_
        rcases passOver_cases service t lineage with ⟨-, hsame⟩ | ⟨-, -, ⟨-, hnone⟩ | hasked⟩
        · rw [hsame]
          exact h
        · rw [hnone]
          exact h
        · rw [hasked, ended_ask (htakes lineage)]
          exact h
    exact hfold before _ rfl
  have hunanswered : lineage.node ∉ t.watch.answered := fun hin => (answered_pass hin).elim hfirst hothers
  have hkeep {asked : Asked} (hasked : asked ∈ (t.passOver service lineage).asked) :
      asked ∈ (watch.pass service (before ++ lineage :: after) journal).asked := by
    have hfold (ls : List Lineage) (t : Turn) (h : asked ∈ t.asked) : asked ∈ (ls.foldl (Turn.passOver service) t).asked := by
      induction ls generalizing t with
      | nil => exact h
      | cons lineage ls ih => exact ih _ (asked_passOver service t lineage h)
    have hwhole : watch.pass service (before ++ lineage :: after) journal = after.foldl (Turn.passOver service) (t.passOver service lineage) := by
      rw [Watch.pass, List.foldl_append, List.foldl_cons]
      rfl
    rw [hwhole]
    exact hfold after _ hasked
  by_cases hrecorded : (lineage.node, lineage.landing.reference, attempt) ∈ t.watch.recorded
  · -- the lineages before are of other heads, so what they recorded is none of this one's
    rcases hheld.asked _ hrecorded with hbefore | ⟨asked, hasked, -, hpair⟩
    · exact .inl hbefore
    · have hhead : asked.lineage.node = lineage.node := (Prod.mk.inj hpair).1
      exact absurd (hhead ▸ List.mem_map_of_mem (hsound.asks asked hasked).1) hothers
  · have hpending : attempt ∈ unrecorded lineage t.watch.recorded := List.mem_filter.mpr ⟨hattempt, decide_eq_true hrecorded⟩
    rcases passOver_cases service t lineage with ⟨hover, -⟩ | ⟨-, -, ⟨hnone, -⟩ | hasked⟩
    · rcases hover with hover | hover
      · rw [hended] at hover
        cases hover
      · exact absurd hover hunanswered
    · rw [hnone] at hpending
      cases hpending
    · refine .inr ⟨⟨lineage, attempt,
        attempt ∈ (record service.run service.answers lineage (unrecorded lineage t.watch.recorded)).recorded,
        service.takes lineage⟩, hkeep ?_, rfl, rfl⟩
      rw [hasked]
      exact mem_ask_asked.mpr (.inr ⟨attempt, hpending, rfl⟩)

/-- **Asked by the call.** A `supersessions --record` whose records the journal takes asks every attempt the journal does
not record. -/
theorem record_asks (htakes : ∀ lineage, service.takes lineage = true) {t : Turn} (hended : t.ended = false) (hin : lineage ∈ ls)
    (hattempt : attempt ∈ lineage.superseded) (hunknown : (lineage.node, lineage.landing.reference, attempt) ∉ known) :
    ∃ asked ∈ (ls.foldl (Turn.recordOver service known) t).asked, asked.lineage = lineage ∧ asked.attempt = attempt := by
  have hstep (t : Turn) (lineage : Lineage) (h : t.ended = false) : (t.recordOver service known lineage).ended = false ∧
      ∀ asked ∈ t.asked, asked ∈ (t.recordOver service known lineage).asked := by
    rcases recordOver_cases service known t lineage with ⟨-, hsame⟩ | ⟨-, ⟨-, hsame⟩ | hasked⟩
    · rw [hsame]
      exact ⟨h, fun _ hin => hin⟩
    · rw [hsame]
      exact ⟨h, fun _ hin => hin⟩
    · rw [hasked, ended_ask (htakes lineage)]
      exact ⟨h, fun _ hin => mem_ask_asked.mpr (.inl hin)⟩
  have hkeep {asked : Asked} (ls : List Lineage) (t : Turn) (h : t.ended = false) (hasked : asked ∈ t.asked) :
      asked ∈ (ls.foldl (Turn.recordOver service known) t).asked := by
    induction ls generalizing t with
    | nil => exact hasked
    | cons lineage ls ih => exact ih _ (hstep t lineage h).1 ((hstep t lineage h).2 _ hasked)
  induction ls generalizing t with
  | nil => cases hin
  | cons first ls ih =>
    rcases List.mem_cons.mp hin with rfl | hin
    · have hpending : attempt ∈ unrecorded lineage known := List.mem_filter.mpr ⟨hattempt, decide_eq_true hunknown⟩
      rcases recordOver_cases service known t lineage with ⟨hover, -⟩ | ⟨-, ⟨hnone, -⟩ | hasked⟩
      · rw [hended] at hover
        cases hover
      · rw [hnone] at hpending
        cases hpending
      · refine ⟨⟨lineage, attempt, attempt ∈ (record service.run service.answers lineage (unrecorded lineage known)).recorded,
          service.takes lineage⟩, hkeep ls _ (hstep t lineage hended).1 ?_, rfl, rfl⟩
        rw [hasked]
        exact mem_ask_asked.mpr (.inr ⟨attempt, hpending, rfl⟩)
    · exact ih (hstep t first hended).1 hin

end

/-! ## Whole runs -/

section

variable {host : Host} {w : World} {op : Op} {service : Service}

/-- the state a step reads its lineages off -/
def World.seen (host : Host) (w : World) : Op → RunState
  | .supersessions _ => w.read host
  | _ => w.state host

/-- whether a question was put to `onevcs` before, or its answer journalled -/
def World.Told (w : World) (p : RecordedPair) : Prop :=
  p ∈ recordedIn w.journal ∨ ∃ asked ∈ w.asked, asked.accepted = true ∧ asked.pair = p

/-- a run as far as it has come -/
structure World.Kept (w : World) : Prop where
  covers : ∀ watch, w.driver = some watch → ∀ p ∈ recordedIn w.journal, p ∈ watch.recorded
  told : ∀ watch, w.driver = some watch → ∀ p ∈ watch.recorded, w.Told p
  records : ∀ asked ∈ w.asked, asked.accepted → asked.journalled → asked.attempt.Named → asked.pair ∈ recordedIn w.journal
  once : w.asked.Pairwise fun earlier later =>
    earlier.accepted → earlier.journalled → earlier.attempt.Named → later.pair ≠ earlier.pair

/-- a step that takes a turn -/
theorem turn_sound (h : w.Kept) {t : Turn} (hturn : w.turn host op = some t) :
    t.Sound (recordedIn w.journal) w.journal (lineages host.toSiblings (w.seen host op)) ∧
      ∀ watch, w.driver = some watch → t.Held watch.recorded := by
  cases op with
  | append | launch | exits => cases hturn
  | pass service =>
    obtain ⟨watch, hdriver, rfl⟩ := Option.map_eq_some_iff.mp hturn
    obtain ⟨hsound, hheld⟩ := pass_sound service (h.covers watch hdriver) apart_lineages
    refine ⟨hsound, fun watch' hdriver' => ?_⟩
    cases hdriver.symm.trans hdriver'
    exact hheld
  | recordLanded service =>
    unfold World.turn at hturn
    split_ifs at hturn with hnone
    cases hturn
    refine ⟨(pass_sound service (fun _ hp => hp) apart_lineages).1, fun watch hdriver => ?_⟩
    rw [hdriver] at hnone
    exact absurd rfl hnone
  | supersessions service =>
    unfold World.turn at hturn
    split_ifs at hturn with hnone
    cases hturn
    refine ⟨record_sound apart_lineages _ (Turn.Sound.start {}) apart_lineages, fun watch hdriver => ?_⟩
    rw [hdriver] at hnone
    exact absurd rfl hnone

theorem Kept.turn (h : w.Kept) {t : Turn} (hturn : w.turn host op = some t) :
    World.Kept { journal := t.journal, driver := w.driver.map fun _ => t.watch, asked := w.asked ++ t.asked } := by
  obtain ⟨hsound, hheld⟩ := turn_sound h hturn
  have hgrown (p : RecordedPair) (hp : p ∈ recordedIn w.journal) : p ∈ recordedIn t.journal := by
    obtain ⟨more, hmore⟩ := hsound.grows
    rw [← hmore, recordedIn_append]
    exact List.mem_append_left _ hp
  refine ⟨fun watch hdriver => ?_, fun watch hdriver p hp => ?_, fun asked hasked haccepted hjournalled hnamed => ?_, ?_⟩
  · obtain ⟨before, hbefore, rfl⟩ := Option.map_eq_some_iff.mp hdriver
    exact (hheld before hbefore).covers
  · obtain ⟨before, hbefore, rfl⟩ := Option.map_eq_some_iff.mp hdriver
    rcases (hheld before hbefore).asked p hp with hold | ⟨asked, hasked, haccepted, hpair⟩
    · rcases h.told before hbefore p hold with hin | ⟨asked, hasked, haccepted⟩
      · exact .inl (hgrown p hin)
      · exact .inr ⟨asked, List.mem_append_left _ hasked, haccepted⟩
    · exact .inr ⟨asked, List.mem_append_right _ hasked, haccepted, hpair⟩
  · rcases List.mem_append.mp hasked with hold | hnew
    · exact hgrown _ (h.records asked hold haccepted hjournalled hnamed)
    · exact hsound.records asked hnew haccepted hjournalled hnamed
  · refine List.pairwise_append.mpr ⟨h.once, ?_, fun earlier hearlier later hlater haccepted hjournalled hnamed heq => ?_⟩
    · refine (List.pairwise_map.mp hsound.once).imp fun {earlier later} hne _ _ _ heq => hne ?_
      obtain ⟨hnode, hrest⟩ := Prod.mk.inj heq
      exact Prod.ext hnode.symm (Prod.mk.inj hrest).2.symm
    · exact (hsound.asks later hlater).2.2 (heq ▸ h.records earlier hearlier haccepted hjournalled hnamed)

theorem step_of_turn {t : Turn} (hturn : w.turn host op = some t) :
    w.step host op = { journal := t.journal, driver := w.driver.map fun _ => t.watch, asked := w.asked ++ t.asked } := by
  cases op with
  | append | launch | exits => cases hturn
  | pass | recordLanded | supersessions => simp only [World.step, hturn]

/-- **One step.** -/
theorem kept_step (h : w.Kept) : (w.step host op).Kept := by
  cases hturn : w.turn host op with
  | some t =>
    rw [step_of_turn hturn]
    exact Kept.turn h hturn
  | none =>
    cases op with
    | append record =>
      have hsame : recordedIn (w.journal ++ [{ record := record : Entry }]) = recordedIn w.journal := by
        have hnone : ({ record := record : Entry } : Entry).pairs = [] := by
          unfold Entry.pairs
          split
          · rename_i stated _ hpayload
            cases hpayload
          · rfl
        have hlast : recordedIn [{ record := record : Entry }] = [] := by
          rw [recordedIn, List.flatMap_cons, hnone]
          rfl
        rw [recordedIn_append, hlast, List.append_nil]
      refine ⟨fun watch hdriver => ?_, fun watch hdriver p hp => ?_, fun asked hasked haccepted hjournalled hnamed => ?_, h.once⟩
      · rw [World.step, hsame]
        exact h.covers watch hdriver
      · exact (h.told watch hdriver p hp).imp_left fun hin => hsame ▸ hin
      · rw [World.step, hsame]
        exact h.records asked hasked haccepted hjournalled hnamed
    | launch =>
      cases hdriver : w.driver with
      | some watch =>
        have hsame : w.step host .launch = w := by
          rw [World.step, hdriver]
          obtain ⟨journal, driver, asked⟩ := w
          cases hdriver
          rfl
        rw [hsame]
        exact h
      | none =>
        refine ⟨fun watch hlaunched p hp => ?_, fun watch hlaunched p hp => ?_, h.records, h.once⟩
        · rw [World.step, hdriver] at hlaunched
          cases hlaunched
          exact hp
        · rw [World.step, hdriver] at hlaunched
          cases hlaunched
          exact .inl hp
    | exits => exact ⟨fun _ hdriver => (by cases hdriver), fun _ hdriver => (by cases hdriver), h.records, h.once⟩
    | pass | recordLanded | supersessions =>
      simp only [World.step, hturn]
      exact h

theorem kept_run (host : Host) (ops : List Op) : (ops.foldl (World.step host) {}).Kept := by
  have hempty : World.Kept {} := ⟨fun _ h => (by cases h), fun _ h => (by cases h), fun _ h => (by cases h), List.Pairwise.nil⟩
  have hrun : Admits (World.step host) (fun _ _ => True) {} ops := Admits.of_forall fun _ _ _ => trivial
  exact hrun.invariant (I := World.Kept) (fun _ _ h _ => kept_step h) hempty

/-- nothing but its exit takes a driver away -/
theorem driver_stays {driven : List Op} (hstays : ∀ op ∈ driven, op ≠ .exits) {w : World} (h : w.driver.isSome = true) :
    (driven.foldl (World.step host) w).driver.isSome = true := by
  induction driven generalizing w with
  | nil => exact h
  | cons op driven ih =>
    refine ih (fun op' hop' => hstays op' (List.mem_cons_of_mem _ hop')) ?_
    cases hturn : w.turn host op with
    | some t =>
      rw [step_of_turn hturn]
      simpa using h
    | none =>
      cases op with
      | append => exact h
      | launch => simp [World.step]
      | exits => exact absurd rfl (hstays _ List.mem_cons_self)
      | pass | recordLanded | supersessions =>
        simp only [World.step, hturn]
        exact h

/-- what a driver has answered, its passes found landed -/
theorem answered_found {driven : List Op} {start : World} (hstart : start.driver = none)
    (hdriven : ∀ op ∈ driven, op ≠ .exits) {watch : Watch} {node : String}
    (hdriver : ((Op.launch :: driven).foldl (World.step host) start).driver = some watch) (hin : node ∈ watch.answered) :
    ∃ before service after, driven = before ++ .pass service :: after ∧
      node ∈ (lineages host.toSiblings (((Op.launch :: before).foldl (World.step host) start).state host)).map Lineage.node := by
  induction driven using List.reverseRecOn generalizing watch with
  | nil =>
    rw [List.foldl_cons, List.foldl_nil, World.step, hstart] at hdriver
    cases hdriver
    cases hin
  | append_singleton driven op ih =>
    let w := (Op.launch :: driven).foldl (World.step host) start
    have hlater {watch' : Watch} (hdriver' : w.driver = some watch') (hin' : node ∈ watch'.answered) :
        ∃ before service after, driven ++ [op] = before ++ .pass service :: after ∧
          node ∈ (lineages host.toSiblings (((Op.launch :: before).foldl (World.step host) start).state host)).map Lineage.node := by
      obtain ⟨before, service, after, rfl, hfound⟩ := ih (fun o ho => hdriven o (List.mem_append_left _ ho)) hdriver' hin'
      exact ⟨before, service, after ++ [op], by simp, hfound⟩
    have hstep : ((Op.launch :: (driven ++ [op])).foldl (World.step host) start) = w.step host op := by
      rw [← List.cons_append, List.foldl_append]
      rfl
    rw [hstep] at hdriver
    cases hturn : w.turn host op with
    | some t =>
      rw [step_of_turn hturn] at hdriver
      obtain ⟨before, hbefore, rfl⟩ := Option.map_eq_some_iff.mp hdriver
      cases op with
      | append | launch | exits => cases hturn
      | pass service =>
        rw [World.turn, hbefore] at hturn
        cases hturn
        rcases answered_pass hin with hold | hfound
        · exact hlater hbefore hold
        · exact ⟨driven, service, [], rfl, hfound⟩
      | recordLanded | supersessions =>
        rw [World.turn, hbefore] at hturn
        cases hturn
    | none =>
      cases op with
      | append record => exact hlater hdriver hin
      | exits => exact absurd rfl (hdriven _ (List.mem_append_right _ List.mem_cons_self))
      | launch =>
        cases hbefore : w.driver with
        | some before =>
          rw [World.step, hbefore] at hdriver
          cases hdriver
          exact hlater hbefore hin
        | none =>
          rw [World.step, hbefore] at hdriver
          cases hdriver
          cases hin
      | pass | recordLanded | supersessions =>
        simp only [World.step, hturn] at hdriver
        exact hlater hdriver hin

end

/-! ### A branch another node stands on, and a landing stated again -/

/-- a host whose change requests are read by their URLs -/
def linked : Host := { Host.lenient with isUrl := fun _ => true }

/-- a node of one repository, on a branch of its own or on one it names -/
def placed (id : String) (branch : Option String) : Node :=
  { Node.direct id [] with repo := some "service", title := some "feat: work", branch }

/-- two nodes, the second on the branch the first leaves -/
def sharing : Plan := .ofNodes [placed "a" none, placed "c" (some "at/a")]

/-- a node that failed on its branch -/
def failedAt : Envelope := .own 1 (some "a") (.nodeSettled { status := some .failed, branch := some "at/a" })

/-- its retry, on a branch of its own -/
def retriedOnto : List Operation :=
  RunState.operationsOf linked (foldRecord linked (started sharing) failedAt) (.retry "a" (placed "b" (some "at/b")))

/-- the retry landed, by the change request it opened and then by its commit -/
def landedTwice : List Envelope :=
  [.own 3 (some "b") (.nodeSettled { status := some .done, branch := some "at/b", changeUrl := some "pr/1", landing := some .landed }),
    .own 4 (some "b") (.relayed (.mergeCompleted (some "abcdef0") (some "main")) false)]

/-- a record of the run's drivers, or of a sibling library -/
def Records (host : Host) (s : RunState) (e : Envelope) : Prop := s.Appends host e ∨ e.isPipeline = false

theorem landedTwice_records : Admits (foldRecord linked) (Records linked) (started sharing)
    (failedAt :: .own 2 none (.editCommitted (some retriedOnto)) :: landedTwice) := by
  have hcompiled : (foldRecord linked (started sharing) failedAt).Compiled linked retriedOnto :=
    RunState.compiled_operationsOf _ (by decide)
  exact ⟨.inl trivial, .inl hcompiled, .inl trivial, .inr rfl, trivial⟩

/-- every supersession recorded, and every record of one taken -/
def willing : Service := { run := "run", answers := fun _ => none, takes := fun _ => true }

/-- the run up to its driver's first look past the landing -/
def toldOnce : List Op :=
  [.append (.own 0 none (.runStarted (some sharing))), .append failedAt, .append (.own 2 none (.editCommitted (some retriedOnto))),
    .launch] ++ (landedTwice.take 1).map .append

/-- the run past that look, its landing restated -/
def toldThenRestated : List Op := toldOnce ++ [.pass willing] ++ (landedTwice.drop 1).map .append

end OnePipeline.Supersession
