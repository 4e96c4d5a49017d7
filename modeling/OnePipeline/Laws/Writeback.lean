/-
One board item per lineage.

A node an edit puts in another's place may take the id of one the run dropped before, and an `add` the id of one it
superseded: from there one item stands for two pieces of work, or a live node stands behind the head of another's lineage
(`retriedThenAdded_shares`).

Results:
- `chainFrom_eq`: a walk from a root no lineage was placed by follows its whole lineage;
- `lineagesOf_forest`: over a forest, the chains are the lineages, each from its first node to its last;
- `one_item_per_lineage`: over a run whose edits put no id the run has held in another's place and add none it superseded,
  every node is in one chain, a live one at its end, and keeps its root for good.
-/
import Mathlib.Tactic
import OnePipeline.Laws.Forest
import OnePipeline.Model.Writeback

namespace OnePipeline.Writeback

open Chase Checks Runs RunState

/-! ## Roots -/

section

variable {m : StrMap String} {a b c : String}

/-- nobody's replacement -/
def IsRoot (m : StrMap String) (r : String) : Prop := ∀ x : String, m[x]? ≠ some r

theorem isRoot_iff {r : String} : IsRoot m r ↔ r ∉ m.values := by
  rw [Maps.mem_values, not_exists]
  exact Iff.rfl

/-- the lineage a node belongs to has one root -/
theorem root_unique (hinj : ∀ x y c : String, m[x]? = some c → m[y]? = some c → x = y) (ha : IsRoot m a) (hb : IsRoot m b)
    (hac : Relation.ReflTransGen (fun x y : String => m[x]? = some y) a c)
    (hbc : Relation.ReflTransGen (fun x y : String => m[x]? = some y) b c) : a = b := by
  have hback : Relator.RightUnique (Function.swap fun x y : String => m[x]? = some y) := fun z x y hx hy => hinj x y z hx hy
  have hstays {x y : String} (hx : IsRoot m x) (h : Relation.ReflTransGen (Function.swap fun x y : String => m[x]? = some y) x y) :
      x = y := by
    rcases Relation.ReflTransGen.cases_head h with heq | ⟨z, hz, -⟩
    · exact heq
    · exact absurd hz (hx z)
  rw [← Relation.reflTransGen_swap] at hac hbc
  rcases Relation.ReflTransGen.total_of_right_unique hback hac hbc with hab | hba
  · exact hstays ha hab
  · exact (hstays hb hba).symm

end

/-! ## Walks -/

section

variable {sn : Snapshot} {lineages : Lineages} {roots : StrMap String} {fuel : ℕ} {chain l done : List String} {r last : String}

theorem trail_cons {next : String → Option String} {a b : String} (h : Trail next a b l) : l = a :: l.tail := by
  cases h <;> rfl

/-- **A walk.** From a root no lineage was placed by, it follows the whole lineage. -/
theorem chainFrom_eq (ht : Trail (links sn.superseded) r last l) (hfuel : l.length ≤ fuel + 1)
    (hnodes : ∀ c ∈ l.tail, c ∈ sn.nodes) (hroots : ∀ c ∈ l.tail, c ∉ roots) (hchain : ∀ c ∈ l.tail, c ∉ chain) :
    Lineages.chainFrom sn roots fuel chain r = chain ++ l.tail := by
  induction ht generalizing fuel chain with
  | stop ends =>
    rw [links] at ends
    cases fuel with
    | zero => simp [Lineages.chainFrom]
    | succ fuel => simp [Lineages.chainFrom, ends]
  | @step a b c l link rest ih =>
    rw [links] at link
    have hl := trail_cons rest
    rw [List.tail_cons] at hnodes hroots hchain ⊢
    have hb : b ∈ l := rest.head_mem
    cases fuel with
    | zero =>
      have hlen := List.length_pos_of_mem hb
      rw [List.length_cons] at hfuel
      omega
    | succ fuel =>
      have hin {c : String} (hc : c ∈ l.tail) : c ∈ l := List.mem_of_mem_tail hc
      have hfresh (c : String) (hc : c ∈ l.tail) : c ∉ chain ++ [b] := by
        rw [List.mem_append, List.mem_singleton, not_or]
        refine ⟨hchain c (hin hc), fun heq => ?_⟩
        have hnd := rest.nodup
        rw [hl, List.nodup_cons] at hnd
        exact hnd.1 (heq ▸ hc)
      have hguard : ¬(b ∉ sn.nodes ∨ b ∈ roots ∨ b ∈ chain) := by
        rw [not_or, not_or, not_not]
        exact ⟨hnodes b hb, hroots b hb, hchain b hb⟩
      rw [Lineages.chainFrom, link]
      simp only [if_neg hguard]
      rw [ih (by simpa using hfuel) (fun c hc => hnodes c (hin hc)) (fun c hc => hroots c (hin hc)) hfresh]
      rw [List.append_assoc]
      exact congrArg (chain ++ ·) hl.symm

/-- lineages that are those of the roots walked so far -/
structure Walked (m : StrMap String) (done : List String) (lineages : Lineages) : Prop where
  roots : ∀ id r : String, lineages.roots[id]? = some r ↔
    r ∈ done ∧ Relation.ReflTransGen (fun x y : String => m[x]? = some y) r id
  chains : ∀ (r : String) chain, lineages.chains[r]? = some chain ↔ r ∈ done ∧ ∃ last, Trail (links m) r last chain

/-- a lineage map whose walks stop, with no node the replacement of two, over nodes the snapshot holds -/
structure Snapshot.Whole (sn : Snapshot) : Prop where
  stopped : Stopped (links sn.superseded)
  injective : ∀ x y c : String, sn.superseded[x]? = some c → sn.superseded[y]? = some c → x = y
  rooted : ∀ id, ∃ r, IsRoot sn.superseded r ∧ Relation.ReflTransGen (fun x y : String => sn.superseded[x]? = some y) r id
  held : ∀ a b : String, sn.superseded[a]? = some b → a ∈ sn.nodes ∧ b ∈ sn.nodes

theorem reached_held (hw : sn.Whole) {a b : String} (ha : a ∈ sn.nodes)
    (h : Relation.ReflTransGen (fun x y : String => sn.superseded[x]? = some y) a b) : b ∈ sn.nodes := by
  cases h with
  | refl => exact ha
  | tail _ link => exact (hw.held _ _ link).2

theorem Walked.walk (hw : sn.Whole) (h : Walked sn.superseded done lineages) (hdone : ∀ d ∈ done, IsRoot sn.superseded d)
    (hr : r ∉ done) (hroot : IsRoot sn.superseded r) (hin : r ∈ sn.nodes) :
    Walked sn.superseded (done ++ [r]) (Lineages.walk sn lineages r) := by
  obtain ⟨last, l, ht⟩ := hw.stopped r
  have hreach (c : String) : c ∈ l ↔ Relation.ReflTransGen (fun x y : String => sn.superseded[x]? = some y) r c :=
    ⟨fun hc => ht.reaches hc, fun hc => Trail.of_reaches hc ht⟩
  have hl := trail_cons ht
  have htail {c : String} (hc : c ∈ l.tail) : c ∈ l := List.mem_of_mem_tail hc
  have hother {d c : String} (hd : d ∈ done)
      (hdc : Relation.ReflTransGen (fun x y : String => sn.superseded[x]? = some y) d c) (hc : c ∈ l) : False :=
    hr (root_unique hw.injective (hdone d hd) hroot hdc ((hreach c).mp hc) ▸ hd)
  have hfuel : l.length ≤ sn.nodes.size + 1 + 1 := by
    have hkeys (c : String) (hc : (links sn.superseded c).isSome = true) : c ∈ sn.nodes.keys.toFinset := by
      obtain ⟨v, hv⟩ := Option.isSome_iff_exists.mp hc
      exact List.mem_toFinset.mpr (Std.ExtTreeMap.mem_keys.mpr (hw.held c v hv).1)
    calc l.length ≤ sn.nodes.keys.toFinset.card + 1 := ht.length_le hkeys
      _ ≤ sn.nodes.keys.length + 1 := Nat.succ_le_succ (List.toFinset_card_le _)
      _ ≤ sn.nodes.size + 1 + 1 := by rw [Std.ExtTreeMap.length_keys]; omega
  have hchain : Lineages.chainFrom sn lineages.roots (sn.nodes.size + 1) [r] r = l := by
    rw [chainFrom_eq ht hfuel (fun c hc => reached_held hw hin ((hreach c).mp (htail hc))) (fun c hc hplaced => ?_)
      (fun c hc heq => ?_)]
    · exact hl.symm
    · obtain ⟨d, hd⟩ := Maps.mem_iff.mp hplaced
      obtain ⟨hmem, hdc⟩ := (h.roots c d).mp hd
      exact hother hmem hdc (htail hc)
    · have hnd := ht.nodup
      rw [hl, List.nodup_cons] at hnd
      exact hnd.1 (List.mem_singleton.mp heq ▸ hc)
  constructor
  · intro id d
    simp only [Lineages.walk, hchain]
    rw [Maps.get_foldl_insert, List.mem_append, List.mem_singleton]
    split_ifs with hid
    · constructor
      · intro heq
        cases heq
        exact ⟨.inr rfl, (hreach id).mp hid⟩
      · rintro ⟨hd | rfl, hdc⟩
        · exact (hother hd hdc hid).elim
        · rfl
    · rw [h.roots]
      constructor
      · exact fun ⟨hd, hdc⟩ => ⟨.inl hd, hdc⟩
      · rintro ⟨hd | rfl, hdc⟩
        · exact ⟨hd, hdc⟩
        · exact absurd ((hreach id).mpr hdc) hid
  · intro d chain
    simp only [Lineages.walk, hchain]
    rw [Maps.get_insert, List.mem_append, List.mem_singleton]
    split_ifs with hd
    · subst hd
      constructor
      · intro heq
        cases heq
        exact ⟨.inr rfl, last, ht⟩
      · rintro ⟨-, last', ht'⟩
        rw [(ht.unique ht').2]
    · rw [h.chains]
      constructor
      · exact fun ⟨hin, ht⟩ => ⟨.inl hin, ht⟩
      · exact fun ⟨hin, ht⟩ => ⟨hin.resolve_right hd, ht⟩

theorem walked_foldl (hw : sn.Whole) (h : Walked sn.superseded done lineages) (hdone : ∀ d ∈ done, IsRoot sn.superseded d)
    (hnd : (done ++ l).Nodup) (hl : ∀ d ∈ l, IsRoot sn.superseded d ∧ d ∈ sn.nodes) :
    Walked sn.superseded (done ++ l) (l.foldl (Lineages.walk sn) lineages) := by
  induction l generalizing done lineages with
  | nil => simpa using h
  | cons r l ih =>
    have hr := hl r List.mem_cons_self
    have hout : r ∉ done := fun hin => by
      have hdis := List.disjoint_of_nodup_append hnd
      exact hdis hin List.mem_cons_self
    have hnext := h.walk hw hdone hout hr.1 hr.2
    have hsame : done ++ r :: l = done ++ [r] ++ l := by simp
    rw [hsame] at hnd ⊢
    refine ih hnext (fun d hd => ?_) hnd fun d hd => hl d (List.mem_cons_of_mem _ hd)
    rcases List.mem_append.mp hd with hd | hd
    · exact hdone d hd
    · exact List.mem_singleton.mp hd ▸ hr.1

/-- **The chains.** They are the lineages, each from its root on. -/
theorem lineagesOf_forest (hw : sn.Whole) :
    ∃ rooted, (∀ r, r ∈ rooted ↔ r ∈ sn.nodes ∧ IsRoot sn.superseded r) ∧ Walked sn.superseded rooted (Lineages.of sn) := by
  let rooted := sn.nodes.keys.filter fun id => id ∉ sn.superseded.values
  have hmem (r : String) : r ∈ rooted ↔ r ∈ sn.nodes ∧ IsRoot sn.superseded r := by
    rw [isRoot_iff, List.mem_filter, Std.ExtTreeMap.mem_keys, decide_eq_true_iff]
  have hnd : rooted.Nodup := (Std.ExtTreeMap.nodup_keys).filter _
  have hempty : Walked sn.superseded [] {} := by
    refine ⟨fun id r => ?_, fun r chain => ?_⟩
    · simp
    · simp
  have hwalked : Walked sn.superseded rooted (rooted.foldl (Lineages.walk sn) {}) := by
    have h := walked_foldl hw hempty (fun d hd => by cases hd) (l := rooted) (by simpa using hnd)
      fun d hd => ((hmem d).mp hd).symm
    simpa using h
  have hreached : sn.nodes.keys.filter (fun id => id ∉ (rooted.foldl (Lineages.walk sn) {}).roots) = [] := by
    refine List.filter_eq_nil_iff.mpr fun id hid => ?_
    rw [decide_eq_true_iff, not_not]
    obtain ⟨r, hr, hreach⟩ := hw.rooted id
    have hin : r ∈ sn.nodes := by
      rcases Relation.ReflTransGen.cases_head hreach with rfl | ⟨next, link, -⟩
      · exact Std.ExtTreeMap.mem_keys.mp hid
      · exact (hw.held _ _ link).1
    exact Maps.mem_iff.mpr ⟨r, (hwalked.roots id r).mpr ⟨(hmem r).mpr ⟨hin, hr⟩, hreach⟩⟩
  refine ⟨rooted, hmem, ?_⟩
  rw [Lineages.of]
  simp only [rooted] at hreached hwalked
  simp only [hreached, List.foldl_nil]
  exact hwalked

end

/-! ## A run's nodes -/

section

variable {host : Host} {s t : RunState} {e : Envelope} {plan : Plan} {journal : List Envelope} {id : String}

/-- an id the run was launched with, or one an edit added -/
def Recorded (s : RunState) (id : String) : Prop :=
  (∃ plan, s.plan = some plan ∧ id ∈ plan.tasks.map Node.id) ∨ id ∈ s.nodesAdded

theorem mem_allNodes : id ∈ allNodes s ↔ Recorded s id ∨ id ∈ s.graph.ids := by
  have hplan : id ∈ ((s.plan.map Plan.tasks).getD []).map Node.id ↔ ∃ plan, s.plan = some plan ∧ id ∈ plan.tasks.map Node.id := by
    cases s.plan <;> simp
  have hadded : id ∈ s.nodesAdded.toList.map Prod.fst ↔ id ∈ s.nodesAdded := by
    rw [Std.ExtTreeMap.map_fst_toList_eq_keys, Std.ExtTreeMap.mem_keys]
  simp only [allNodes]
  rw [Maps.mem_foldl_insert_by Node.id fun n => n, Maps.mem_foldl_insert_by Prod.fst Prod.snd,
    Maps.mem_foldl_insert_by Node.id fun n => n, hplan, hadded, Recorded,
    Graph.mem_ids]
  simp

/-- a state whose lineages are a forest over nodes the run recorded -/
structure Held (s : RunState) : Prop where
  forest : Forest s.superseded s.graph.ids
  live : ∀ id ∈ s.graph.ids, Recorded s id
  links : ∀ a b : String, s.superseded[a]? = some b → Recorded s a ∧ Recorded s b

theorem Held.whole (h : Held s) : (Snapshot.of s).Whole where
  stopped := h.forest.stopped
  injective := h.forest.injective
  rooted id := by
    obtain ⟨first, last, hm⟩ := meets_of_forest h.forest id
    exact ⟨first, hm.launched, hm.origin⟩
  held a b hab := by
    obtain ⟨ha, hb⟩ := h.links a b hab
    exact ⟨mem_allNodes.mpr (.inl ha), mem_allNodes.mpr (.inl hb)⟩

/-- what the run's write-back reads of its lineages -/
def lineagesOf (s : RunState) : Lineages := .of (.of s)

/-- a node is in one chain of recorded supersessions, a live one at its end, and no other live node in it -/
structure OneItem (s : RunState) : Prop where
  placed : ∀ id ∈ allNodes s, ∃ chain, (lineagesOf s).chains[(lineagesOf s).rootOf id]? = some chain ∧ id ∈ chain
  once : ∀ (root : String) chain, (lineagesOf s).chains[root]? = some chain →
    chain.Nodup ∧ chain.IsChain (fun a b => s.superseded[a]? = some b) ∧ ∀ id ∈ chain, (lineagesOf s).rootOf id = root
  head : ∀ id ∈ s.graph.ids, ∃ chain, (lineagesOf s).chains[(lineagesOf s).rootOf id]? = some chain ∧ chain.getLast? = some id
  alone : ∀ a ∈ s.graph.ids, ∀ b ∈ s.graph.ids, (lineagesOf s).rootOf a = (lineagesOf s).rootOf b → a = b

theorem roots_eq (h : Held s) {r : String} (hid : id ∈ allNodes s) (hr : IsRoot s.superseded r)
    (hreach : Relation.ReflTransGen (fun x y : String => s.superseded[x]? = some y) r id) :
    (lineagesOf s).roots[id]? = some r := by
  obtain ⟨rooted, hmem, hw⟩ := lineagesOf_forest h.whole
  have hin : r ∈ (Snapshot.of s).nodes := by
    rcases Relation.ReflTransGen.cases_head hreach with rfl | ⟨next, link, -⟩
    · exact hid
    · exact (h.whole.held _ _ link).1
  exact (hw.roots id r).mpr ⟨(hmem r).mpr ⟨hin, hr⟩, hreach⟩

theorem rootOf_eq (h : Held s) {r : String} (hid : id ∈ allNodes s) (hr : IsRoot s.superseded r)
    (hreach : Relation.ReflTransGen (fun x y : String => s.superseded[x]? = some y) r id) : (lineagesOf s).rootOf id = r := by
  rw [Lineages.rootOf, roots_eq h hid hr hreach]
  rfl

theorem isChain_trail {next : String → Option String} {a b : String} {l : List String} (h : Trail next a b l) :
    l.IsChain fun a b => next a = some b := by
  induction h with
  | stop => exact List.isChain_singleton _
  | step link rest ih =>
    cases rest with
    | stop => exact List.isChain_pair.mpr link
    | step link' rest' => exact List.isChain_cons_cons.mpr ⟨link, ih⟩

theorem getLast_trail {next : String → Option String} {a b : String} {l : List String} (h : Trail next a b l) :
    l.getLast? = some b := by
  induction h with
  | stop => rfl
  | step _ rest ih =>
    cases rest with
    | stop => rfl
    | step => exact ih

/-- **One item.** -/
theorem oneItem_of_held (h : Held s) : OneItem s := by
  obtain ⟨rooted, hmem, hw⟩ := lineagesOf_forest h.whole
  have hchain {id : String} (hid : id ∈ allNodes s) : ∃ chain last,
      (lineagesOf s).chains[(lineagesOf s).rootOf id]? = some chain ∧ id ∈ chain ∧
        Trail (links s.superseded) ((lineagesOf s).rootOf id) last chain := by
    obtain ⟨r, hr, hreach⟩ := h.whole.rooted id
    rw [rootOf_eq h hid hr hreach]
    obtain ⟨last, l, ht⟩ := h.whole.stopped r
    have hplaced := (hw.roots id r).mp (roots_eq h hid hr hreach)
    exact ⟨l, last, (hw.chains r l).mpr ⟨hplaced.1, last, ht⟩, Trail.of_reaches hreach ht, ht⟩
  refine ⟨fun id hid => ?_, fun root chain hc => ?_, fun id hid => ?_, fun a ha b hb hab => ?_⟩
  · obtain ⟨chain, -, hc, hin, -⟩ := hchain hid
    exact ⟨chain, hc, hin⟩
  · obtain ⟨hin, last, ht⟩ := (hw.chains root chain).mp hc
    obtain ⟨hnode, hroot⟩ := (hmem root).mp hin
    refine ⟨ht.nodup, isChain_trail ht, fun id hid => ?_⟩
    have hreach := ht.reaches hid
    exact rootOf_eq h (reached_held h.whole hnode hreach) hroot hreach
  · obtain ⟨chain, last, hc, hin, ht⟩ := hchain (mem_allNodes.mpr (.inr hid))
    refine ⟨chain, hc, ?_⟩
    have hlast : id = last := by
      rcases ht.linked hin with heq | hlink
      · exact heq
      · rw [links, h.forest.retired id hid] at hlink
        cases hlink
    rw [getLast_trail ht, hlast]
  · obtain ⟨chain, last, hc, hin, ht⟩ := hchain (mem_allNodes.mpr (.inr ha))
    obtain ⟨chain', last', hc', hin', ht'⟩ := hchain (mem_allNodes.mpr (.inr hb))
    have hend {id last : String} {l : List String} {r : String} (hid : id ∈ s.graph.ids) (hin : id ∈ l)
        (ht : Trail (links s.superseded) r last l) : id = last := by
      rcases ht.linked hin with heq | hlink
      · exact heq
      · rw [links, h.forest.retired id hid] at hlink
        cases hlink
    rw [← hab] at ht'
    rw [hend ha hin ht, hend hb hin' ht', (ht.unique ht').1]

/-! ## Runs -/

/-- the id a command brings into the graph -/
def bringsIn (s : RunState) (live : Live) : Command → Option String
  | .add node | .retry _ node => some node.id
  | .rework id reason instruction comments title replacement =>
    (reworkId s.graph (s.judged live) { id, reason, instruction, comments, title, replacement }).toOption
  | _ => none

/-- a command that adds an id the run superseded, or puts one it has held in another's place -/
def takesHeld (s : RunState) (live : Live) (command : Command) : Prop :=
  ∃ id, bringsIn s live command = some id ∧
    match command with
    | .add _ => id ∈ s.superseded
    | _ => id ∈ allNodes s

/-- a record that is no edit, or one whose command takes no id the run has held -/
def KeepsItems (host : Host) (s : RunState) (e : Envelope) : Prop :=
  writtenAtAKnownVersion e = true → ∀ operations live author command graph', e.body = .editCommitted (some operations) →
    compile host s.graph (s.judged live) author command = .ok (graph', operations) → ¬takesHeld s live command

/-! ### What an edit adds -/

section

variable {operations : List Operation}

theorem mem_addedBy {e : Envelope} {found : Option (List Operation)} (hb : e.body = .editCommitted found) :
    id ∈ (addedBy e operations).map Node.id ↔ ∃ n retryOf, .nodeAdded n retryOf ∈ operations ∧ n.id = id := by
  simp only [addedBy, hb, List.mem_map, List.mem_filterMap]
  constructor
  · rintro ⟨n, ⟨op, hop, hn⟩, rfl⟩
    cases op with
    | nodeAdded node retryOf =>
      cases hn
      exact ⟨n, retryOf, hop, rfl⟩
    | _ => cases hn
  · rintro ⟨n, retryOf, hop, rfl⟩
    exact ⟨n, ⟨_, hop, rfl⟩, rfl⟩

theorem nodesAdded_foldOperations (operations : List Operation) («at» : Option ℕ) :
    (s.foldOperations host operations «at»).nodesAdded = s.nodesAdded := by
  unfold foldOperations
  induction operations generalizing s with
  | nil => rfl
  | cons op operations ih =>
    rw [List.foldl_cons, ih]
    cases op with
    | reparent node was deps =>
      simp only [foldOne, foldOperation]
      split_ifs <;> rfl
    | landingFromEvidence node landing =>
      simp only [foldOne, foldOperation]
      cases StatedLanding.parse host.toSiblings landing <;> rfl
    | contextAdded node note delivery => cases delivery <;> rfl
    | noteDelivered node addressee text criterion reached envelope index => cases reached <;> rfl
    | noteWithdrawn node envelope index «from» text alikeAfter =>
      cases «from» with
      | live => rfl
      | carried =>
        simp only [foldOne, foldOperation, owe]
        split <;> rfl
    | _ => rfl

theorem nodesAdded_foldRecord (hb : e.body = .editCommitted (some operations)) (hv : writtenAtAKnownVersion e = true) :
    (foldRecord host s e).nodesAdded =
      (addedBy e operations).foldl (fun m node => m.insert node.id node) s.nodesAdded := by
  obtain ⟨v, ts, stream, seq, node, body⟩ := e
  subst hb
  have hkept : (s.kept ⟨v, ts, stream, seq, node, .editCommitted (some operations)⟩).nodesAdded = s.nodesAdded := by
    unfold kept
    split_ifs <;> rfl
  show (if writtenAtAKnownVersion _ then _ else _ : RunState).nodesAdded = _
  rw [if_pos hv]
  refine (nodesAdded_foldOperations operations _).trans ?_
  simp only [foldCommit, hkept]

/-- the ids of a graph after an accepted command: ones it had, and ones its operations add -/
theorem ids_of_shape {graph : Graph} (h : Shape graph operations)
    (hid : id ∈ (applyAll host.serde graph operations).ids) :
    id ∈ graph.ids ∨ ∃ n retryOf, .nodeAdded n retryOf ∈ operations ∧ n.id = id := by
  cases h with
  | added n new =>
    rw [applyAll_added, Graph.ids_insert_new new] at hid
    rcases List.mem_append.mp hid with hin | hin
    · exact .inl hin
    · exact .inr ⟨n, none, List.mem_cons_self, (List.mem_singleton.mp hin).symm⟩
  | superseded old n request rest present new asked quiet dropped =>
    have hrequest : apply host.serde graph request = graph := by cases asked <;> rfl
    rw [applyAll_cons, hrequest, applyAll_cons] at hid
    have hin := ids_applyAll (fun op hop => Operation.keepsNodes_of_rewires (quiet op hop)) _ hid
    rw [apply, Graph.ids_insert_new new] at hin
    rcases List.mem_append.mp hin with hin | hin
    · exact .inl hin
    · exact .inr ⟨n, some old, by simp, (List.mem_singleton.mp hin).symm⟩
  | requeued node amend same =>
    rw [applyAll_cons, applyAll_nil, ids_apply_requeued same] at hid
    exact .inl hid
  | attested reference => exact .inl hid
  | quiet ops hops => exact .inl (ids_applyAll hops graph hid)

/-- what an accepted command supersedes was in the graph, and what it supersedes it by is added -/
theorem requests_of_shape {graph : Graph} (h : Shape graph operations) {old new : String}
    (hp : (old, new) ∈ operations.filterMap requestOf) :
    old ∈ graph.ids ∧ ∃ n retryOf, .nodeAdded n retryOf ∈ operations ∧ n.id = new := by
  obtain ⟨op, hop, hreq⟩ := List.mem_filterMap.mp hp
  cases h with
  | added n new =>
    rcases List.mem_cons.mp hop with rfl | hop
    · cases hreq
    · obtain ⟨d, -, rfl⟩ := List.mem_map.mp hop
      cases hreq
  | superseded old' n request rest present new' asked quiet dropped =>
    have hmine : requestOf request = some (old', n.id) := by cases asked <;> rfl
    rcases List.mem_cons.mp hop with rfl | hop
    · rw [hmine] at hreq
      cases hreq
      exact ⟨present, n, _, List.mem_cons_of_mem _ List.mem_cons_self, rfl⟩
    · rcases List.mem_cons.mp hop with rfl | hop
      · cases hreq
      · have hrewires := quiet op hop
        have hnone : requestOf op = none := by cases op <;> first | rfl | cases hrewires
        rw [hnone] at hreq
        cases hreq
  | requeued node amend same =>
    rw [List.mem_singleton.mp hop] at hreq
    cases hreq
  | attested reference =>
    rw [List.mem_singleton.mp hop] at hreq
    cases hreq
  | quiet ops hops =>
    have hkeeps := hops op hop
    have hnone : requestOf op = none := by cases op <;> first | rfl | cases hkeeps
    rw [hnone] at hreq
    cases hreq

end

/-! ### One record -/

/-- roots and holdings carried from a state to one after it -/
structure Carries (s t : RunState) : Prop where
  held : Held t
  kept : ∀ id ∈ allNodes s, id ∈ allNodes t
  roots : ∀ id ∈ allNodes s, (lineagesOf t).rootOf id = (lineagesOf s).rootOf id

theorem Carries.of_wired (h : Held s) (hw : t.wired = s.wired) : Carries s t := by
  have hm : t.superseded = s.superseded := congrArg Wired.superseded hw
  have hp : t.plan = s.plan := congrArg Wired.plan hw
  have hi : t.graph.ids = s.graph.ids := congrArg Wired.ids hw
  have ha : t.nodesAdded = s.nodesAdded := congrArg Wired.added hw
  have hrecorded (id : String) : Recorded t id ↔ Recorded s id := by rw [Recorded, Recorded, hp, ha]
  have hmem (id : String) : id ∈ allNodes t ↔ id ∈ allNodes s := by rw [mem_allNodes, mem_allNodes, hrecorded, hi]
  have ht : Held t := by
    refine ⟨by rw [hm, hi]; exact h.forest, fun id hid => ?_, fun a b hab => ?_⟩
    · exact (hrecorded id).mpr (h.live id (hi ▸ hid))
    · obtain ⟨ha, hb⟩ := h.links a b (hm ▸ hab)
      exact ⟨(hrecorded a).mpr ha, (hrecorded b).mpr hb⟩
  refine ⟨ht, fun id hid => (hmem id).mpr hid, fun id hid => ?_⟩
  obtain ⟨r, hr, hreach⟩ := h.whole.rooted id
  rw [rootOf_eq h hid hr hreach]
  have hr' : IsRoot t.superseded r := hm ▸ hr
  have hreach' : Relation.ReflTransGen (fun x y : String => t.superseded[x]? = some y) r id := hm ▸ hreach
  exact rootOf_eq ht ((hmem id).mpr hid) hr' hreach'

/-- what the lineage map of a held state becomes through the supersessions of an edit that takes no id held -/
theorem roots_moved {command : Command} {live : Live} {author : Author} {graph' : Graph} {operations : List Operation}
    (h : Held s) (hc : compile host s.graph (s.judged live) author command = .ok (graph', operations))
    (hkeeps : ¬takesHeld s live command) {r : String} (hid : id ∈ allNodes s) (hr : IsRoot s.superseded r)
    (hreach : Relation.ReflTransGen (fun x y : String => s.superseded[x]? = some y) r id) :
    IsRoot (Maps.insertAll s.superseded (operations.filterMap requestOf)) r ∧
      Relation.ReflTransGen
        (fun x y : String => (Maps.insertAll s.superseded (operations.filterMap requestOf))[x]? = some y) r id := by
  have hin : r ∈ allNodes s := by
    rcases Relation.ReflTransGen.cases_head hreach with rfl | ⟨next, link, -⟩
    · exact hid
    · exact (h.whole.held _ _ link).1
  have hone {old new : String} (hlive : old ∈ s.graph.ids) (hnew : new ∉ allNodes s) :
      IsRoot (s.superseded.insert old new) r ∧
        Relation.ReflTransGen (fun x y : String => (s.superseded.insert old new)[x]? = some y) r id := by
    constructor
    · intro x hx
      rw [Maps.get_insert] at hx
      split_ifs at hx
      · exact hnew (Option.some.inj hx ▸ hin)
      · exact hr x hx
    · refine hreach.lift (fun x => x) fun a b hab => ?_
      show (s.superseded.insert old new)[a]? = some b
      rw [Maps.get_insert, if_neg]
      · exact hab
      · rintro rfl
        rw [h.forest.retired a hlive] at hab
        cases hab
  have hmoves := moves_of_compiled hc
  have hanswered := fun id reason instruction comments title replacement
      (heq : command = .rework id reason instruction comments title replacement) => request_of_rework (heq ▸ hc)
  generalize (applyAll host.serde s.graph operations).ids = ids, operations.filterMap requestOf = requests at hmoves hanswered ⊢
  cases hmoves with
  | added node new => exact ⟨hr, hreach⟩
  | retried old node present new => exact hone present fun hheld => hkeeps ⟨node.id, rfl, hheld⟩
  | reworked old new reason instruction comments title replacement present unused =>
    obtain ⟨new', hid', heq⟩ := hanswered old reason instruction comments title replacement rfl
    cases heq
    refine hone present fun hheld => hkeeps ⟨new, ?_, hheld⟩
    rw [bringsIn, hid']
    rfl
  | stays _ _ quiet keeps => exact ⟨hr, hreach⟩

/-- **One edit.** -/
theorem carries_edit {operations : List Operation} {live : Live} {author : Author} {command : Command} {graph' : Graph}
    (h : Held s) (hbody : e.body = .editCommitted (some operations)) (hv : writtenAtAKnownVersion e = true)
    (hc : compile host s.graph (s.judged live) author command = .ok (graph', operations))
    (hkeeps : ¬takesHeld s live command) : Carries s (foldRecord host s e) := by
  obtain ⟨hgraph, hsuperseded, hplan⟩ := @foldRecord_edit host s e operations hbody hv
  have hadded := @nodesAdded_foldRecord host s e operations hbody hv
  have hshape := (compiled_shape hc).1
  have hmem (id : String) : id ∈ (foldRecord host s e).nodesAdded ↔ id ∈ s.nodesAdded ∨
      ∃ n retryOf, .nodeAdded n retryOf ∈ operations ∧ n.id = id := by
    rw [hadded, Maps.mem_foldl_insert_by Node.id fun n => n, mem_addedBy hbody]
  have hkept (id : String) (hid : Recorded s id) : Recorded (foldRecord host s e) id := by
    rcases hid with hlaunched | hin
    · exact .inl (by rw [hplan]; exact hlaunched)
    · exact .inr ((hmem id).mpr (.inl hin))
  have hnew (id : String) (hid : ∃ n retryOf, .nodeAdded n retryOf ∈ operations ∧ n.id = id) :
      Recorded (foldRecord host s e) id := .inr ((hmem id).mpr (.inr hid))
  have hreuses : ¬s.reuses command := by
    intro hreuses
    cases command with
    | add node => exact hkeeps ⟨node.id, rfl, hreuses⟩
    | retry old node =>
      refine hkeeps ⟨node.id, rfl, mem_allNodes.mpr (.inl ?_)⟩
      rcases hreuses with hkey | ⟨old, hvalue⟩
      · obtain ⟨v, hv⟩ := Maps.mem_iff.mp hkey
        exact (h.links _ _ hv).1
      · exact (h.links _ _ hvalue).2
    | _ => exact hreuses
  have ht : Held (foldRecord host s e) := by
    refine ⟨?_, fun id hid => ?_, fun a b hab => ?_⟩
    · rw [hsuperseded, hgraph]
      exact (forest_moved_iff h.forest (moves_of_compiled hc)).mpr hreuses
    · rw [hgraph] at hid
      rcases ids_of_shape hshape hid with hin | hin
      · exact hkept id (h.live id hin)
      · exact hnew id hin
    · rw [hsuperseded] at hab
      rcases Maps.mem_or_get_of_insertAll hab with hp | hlink
      · obtain ⟨hold, hin⟩ := requests_of_shape hshape hp
        exact ⟨hkept a (h.live a hold), hnew b hin⟩
      · obtain ⟨ha, hb⟩ := h.links a b hlink
        exact ⟨hkept a ha, hkept b hb⟩
  have hall (id : String) (hid : id ∈ allNodes s) : id ∈ allNodes (foldRecord host s e) := by
    refine mem_allNodes.mpr (.inl ?_)
    rcases mem_allNodes.mp hid with hrec | hlive
    · exact hkept id hrec
    · exact hkept id (h.live id hlive)
  refine ⟨ht, hall, fun id hid => ?_⟩
  obtain ⟨r, hr, hreach⟩ := h.whole.rooted id
  obtain ⟨hr', hreach'⟩ := roots_moved h hc hkeeps hid hr hreach
  rw [← hsuperseded] at hr' hreach'
  rw [rootOf_eq h hid hr hreach, rootOf_eq ht (hall id hid) hr' hreach']

/-- **One record.** -/
theorem carries_foldRecord (h : Held s) (ha : Appends host s e) (hkeeps : KeepsItems host s e) :
    Carries s (foldRecord host s e) := by
  by_cases hbody : ∃ operations, e.body = .editCommitted operations
  · obtain ⟨operations, hbody⟩ := hbody
    cases hv : writtenAtAKnownVersion e with
    | false => exact .of_wired h (wired_foldRecord_unread hbody hv)
    | true =>
      unfold Appends at ha
      rw [hbody] at ha
      cases operations with
      | none => cases ha
      | some ops =>
        obtain ⟨live, author, command, graph', hc⟩ := ha
        exact carries_edit h hbody hv hc (hkeeps hv ops live author command graph' hbody hc)
  · exact .of_wired h (wired_foldRecord ha fun operations heq => hbody ⟨operations, heq⟩)

/-! ### The run -/

theorem held_started : Held (started plan) := by
  have hids (l : List Node) (g : Graph) (id : String) (hid : id ∈ (l.foldl Graph.insert g).ids) :
      id ∈ g.ids ∨ id ∈ l.map Node.id := by
    induction l generalizing g with
    | nil => exact .inl hid
    | cons n l ih =>
      rw [List.map_cons, List.mem_cons]
      rcases ih (g.insert n) hid with hin | hin
      · by_cases hn : n.id ∈ g.ids
        · rw [Graph.ids_insert_mem hn] at hin
          exact .inl hin
        · rw [Graph.ids_insert_new hn] at hin
          rcases List.mem_append.mp hin with hin | hin
          · exact .inl hin
          · exact .inr (.inl (List.mem_singleton.mp hin))
      · exact .inr (.inr hin)
  refine ⟨.empty, fun id hid => .inl ⟨plan, rfl, ?_⟩, fun a b hab => ?_⟩
  · rcases hids plan.tasks _ id hid with hin | hin
    · cases hin
    · exact hin
  · simp [started] at hab

theorem carries_run (h : Held s)
    (hrun : Admits (foldRecord host) (fun s e => Appends host s e ∧ KeepsItems host s e) s journal) :
    Carries s (journal.foldl (foldRecord host) s) := by
  induction journal generalizing s with
  | nil => exact ⟨h, fun _ hid => hid, fun _ _ => rfl⟩
  | cons e journal ih =>
    have hone := carries_foldRecord h hrun.1.1 hrun.1.2
    have hrest := ih hone.held hrun.2
    exact ⟨hrest.held, fun id hid => hrest.kept id (hone.kept id hid),
      fun id hid => (hrest.roots id (hone.kept id hid)).trans (hone.roots id hid)⟩

/-- **One board item per lineage.** Over a run whose edits put no id the run has held in another's place and add none it
superseded, in every state every node the run ever held is in one chain of recorded supersessions, a live one at its end
and alone in it, and keeps its root in every later state. -/
theorem one_item_per_lineage
    (h : Admits (foldRecord host) (fun s e => Appends host s e ∧ KeepsItems host s e) (started plan) journal)
    {earlier later : List Envelope} (hearlier : earlier <+: later) (hlater : later <+: journal) :
    OneItem (earlier.foldl (foldRecord host) (started plan)) ∧
      ∀ id ∈ allNodes (earlier.foldl (foldRecord host) (started plan)),
        (lineagesOf (later.foldl (foldRecord host) (started plan))).rootOf id =
          (lineagesOf (earlier.foldl (foldRecord host) (started plan))).rootOf id := by
  obtain ⟨between, rfl⟩ := hearlier
  obtain ⟨rest, rfl⟩ := hlater
  obtain ⟨hbefore, hafter⟩ := Admits.append.mp (Admits.append.mp h).1
  have hheld := (carries_run held_started hbefore).held
  refine ⟨oneItem_of_held hheld, fun id hid => ?_⟩
  rw [List.foldl_append]
  exact (carries_run hheld hafter).roots id hid

end

/-! ### A node retried and its id added again, and one retried alone -/

/-- the node failed and retried as another, and then added again -/
def retriedThenAdded : List Envelope :=
  retriedOn ++ [.own 3 none (.editCommitted (some (RunState.operationsOf .lenient (single retriedOn) (.add (.direct "a" [])))))]

/-- a node added under an id superseded before: two live nodes, one item -/
theorem retriedThenAdded_shares :
    check Host.lenient.toSiblings .single = .ok () ∧
      Admits (foldRecord .lenient) (Appends .lenient) (started .single) retriedThenAdded ∧
      ¬OneItem (retriedThenAdded.foldl (foldRecord .lenient) (started .single)) := by
  have hadded : (single retriedOn).Compiled .lenient _ := compiled_operationsOf (.add (.direct "a" [])) (by decide)
  refine ⟨by decide, Admits.append.mpr ⟨retriedOn_appends, hadded, trivial⟩, fun h => ?_⟩
  have hfirst : "a" ∈ (single retriedThenAdded).graph.ids := by decide
  have hsecond : "a2" ∈ (single retriedThenAdded).graph.ids := by decide
  have hroot : (lineagesOf (single retriedThenAdded)).rootOf "a" = (lineagesOf (single retriedThenAdded)).rootOf "a2" := by
    decide
  exact absurd (h.alone "a" hfirst "a2" hsecond hroot) (by decide)

theorem retriedOn_keepsItems :
    Admits (foldRecord .lenient) (fun s e => Appends .lenient s e ∧ KeepsItems .lenient s e) (started .single) retriedOn := by
  obtain ⟨hfailed, hretried, -⟩ := retriedOn_appends
  refine ⟨⟨hfailed, fun _ _ _ _ _ _ h => by cases h⟩, ⟨hretried, ?_⟩, trivial⟩
  intro _ operations live author command graph' hbody hc
  obtain rfl := Option.some.inj (Body.editCommitted.inj hbody)
  have hrequest : (RunState.operationsOf .lenient (single [failed 1 "a"]) (.retry "a" (.direct "a2" []))).filterMap requestOf =
      [("a", "a2")] := by decide
  have hnew : "a2" ∉ allNodes (single [failed 1 "a"]) := by decide
  have hmoves := moves_of_compiled hc
  rw [hrequest] at hmoves
  rintro ⟨id, hid, hheld⟩
  cases command with
  | retry old node =>
    have hat : id = "a2" := by
      generalize hpair : [("a", "a2")] = requests, (applyAll _ _ _).ids = ids at hmoves
      cases hmoves with
      | retried =>
        simp only [List.cons.injEq, Prod.mk.injEq, and_true] at hpair
        exact (Option.some.inj hid).symm.trans hpair.2.symm
      | stays _ _ quiet => cases quiet
    exact hnew (hat ▸ hheld)
  | rework old reason instruction comments title replacement =>
    obtain ⟨new, hanswered, heq⟩ := request_of_rework hc
    rw [hrequest] at heq
    have hat : id = "a2" := by
      rw [bringsIn, hanswered] at hid
      cases heq
      exact (Option.some.inj hid).symm
    exact hnew (hat ▸ hheld)
  | add node =>
    generalize (applyAll _ _ _).ids = ids at hmoves
    cases hmoves
  | _ => cases hid

/-- a node retried alone: one item, and the same in every state -/
theorem retriedOn_oneItem :
    OneItem (single [failed 1 "a"]) ∧ ∀ id ∈ allNodes (single [failed 1 "a"]),
      (lineagesOf (single retriedOn)).rootOf id = (lineagesOf (single [failed 1 "a"])).rootOf id :=
  one_item_per_lineage retriedOn_keepsItems ⟨_, rfl⟩ (List.prefix_refl _)

end OnePipeline.Writeback
