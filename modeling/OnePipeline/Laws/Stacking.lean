/-
The bases preserved nodes stack on: which resolutions end well, whatever the order they are made in.

Results:
- `resolveBase_spec`, `exists_resolveBase`: one resolution, against the rule each node's base follows;
- `stackingBases_iff`: the bases resolve exactly where some assignment of bases follows the rule at every node;
- `Stackable.renamed`: where one does, one does for the nodes renamed.
-/
import Mathlib.Tactic
import OnePipeline.Core.Chase
import OnePipeline.Core.Maps
import OnePipeline.Laws.Lineage
import OnePipeline.Model.Validate

namespace OnePipeline

open Chase Checks Relation

variable {sib : Siblings} {nodes : StrMap Node}

/-! ## Candidates -/

/-- whether a preserved dependency's repository can be told to be a node's or another -/
def Readable (sib : Siblings) (node dep : Node) : Prop :=
  dep.publish = .preserve → ∀ mine other, node.repo = some mine → dep.repo = some other →
    ∃ same, sameRepository sib node dep mine other = .ok same

/-- a preserved dependency of a node, in its own repository -/
def OneRepository (sib : Siblings) (node dep : Node) : Prop :=
  dep.publish = .preserve ∧ ∃ mine other, node.repo = some mine ∧ dep.repo = some other ∧
    sameRepository sib node dep mine other = .ok true

theorem stackingCandidates_spec {node : Node} {deps candidates : List Node}
    (h : stackingCandidates sib node deps = .ok candidates) :
    (∀ d ∈ deps, Readable sib node d) ∧ ∀ c, c ∈ candidates ↔ c ∈ deps ∧ OneRepository sib node c := by
  induction deps generalizing candidates with
  | nil =>
    cases h
    simp
  | cons dep deps ih =>
    rw [stackingCandidates] at h
    split at h
    · rename_i mine other hpub hmine hother
      simp only [bind_eq_ok, pure_eq_ok] at h
      obtain ⟨same, hsame, rest, hrest, rfl⟩ := h
      obtain ⟨hread, hmem⟩ := ih hrest
      have hdep : OneRepository sib node dep ↔ same = true := by
        constructor
        · rintro ⟨-, mine', other', hm, ho, hs⟩
          rw [hmine] at hm
          rw [hother] at ho
          cases hm
          cases ho
          rw [hsame] at hs
          exact Except.ok.inj hs
        · rintro rfl
          exact ⟨hpub, mine, other, hmine, hother, hsame⟩
      constructor
      · intro d hd
        rcases List.mem_cons.mp hd with rfl | hd
        · intro _ m o hm ho
          rw [hmine] at hm
          rw [hother] at ho
          cases hm
          cases ho
          exact ⟨same, hsame⟩
        · exact hread d hd
      · intro c
        cases same with
        | true =>
          rw [if_pos rfl, List.mem_cons, List.mem_cons, hmem]
          constructor
          · rintro (rfl | ⟨hc, hone⟩)
            · exact ⟨.inl rfl, hdep.mpr rfl⟩
            · exact ⟨.inr hc, hone⟩
          · rintro ⟨rfl | hc, hone⟩
            · exact .inl rfl
            · exact .inr ⟨hc, hone⟩
        | false =>
          rw [if_neg Bool.false_ne_true, hmem, List.mem_cons]
          constructor
          · rintro ⟨hc, hone⟩
            exact ⟨.inr hc, hone⟩
          · rintro ⟨rfl | hc, hone⟩
            · cases hdep.mp hone
            · exact ⟨hc, hone⟩
    · rename_i hnot
      obtain ⟨hread, hmem⟩ := ih h
      constructor
      · intro d hd
        rcases List.mem_cons.mp hd with rfl | hd
        · intro hpub m o hm ho
          exact absurd ho (hnot m o hpub hm)
        · exact hread d hd
      · intro c
        rw [hmem, List.mem_cons]
        constructor
        · rintro ⟨hc, hone⟩
          exact ⟨.inr hc, hone⟩
        · rintro ⟨rfl | hc, hone⟩
          · obtain ⟨hpub, m, o, hm, ho, -⟩ := hone
            exact absurd ho (hnot m o hpub hm)
          · exact ⟨hc, hone⟩

theorem exists_stackingCandidates {node : Node} {deps : List Node} (h : ∀ d ∈ deps, Readable sib node d) :
    ∃ candidates, stackingCandidates sib node deps = .ok candidates := by
  induction deps with
  | nil => exact ⟨[], rfl⟩
  | cons dep deps ih =>
    obtain ⟨rest, hrest⟩ := ih fun d hd => h d (List.mem_cons_of_mem _ hd)
    rw [stackingCandidates]
    split
    · rename_i mine other hpub hmine hother
      obtain ⟨same, hsame⟩ := h dep List.mem_cons_self hpub mine other hmine hother
      exact ⟨_, by rw [hsame, hrest]; rfl⟩
    · exact ⟨rest, hrest⟩

/-! ## The rule -/

/-- a node a node's base is chosen among -/
def Candidate (sib : Siblings) (nodes : StrMap Node) (node c : Node) : Prop :=
  (∃ d ∈ node.deps, nodes[d]? = some c) ∧ OneRepository sib node c

/-- the rule a node's base follows, given every node's -/
inductive Rule (sib : Siblings) (nodes : StrMap Node) (base : String → Option String) (node : Node) : Prop
  | lands (h : node.publish ≠ .preserve) (hb : base node.id = none)
  | first (h : node.publish = .preserve) (read : ∀ d ∈ node.deps, ∀ dep, nodes[d]? = some dep → Readable sib node dep)
      (alone : ∀ c, ¬Candidate sib nodes node c) (hb : base node.id = none)
  | stacked (c : Node) (h : node.publish = .preserve)
      (read : ∀ d ∈ node.deps, ∀ dep, nodes[d]? = some dep → Readable sib node dep) (hc : Candidate sib nodes node c)
      (free : node.baseBranch.isSome = false) (hb : base node.id = some c.id)
      (top : ∀ o, Candidate sib nodes node o → ReflTransGen (fun a b => base a = some b) c.id o.id)

/-- some assignment of bases follows the rule at every node -/
def Stackable (sib : Siblings) (nodes : StrMap Node) : Prop :=
  ∃ base : String → Option String, ∀ (k : String) (n : Node), nodes[k]? = some n → Rule sib nodes base n

/-- nodes under their ids, each above the ones it depends on -/
structure Layered (nodes : StrMap Node) (rank : String → ℕ) : Prop where
  ids : ∀ (k : String) (n : Node), nodes[k]? = some n → n.id = k
  down : ∀ (k : String) (n : Node), nodes[k]? = some n → ∀ d ∈ n.deps, d ∈ nodes → rank d < rank k

section

variable {rank : String → ℕ} {base : String → Option String} {node c : Node}

theorem candidates_spec {candidates : List Node}
    (h : stackingCandidates sib node (node.deps.filterMap fun dep => nodes[dep]?) = .ok candidates) :
    (∀ d ∈ node.deps, ∀ dep, nodes[d]? = some dep → Readable sib node dep) ∧
      ∀ c, c ∈ candidates ↔ Candidate sib nodes node c := by
  obtain ⟨hread, hmem⟩ := stackingCandidates_spec h
  constructor
  · intro d hd dep hdep
    exact hread dep (List.mem_filterMap.mpr ⟨d, hd, hdep⟩)
  · intro c
    rw [hmem, List.mem_filterMap]
    rfl

theorem Layered.candidate (hl : Layered nodes rank) (hn : nodes[node.id]? = some node) (hc : Candidate sib nodes node c) :
    nodes[c.id]? = some c ∧ rank c.id < rank node.id := by
  obtain ⟨⟨d, hd, hdc⟩, -⟩ := hc
  have hid := hl.ids d c hdc
  subst hid
  exact ⟨hdc, hl.down _ node hn _ hd (Maps.mem_iff.mpr ⟨c, hdc⟩)⟩

theorem Rule.candidate (hr : Rule sib nodes base node) {b : String} (hb : base node.id = some b) :
    ∃ c, Candidate sib nodes node c ∧ c.id = b := by
  cases hr with
  | lands _ hnone => rw [hnone] at hb; cases hb
  | first _ _ _ hnone => rw [hnone] at hb; cases hb
  | stacked c _ _ hc _ hsome =>
    rw [hsome] at hb
    exact ⟨c, hc, Option.some.inj hb⟩

/-! ## Standing on a base -/

theorem standsOn_of_trail {m : StrMap String} {id last other : String} {l : List String} {fuel : ℕ}
    (h : Trail (links m) id last l) (hfuel : l.length ≤ fuel) : standsOn m other fuel id = true ↔ other ∈ l := by
  induction h generalizing fuel with
  | @stop a ends =>
    cases fuel with
    | zero => simp at hfuel
    | succ fuel =>
      have hnone : m[a]? = none := ends
      rw [standsOn, hnone, List.mem_singleton]
      simp [eq_comm]
  | @step a b c l link rest ih =>
    cases fuel with
    | zero => simp at hfuel
    | succ fuel =>
      have hsome : m[a]? = some b := link
      rw [List.length_cons] at hfuel
      rw [standsOn, hsome, List.mem_cons]
      rw [Bool.or_eq_true, decide_eq_true_eq, ih (Nat.le_of_succ_le_succ hfuel), eq_comm]

theorem standsOn_iff {m : StrMap String} (hfalls : ∀ k b : String, m[k]? = some b → rank b < rank k) {id other : String} :
    standsOn m other (m.size + 1) id = true ↔ ReflTransGen (fun a b => links m a = some b) id other := by
  have hdown (a b : String) (h : TransGen (fun a b => links m a = some b) a b) : rank b < rank a := by
    induction h with
    | single h => exact hfalls _ _ h
    | tail _ h ih => exact (hfalls _ _ h).trans ih
  have hkeys (c : String) (hc : (links m c).isSome = true) : c ∈ m.keys.toFinset := by
    obtain ⟨v, hv⟩ := Option.isSome_iff_exists.mp hc
    exact List.mem_toFinset.mpr (Std.ExtTreeMap.mem_keys.mpr (Maps.mem_iff.mpr ⟨v, hv⟩))
  obtain ⟨last, l, ht⟩ := stopped_of_acyclic hkeys (fun a h => absurd (hdown a a h) (lt_irrefl _)) id
  rw [standsOn_of_trail ht (trail_length ht)]
  exact ⟨ht.reaches, fun h => ht.of_reaches h⟩

/-! ## A resolution -/

/-- the nodes being resolved: distinct nodes, each above the one being resolved now -/
structure Resolving (nodes : StrMap Node) (rank : String → ℕ) (path : List String) (id : String) : Prop where
  nodup : path.Nodup
  live : ∀ k ∈ path, k ∈ nodes
  above : ∀ k ∈ path, rank id < rank k

/-- a resolution under way: what is visited and not being resolved follows the rule, and stands on what does -/
structure Settling (sib : Siblings) (nodes : StrMap Node) (rank : String → ℕ) (path : List String) (st : Stacking) :
    Prop where
  live : ∀ k ∈ st.visited, k ∈ nodes
  falls : ∀ k b : String, st.bases[k]? = some b → rank b < rank k ∧ b ∈ st.visited ∧ b ∉ path
  out : ∀ k : String, k ∉ st.visited ∨ k ∈ path → st.bases[k]? = none
  rule : ∀ (k : String) (n : Node), nodes[k]? = some n → k ∈ st.visited → k ∉ path → Rule sib nodes (links st.bases) n

/-- a resolution further on -/
structure Onward (path : List String) (st st' : Stacking) : Prop where
  visited : ∀ k ∈ st.visited, k ∈ st'.visited
  bases : ∀ k : String, k ∈ st.visited → k ∉ path → st'.bases[k]? = st.bases[k]?

theorem Onward.refl (path : List String) (st : Stacking) : Onward path st st := ⟨fun _ h => h, fun _ _ _ => rfl⟩

theorem Onward.trans {path : List String} {st st' st'' : Stacking} (h : Onward path st st') (h' : Onward path st' st'') :
    Onward path st st'' :=
  ⟨fun k hk => h'.visited k (h.visited k hk), fun k hk hp => (h'.bases k (h.visited k hk) hp).trans (h.bases k hk hp)⟩

theorem Rule.congr {base' : String → Option String} (hr : Rule sib nodes base node) (hat : base' node.id = base node.id)
    (hmore : ∀ a b, base a = some b → base' a = some b) : Rule sib nodes base' node := by
  cases hr with
  | lands h hb => exact .lands h (hat.trans hb)
  | first h read alone hb => exact .first h read alone (hat.trans hb)
  | stacked c h read hc free hb top =>
    exact .stacked c h read hc free (hat.trans hb) fun o ho => (top o ho).lift (fun x => x) hmore

theorem Resolving.length_lt {path : List String} {id : String} (hp : Resolving nodes rank path id) (hid : id ∈ nodes) :
    path.length < nodes.size := by
  have hnot : id ∉ path := fun h => absurd (hp.above id h) (lt_irrefl _)
  have hsub : (id :: path).toFinset ⊆ nodes.keys.toFinset := by
    intro k hk
    rcases List.mem_cons.mp (List.mem_toFinset.mp hk) with rfl | hk
    · exact List.mem_toFinset.mpr (Std.ExtTreeMap.mem_keys.mpr hid)
    · exact List.mem_toFinset.mpr (Std.ExtTreeMap.mem_keys.mpr (hp.live k hk))
  have hcard : (id :: path).toFinset.card = path.length + 1 :=
    List.toFinset_card_of_nodup (List.nodup_cons.mpr ⟨hnot, hp.nodup⟩)
  calc path.length < (id :: path).toFinset.card := by omega
    _ ≤ nodes.keys.toFinset.card := Finset.card_le_card hsub
    _ ≤ nodes.keys.length := List.toFinset_card_le _
    _ = nodes.size := Std.ExtTreeMap.length_keys

theorem Resolving.cons {path : List String} (hl : Layered nodes rank) (hn : nodes[node.id]? = some node)
    (hp : Resolving nodes rank path node.id) (hc : Candidate sib nodes node c) :
    Resolving nodes rank (node.id :: path) c.id := by
  have hdown := (hl.candidate hn hc).2
  refine ⟨List.nodup_cons.mpr ⟨fun h => absurd (hp.above _ h) (lt_irrefl _), hp.nodup⟩, fun k hk => ?_, fun k hk => ?_⟩
  · rcases List.mem_cons.mp hk with rfl | hk
    · exact Maps.mem_iff.mpr ⟨node, hn⟩
    · exact hp.live k hk
  · rcases List.mem_cons.mp hk with rfl | hk
    · exact hdown
    · exact hdown.trans (hp.above k hk)

/-- a node visited that no base is to be chosen for -/
theorem Settling.visit {path : List String} {st : Stacking} (hs : Settling sib nodes rank path st)
    (hn : nodes[node.id]? = some node)
    (hrule : node.id ∉ st.visited → links st.bases node.id = none → Rule sib nodes (links st.bases) node) :
    Settling sib nodes rank path { st with visited := st.visited.insert node.id } ∧
      Onward path st { st with visited := st.visited.insert node.id } := by
  have hmem (k : String) : k ∈ st.visited.insert node.id ↔ node.id = k ∨ k ∈ st.visited := by
    simp [Std.ExtTreeSet.mem_insert]
  refine ⟨⟨fun k hk => ?_, fun k b hb => ?_, fun k hk => ?_, fun k n hkn hk hp => ?_⟩,
    ⟨fun k hk => (hmem k).mpr (.inr hk), fun _ _ _ => rfl⟩⟩
  · rcases (hmem k).mp hk with rfl | hk
    · exact Maps.mem_iff.mpr ⟨node, hn⟩
    · exact hs.live k hk
  · obtain ⟨hr, hv, hp⟩ := hs.falls k b hb
    exact ⟨hr, (hmem b).mpr (.inr hv), hp⟩
  · exact hs.out k (hk.imp_left fun h hv => h ((hmem k).mpr (.inr hv)))
  · by_cases hv : k ∈ st.visited
    · exact hs.rule k n hkn hv hp
    · obtain rfl : node.id = k := ((hmem k).mp hk).resolve_right hv
      rw [hn] at hkn
      cases hkn
      exact hrule hv (hs.out _ (.inl hv))

/-- the nodes being resolved, with one more -/
theorem Settling.enter {path : List String} {st : Stacking} (hs : Settling sib nodes rank path st) {id : String}
    (hin : id ∈ nodes) (hnew : id ∉ st.visited) :
    Settling sib nodes rank (id :: path) { st with visited := st.visited.insert id } := by
  have hmem (k : String) : k ∈ st.visited.insert id ↔ id = k ∨ k ∈ st.visited := by
    simp [Std.ExtTreeSet.mem_insert]
  refine ⟨fun k hk => ?_, fun k b hb => ?_, fun k hk => ?_, fun k n hkn hk hp => ?_⟩
  · rcases (hmem k).mp hk with rfl | hk
    · exact hin
    · exact hs.live k hk
  · obtain ⟨hr, hv, hp⟩ := hs.falls k b hb
    refine ⟨hr, (hmem b).mpr (.inr hv), fun hin => ?_⟩
    rcases List.mem_cons.mp hin with rfl | hin
    · exact hnew hv
    · exact hp hin
  · rcases hk with hk | hk
    · exact hs.out k (.inl fun hv => hk ((hmem k).mpr (.inr hv)))
    · rcases List.mem_cons.mp hk with rfl | hk
      · exact hs.out k (.inl hnew)
      · exact hs.out k (.inr hk)
  · rw [List.mem_cons, not_or] at hp
    exact hs.rule k n hkn (((hmem k).mp hk).resolve_left fun h => hp.1 h.symm) hp.2

/-- the candidate every other one is below, once they are all resolved -/
theorem Settling.settle {path : List String} {st : Stacking} (hl : Layered nodes rank) (hn : nodes[node.id]? = some node)
    (hs : Settling sib nodes rank (node.id :: path) st) (hp : Resolving nodes rank path node.id)
    (hvisited : node.id ∈ st.visited) (hrank : rank c.id < rank node.id) (hc : c.id ∈ st.visited)
    (hrule : Rule sib nodes (links (st.bases.insert node.id c.id)) node) :
    Settling sib nodes rank path { st with bases := st.bases.insert node.id c.id } := by
  have hself : node.id ∉ path := fun h => absurd (hp.above _ h) (lt_irrefl _)
  have hcp : c.id ∉ path := fun h => absurd ((hp.above _ h).trans' hrank) (lt_irrefl _)
  have hnone : st.bases[node.id]? = none := hs.out _ (.inr List.mem_cons_self)
  refine ⟨hs.live, fun k b hb => ?_, fun k hk => ?_, fun k n hkn hk hkp => ?_⟩
  · rw [Maps.get_insert] at hb
    split_ifs at hb with hk
    · obtain rfl := Option.some.inj hb
      exact ⟨hk ▸ hrank, hc, hcp⟩
    · obtain ⟨hr, hv, hb⟩ := hs.falls k b hb
      exact ⟨hr, hv, fun h => hb (List.mem_cons_of_mem _ h)⟩
  · have hk' : k ≠ node.id := by
      rintro rfl
      exact hk.elim (fun h => h hvisited) hself
    rw [Maps.get_insert, if_neg hk']
    exact hs.out k (hk.imp_right (List.mem_cons_of_mem _))
  · by_cases hkn' : k = node.id
    · subst hkn'
      rw [hn] at hkn
      cases hkn
      exact hrule
    · have hpath : k ∉ node.id :: path := by
        rw [List.mem_cons, not_or]
        exact ⟨hkn', hkp⟩
      refine (hs.rule k n hkn hk hpath).congr ?_ fun a b hab => ?_
      · rw [links, Maps.get_insert, hl.ids k n hkn, if_neg hkn', links]
      · have ha : a ≠ node.id := by
          rintro rfl
          rw [links, hnone] at hab
          cases hab
        rw [links, Maps.get_insert, if_neg ha]
        exact hab

/-- resolutions one after another -/
theorem foldlM_settles {path : List String} {f : Stacking → Node → Except Refusal Stacking} {l : List Node}
    {st st' : Stacking}
    (hstep : ∀ c ∈ l, ∀ st st', Settling sib nodes rank path st → f st c = .ok st' →
      Settling sib nodes rank path st' ∧ Onward path st st' ∧ c.id ∈ st'.visited)
    (hs : Settling sib nodes rank path st) (h : l.foldlM f st = .ok st') :
    Settling sib nodes rank path st' ∧ Onward path st st' ∧ ∀ c ∈ l, c.id ∈ st'.visited := by
  induction l generalizing st with
  | nil =>
    obtain rfl := Except.ok.inj h
    exact ⟨hs, .refl path st, fun c hc => by cases hc⟩
  | cons a l ih =>
    rw [List.foldlM_cons, bind_eq_ok] at h
    obtain ⟨st₁, hfirst, h⟩ := h
    obtain ⟨hs₁, hon₁, ha⟩ := hstep a List.mem_cons_self st st₁ hs hfirst
    obtain ⟨hs', hon', hl⟩ := ih (fun c hc => hstep c (List.mem_cons_of_mem _ hc)) hs₁ h
    refine ⟨hs', hon₁.trans hon', fun c hc => ?_⟩
    rcases List.mem_cons.mp hc with rfl | hc
    · exact hon'.visited _ ha
    · exact hl c hc

theorem topmost_spec {m : StrMap String} {candidates : List Node} {top : Node}
    (hfalls : ∀ k b : String, m[k]? = some b → rank b < rank k) (h : topmost m candidates = some top) :
    top ∈ candidates ∧ ∀ o ∈ candidates, ReflTransGen (fun a b => links m a = some b) top.id o.id := by
  refine ⟨List.mem_of_find?_eq_some h, fun o ho => (standsOn_iff hfalls).mp ?_⟩
  have hall := List.find?_some h
  exact List.all_eq_true.mp hall o ho

/-- **One resolution.** Where it ends well, what it visited follows the rule. -/
theorem resolveBase_spec (hl : Layered nodes rank) {fuel : ℕ} {path : List String} {st st' : Stacking}
    (hn : nodes[node.id]? = some node) (hp : Resolving nodes rank path node.id)
    (hfuel : nodes.size + 1 ≤ fuel + path.length) (hs : Settling sib nodes rank path st)
    (h : resolveBase sib nodes fuel node st = .ok st') :
    Settling sib nodes rank path st' ∧ Onward path st st' ∧ node.id ∈ st'.visited := by
  induction fuel generalizing node path st st' with
  | zero =>
    have hlen := hp.length_lt (Maps.mem_iff.mpr ⟨node, hn⟩)
    omega
  | succ fuel ih =>
    have hself : node.id ∈ st.visited.insert node.id := by simp
    rw [resolveBase] at h
    by_cases hskip : node.id ∈ st.visited ∨ node.publish ≠ .preserve
    · simp only [if_pos hskip] at h
      obtain rfl := Except.ok.inj h
      obtain ⟨hs', hon⟩ := hs.visit hn fun hnew hnone => .lands (hskip.resolve_left hnew) hnone
      exact ⟨hs', hon, hself⟩
    · simp only [if_neg hskip, bind_eq_ok] at h
      obtain ⟨candidates, hcands, h⟩ := h
      rw [not_or, not_not] at hskip
      obtain ⟨hnew, hpub⟩ := hskip
      obtain ⟨hread, hmem⟩ := candidates_spec hcands
      split_ifs at h with hnil
      · obtain rfl := pure_eq_ok.mp h
        have halone (c : Node) (hc : Candidate sib nodes node c) : False := by
          have hin := (hmem c).mpr hc
          rw [hnil] at hin
          cases hin
        obtain ⟨hs', hon⟩ := hs.visit hn fun _ hnone => .first hpub hread halone hnone
        exact ⟨hs', hon, hself⟩
      · simp only [bind_eq_ok, refuseIf_eq_ok, exists_unit, need_eq_ok, pure_eq_ok] at h
        obtain ⟨hfree, st₂, hfold, top, htop, rfl⟩ := h
        obtain ⟨hs₂, hon₂, hvisited⟩ := foldlM_settles (fun c hc st st' hs hc' => by
          have hcand := (hmem c).mp hc
          have hpath := hp.cons hl hn hcand
          exact ih (hl.candidate hn hcand).1 hpath (by rw [List.length_cons]; omega) hs hc')
          (hs.enter (Maps.mem_iff.mpr ⟨node, hn⟩) hnew) hfold
        obtain ⟨htopin, hbelow⟩ := topmost_spec (fun k b hb => (hs₂.falls k b hb).1) htop
        have hcand := (hmem top).mp htopin
        have hnone : st₂.bases[node.id]? = none := hs₂.out _ (.inr List.mem_cons_self)
        have hrule : Rule sib nodes (links (st₂.bases.insert node.id top.id)) node := by
          refine .stacked top hpub hread hcand (Bool.not_eq_true _ ▸ hfree) ?_ fun o ho => ?_
          · show (st₂.bases.insert node.id top.id)[node.id]? = some top.id
            rw [Maps.get_insert, if_pos rfl]
          · refine (hbelow o ((hmem o).mpr ho)).lift (fun x => x) fun a b hab => ?_
            have hab' : st₂.bases[a]? = some b := hab
            have ha : a ≠ node.id := by
              rintro rfl
              rw [hnone] at hab'
              cases hab'
            show (st₂.bases.insert node.id top.id)[a]? = some b
            rw [Maps.get_insert, if_neg ha, hab']
        have hnode : node.id ∈ st₂.visited := hon₂.visited _ hself
        refine ⟨hs₂.settle hl hn hp hnode (hl.candidate hn hcand).2 (hvisited top htopin) hrule, ?_, hnode⟩
        refine ⟨fun k hk => hon₂.visited k (by simp [hk]), fun k hk hkp => ?_⟩
        have hk' : k ≠ node.id := fun h => hnew (h ▸ hk)
        have hkept := hon₂.bases k (by simp [hk]) (by simp [hk', hkp])
        rw [Maps.get_insert, if_neg hk', hkept]

/-! ## One assignment -/

theorem reaches_of_agree {f g : String → Option String} {P : String → Prop} (hagree : ∀ x, P x → f x = g x)
    (hstep : ∀ x y, P x → f x = some y → P y) {a b : String} (ha : P a) (h : ReflTransGen (fun a b => f a = some b) a b) :
    ReflTransGen (fun a b => g a = some b) a b := by
  induction h using ReflTransGen.head_induction_on with
  | refl => exact .refl
  | @head x y hxy _ ih => exact .head ((hagree x ha).symm.trans hxy) (ih (hstep x y ha hxy))

/-- along bases that follow the rule, a node stands on lower ones -/
theorem rank_of_reaches (hl : Layered nodes rank) (hb : ∀ (k : String) (n : Node), nodes[k]? = some n → Rule sib nodes base n)
    {a b : String} (ha : a ∈ nodes) (h : ReflTransGen (fun a b => base a = some b) a b) : a = b ∨ rank b < rank a := by
  induction h using ReflTransGen.head_induction_on with
  | refl => exact .inl rfl
  | @head x y hxy _ ih =>
    obtain ⟨n, hn⟩ := Maps.mem_iff.mp ha
    have hid := hl.ids x n hn
    subst hid
    obtain ⟨c, hc, rfl⟩ := (hb _ n hn).candidate hxy
    obtain ⟨hcn, hdown⟩ := hl.candidate hn hc
    rcases ih (Maps.mem_iff.mpr ⟨c, hcn⟩) with rfl | hlt
    · exact .inr hdown
    · exact .inr (hlt.trans hdown)

/-- **One assignment.** What a resolution settled agrees with every assignment that follows the rule. -/
theorem Settling.agrees {path : List String} {st : Stacking} (hl : Layered nodes rank)
    (hs : Settling sib nodes rank path st) (hb : ∀ (k : String) (n : Node), nodes[k]? = some n → Rule sib nodes base n)
    {n : Node} (hn : nodes[n.id]? = some n) (hv : n.id ∈ st.visited) (hp : n.id ∉ path) :
    links st.bases n.id = base n.id := by
  induction hr : rank n.id using Nat.strong_induction_on generalizing n with
  | _ r ih =>
    subst hr
    cases hs.rule n.id n hn hv hp with
    | lands hpub hnone =>
      cases hb n.id n hn with
      | lands _ hnone' => rw [hnone, hnone']
      | first hpub' => exact absurd hpub' hpub
      | stacked _ hpub' => exact absurd hpub' hpub
    | first hpub _ alone hnone =>
      cases hb n.id n hn with
      | lands hpub' => exact absurd hpub hpub'
      | first _ _ _ hnone' => rw [hnone, hnone']
      | stacked c _ _ hc => exact absurd hc (alone c)
    | stacked c hpub _ hc _ hsome top =>
      cases hb n.id n hn with
      | lands hpub' => exact absurd hpub hpub'
      | first _ _ alone => exact absurd hc (alone c)
      | stacked c' _ _ hc' _ hsome' top' =>
        obtain ⟨hcn, hdown⟩ := hl.candidate hn hc
        obtain ⟨hcn', hdown'⟩ := hl.candidate hn hc'
        -- below the node, what is settled agrees already
        let below (x : String) : Prop :=
          (∃ m : Node, nodes[m.id]? = some m ∧ m.id = x) ∧ x ∈ st.visited ∧ x ∉ path ∧ rank x < rank n.id
        have hagree (x : String) (hx : below x) : links st.bases x = base x := by
          obtain ⟨⟨m, hm, rfl⟩, hxv, hxp, hxr⟩ := hx
          exact ih _ hxr hm hxv hxp rfl
        have hstep (x y : String) (hx : below x) (hxy : links st.bases x = some y) : below y := by
          obtain ⟨⟨m, hm, rfl⟩, hxv, hxp, hxr⟩ := hx
          obtain ⟨hlt, hyv, hyp⟩ := hs.falls _ _ hxy
          obtain ⟨d, hd, rfl⟩ := (hs.rule _ m hm hxv hxp).candidate hxy
          exact ⟨⟨d, (hl.candidate hm hd).1, rfl⟩, hyv, hyp, hlt.trans hxr⟩
        obtain ⟨-, hcv, hcp⟩ := hs.falls _ _ hsome
        have hdownto := reaches_of_agree hagree hstep ⟨⟨c, hcn, rfl⟩, hcv, hcp, hdown⟩ (top c' hc')
        rw [hsome, hsome']
        rcases rank_of_reaches hl hb (Maps.mem_iff.mpr ⟨c, hcn⟩) hdownto with heq | hlt
        · rw [heq]
        · rcases rank_of_reaches hl hb (Maps.mem_iff.mpr ⟨c', hcn'⟩) (top' c hc) with heq | hlt'
          · rw [heq]
          · omega

/-- what a settled node stands on under an assignment, it stands on under the bases resolved -/
theorem Settling.stands {path : List String} {st : Stacking} (hl : Layered nodes rank)
    (hs : Settling sib nodes rank path st) (hb : ∀ (k : String) (n : Node), nodes[k]? = some n → Rule sib nodes base n)
    {other : String} (hc : nodes[c.id]? = some c) (hv : c.id ∈ st.visited) (hp : c.id ∉ path)
    (h : ReflTransGen (fun a b => base a = some b) c.id other) :
    ReflTransGen (fun a b => links st.bases a = some b) c.id other := by
  let settled (x : String) : Prop := (∃ m : Node, nodes[m.id]? = some m ∧ m.id = x) ∧ x ∈ st.visited ∧ x ∉ path
  have hagree (x : String) (hx : settled x) : base x = links st.bases x := by
    obtain ⟨⟨m, hm, rfl⟩, hxv, hxp⟩ := hx
    exact (hs.agrees hl hb hm hxv hxp).symm
  refine reaches_of_agree hagree (fun x y hx hxy => ?_) (show settled c.id from ⟨⟨c, hc, rfl⟩, hv, hp⟩) h
  have hxy' := (hagree x hx).symm.trans hxy
  obtain ⟨⟨m, hm, rfl⟩, hxv, hxp⟩ := hx
  obtain ⟨-, hyv, hyp⟩ := hs.falls _ _ hxy'
  obtain ⟨d, hd, rfl⟩ := (hs.rule _ m hm hxv hxp).candidate hxy'
  exact ⟨⟨d, (hl.candidate hm hd).1, rfl⟩, hyv, hyp⟩

theorem foldlM_exists {path : List String} {f : Stacking → Node → Except Refusal Stacking} {l : List Node} {st : Stacking}
    (hstep : ∀ c ∈ l, ∀ st st', Settling sib nodes rank path st → f st c = .ok st' →
      Settling sib nodes rank path st' ∧ Onward path st st' ∧ c.id ∈ st'.visited)
    (hok : ∀ c ∈ l, ∀ st, Settling sib nodes rank path st → ∃ st', f st c = .ok st')
    (hs : Settling sib nodes rank path st) : ∃ st', l.foldlM f st = .ok st' := by
  induction l generalizing st with
  | nil => exact ⟨st, rfl⟩
  | cons a l ih =>
    obtain ⟨st₁, hfirst⟩ := hok a List.mem_cons_self st hs
    obtain ⟨hs₁, -, -⟩ := hstep a List.mem_cons_self st st₁ hs hfirst
    obtain ⟨st', hst'⟩ := ih (fun c hc => hstep c (List.mem_cons_of_mem _ hc))
      (fun c hc => hok c (List.mem_cons_of_mem _ hc)) hs₁
    exact ⟨st', by rw [List.foldlM_cons, hfirst]; exact hst'⟩

/-- **Resolutions that end well.** Where some assignment follows the rule at every node, each resolution ends well. -/
theorem exists_resolveBase (hl : Layered nodes rank)
    (hb : ∀ (k : String) (n : Node), nodes[k]? = some n → Rule sib nodes base n) {fuel : ℕ} {path : List String}
    {st : Stacking} (hn : nodes[node.id]? = some node) (hp : Resolving nodes rank path node.id)
    (hfuel : nodes.size + 1 ≤ fuel + path.length) (hs : Settling sib nodes rank path st) :
    ∃ st', resolveBase sib nodes fuel node st = .ok st' := by
  induction fuel generalizing node path st with
  | zero => exact ⟨st, rfl⟩
  | succ fuel ih =>
    rw [resolveBase]
    by_cases hskip : node.id ∈ st.visited ∨ node.publish ≠ .preserve
    · exact ⟨_, if_pos hskip⟩
    · simp only [if_neg hskip, bind_eq_ok]
      rw [not_or, not_not] at hskip
      obtain ⟨hnew, hpub⟩ := hskip
      have hread : ∀ d ∈ node.deps, ∀ dep, nodes[d]? = some dep → Readable sib node dep := by
        cases hb node.id node hn with
        | lands h => exact absurd hpub h
        | first _ read => exact read
        | stacked _ _ read => exact read
      obtain ⟨candidates, hcands⟩ : ∃ candidates,
          stackingCandidates sib node (node.deps.filterMap fun dep => nodes[dep]?) = .ok candidates := by
        refine exists_stackingCandidates fun dep hdep => ?_
        obtain ⟨d, hd, hdd⟩ := List.mem_filterMap.mp hdep
        exact hread d hd dep hdd
      obtain ⟨-, hmem⟩ := candidates_spec hcands
      by_cases hnil : candidates = []
      · exact ⟨_, candidates, hcands, by rw [if_pos hnil]; rfl⟩
      · obtain ⟨c, hc⟩ := List.exists_mem_of_ne_nil candidates hnil
        cases hb node.id node hn with
        | lands h => exact absurd hpub h
        | first _ _ alone => exact absurd ((hmem c).mp hc) (alone c)
        | stacked top _ _ htop free _ hall =>
          have hstep (c : Node) (hc : c ∈ candidates) (st st' : Stacking)
              (hs : Settling sib nodes rank (node.id :: path) st) (h : resolveBase sib nodes fuel c st = .ok st') :
              Settling sib nodes rank (node.id :: path) st' ∧ Onward (node.id :: path) st st' ∧ c.id ∈ st'.visited := by
            have hcand := (hmem c).mp hc
            exact resolveBase_spec hl (hl.candidate hn hcand).1 (hp.cons hl hn hcand)
              (by rw [List.length_cons]; omega) hs h
          have hok (c : Node) (hc : c ∈ candidates) (st : Stacking)
              (hs : Settling sib nodes rank (node.id :: path) st) : ∃ st', resolveBase sib nodes fuel c st = .ok st' := by
            have hcand := (hmem c).mp hc
            exact ih (hl.candidate hn hcand).1 (hp.cons hl hn hcand) (by rw [List.length_cons]; omega) hs
          obtain ⟨st₂, hst₂⟩ := foldlM_exists hstep hok (hs.enter (Maps.mem_iff.mpr ⟨node, hn⟩) hnew)
          obtain ⟨hs₂, -, hvisited⟩ := foldlM_settles hstep (hs.enter (Maps.mem_iff.mpr ⟨node, hn⟩) hnew) hst₂
          -- the base the assignment gives the node is one the search finds
          obtain ⟨found, hfound⟩ : ∃ found, topmost st₂.bases candidates = some found := by
            refine Option.isSome_iff_exists.mp (List.find?_isSome.mpr ⟨top, (hmem top).mpr htop, ?_⟩)
            refine List.all_eq_true.mpr fun o ho => (standsOn_iff fun k b hkb => (hs₂.falls k b hkb).1).mpr ?_
            exact hs₂.stands hl hb (hl.candidate hn htop).1 (hvisited top ((hmem top).mpr htop))
              (fun hin => absurd ((hp.cons hl hn htop).above _ hin) (lt_irrefl _)) (hall o ((hmem o).mp ho))
          refine ⟨{ st₂ with bases := st₂.bases.insert node.id found.id }, candidates, hcands, ?_⟩
          rw [if_neg hnil]
          simp only [bind_eq_ok, refuseIf_eq_ok, exists_unit, need_eq_ok, pure_eq_ok]
          exact ⟨by rw [free]; exact Bool.false_ne_true, st₂, hst₂, found, hfound, rfl⟩

/-! ## Every node -/

theorem Layered.values (hl : Layered nodes rank) {c : Node} (hc : c ∈ nodes.values) : nodes[c.id]? = some c := by
  obtain ⟨k, hk⟩ := Maps.mem_values.mp hc
  rw [hl.ids k c hk]
  exact hk

theorem Resolving.nil (id : String) : Resolving nodes rank [] id := ⟨List.nodup_nil, by simp, by simp⟩

theorem Settling.empty : Settling sib nodes rank [] {} := by
  refine ⟨fun k hk => ?_, fun k b hb => ?_, fun k _ => by simp, fun k n _ hk => ?_⟩
  · simp at hk
  · simp at hb
  · simp at hk

/-- one resolution from nothing under way -/
theorem resolveBase_outermost (hl : Layered nodes rank) (hc : c ∈ nodes.values) {st st' : Stacking}
    (hs : Settling sib nodes rank [] st) (h : resolveBase sib nodes (nodes.size + 1) c st = .ok st') :
    Settling sib nodes rank [] st' ∧ Onward [] st st' ∧ c.id ∈ st'.visited :=
  resolveBase_spec hl (hl.values hc) (.nil c.id) (by simp) hs h

/-- **Every node.** Where the bases resolve, every node is visited, and follows the rule. -/
theorem stackingBases_spec (hl : Layered nodes rank) {bases : StrMap String} (h : stackingBases sib nodes = .ok bases) :
    ∃ st : Stacking, st.bases = bases ∧ Settling sib nodes rank [] st ∧ ∀ k ∈ nodes, k ∈ st.visited := by
  rw [stackingBases, map_eq_ok] at h
  obtain ⟨st, hfold, hst⟩ := h
  obtain ⟨hs, -, hvisited⟩ := foldlM_settles (fun c hc _ _ => resolveBase_outermost hl hc) .empty hfold
  refine ⟨st, hst, hs, fun k hk => ?_⟩
  obtain ⟨n, hn⟩ := Maps.mem_iff.mp hk
  have hin := hvisited n (Maps.mem_values.mpr ⟨k, hn⟩)
  rwa [hl.ids k n hn] at hin

/-- **The bases resolve.** They do exactly where some assignment follows the rule at every node. -/
theorem stackingBases_iff (hl : Layered nodes rank) : (∃ bases, stackingBases sib nodes = .ok bases) ↔ Stackable sib nodes := by
  constructor
  · rintro ⟨bases, h⟩
    obtain ⟨st, -, hs, hvisited⟩ := stackingBases_spec hl h
    exact ⟨links st.bases, fun k n hn => hs.rule k n hn (hvisited k (Maps.mem_iff.mpr ⟨n, hn⟩)) (by simp)⟩
  · rintro ⟨base, hb⟩
    have hok (c : Node) (hc : c ∈ nodes.values) (st : Stacking) (hs : Settling sib nodes rank [] st) :
        ∃ st', resolveBase sib nodes (nodes.size + 1) c st = .ok st' :=
      exists_resolveBase hl hb (hl.values hc) (.nil c.id) (by simp) hs
    obtain ⟨st, hst⟩ := foldlM_exists (fun c hc _ _ => resolveBase_outermost hl hc) hok .empty
    exact ⟨st.bases, by rw [stackingBases, hst]; rfl⟩

/-! ## Nodes renamed -/

/-- a node renamed, as far as its base goes -/
structure RenamedNode (σ : String → String) (nodes : StrMap Node) (n n' : Node) : Prop where
  publish : n'.publish = n.publish
  repo : n'.repo = n.repo
  baseBranch : n'.baseBranch = n.baseBranch
  deps : ∀ d ∈ nodes, d ∈ n.deps ↔ σ d ∈ n'.deps

/-- nodes renamed, one to one -/
structure Renamed (σ : String → String) (nodes nodes' : StrMap Node) : Prop where
  forth : ∀ (k : String) (n : Node), nodes[k]? = some n → ∃ n' : Node, nodes'[σ k]? = some n' ∧ RenamedNode σ nodes n n'
  back : ∀ k' ∈ nodes', ∃ k ∈ nodes, σ k = k'
  inj : ∀ a ∈ nodes, ∀ b ∈ nodes, σ a = σ b → a = b

theorem sameRepository_of_any {n d n' d' : Node} {mine other : String} {same : Bool}
    (h : sameRepository sib n d mine other = .ok same) : sameRepository sib n' d' mine other = .ok same := by
  unfold sameRepository at h ⊢
  split_ifs at h ⊢ with heq
  · exact h
  · cases hm : sib.identity mine with
    | error => rw [hm] at h; cases h
    | ok a =>
      cases ho : sib.identity other with
      | error => rw [hm, ho] at h; cases h
      | ok b =>
        rw [hm, ho] at h
        exact h

theorem OneRepository.of_fields {n d n' d' : Node} (hn : n'.repo = n.repo) (hd : d'.repo = d.repo)
    (hp : d'.publish = d.publish) (h : OneRepository sib n d) : OneRepository sib n' d' := by
  obtain ⟨hpub, mine, other, hm, ho, hsame⟩ := h
  exact ⟨hp.trans hpub, mine, other, hn.trans hm, hd.trans ho, sameRepository_of_any hsame⟩

theorem Readable.of_fields {n d n' d' : Node} (hn : n'.repo = n.repo) (hd : d'.repo = d.repo)
    (hp : d'.publish = d.publish) (h : Readable sib n d) : Readable sib n' d' := by
  intro hpub mine other hm ho
  obtain ⟨same, hsame⟩ := h (hp.symm.trans hpub) mine other (hn.symm.trans hm) (hd.symm.trans ho)
  exact ⟨same, sameRepository_of_any hsame⟩

section

variable {σ : String → String} {nodes' : StrMap Node} {n n' : Node}

/-- a dependency of a node renamed is a dependency of the node, renamed -/
theorem Renamed.dep (hr : Renamed σ nodes nodes') (hn : RenamedNode σ nodes n n') {d' : String} {dep' : Node}
    (hd : d' ∈ n'.deps) (hdep : nodes'[d']? = some dep') :
    ∃ d ∈ n.deps, ∃ dep, nodes[d]? = some dep ∧ σ d = d' ∧ RenamedNode σ nodes dep dep' := by
  obtain ⟨d, hin, rfl⟩ := hr.back d' (Maps.mem_iff.mpr ⟨dep', hdep⟩)
  obtain ⟨dep, hdep₀⟩ := Maps.mem_iff.mp hin
  obtain ⟨m, hm, hlike⟩ := hr.forth d dep hdep₀
  rw [hdep] at hm
  cases hm
  exact ⟨d, (hn.deps d hin).mpr hd, dep, hdep₀, rfl, hlike⟩

theorem Renamed.candidate_back (hr : Renamed σ nodes nodes') (hn : RenamedNode σ nodes n n') {c' : Node}
    (hc : Candidate sib nodes' n' c') : ∃ c, Candidate sib nodes n c ∧ ∃ d, nodes[d]? = some c ∧ nodes'[σ d]? = some c' := by
  obtain ⟨⟨d', hd', hc'⟩, hone⟩ := hc
  obtain ⟨d, hd, c, hcn, rfl, hlike⟩ := hr.dep hn hd' hc'
  exact ⟨c, ⟨⟨d, hd, hcn⟩, hone.of_fields hn.repo.symm hlike.repo.symm hlike.publish.symm⟩, d, hcn, hc'⟩

theorem Renamed.candidate_forth (hr : Renamed σ nodes nodes') (hn : RenamedNode σ nodes n n') (hc : Candidate sib nodes n c) :
    ∃ c', Candidate sib nodes' n' c' ∧ ∃ d, nodes[d]? = some c ∧ nodes'[σ d]? = some c' := by
  obtain ⟨⟨d, hd, hcn⟩, hone⟩ := hc
  obtain ⟨c', hc', hlike⟩ := hr.forth d c hcn
  have hd' := (hn.deps d (Maps.mem_iff.mpr ⟨c, hcn⟩)).mp hd
  exact ⟨c', ⟨⟨σ d, hd', hc'⟩, hone.of_fields hn.repo hlike.repo hlike.publish⟩, d, hcn, hc'⟩

/-- a node stands, renamed, on what it stood on -/
theorem Renamed.stands {base' : String → Option String}
    (hids : ∀ (k : String) (n : Node), nodes[k]? = some n → n.id = k)
    (hb : ∀ (k : String) (n : Node), nodes[k]? = some n → Rule sib nodes base n)
    (hbase : ∀ k ∈ nodes, base' (σ k) = (base k).map σ) {a b : String} (ha : a ∈ nodes)
    (hab : ReflTransGen (fun a b => base a = some b) a b) :
    ReflTransGen (fun a b => base' a = some b) (σ a) (σ b) := by
  induction hab using ReflTransGen.head_induction_on with
  | refl => exact .refl
  | @head x y hxy _ ih =>
    obtain ⟨m, hm⟩ := Maps.mem_iff.mp ha
    have hid := hids x m hm
    subst hid
    obtain ⟨c, ⟨⟨d, -, hc⟩, -⟩, rfl⟩ := (hb _ m hm).candidate hxy
    have hcid := hids d c hc
    subst hcid
    refine .head ?_ (ih (Maps.mem_iff.mpr ⟨c, hc⟩))
    rw [hbase _ ha, hxy, Option.map_some]

/-- an assignment that follows the rule at every node does so, renamed, at every node renamed -/
theorem Renamed.rule {base' : String → Option String}
    (hids : ∀ (k : String) (n : Node), nodes[k]? = some n → n.id = k)
    (hids' : ∀ (k : String) (n : Node), nodes'[k]? = some n → n.id = k) (hr : Renamed σ nodes nodes')
    (hb : ∀ (k : String) (n : Node), nodes[k]? = some n → Rule sib nodes base n)
    (hbase : ∀ k ∈ nodes, base' (σ k) = (base k).map σ) {k' : String} (hn' : nodes'[k']? = some n') :
    Rule sib nodes' base' n' := by
  obtain ⟨k, hk, rfl⟩ := hr.back k' (Maps.mem_iff.mpr ⟨n', hn'⟩)
  obtain ⟨n, hn⟩ := Maps.mem_iff.mp hk
  obtain ⟨m, hm, hlike⟩ := hr.forth k n hn
  rw [hn'] at hm
  cases hm
  have hat : base' n'.id = (base n.id).map σ := by rw [hids' _ n' hn', hbase k hk, hids k n hn]
  have hread (read : ∀ d ∈ n.deps, ∀ dep, nodes[d]? = some dep → Readable sib n dep) :
      ∀ d ∈ n'.deps, ∀ dep, nodes'[d]? = some dep → Readable sib n' dep := by
    intro d' hd' dep' hdep'
    obtain ⟨d, hd, dep, hdep, -, hdlike⟩ := hr.dep hlike hd' hdep'
    exact (read d hd dep hdep).of_fields hlike.repo hdlike.repo hdlike.publish
  cases hb k n hn with
  | lands hpub hnone => exact .lands (hlike.publish ▸ hpub) (by rw [hat, hnone]; rfl)
  | first hpub read alone hnone =>
    refine .first (hlike.publish.trans hpub) (hread read) (fun c' hc' => ?_) (by rw [hat, hnone]; rfl)
    obtain ⟨c, hc, -⟩ := hr.candidate_back hlike hc'
    exact alone c hc
  | stacked c hpub read hc free hsome top =>
    obtain ⟨c', hc', d, hd, hd'⟩ := hr.candidate_forth hlike hc
    have hcid : c'.id = σ c.id := by rw [hids' _ c' hd', hids d c hd]
    refine .stacked c' (hlike.publish.trans hpub) (hread read) hc' (by rw [hlike.baseBranch]; exact free) ?_ fun o' ho' => ?_
    · rw [hat, hsome, hcid]
      rfl
    · obtain ⟨o, ho, e, he, he'⟩ := hr.candidate_back hlike ho'
      have hoid : o'.id = σ o.id := by rw [hids' _ o' he', hids e o he]
      rw [hcid, hoid]
      exact Renamed.stands hids hb hbase (hids d c hd ▸ Maps.mem_iff.mpr ⟨c, hd⟩) (top o ho)

/-- an assignment carried over to nodes renamed -/
theorem Renamed.exists_base (hr : Renamed σ nodes nodes') (base : String → Option String) :
    ∃ base' : String → Option String, ∀ k ∈ nodes, base' (σ k) = (base k).map σ := by
  classical
  refine ⟨fun k' => if hk : ∃ k ∈ nodes, σ k = k' then (base hk.choose).map σ else none, fun k hk => ?_⟩
  have hex : ∃ a ∈ nodes, σ a = σ k := ⟨k, hk, rfl⟩
  have hchoose : hex.choose = k := hr.inj _ hex.choose_spec.1 _ hk hex.choose_spec.2
  simp only [dif_pos hex, hchoose]

/-- **Nodes renamed.** Where some assignment follows the rule at every node, one does at every node renamed. -/
theorem Stackable.renamed (hids : ∀ (k : String) (n : Node), nodes[k]? = some n → n.id = k)
    (hids' : ∀ (k : String) (n : Node), nodes'[k]? = some n → n.id = k) (hr : Renamed σ nodes nodes')
    (h : Stackable sib nodes) : Stackable sib nodes' := by
  obtain ⟨base, hb⟩ := h
  obtain ⟨base', hbase⟩ := hr.exists_base base
  exact ⟨base', fun k' n' hn' => hr.rule hids hids' hb hbase hn'⟩

end

end

end OnePipeline
