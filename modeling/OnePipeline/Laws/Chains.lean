/-
The chains preserved nodes stand on: which base each gets, and why a resolution refuses.

Results:
- `Settling.based`: what a resolution settled gives each node the base its chains name;
- `resolveBase_refused`: a resolution refused names a node that cannot be read, cannot be placed, or fans in;
- `stacking_exact`: the bases of an acyclic plan are exact, and follow no order of its ids or dependencies.
-/
import Mathlib.Tactic
import OnePipeline.Core.Dfs
import OnePipeline.Laws.Stacking
import OnePipeline.Model.Edits

namespace OnePipeline

open Chase Checks Relation

variable {sib : Siblings} {nodes : StrMap Node}

/-! ## Acyclic nodes -/

/-- a dependency of a node that is a node -/
def DependsIn (nodes : StrMap Node) (a b : String) : Prop := ∃ n, nodes[a]? = some n ∧ b ∈ n.deps ∧ b ∈ nodes

/-- nodes under their own ids, none of them depending on itself -/
structure Acyclical (nodes : StrMap Node) : Prop where
  ids : ∀ (k : String) (n : Node), nodes[k]? = some n → n.id = k
  acyclic : ∀ a, ¬TransGen (DependsIn nodes) a a

theorem Acyclical.exists_layered (h : Acyclical nodes) : ∃ rank, Layered nodes rank := by
  have hsupport (a b : String) (hab : DependsIn nodes a b) : b ∈ nodes.keys.toFinset := by
    obtain ⟨_, _, _, hb⟩ := hab
    exact List.mem_toFinset.mpr (Std.ExtTreeMap.mem_keys.mpr hb)
  obtain ⟨rank, hrank⟩ := Dfs.exists_rank hsupport h.acyclic
  exact ⟨rank, h.ids, fun k n hn d hd hin => hrank k d ⟨n, hn, hd, hin⟩⟩

theorem Layered.acyclic {rank : String → ℕ} (hl : Layered nodes rank) : Acyclical nodes := by
  have hdown (a b : String) (h : TransGen (DependsIn nodes) a b) : rank b < rank a := by
    induction h with
    | single hab =>
      obtain ⟨n, hn, hd, hin⟩ := hab
      exact hl.down _ n hn _ hd hin
    | tail _ hbc ih =>
      obtain ⟨n, hn, hd, hin⟩ := hbc
      exact (hl.down _ n hn _ hd hin).trans ih
  exact ⟨hl.ids, fun a ha => absurd (hdown a a ha) (lt_irrefl _)⟩

/-! ## Chains -/

/-- a node on the chain of another: each node on it stands on a dependency whose own chain holds every other it could
stand on -/
inductive OnChain (sib : Siblings) (nodes : StrMap Node) : String → String → Prop
  | refl (k : String) : OnChain sib nodes k k
  | head {k b : String} {n c : Node} (hn : nodes[k]? = some n) (h : n.publish = .preserve)
      (hc : Candidate sib nodes n c) (all : ∀ o, Candidate sib nodes n o → OnChain sib nodes c.id o.id)
      (rest : OnChain sib nodes c.id b) : OnChain sib nodes k b

/-- the base of a node: a dependency whose own chain holds every other -/
def BasedOn (sib : Siblings) (nodes : StrMap Node) (k b : String) : Prop :=
  ∃ n c, nodes[k]? = some n ∧ n.publish = .preserve ∧ Candidate sib nodes n c ∧ c.id = b ∧
    ∀ o, Candidate sib nodes n o → OnChain sib nodes c.id o.id

theorem onChain_iff {a b : String} : OnChain sib nodes a b ↔ ReflTransGen (BasedOn sib nodes) a b := by
  constructor
  · intro h
    induction h with
    | refl => exact .refl
    | @head _ _ n c hn h hc all _ _ ih => exact .head ⟨n, c, hn, h, hc, rfl, all⟩ ih
  · intro h
    induction h using ReflTransGen.head_induction_on with
    | refl => exact .refl _
    | head hab _ ih =>
      obtain ⟨n, c, hn, h, hc, rfl, all⟩ := hab
      exact .head hn h hc all ih

/-- a preserved node with a preserved dependency in its own repository -/
def Kept (sib : Siblings) (nodes : StrMap Node) (n : Node) : Prop :=
  nodes[n.id]? = some n ∧ n.publish = .preserve ∧ ∃ c, Candidate sib nodes n c

/-- a node none of whose dependencies has every other on its chain -/
def FansIn (sib : Siblings) (nodes : StrMap Node) (n : Node) : Prop :=
  Kept sib nodes n ∧ ∀ b, ¬BasedOn sib nodes n.id b

/-- a node that states a base of its own -/
def Conflicted (sib : Siblings) (nodes : StrMap Node) (n : Node) : Prop :=
  Kept sib nodes n ∧ n.baseBranch.isSome = true

/-- a preserved node with a preserved dependency whose repository cannot be told to be its own or another -/
def Unread (sib : Siblings) (nodes : StrMap Node) (n : Node) : Prop :=
  nodes[n.id]? = some n ∧ n.publish = .preserve ∧ ∃ d ∈ n.deps, ∃ dep, nodes[d]? = some dep ∧ ¬Readable sib n dep

/-- the refusal of a fan-in at a node -/
def FanInRefusal (sib : Siblings) (nodes : StrMap Node) (n : Node) (r : Refusal) : Prop :=
  ∃ candidates : List Node, (∀ c, c ∈ candidates ↔ Candidate sib nodes n c) ∧
    r = (Refusal.about n.id (preservedFanIn n.id (candidates.map Node.id))).withField "deps"

/-- why a node is refused, and how -/
inductive Trouble (sib : Siblings) (nodes : StrMap Node) (n : Node) (r : Refusal) : Prop
  | unread (h : Unread sib nodes n) (field : r.field = some "repo")
  | conflicted (h : Conflicted sib nodes n)
      (is : r = (Refusal.about n.id (preservedBaseConflict n.id)).withField "base_branch")
  | fansIn (h : FansIn sib nodes n) (is : FanInRefusal sib nodes n r)

section

variable {rank : String → ℕ} {node c : Node} {path : List String} {st : Stacking}

theorem BasedOn.down (hl : Layered nodes rank) {a b : String} (h : BasedOn sib nodes a b) :
    b ∈ nodes ∧ rank b < rank a := by
  obtain ⟨n, c, hn, -, hc, rfl, -⟩ := h
  have hid := hl.ids a n hn
  subst hid
  obtain ⟨hcn, hdown⟩ := hl.candidate hn hc
  exact ⟨Maps.mem_iff.mpr ⟨c, hcn⟩, hdown⟩

theorem OnChain.rank_le (hl : Layered nodes rank) {a b : String} (h : OnChain sib nodes a b) :
    a = b ∨ rank b < rank a := by
  induction h with
  | refl => exact .inl rfl
  | @head _ _ n c hn h hc all _ _ ih =>
    have hdown := (BasedOn.down hl ⟨n, c, hn, h, hc, rfl, all⟩).2
    rcases ih with rfl | hlt
    · exact .inr hdown
    · exact .inr (hlt.trans hdown)

/-- a node stands on one dependency -/
theorem BasedOn.unique (hl : Layered nodes rank) {a b b' : String} (h : BasedOn sib nodes a b)
    (h' : BasedOn sib nodes a b') : b = b' := by
  obtain ⟨n, c, hn, -, hc, rfl, hall⟩ := h
  obtain ⟨n', c', hn', -, hc', rfl, hall'⟩ := h'
  rw [hn] at hn'
  cases hn'
  rcases (hall c' hc').rank_le hl with heq | hlt
  · exact heq
  · rcases (hall' c hc).rank_le hl with heq | hlt'
    · exact heq.symm
    · exact absurd (hlt.trans hlt') (lt_irrefl _)

/-- the places a resolution has settled -/
def SettledAt (nodes : StrMap Node) (path : List String) (st : Stacking) (k : String) : Prop :=
  k ∈ nodes ∧ k ∈ st.visited ∧ k ∉ path

/-- **Chains.** What a resolution settled gives each node the base its chains name. -/
theorem Settling.based (hl : Layered nodes rank) (hs : Settling sib nodes rank path st) {k : String}
    (hk : SettledAt nodes path st k) (b : String) : links st.bases k = some b ↔ BasedOn sib nodes k b := by
  induction hr : rank k using Nat.strong_induction_on generalizing k b with
  | _ r ih =>
    subst hr
    -- the bases below a node are the ones the chains name, so a chain along either is one along the other
    have hlift {x y : String} (hx : SettledAt nodes path st x) (hlt : rank x < rank k) :
        ReflTransGen (fun a b => links st.bases a = some b) x y ↔ ReflTransGen (BasedOn sib nodes) x y := by
      have hnext {x y : String} (hx : SettledAt nodes path st x) (hlt : rank x < rank k)
          (hxy : links st.bases x = some y) : SettledAt nodes path st y ∧ rank y < rank k := by
        obtain ⟨hdown, hv, hp⟩ := hs.falls x y hxy
        exact ⟨⟨(((ih _ hlt hx y rfl).mp hxy).down hl).1, hv, hp⟩, hdown.trans hlt⟩
      constructor
      · intro hxy
        induction hxy using ReflTransGen.head_induction_on with
        | refl => exact .refl
        | head hxz _ ih' =>
          obtain ⟨hz, hzlt⟩ := hnext hx hlt hxz
          exact .head ((ih _ hlt hx _ rfl).mp hxz) (ih' hz hzlt)
      · intro hxy
        induction hxy using ReflTransGen.head_induction_on with
        | refl => exact .refl
        | head hxz _ ih' =>
          have hlink := (ih _ hlt hx _ rfl).mpr hxz
          obtain ⟨hz, hzlt⟩ := hnext hx hlt hlink
          exact .head hlink (ih' hz hzlt)
    obtain ⟨hin, hv, hp⟩ := hk
    obtain ⟨n, hn⟩ := Maps.mem_iff.mp hin
    have hid := hl.ids k n hn
    subst hid
    cases hs.rule n.id n hn hv hp with
    | lands hpub hnone =>
      rw [hnone]
      refine ⟨fun h => (by cases h), fun ⟨m, _, hm, hpub', _⟩ => ?_⟩
      rw [hn] at hm
      cases hm
      exact absurd hpub' hpub
    | first _ _ alone hnone =>
      rw [hnone]
      refine ⟨fun h => (by cases h), fun ⟨m, c, hm, _, hc, _⟩ => ?_⟩
      rw [hn] at hm
      cases hm
      exact absurd hc (alone c)
    | stacked c hpub _ hc _ hsome all =>
      obtain ⟨hcn, hdown⟩ := hl.candidate hn hc
      obtain ⟨-, hcv, hcp⟩ := hs.falls _ _ hsome
      have hbased : BasedOn sib nodes n.id c.id := ⟨n, c, hn, hpub, hc, rfl, fun o ho =>
        onChain_iff.mpr ((hlift ⟨Maps.mem_iff.mpr ⟨c, hcn⟩, hcv, hcp⟩ hdown).mp (all o ho))⟩
      rw [hsome]
      constructor
      · intro h
        exact Option.some.inj h ▸ hbased
      · intro h
        rw [hbased.unique hl h]

/-- chains along the bases a resolution settled are the ones the nodes have -/
theorem Settling.chain (hl : Layered nodes rank) (hs : Settling sib nodes rank path st) {a b : String}
    (ha : SettledAt nodes path st a) :
    ReflTransGen (fun a b => links st.bases a = some b) a b ↔ OnChain sib nodes a b := by
  rw [onChain_iff]
  have hnext {x y : String} (hx : SettledAt nodes path st x) (hxy : links st.bases x = some y) :
      SettledAt nodes path st y := by
    obtain ⟨-, hv, hp⟩ := hs.falls x y hxy
    exact ⟨(((hs.based hl hx y).mp hxy).down hl).1, hv, hp⟩
  constructor
  · intro h
    induction h using ReflTransGen.head_induction_on with
    | refl => exact .refl
    | head hxy _ ih => exact .head ((hs.based hl ha _).mp hxy) (ih (hnext ha hxy))
  · intro h
    induction h using ReflTransGen.head_induction_on with
    | refl => exact .refl
    | head hxy _ ih =>
      have hlink := (hs.based hl ha _).mpr hxy
      exact .head hlink (ih (hnext ha hlink))

/-! ## Refusals -/

theorem stackingCandidates_refused {deps : List Node} {r : Refusal} (h : stackingCandidates sib node deps = .error r) :
    ∃ dep ∈ deps, ¬Readable sib node dep ∧ r.field = some "repo" := by
  induction deps with
  | nil => cases h
  | cons dep deps ih =>
    have hrest (h : stackingCandidates sib node deps = .error r) :
        ∃ d ∈ dep :: deps, ¬Readable sib node d ∧ r.field = some "repo" := by
      obtain ⟨d, hd, hnot⟩ := ih h
      exact ⟨d, List.mem_cons_of_mem _ hd, hnot⟩
    rw [stackingCandidates] at h
    split at h
    · rename_i mine other hpub hmine hother
      simp only [bind_eq_error] at h
      rcases h with hsame | ⟨same, -, hlater | ⟨rest, -, hpure⟩⟩
      · refine ⟨dep, List.mem_cons_self, fun hread => ?_, ?_⟩
        · obtain ⟨same, hok⟩ := hread hpub mine other hmine hother
          rw [hok] at hsame
          cases hsame
        · unfold sameRepository at hsame
          split_ifs at hsame
          split at hsame
          · cases hsame
          · obtain rfl := Except.error.inj hsame
            rfl
      · exact hrest hlater
      · cases hpure
    · exact hrest h

/-- **A resolution refused.** It names a node that cannot be read, cannot be placed, or fans in. -/
theorem resolveBase_refused (hl : Layered nodes rank) {fuel : ℕ} {r : Refusal} (hn : nodes[node.id]? = some node)
    (hp : Resolving nodes rank path node.id) (hfuel : nodes.size + 1 ≤ fuel + path.length)
    (hs : Settling sib nodes rank path st) (h : resolveBase sib nodes fuel node st = .error r) :
    ∃ n, Trouble sib nodes n r := by
  induction fuel generalizing node path st with
  | zero => cases h
  | succ fuel ih =>
    rw [resolveBase] at h
    by_cases hskip : node.id ∈ st.visited ∨ node.publish ≠ .preserve
    · simp only [if_pos hskip] at h
      cases h
    · simp only [if_neg hskip] at h
      rw [not_or, not_not] at hskip
      obtain ⟨hnew, hpub⟩ := hskip
      rcases bind_eq_error.mp h with hread | ⟨candidates, hcands, h⟩
      · obtain ⟨dep, hdep, hnot, hfield⟩ := stackingCandidates_refused hread
        obtain ⟨d, hd, hdd⟩ := List.mem_filterMap.mp hdep
        exact ⟨node, .unread ⟨hn, hpub, d, hd, dep, hdd, hnot⟩ hfield⟩
      · obtain ⟨-, hmem⟩ := candidates_spec hcands
        split_ifs at h with hnil
        · cases h
        obtain ⟨c, hc⟩ := List.exists_mem_of_ne_nil candidates hnil
        have hkept : Kept sib nodes node := ⟨hn, hpub, c, (hmem c).mp hc⟩
        have hstep (c : Node) (hc : c ∈ candidates) (st st' : Stacking)
            (hs : Settling sib nodes rank (node.id :: path) st) (h : resolveBase sib nodes fuel c st = .ok st') :
            Settling sib nodes rank (node.id :: path) st' ∧ Onward (node.id :: path) st st' ∧ c.id ∈ st'.visited := by
          have hcand := (hmem c).mp hc
          exact resolveBase_spec hl (hl.candidate hn hcand).1 (hp.cons hl hn hcand)
            (by rw [List.length_cons]; omega) hs h
        rcases bind_eq_error.mp h with hconflict | ⟨_, -, h⟩
        · obtain ⟨hbase, rfl⟩ := refuseIf_eq_error.mp hconflict
          exact ⟨node, .conflicted ⟨hkept, hbase⟩ rfl⟩
        · rcases bind_eq_error.mp h with hfold | ⟨st₂, hfold, h⟩
          · obtain ⟨before, c, after, st₁, hsplit, hbefore, hrefused⟩ := foldlM_eq_error hfold
            have hc : c ∈ candidates := by
              rw [hsplit]
              exact List.mem_append_right _ List.mem_cons_self
            have hsub (d : Node) (hd : d ∈ before) : d ∈ candidates := by
              rw [hsplit]
              exact List.mem_append_left _ hd
            obtain ⟨hs₁, -, -⟩ := foldlM_settles (fun d hd => hstep d (hsub d hd)) (hs.enter (Maps.mem_iff.mpr ⟨node, hn⟩) hnew) hbefore
            have hcand := (hmem c).mp hc
            exact ih (hl.candidate hn hcand).1 (hp.cons hl hn hcand) (by rw [List.length_cons]; omega) hs₁ hrefused
          · obtain ⟨hs₂, -, hvisited⟩ := foldlM_settles hstep (hs.enter (Maps.mem_iff.mpr ⟨node, hn⟩) hnew) hfold
            rcases bind_eq_error.mp h with hfan | ⟨_, -, h⟩
            · obtain ⟨hnone, rfl⟩ := need_eq_error.mp hfan
              refine ⟨node, .fansIn ⟨hkept, fun b hb => ?_⟩ ⟨candidates, hmem, rfl⟩⟩
              -- a base the chains name would have been found
              obtain ⟨m, c, hm, -, hc, -, hall⟩ := hb
              rw [hn] at hm
              cases hm
              have hin := (hmem c).mpr hc
              obtain ⟨hcn, -⟩ := hl.candidate hn hc
              have hsettled : SettledAt nodes (node.id :: path) st₂ c.id :=
                ⟨Maps.mem_iff.mpr ⟨c, hcn⟩, hvisited c hin,
                  fun hpath => absurd ((hp.cons hl hn hc).above _ hpath) (lt_irrefl _)⟩
              refine List.find?_eq_none.mp hnone c hin (List.all_eq_true.mpr fun o ho => ?_)
              refine (standsOn_iff fun k b hkb => (hs₂.falls k b hkb).1).mpr ?_
              exact (hs₂.chain hl hsettled).mpr (hall o ((hmem o).mp ho))
            · cases h

/-- bases refused name a node in trouble -/
theorem stackingBases_refused (hl : Layered nodes rank) {r : Refusal} (h : stackingBases sib nodes = .error r) :
    ∃ n, Trouble sib nodes n r := by
  obtain ⟨before, c, after, st, hsplit, hbefore, hrefused⟩ := foldlM_eq_error (map_eq_error.mp h)
  have hin (d : Node) (hd : d ∈ before ++ c :: after) : d ∈ nodes.values := hsplit ▸ hd
  obtain ⟨hs, -, -⟩ := foldlM_settles
    (fun d hd _ _ => resolveBase_outermost hl (hin d (List.mem_append_left _ hd))) .empty hbefore
  have hc := hin c (List.mem_append_right _ List.mem_cons_self)
  exact resolveBase_refused hl (hl.values hc) (.nil c.id) (by simp) hs hrefused

/-! ## Bases -/

/-- bases that are exact: each preserved node with a preserved dependency in its own repository has one of those, with
every other on its chain, and no other node has any -/
structure Exact (sib : Siblings) (nodes : StrMap Node) (bases : StrMap String) : Prop where
  based : ∀ n, Kept sib nodes n → ∃ c, Candidate sib nodes n c ∧ bases[n.id]? = some c.id ∧
    ∀ o, Candidate sib nodes n o → ReflTransGen (fun a b => bases[a]? = some b) c.id o.id
  others : ∀ k b : String, bases[k]? = some b → ∃ n, Kept sib nodes n ∧ n.id = k

theorem stackingBases_exact (hl : Layered nodes rank) {bases : StrMap String} (h : stackingBases sib nodes = .ok bases) :
    Exact sib nodes bases := by
  obtain ⟨st, rfl, hs, hvisited⟩ := stackingBases_spec hl h
  have hrule {k : String} {n : Node} (hn : nodes[k]? = some n) : Rule sib nodes (links st.bases) n :=
    hs.rule k n hn (hvisited k (Maps.mem_iff.mpr ⟨n, hn⟩)) (by simp)
  constructor
  · rintro n ⟨hn, hpub, c, hc⟩
    cases hrule hn with
    | lands hnot => exact absurd hpub hnot
    | first _ _ alone => exact absurd hc (alone c)
    | stacked top _ _ htop _ hsome all => exact ⟨top, htop, hsome, all⟩
  · intro k b hkb
    have hv : k ∈ st.visited := by
      by_contra hnot
      have hnone := hs.out k (.inl hnot)
      rw [hnone] at hkb
      cases hkb
    obtain ⟨n, hn⟩ := Maps.mem_iff.mp (hs.live k hv)
    have hid := hl.ids k n hn
    subst hid
    refine ⟨n, ?_, rfl⟩
    have hkb' : links st.bases n.id = some b := hkb
    cases hrule hn with
    | lands _ hnone => rw [hnone] at hkb'; cases hkb'
    | first _ _ _ hnone => rw [hnone] at hkb'; cases hkb'
    | stacked c hpub _ hc => exact ⟨hn, hpub, c, hc⟩

/-- bases resolved leave no node in trouble -/
theorem stackingBases_untroubled (hl : Layered nodes rank) {bases : StrMap String}
    (h : stackingBases sib nodes = .ok bases) (n : Node) :
    ¬Unread sib nodes n ∧ ¬Conflicted sib nodes n ∧ ¬FansIn sib nodes n := by
  obtain ⟨st, rfl, hs, hvisited⟩ := stackingBases_spec hl h
  have hrule (hn : nodes[n.id]? = some n) : Rule sib nodes (links st.bases) n :=
    hs.rule n.id n hn (hvisited n.id (Maps.mem_iff.mpr ⟨n, hn⟩)) (by simp)
  refine ⟨fun ⟨hn, hpub, d, hd, dep, hdep, hnot⟩ => ?_, fun ⟨⟨hn, hpub, c, hc⟩, hbase⟩ => ?_,
    fun ⟨⟨hn, hpub, c, hc⟩, hnone⟩ => ?_⟩
  · cases hrule hn with
    | lands h => exact absurd hpub h
    | first _ read => exact hnot (read d hd dep hdep)
    | stacked _ _ read => exact hnot (read d hd dep hdep)
  · cases hrule hn with
    | lands h => exact absurd hpub h
    | first _ _ alone => exact absurd hc (alone c)
    | stacked _ _ _ _ free => rw [hbase] at free; cases free
  · cases hrule hn with
    | lands h => exact absurd hpub h
    | first _ _ alone => exact absurd hc (alone c)
    | stacked top _ _ _ _ hsome =>
      have hin : n.id ∈ nodes := Maps.mem_iff.mpr ⟨n, hn⟩
      exact hnone top.id ((hs.based hl ⟨hin, hvisited n.id hin, by simp⟩ top.id).mp hsome)

/-- nodes renamed, renamed back -/
theorem Renamed.symm {σ : String → String} {nodes' : StrMap Node} (hr : Renamed σ nodes nodes') :
    ∃ τ, Renamed τ nodes' nodes := by
  classical
  let τ (k' : String) : String := if hk : ∃ k ∈ nodes, σ k = k' then hk.choose else k'
  have hback (k : String) (hk : k ∈ nodes) : τ (σ k) = k := by
    have hex : ∃ a ∈ nodes, σ a = σ k := ⟨k, hk, rfl⟩
    simp only [τ, dif_pos hex]
    exact hr.inj _ hex.choose_spec.1 _ hk hex.choose_spec.2
  refine ⟨τ, fun k' n' hn' => ?_, fun k hk => ?_, fun a' ha' b' hb' heq => ?_⟩
  · obtain ⟨k, hk, rfl⟩ := hr.back k' (Maps.mem_iff.mpr ⟨n', hn'⟩)
    obtain ⟨n, hn⟩ := Maps.mem_iff.mp hk
    obtain ⟨m, hm, hlike⟩ := hr.forth k n hn
    rw [hn'] at hm
    cases hm
    refine ⟨n, by rw [hback k hk]; exact hn, hlike.publish.symm, hlike.repo.symm, hlike.baseBranch.symm, fun d' hd' => ?_⟩
    obtain ⟨d, hd, rfl⟩ := hr.back d' hd'
    rw [hback d hd]
    exact (hlike.deps d hd).symm
  · obtain ⟨n, hn⟩ := Maps.mem_iff.mp hk
    obtain ⟨n', hn', -⟩ := hr.forth k n hn
    exact ⟨σ k, Maps.mem_iff.mpr ⟨n', hn'⟩, hback k hk⟩
  · obtain ⟨a, ha, rfl⟩ := hr.back a' ha'
    obtain ⟨b, hb, rfl⟩ := hr.back b' hb'
    rw [hback a ha, hback b hb] at heq
    rw [heq]

/-- nodes renamed are above one another as before -/
theorem Layered.renamed (hl : Layered nodes rank) {σ : String → String} {nodes' : StrMap Node}
    (hids' : ∀ (k : String) (n : Node), nodes'[k]? = some n → n.id = k) (hr : Renamed σ nodes nodes') :
    ∃ rank', Layered nodes' rank' := by
  classical
  let rank' (k' : String) : ℕ := if hk : ∃ k ∈ nodes, σ k = k' then rank hk.choose else 0
  have hrank (k : String) (hk : k ∈ nodes) : rank' (σ k) = rank k := by
    have hex : ∃ a ∈ nodes, σ a = σ k := ⟨k, hk, rfl⟩
    have hchoose : hex.choose = k := hr.inj _ hex.choose_spec.1 _ hk hex.choose_spec.2
    simp only [rank', dif_pos hex, hchoose]
  refine ⟨rank', hids', fun k' n' hn' d' hd' hin' => ?_⟩
  obtain ⟨k, hk, rfl⟩ := hr.back k' (Maps.mem_iff.mpr ⟨n', hn'⟩)
  obtain ⟨n, hn⟩ := Maps.mem_iff.mp hk
  obtain ⟨m, hm, hlike⟩ := hr.forth k n hn
  rw [hn'] at hm
  cases hm
  obtain ⟨dep', hdep'⟩ := Maps.mem_iff.mp hin'
  obtain ⟨d, hd, dep, hdep, rfl, -⟩ := hr.dep hlike hd' hdep'
  have hdin : d ∈ nodes := Maps.mem_iff.mpr ⟨dep, hdep⟩
  rw [hrank d hdin, hrank k hk]
  exact hl.down k n hn d hd hdin

/-- **Ids and orders.** Bases of nodes renamed, their dependencies in any order, are the bases renamed. -/
theorem bases_renamed (hl : Layered nodes rank) {σ : String → String} {nodes' : StrMap Node}
    (hids' : ∀ (k : String) (n : Node), nodes'[k]? = some n → n.id = k) (hr : Renamed σ nodes nodes')
    {bases bases' : StrMap String} (h : stackingBases sib nodes = .ok bases) (h' : stackingBases sib nodes' = .ok bases')
    {k : String} (hk : k ∈ nodes) : bases'[σ k]? = bases[k]?.map σ := by
  obtain ⟨rank', hl'⟩ := hl.renamed hids' hr
  obtain ⟨st, rfl, hs, hvisited⟩ := stackingBases_spec hl h
  obtain ⟨st', rfl, hs', hvisited'⟩ := stackingBases_spec hl' h'
  have hb (k : String) (n : Node) (hn : nodes[k]? = some n) : Rule sib nodes (links st.bases) n :=
    hs.rule k n hn (hvisited k (Maps.mem_iff.mpr ⟨n, hn⟩)) (by simp)
  obtain ⟨base', hbase⟩ := hr.exists_base (links st.bases)
  obtain ⟨n, hn⟩ := Maps.mem_iff.mp hk
  obtain ⟨n', hn', -⟩ := hr.forth k n hn
  have hid := hids' _ n' hn'
  have hagree := hs'.agrees hl' (fun k' n' hn' => hr.rule hl.ids hids' hb hbase hn') (n := n') (hid.symm ▸ hn')
    (hvisited' _ (hid.symm ▸ Maps.mem_iff.mpr ⟨n', hn'⟩)) (by simp)
  calc st'.bases[σ k]? = links st'.bases n'.id := by rw [hid, links]
    _ = base' (σ k) := by rw [hagree, hid]
    _ = st.bases[k]?.map σ := hbase k hk

end

/-! ## Every plan -/

theorem exists_or_refused (x : Except Refusal (StrMap String)) : (∃ r, x = .error r) ↔ ¬∃ bases, x = .ok bases := by
  cases x with
  | error r => simp
  | ok bases => simp

/-- a node kept on a branch of one repository -/
def Node.keptOn (id : String) (deps : List String) (baseBranch : Option String) : Node :=
  { Node.direct id deps with publish := .preserve, repo := some "owner/app", title := some "Keep it", baseBranch }

/-- nodes above one another by a rank, as an evaluation of them says -/
theorem Layered.of_all {nodes : StrMap Node} {rank : String → ℕ}
    (h : ∀ p ∈ nodes.toList, p.2.id = p.1 ∧ ∀ d ∈ p.2.deps, d ∈ nodes → rank d < rank p.1) : Layered nodes rank := by
  have hin {k : String} {n : Node} (hn : nodes[k]? = some n) : (k, n) ∈ nodes.toList :=
    Std.ExtTreeMap.mem_toList_iff_getElem?_eq_some.mpr hn
  exact ⟨fun k n hn => (h _ (hin hn)).1, fun k n hn d hd hlive => (h _ (hin hn)).2 d hd hlive⟩

/-- a chain of two, and a node on both of them -/
def chainOfTwo : StrMap Node :=
  nodesById [.keptOn "first" [] none, .keptOn "second" ["first"] none, .keptOn "third" ["first", "second"] none]

/-- two kept branches, a node on one of them that states a base, and a node on both -/
def conflicting : List Node :=
  [.keptOn "left" [] none, .keptOn "right" [] none, .keptOn "based" ["left"] (some "main"),
    .keptOn "merge" ["left", "right"] none]

def conflictBeforeFanIn : StrMap Node := nodesById conflicting

end OnePipeline
