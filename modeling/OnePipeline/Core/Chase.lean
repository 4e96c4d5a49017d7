/-
Links followed from place to place until there is none: a partial function on places, followed with a guard against
coming to one place twice.

Results:
- `Trail.unique`, `Trail.nodup`: links that run out visit each place once, along one trail;
- `Trail.follow`, `Trail.retrace`, `Trail.landing`: a walk along such a trail never meets its guard;
- `follow_extend`: more links, which the end of a walk has none of, leave it where it ends;
- `trail_of_landing`: a walk that says where it landed followed a trail;
- `mem_gather`, `nodup_gather`: links lead to each place a walk gathers, and it gathers none twice;
- `Stopped.extend`: links that all run out, and one more from an end to another;
- `Stopped.acyclic`, `stopped_of_acyclic`: finitely many links all run out where no cycle is among them;
- `Trail.back`: links back from the end of a trail lead past its start, to where the links back from there lead.

Nothing in this file names the program.
-/
import Mathlib.Tactic

namespace OnePipeline.Chase

variable {α : Type*}

/-! ## Trails -/

/-- the places links lead through from one place to another that has none -/
inductive Trail (next : α → Option α) : α → α → List α → Prop
  | stop {a : α} (ends : next a = none) : Trail next a a [a]
  | step {a b c : α} {l : List α} (link : next a = some b) (rest : Trail next b c l) : Trail next a c (a :: l)

variable {next : α → Option α} {a b c : α} {l m : List α}

theorem Trail.ends (h : Trail next a b l) : next b = none := by
  induction h with
  | stop ends => exact ends
  | step _ _ ih => exact ih

theorem Trail.head_mem (h : Trail next a b l) : a ∈ l := by
  cases h with
  | stop => exact List.mem_singleton_self a
  | step => exact List.mem_cons_self

theorem Trail.last_mem (h : Trail next a b l) : b ∈ l := by
  induction h with
  | stop => exact List.mem_singleton_self _
  | step _ _ ih => exact List.mem_cons_of_mem _ ih

/-- **One trail.** Links that run out lead one way. -/
theorem Trail.unique (h : Trail next a b l) (h' : Trail next a c m) : b = c ∧ l = m := by
  induction h generalizing m with
  | stop ends =>
    cases h' with
    | stop => exact ⟨rfl, rfl⟩
    | step link => rw [ends] at link; cases link
  | step link _ ih =>
    cases h' with
    | stop ends => rw [ends] at link; cases link
    | step link' rest' =>
      obtain rfl := Option.some.inj (link.symm.trans link')
      obtain ⟨hend, hl⟩ := ih rest'
      exact ⟨hend, congrArg _ hl⟩

/-- a place on a trail starts the rest of it -/
theorem Trail.suffix (h : Trail next a b l) (hc : c ∈ l) : ∃ m, m <:+ l ∧ Trail next c b m := by
  induction h with
  | stop ends =>
    obtain rfl := List.mem_singleton.mp hc
    exact ⟨_, List.suffix_refl _, .stop ends⟩
  | step link rest ih =>
    rcases List.mem_cons.mp hc with rfl | hc
    · exact ⟨_, List.suffix_refl _, .step link rest⟩
    · obtain ⟨m, hm, ht⟩ := ih hc
      exact ⟨m, hm.trans (List.suffix_cons _ _), ht⟩

/-- **No place twice.** -/
theorem Trail.nodup (h : Trail next a b l) : l.Nodup := by
  induction h with
  | stop => exact List.nodup_singleton _
  | step link rest ih =>
    refine List.nodup_cons.mpr ⟨fun hin => ?_, ih⟩
    -- a place come to again would start a trail shorter than the one it starts
    obtain ⟨m, hm, ht⟩ := rest.suffix hin
    obtain ⟨-, hl⟩ := ht.unique (.step link rest)
    have hlen := hm.length_le
    rw [hl, List.length_cons] at hlen
    omega

/-- links lead from the start of a trail to each of its places -/
theorem Trail.reaches (h : Trail next a b l) (hc : c ∈ l) : Relation.ReflTransGen (fun a b => next a = some b) a c := by
  induction h with
  | stop => rw [List.mem_singleton.mp hc]
  | step link _ ih =>
    rcases List.mem_cons.mp hc with rfl | hc
    · exact .refl
    · exact .head link (ih hc)

/-- every place of a trail but its end has a link -/
theorem Trail.linked (h : Trail next a b l) (hc : c ∈ l) : c = b ∨ (next c).isSome = true := by
  obtain ⟨m, -, ht⟩ := h.suffix hc
  cases ht with
  | stop => exact .inl rfl
  | step link => exact .inr (by rw [link]; rfl)

/-- a trail is no longer than the places with links, and its end -/
theorem Trail.length_le [DecidableEq α] (h : Trail next a b l) {K : Finset α}
    (hK : ∀ c, (next c).isSome = true → c ∈ K) : l.length ≤ K.card + 1 := by
  have hsub : l.toFinset ⊆ insert b K := by
    intro c hc
    rcases h.linked (List.mem_toFinset.mp hc) with rfl | hlink
    · exact Finset.mem_insert_self _ _
    · exact Finset.mem_insert_of_mem (hK c hlink)
  calc l.length = l.toFinset.card := (List.toFinset_card_of_nodup h.nodup).symm
    _ ≤ (insert b K).card := Finset.card_le_card hsub
    _ ≤ K.card + 1 := Finset.card_insert_le _ _

/-! ## Walks with a guard -/

section Walks

variable [DecidableEq α] (next)

/-- links followed to where there is none, stopping at a place left before -/
def follow : ℕ → List α → α → α
  | 0, _, a => a
  | fuel + 1, seen, a =>
    match next a with
    | some b => if a ∈ seen then a else follow fuel (a :: seen) b
    | none => a

/-- links followed to where there is none, stopping before a place come to before -/
def retrace : ℕ → List α → α → α
  | 0, _, a => a
  | fuel + 1, seen, a =>
    match next a with
    | some b => if b ∈ seen then a else retrace fuel (b :: seen) b
    | none => a

/-- where links lead and how many there were, counted on from a depth; nothing where the walk comes to a place twice -/
def landing : ℕ → List α → α → ℕ → Option (α × ℕ)
  | 0, _, _, _ => none
  | fuel + 1, seen, a, depth =>
    match next a with
    | some b => if a ∈ seen then none else landing fuel (a :: seen) b (depth + 1)
    | none => some (a, depth)

/-- the places links lead through, after the ones gathered before, up to the first come to before -/
def gather : ℕ → List α → α → List α
  | 0, seen, _ => seen
  | fuel + 1, seen, a =>
    match next a with
    | some b => if b ∈ seen then seen else gather fuel (seen ++ [b]) b
    | none => seen

variable {next} {fuel depth : ℕ} {seen : List α}

/-- a walk along a trail gathers it whole -/
theorem Trail.gather (h : Trail next a b l) (hfuel : l.length ≤ fuel + 1) (hseen : ∀ c ∈ l.tail, c ∉ seen) :
    gather next fuel seen a = seen ++ l.tail := by
  induction h generalizing fuel seen with
  | stop ends =>
    cases fuel with
    | zero => simp [Chase.gather]
    | succ fuel => simp [Chase.gather, ends]
  | @step a b c l link rest ih =>
    cases fuel with
    | zero =>
      have hpos : 0 < l.length := List.length_pos_of_mem rest.head_mem
      rw [List.length_cons] at hfuel
      omega
    | succ fuel =>
      have hcons : l = b :: l.tail := by cases rest <;> rfl
      have hnodup := rest.nodup
      rw [hcons, List.nodup_cons] at hnodup
      have hb : b ∉ seen := hseen b rest.head_mem
      rw [List.length_cons] at hfuel
      rw [Chase.gather, link]
      simp only [if_neg hb]
      rw [ih (by omega) fun d hd => ?_]
      · rw [List.append_assoc, List.singleton_append, ← hcons, List.tail_cons]
      · rw [List.mem_append, List.mem_singleton, not_or]
        exact ⟨hseen d (List.mem_of_mem_tail hd), fun heq => hnodup.1 (heq ▸ hd)⟩

/-- what is gathered starts with what was gathered before -/
theorem prefix_gather : seen <+: gather next fuel seen a := by
  induction fuel generalizing seen a with
  | zero => exact List.prefix_refl _
  | succ fuel ih =>
    rw [Chase.gather]
    split
    · split_ifs
      · exact List.prefix_refl _
      · exact (List.prefix_append _ _).trans ih
    · exact List.prefix_refl _

/-- no place is gathered twice -/
theorem nodup_gather (h : seen.Nodup) : (gather next fuel seen a).Nodup := by
  induction fuel generalizing seen a with
  | zero => exact h
  | succ fuel ih =>
    rw [Chase.gather]
    split
    · split_ifs with hin
      · exact h
      · exact ih (List.nodup_append.mpr ⟨h, List.nodup_singleton _, fun c hc d hd => by
          rw [List.mem_singleton.mp hd]
          exact fun heq => hin (heq ▸ hc)⟩)
    · exact h

/-- links lead to each place gathered -/
theorem mem_gather (h : b ∈ gather next fuel seen a) : b ∈ seen ∨ Relation.TransGen (fun a b => next a = some b) a b := by
  induction fuel generalizing seen a with
  | zero => exact .inl h
  | succ fuel ih =>
    rw [Chase.gather] at h
    cases hlink : next a with
    | none =>
      rw [hlink] at h
      exact .inl h
    | some c =>
      rw [hlink] at h
      simp only at h
      split_ifs at h with hin
      · exact .inl h
      · rcases ih h with hseen | hon
        · rcases List.mem_append.mp hseen with hseen | hc
          · exact .inl hseen
          · rw [List.mem_singleton.mp hc]
            exact .inr (.single hlink)
        · exact .inr (.head hlink hon)

/-- a walk along a trail stops at its end -/
theorem Trail.follow (h : Trail next a b l) (hfuel : l.length ≤ fuel + 1) (hseen : ∀ c ∈ l, c ∉ seen) :
    follow next fuel seen a = b := by
  induction h generalizing fuel seen with
  | stop ends =>
    cases fuel with
    | zero => rfl
    | succ fuel => simp only [Chase.follow, ends]
  | @step a b c l link rest ih =>
    have hlen : 0 < l.length := List.length_pos_of_mem rest.head_mem
    rw [List.length_cons] at hfuel
    cases fuel with
    | zero => omega
    | succ fuel =>
      simp only [Chase.follow, link]
      rw [if_neg (hseen a List.mem_cons_self)]
      refine ih (by omega) fun d hd hin => ?_
      rcases List.mem_cons.mp hin with rfl | hin
      · exact (List.nodup_cons.mp (Trail.step link rest).nodup).1 hd
      · exact hseen d (List.mem_cons_of_mem a hd) hin

theorem Trail.retrace (h : Trail next a b l) (hfuel : l.length ≤ fuel + 1) (hseen : ∀ c ∈ l.tail, c ∉ seen) :
    retrace next fuel seen a = b := by
  induction h generalizing fuel seen with
  | stop ends =>
    cases fuel with
    | zero => rfl
    | succ fuel => simp only [Chase.retrace, ends]
  | @step a b c l link rest ih =>
    have hlen : 0 < l.length := List.length_pos_of_mem rest.head_mem
    rw [List.length_cons] at hfuel
    cases fuel with
    | zero => omega
    | succ fuel =>
      simp only [Chase.retrace, link]
      rw [if_neg (hseen b rest.head_mem)]
      refine ih (by omega) fun d hd hin => ?_
      have hnd := rest.nodup
      cases rest with
      | stop => cases hd
      | step link' rest' =>
        rcases List.mem_cons.mp hin with rfl | hin
        · exact (List.nodup_cons.mp hnd).1 hd
        · exact hseen d (List.mem_cons_of_mem _ hd) hin

theorem Trail.landing (h : Trail next a b l) (hfuel : l.length ≤ fuel) (hseen : ∀ c ∈ l, c ∉ seen) :
    landing next fuel seen a depth = some (b, depth + l.length - 1) := by
  induction h generalizing fuel seen depth with
  | stop ends =>
    cases fuel with
    | zero => simp at hfuel
    | succ fuel => simp only [Chase.landing, ends, List.length_singleton, Nat.add_sub_cancel]
  | @step a b c l link rest ih =>
    have hlen : 0 < l.length := List.length_pos_of_mem rest.head_mem
    rw [List.length_cons] at hfuel
    cases fuel with
    | zero => omega
    | succ fuel =>
      simp only [Chase.landing, link]
      rw [if_neg (hseen a List.mem_cons_self), ih (by omega) fun d hd hin => ?_]
      · rw [List.length_cons]
        congr 2
        omega
      · rcases List.mem_cons.mp hin with rfl | hin
        · exact (List.nodup_cons.mp (Trail.step link rest).nodup).1 hd
        · exact hseen d (List.mem_cons_of_mem a hd) hin

/-- **More links.** Where the end of a walk has none of them, the walk with them ends there too. -/
theorem follow_extend {next' : α → Option α} {more : ℕ} {K : Finset α} (hK : ∀ c, (next c).isSome = true → c ∈ K)
    (hle : ∀ c d, next c = some d → next' c = some d) (hseen : seen.Nodup) (hin : ∀ c ∈ seen, c ∈ K)
    (hfuel : K.card ≤ fuel + seen.length) (hmore : fuel ≤ more)
    (hend : next (follow next fuel seen a) = none → next' (follow next fuel seen a) = none) :
    follow next' more seen a = follow next fuel seen a := by
  induction fuel generalizing more seen a with
  | zero =>
    -- every link was followed, so a place with one was left before
    have hall : ∀ c ∈ K, c ∈ seen := by
      intro c hc
      have hsub : seen.toFinset ⊆ K := fun d hd => hin d (List.mem_toFinset.mp hd)
      have hcard : K.card ≤ seen.toFinset.card := by rw [List.toFinset_card_of_nodup hseen]; omega
      exact List.mem_toFinset.mp (Finset.eq_of_subset_of_card_le hsub hcard ▸ hc)
    cases more with
    | zero => rfl
    | succ more =>
      show (match next' a with | some b => if a ∈ seen then a else follow next' more (a :: seen) b | none => a) = a
      cases hlink : next a with
      | none =>
        have hnone : next' a = none := hend hlink
        rw [hnone]
      | some b =>
        rw [hle a b hlink]
        exact if_pos (hall a (hK a (by rw [hlink]; rfl)))
  | succ fuel ih =>
    obtain ⟨more, rfl⟩ : ∃ m, more = m + 1 := ⟨more - 1, by omega⟩
    simp only [follow] at hend ⊢
    cases hlink : next a with
    | none =>
      rw [hlink] at hend
      rw [hend hlink]
    | some b =>
      rw [hlink] at hend
      rw [hle a b hlink]
      simp only at hend ⊢
      split_ifs at hend ⊢ with ha
      · rfl
      · refine ih (List.nodup_cons.mpr ⟨ha, hseen⟩) (fun c hc => ?_) (by rw [List.length_cons]; omega) (by omega) hend
        rcases List.mem_cons.mp hc with rfl | hc
        · exact hK c (by rw [hlink]; rfl)
        · exact hin c hc

/-- a walk that says where it landed followed a trail there -/
theorem trail_of_landing {d : ℕ} (h : landing next fuel seen a depth = some (b, d)) : ∃ l, Trail next a b l := by
  induction fuel generalizing seen a depth with
  | zero => cases h
  | succ fuel ih =>
    rw [landing] at h
    cases hnext : next a with
    | none =>
      rw [hnext] at h
      obtain ⟨rfl, -⟩ := Prod.mk.inj (Option.some.inj h)
      exact ⟨_, .stop hnext⟩
    | some c =>
      simp only [hnext] at h
      split_ifs at h
      obtain ⟨l, ht⟩ := ih h
      exact ⟨_, .step hnext ht⟩

end Walks

/-! ## Links that all run out -/

/-- links that run out from every place -/
def Stopped (next : α → Option α) : Prop := ∀ a, ∃ b l, Trail next a b l

/-- one more link, from a place that had none to another that has none -/
theorem Stopped.extend [DecidableEq α] (h : Stopped next) {new : α} (hnew : next new = none) (hne : new ≠ c) :
    Stopped (Function.update next c (some new)) := by
  intro a
  obtain ⟨b, l, ht⟩ := h a
  have hend : Trail (Function.update next c (some new)) new new [new] :=
    .stop (by rw [Function.update_of_ne hne]; exact hnew)
  induction ht with
  | @stop a ends =>
    by_cases hac : a = c
    · subst hac
      exact ⟨new, _, .step (Function.update_self _ _ _) hend⟩
    · exact ⟨a, _, .stop (by rw [Function.update_of_ne hac]; exact ends)⟩
  | @step a b' b l link rest ih =>
    by_cases hac : a = c
    · subst hac
      exact ⟨new, _, .step (Function.update_self _ _ _) hend⟩
    · obtain ⟨e, m, hm⟩ := ih
      exact ⟨e, _, .step (by rw [Function.update_of_ne hac]; exact link) hm⟩

/-- **Back again.** Where `prev` undoes every link, the links back from the end of a trail lead through its places to
where the links back from its start lead. -/
theorem Trail.back {prev : α → Option α} (hprev : ∀ x y, next x = some y → prev y = some x) (h : Trail next a b l)
    (hr : Trail prev a c m) : ∃ m', Trail prev b c m' := by
  induction h generalizing m with
  | stop => exact ⟨m, hr⟩
  | step link _ ih => exact ih (.step (hprev _ _ link) hr)

theorem Trail.of_reaches (h : Relation.ReflTransGen (fun a b => next a = some b) a b) (ht : Trail next a c l) : b ∈ l := by
  induction h using Relation.ReflTransGen.head_induction_on generalizing l with
  | refl => exact ht.head_mem
  | head hlink _ ih =>
    cases ht with
    | stop ends => rw [ends] at hlink; cases hlink
    | step link rest =>
      obtain rfl := Option.some.inj (link.symm.trans hlink)
      exact List.mem_cons_of_mem _ (ih rest)

/-- **No cycle.** Links that all run out lead nowhere back to where they began. -/
theorem Stopped.acyclic (h : Stopped next) (a : α) : ¬Relation.TransGen (fun a b => next a = some b) a a := by
  intro hcycle
  obtain ⟨b, hlink, hback⟩ := Relation.TransGen.head'_iff.mp hcycle
  obtain ⟨c, l, ht⟩ := h a
  cases ht with
  | stop ends => rw [ends] at hlink; cases hlink
  | step link rest =>
    have hnd := (Trail.step link rest).nodup
    obtain rfl := Option.some.inj (link.symm.trans hlink)
    exact (List.nodup_cons.mp hnd).1 (rest.of_reaches hback)

/-- **Finitely many links.** They run out where no cycle is among them. -/
theorem stopped_of_acyclic {K : Finset α} (hK : ∀ c, (next c).isSome = true → c ∈ K)
    (h : ∀ a, ¬Relation.TransGen (fun a b => next a = some b) a a) : Stopped next := by
  let below (b a : α) : Prop := Relation.TransGen (fun a b => next a = some b) a b
  have hstrict : IsStrictOrder α below := { irrefl := h, trans := fun _ _ _ hab hbc => hbc.trans hab }
  have hwf : (K : Set α).WellFoundedOn below := K.finite_toSet.wellFoundedOn
  intro a
  cases hnext : next a with
  | none => exact ⟨a, _, .stop hnext⟩
  | some b =>
    have hin : a ∈ K := hK a (by rw [hnext]; rfl)
    refine hwf.induction (P := fun a => ∃ b l, Trail next a b l) hin fun a _ ih => ?_
    cases hnext : next a with
    | none => exact ⟨a, _, .stop hnext⟩
    | some b =>
      cases hnext' : next b with
      | none => exact ⟨b, _, .step hnext (.stop hnext')⟩
      | some c =>
        obtain ⟨e, l, ht⟩ := ih b (hK b (by rw [hnext']; rfl)) (.single hnext)
        exact ⟨e, _, .step hnext ht⟩

/-- links undone run out where finitely many links run out -/
theorem Stopped.undone {prev : α → Option α} {K : Finset α} (hK : ∀ c, (prev c).isSome = true → c ∈ K)
    (hprev : ∀ x y, next x = some y ↔ prev y = some x) (h : Stopped next) : Stopped prev := by
  refine stopped_of_acyclic hK fun a hcycle => h.acyclic a ?_
  have hswap : (fun a b => prev a = some b) = Function.swap fun a b => next a = some b := by
    funext x y
    exact propext (hprev y x).symm
  rw [hswap, Relation.transGen_swap] at hcycle
  exact hcycle

end OnePipeline.Chase
