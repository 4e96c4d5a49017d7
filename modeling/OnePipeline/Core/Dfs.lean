/-
Iterative depth-first search for a cycle in a directed graph, over an explicit stack of frames (a vertex, and the next
child to look at), with a mark on every vertex met: open while it is on the path, closed once its children are done.

Results, for a finite list of vertices `support` that holds the roots and every child:
- `findCycle_eq_none`: the search answers no cycle exactly when no vertex reachable from a root reaches itself;
- `findCycle_some`: what it answers otherwise is a path of edges from a vertex back to that vertex;
- `findCycle_searches`: the loop with no bound on its turns (`Walks`, `Searches`) ends, with what the search answers.

The search takes its number of steps as fuel; `walk_stops` shows that `fuelOf support` of it is never used up.
Nothing in this file names the program.
-/
import Mathlib.Tactic
import Mathlib.Logic.Relation

namespace OnePipeline.Dfs

open Relation

variable {V : Type*} [DecidableEq V]

/-! ## The search -/

inductive Mark where
  | «open»
  | closed
deriving DecidableEq

structure Search (V : Type*) where
  marks : V → Option Mark
  path : List V
  /-- the frames, innermost first: a vertex, and the index of the child to look at next -/
  stack : List (V × ℕ)

section

variable (children : V → List V)

/-- the cycle a child that is still open closes, as the path around it -/
def around (path : List V) (c : V) : List V := path.drop (path.idxOf? c |>.getD 0) ++ [c]

/-- one turn of the loop, at the innermost frame -/
def turn (s : Search V) (v : V) (i : ℕ) (rest : List (V × ℕ)) : Except (List V) (Search V) :=
  match (children v)[i]? with
  | some c =>
    match s.marks c with
    | some .open => .error (around s.path c)
    | some .closed => .ok { s with stack := (v, i + 1) :: rest }
    | none =>
      .ok { marks := Function.update s.marks c (some .open), path := s.path ++ [c],
            stack := (c, 0) :: (v, i + 1) :: rest }
  | none =>
    .ok { marks := Function.update s.marks v (some .closed), path := s.path.dropLast, stack := rest }

/-- turns until the stack is empty -/
def walk : ℕ → Search V → Except (List V) (Search V)
  | 0, s => .ok s
  | fuel + 1, s =>
    match s.stack with
    | [] => .ok s
    | (v, i) :: rest => turn children s v i rest >>= walk fuel

def start (marks : V → Option Mark) (root : V) : Search V :=
  { marks := Function.update marks root (some .open), path := [root], stack := [(root, 0)] }

/-- the walk from one root, unless an earlier one has met it -/
def fromRoot (fuel : ℕ) (marks : V → Option Mark) (root : V) : Except (List V) (V → Option Mark) :=
  if (marks root).isSome then .ok marks else (walk children fuel (start marks root)).map Search.marks

def search (fuel : ℕ) : List V → (V → Option Mark) → Except (List V) (V → Option Mark)
  | [], marks => .ok marks
  | r :: rs, marks => fromRoot children fuel marks r >>= search fuel rs

/-- the turns a walk can take: one for each child of each vertex, and one to close it -/
def fuelOf (support : List V) : ℕ := (support.map fun v => (children v).length + 1).sum + 1

/-- the first cycle met, as the path around it -/
def findCycle (support roots : List V) : Option (List V) :=
  match search children (fuelOf children support) roots fun _ => none with
  | .error cycle => some cycle
  | .ok _ => none

/-! ## The relation searched -/

/-- `c` is a child of `v` -/
def Edge (v c : V) : Prop := c ∈ children v

/-- a path of at least one edge, back to where it starts -/
structure IsCycle (cycle : List V) : Prop where
  chain : cycle.IsChain (Edge children)
  back : cycle.head? = cycle.getLast?
  length : 2 ≤ cycle.length

/-- no vertex reachable from `v` reaches itself -/
def AcyclicFrom (v : V) : Prop := ∀ w, ReflTransGen (Edge children) v w → ¬TransGen (Edge children) w w

omit [DecidableEq V] in
/-- every vertex of a cycle is left by an edge -/
theorem IsCycle.exists_edge {children : V → List V} {cycle : List V} (h : IsCycle children cycle) {v : V} (hv : v ∈ cycle) :
    ∃ c, Edge children v c := by
  have hchain := List.isChain_iff_getElem.mp h.chain
  obtain ⟨i, hi, rfl⟩ := List.mem_iff_getElem.mp hv
  have hlen := h.length
  by_cases hlast : i + 1 < cycle.length
  · exact ⟨_, hchain i hlast⟩
  · -- the last vertex is the first, which the cycle leaves
    have hend : i = cycle.length - 1 := by omega
    have hback : cycle[i] = cycle[0] := by
      have := h.back
      rw [List.head?_eq_getElem?, List.getLast?_eq_getElem?, ← hend, List.getElem?_eq_getElem hi,
        List.getElem?_eq_getElem (by omega)] at this
      exact (Option.some.inj this).symm
    rw [hback]
    exact ⟨_, hchain 0 (by omega)⟩

/-! ## The invariant of a walk -/

def Closed (s : Search V) (v : V) : Prop := s.marks v = some .closed

/-- the frames below one that stands on the vertex `above`: the children already looked at are closed, or `above` -/
def Frames (closed : V → Prop) : Option V → List (V × ℕ) → Prop
  | _, [] => True
  | above, (v, i) :: rest =>
    i ≤ (children v).length ∧ (∀ c ∈ (children v).take i, closed c ∨ above = some c) ∧
      (∀ a, above = some a → a ∈ children v) ∧ Frames closed (some v) rest

structure Inv (roots : List V) (s : Search V) : Prop where
  path_eq : s.path = (s.stack.map Prod.fst).reverse
  open_iff : ∀ v, s.marks v = some .open ↔ v ∈ s.stack.map Prod.fst
  nodup : (s.stack.map Prod.fst).Nodup
  frames : Frames children (Closed s) none s.stack
  reached : ∀ v ∈ s.stack.map Prod.fst, ∃ r ∈ roots, ReflTransGen (Edge children) r v
  closed_children : ∀ v, Closed s v → ∀ c ∈ children v, Closed s c
  closed_acyclic : ∀ v, Closed s v → ¬TransGen (Edge children) v v

end

variable {children : V → List V} {roots : List V}

omit [DecidableEq V] in
theorem Frames.mono {P Q : V → Prop} (h : ∀ v, P v → Q v) :
    ∀ {above : Option V} {stack : List (V × ℕ)}, Frames children P above stack → Frames children Q above stack
  | _, [], _ => trivial
  | _, (_, _) :: _, ⟨hi, hc, ha, hr⟩ => ⟨hi, fun c hm => (hc c hm).imp_left (h c), ha, Frames.mono h hr⟩

omit [DecidableEq V] in
/-- closing the vertex above turns what stood on it into a closed child -/
theorem Frames.close {P Q : V → Prop} {v : V} (h : ∀ w, P w → Q w) (hv : Q v) :
    ∀ {stack : List (V × ℕ)}, Frames children P (some v) stack → Frames children Q none stack
  | [], _ => trivial
  | (_, _) :: _, ⟨hi, hc, _, hr⟩ => by
    refine ⟨hi, fun c hm => Or.inl ?_, by simp, Frames.mono h hr⟩
    rcases hc c hm with hp | hp
    · exact h c hp
    · rwa [← Option.some.inj hp]

omit [DecidableEq V] in
/-- the vertex above every frame is reached from each vertex below it -/
theorem Frames.reach {P : V → Prop} :
    ∀ {above : V} {stack : List (V × ℕ)}, Frames children P (some above) stack →
      ∀ w ∈ stack.map Prod.fst, TransGen (Edge children) w above
  | _, [], _, w, hw => by simp at hw
  | a, (v, i) :: rest, ⟨_, _, ha, hr⟩, w, hw => by
    have hva : TransGen (Edge children) v a := TransGen.single (ha a rfl)
    rcases List.mem_cons.mp hw with rfl | hw
    · exact hva
    · exact (Frames.reach hr w hw).trans hva

omit [DecidableEq V] in
/-- each frame stands on a vertex its own is a child of -/
theorem Frames.isChain {P : V → Prop} :
    ∀ {above : Option V} {stack : List (V × ℕ)}, Frames children P above stack →
      (stack.map Prod.fst).IsChain fun c v => Edge children v c
  | _, [], _ => List.IsChain.nil
  | _, [_], _ => List.IsChain.singleton _
  | _, (v, _) :: (_, _) :: _, ⟨_, _, _, hr⟩ => List.IsChain.cons_cons (hr.2.2.1 v rfl) (Frames.isChain hr)

namespace Inv

variable {s : Search V} {v : V} {i : ℕ} {rest : List (V × ℕ)}

omit [DecidableEq V] in
theorem mem_top (hs : s.stack = (v, i) :: rest) : v ∈ s.stack.map Prod.fst := by simp [hs]

omit [DecidableEq V] in
theorem not_closed_of_open (h : Inv children roots s) (hv : v ∈ s.stack.map Prod.fst) : ¬Closed s v := by
  intro hc
  have ho := (h.open_iff v).mpr hv
  rw [hc] at ho
  cases ho

omit [DecidableEq V] in
/-- a child that is closed already leaves the walk where it was, one child on -/
theorem skip (h : Inv children roots s) (hs : s.stack = (v, i) :: rest) {c : V} (hc : (children v)[i]? = some c)
    (hm : s.marks c = some .closed) : Inv children roots { s with stack := (v, i + 1) :: rest } := by
  obtain ⟨hpath, hopen, hnd, hf, hr, hcc, hca⟩ := h
  rw [hs] at hpath hopen hnd hf hr
  obtain ⟨hi, hch, -, hfr⟩ := hf
  obtain ⟨hlt, hget⟩ := List.getElem?_eq_some_iff.mp hc
  refine ⟨hpath, hopen, hnd, ⟨hlt, fun d hd => ?_, by simp, hfr⟩, hr, hcc, hca⟩
  rw [List.take_add_one, hc, Option.toList_some, List.mem_append, List.mem_singleton] at hd
  rcases hd with hd | rfl
  · exact hch d hd
  · exact Or.inl hm

/-- a child met for the first time is opened, on top of the vertex it is a child of -/
theorem push (h : Inv children roots s) (hs : s.stack = (v, i) :: rest) {c : V} (hc : (children v)[i]? = some c)
    (hm : s.marks c = none) :
    Inv children roots { marks := Function.update s.marks c (some .open), path := s.path ++ [c],
                         stack := (c, 0) :: (v, i + 1) :: rest } := by
  have hclosed : ∀ w, Closed s w ↔ Function.update s.marks c (some .open) w = some .closed := by
    intro w
    by_cases hw : w = c
    · subst hw
      simp [Closed, hm]
    · simp [Closed, Function.update_of_ne hw]
  have hv := mem_top hs
  obtain ⟨hpath, hopen, hnd, hf, hr, hcc, hca⟩ := h
  rw [hs] at hpath hopen hnd hf hr hv
  obtain ⟨hi, hch, -, hfr⟩ := hf
  obtain ⟨hlt, hget⟩ := List.getElem?_eq_some_iff.mp hc
  have hmem : c ∈ children v := List.mem_of_getElem? hc
  have hnew : c ∉ ((v, i) :: rest).map Prod.fst := by
    rw [← hopen, hm]
    simp
  refine ⟨?_, ?_, ?_, ⟨Nat.zero_le _, by simp, by simp, hlt, ?_, ?_, ?_⟩, ?_, ?_, ?_⟩
  · simp [hpath]
  · intro w
    by_cases hw : w = c
    · simp [hw]
    · have := hopen w
      simp only [List.map_cons, List.mem_cons] at this
      simp [hw, this]
  · simpa using And.intro hnew hnd
  · intro d hd
    rw [List.take_add_one, hc, Option.toList_some, List.mem_append, List.mem_singleton] at hd
    rcases hd with hd | rfl
    · rcases hch d hd with hd | hd
      · exact Or.inl ((hclosed d).mp hd)
      · cases hd
    · exact Or.inr rfl
  · rintro a ha
    rwa [← Option.some.inj ha]
  · exact Frames.mono (fun w => (hclosed w).mp) hfr
  · intro w hw
    rcases List.mem_cons.mp hw with rfl | hw
    · obtain ⟨r, hrm, hrv⟩ := hr v hv
      exact ⟨r, hrm, hrv.tail hmem⟩
    · exact hr w hw
  · intro w hw d hd
    exact (hclosed d).mp (hcc w ((hclosed w).mpr hw) d hd)
  · intro w hw
    exact hca w ((hclosed w).mpr hw)

/-- a vertex all of whose children are closed closes, and takes part in no cycle -/
theorem pop (h : Inv children roots s) (hs : s.stack = (v, i) :: rest) (hc : (children v)[i]? = none) :
    Inv children roots { marks := Function.update s.marks v (some .closed), path := s.path.dropLast, stack := rest } := by
  have hnc := h.not_closed_of_open (mem_top hs)
  obtain ⟨hpath, hopen, hnd, hf, hr, hcc, hca⟩ := h
  rw [hs] at hpath hopen hnd hf hr
  obtain ⟨hi, hch, -, hfr⟩ := hf
  have hlen : (children v).length ≤ i := List.getElem?_eq_none_iff.mp hc
  have hall : ∀ c ∈ children v, Closed s c := by
    intro c hcm
    rw [List.take_of_length_le hlen] at hch
    rcases hch c hcm with h | h
    · exact h
    · cases h
  have hclosed : ∀ w, Function.update s.marks v (some .closed) w = some .closed ↔ w = v ∨ Closed s w := by
    intro w
    by_cases hw : w = v
    · simp [hw]
    · simp [hw, Closed]
  have hvr : v ∉ rest.map Prod.fst := (List.nodup_cons.mp hnd).1
  refine ⟨?_, ?_, (List.nodup_cons.mp hnd).2, ?_, ?_, ?_, ?_⟩
  · simp [hpath]
  · intro w
    by_cases hw : w = v
    · subst hw
      simpa using hvr
    · have := hopen w
      simp only [List.map_cons, List.mem_cons, hw, false_or] at this
      simpa [Function.update_of_ne hw] using this
  · exact Frames.close (fun w hw => (hclosed w).mpr (Or.inr hw)) ((hclosed v).mpr (Or.inl rfl)) hfr
  · exact fun w hw => hr w (List.mem_cons_of_mem _ hw)
  · intro w hw c hcm
    rcases (hclosed w).mp hw with rfl | hw
    · exact (hclosed c).mpr (Or.inr (hall c hcm))
    · exact (hclosed c).mpr (Or.inr (hcc w hw c hcm))
  · intro w hw hcycle
    rcases (hclosed w).mp hw with rfl | hw
    · -- the cycle leaves for a child, which is closed, and closed vertices reach only closed ones
      obtain ⟨c, hwc, hcw⟩ := TransGen.head'_iff.mp hcycle
      have hstay : ∀ u, ReflTransGen (Edge children) c u → Closed s u := by
        intro u hu
        induction hu with
        | refl => exact hall c hwc
        | tail _ hxy ih => exact hcc _ ih _ hxy
      exact hnc (hstay w hcw)
    · exact hca w hw hcycle

omit [DecidableEq V] in
/-- a child still open is on the path, which leads from it back to its parent -/
theorem cycle (h : Inv children roots s) (hs : s.stack = (v, i) :: rest) {c : V} (hc : (children v)[i]? = some c)
    (hm : s.marks c = some .open) : ∃ r ∈ roots, ¬AcyclicFrom children r := by
  have hcs := (h.open_iff c).mp hm
  obtain ⟨r, hr, hrc⟩ := h.reached c hcs
  have hvc : TransGen (Edge children) v c := TransGen.single (List.mem_of_getElem? hc)
  have hf := h.frames
  rw [hs] at hf hcs
  refine ⟨r, hr, fun ha => ha c hrc ?_⟩
  rcases List.mem_cons.mp hcs with rfl | hcs
  · exact hvc
  · exact (Frames.reach hf.2.2.2 c hcs).trans hvc

/-- the path, cut where the child stands on it and closed with the child, is a cycle -/
theorem isCycle_around (h : Inv children roots s) (hs : s.stack = (v, i) :: rest) {c : V}
    (hc : (children v)[i]? = some c) (hm : s.marks c = some .open) : IsCycle children (around s.path c) := by
  have hvc : Edge children v c := List.mem_of_getElem? hc
  have hpath : s.path = (rest.map Prod.fst).reverse ++ [v] := by
    rw [h.path_eq, hs]
    simp
  have hchain : s.path.IsChain (Edge children) := by
    rw [h.path_eq, List.isChain_reverse]
    exact h.frames.isChain
  have hmem : c ∈ s.path := by
    rw [h.path_eq, List.mem_reverse]
    exact (h.open_iff c).mp hm
  obtain ⟨k, hk⟩ : ∃ k, s.path.idxOf? c = some k := by
    simpa [← Option.isSome_iff_exists, List.isSome_idxOf?] using hmem
  obtain ⟨hlt, hget, -⟩ := List.findIdx?_eq_some_iff_getElem.mp (List.idxOf?.eq_1 c ▸ hk)
  have hget : s.path[k] = c := by simpa using hget
  have hdrop : s.path.drop k = c :: s.path.drop (k + 1) := by rw [List.drop_eq_getElem_cons hlt, hget]
  have haround : around s.path c = c :: (s.path.drop (k + 1) ++ [c]) := by
    rw [around, hk, Option.getD_some, hdrop, List.cons_append]
  have hback : (around s.path c).getLast? = some c := by
    rw [haround, ← List.cons_append]
    exact List.getLast?_concat
  refine ⟨?_, by rw [hback, haround, List.head?_cons], by simp [haround]⟩
  rw [around, hk, Option.getD_some]
  refine (hchain.suffix (List.drop_suffix k s.path)).append (List.isChain_singleton c) ?_
  intro x hx y hy
  have hxv : x = v := by
    have : (s.path.drop k).getLast? = some v := by
      rw [List.getLast?_drop, if_neg (by omega), hpath]
      simp
    exact Option.some.inj (hx.symm.trans this)
  have hyc : c = y := by simpa using hy
  exact hxv ▸ hyc ▸ hvc

end Inv

/-! ## Steps and runs -/

/-- **One turn.** It keeps the invariant, or answers a cycle, one a root reaches. -/
theorem turn_inv {s : Search V} (h : Inv children roots s) {v : V} {i : ℕ} {rest : List (V × ℕ)}
    (hs : s.stack = (v, i) :: rest) :
    match turn children s v i rest with
    | .error cycle => IsCycle children cycle ∧ ∃ r ∈ roots, ¬AcyclicFrom children r
    | .ok s' => Inv children roots s' := by
  unfold turn
  cases hc : (children v)[i]? with
  | none => exact h.pop hs hc
  | some c =>
    cases hm : s.marks c with
    | none => simpa only [hm] using h.push hs hc hm
    | some m =>
      cases m with
      | «open» => simpa only [hm] using And.intro (h.isCycle_around hs hc hm) (h.cycle hs hc hm)
      | closed => simpa only [hm] using h.skip hs hc hm

theorem walk_inv (fuel : ℕ) {s : Search V} (h : Inv children roots s) :
    match walk children fuel s with
    | .error cycle => IsCycle children cycle ∧ ∃ r ∈ roots, ¬AcyclicFrom children r
    | .ok s' => Inv children roots s' := by
  induction fuel generalizing s with
  | zero => exact h
  | succ fuel ih =>
    unfold walk
    cases hs : s.stack with
    | nil => exact h
    | cons f rest =>
      obtain ⟨v, i⟩ := f
      have ht := turn_inv h hs
      cases hq : turn children s v i rest with
      | error c =>
        rw [hq] at ht
        simpa only [hq, bind, Except.bind] using ht
      | ok s' =>
        rw [hq] at ht
        simpa only [hq, bind, Except.bind] using ih ht

/-! ## The fuel -/

/-- the turns left: for each frame the children still to look at and its closing, and every vertex not met yet -/
def left (children : V → List V) (support : List V) (s : Search V) : ℕ :=
  (s.stack.map fun f => (children f.1).length - f.2 + 1).sum +
    (support.map fun v => if (s.marks v).isNone then (children v).length + 1 else 0).sum

theorem sum_unmet_update {support : List V} {marks : V → Option Mark} {c : V} (hc : c ∈ support) (hm : marks c = none)
    (m : Mark) (w : V → ℕ) :
    (support.map fun v => if (Function.update marks c (some m) v).isNone then w v else 0).sum + w c ≤
      (support.map fun v => if (marks v).isNone then w v else 0).sum := by
  have hle (l : List V) : (l.map fun v => if (Function.update marks c (some m) v).isNone then w v else 0).sum ≤
      (l.map fun v => if (marks v).isNone then w v else 0).sum := by
    refine List.sum_le_sum fun v _ => ?_
    by_cases hv : v = c
    · simp [hv]
    · simp [Function.update_of_ne hv]
  obtain ⟨a, b, rfl⟩ := List.append_of_mem hc
  have ha := hle a
  have hb := hle b
  simp only [List.map_append, List.map_cons, List.sum_append, List.sum_cons, Function.update_self, hm, Option.isNone_none,
    Option.isNone_some, if_true, Bool.false_eq_true, if_false]
  omega

theorem sum_unmet_eq {support : List V} {marks : V → Option Mark} {v : V} (hm : (marks v).isSome) (m : Mark) (w : V → ℕ) :
    (support.map fun u => if (Function.update marks v (some m) u).isNone then w u else 0).sum =
      (support.map fun u => if (marks u).isNone then w u else 0).sum := by
  congr 1
  refine List.map_congr_left fun u _ => ?_
  by_cases hu : u = v
  · subst hu
    obtain ⟨x, hx⟩ := Option.isSome_iff_exists.mp hm
    simp [hx]
  · simp [Function.update_of_ne hu]

/-- each turn uses up at least one of the turns left -/
theorem turn_left {support : List V} (hsupp : ∀ v, ∀ c ∈ children v, c ∈ support) {s s' : Search V}
    (h : Inv children roots s) {v : V} {i : ℕ} {rest : List (V × ℕ)} (hs : s.stack = (v, i) :: rest)
    (ht : turn children s v i rest = .ok s') : left children support s' < left children support s := by
  unfold turn at ht
  cases hc : (children v)[i]? with
  | none =>
    simp only [hc, Except.ok.injEq] at ht
    subst ht
    have hm : (s.marks v).isSome := by
      rw [(h.open_iff v).mpr (Inv.mem_top hs)]
      rfl
    simp only [left, hs, List.map_cons, List.sum_cons, sum_unmet_eq hm]
    omega
  | some c =>
    obtain ⟨hlt, -⟩ := List.getElem?_eq_some_iff.mp hc
    cases hm : s.marks c with
    | none =>
      simp only [hc, hm, Except.ok.injEq] at ht
      subst ht
      have hsum := sum_unmet_update (hsupp v c (List.mem_of_getElem? hc)) hm .open fun v => (children v).length + 1
      simp only [left, hs, List.map_cons, List.sum_cons]
      omega
    | some m =>
      cases m with
      | «open» => simp [hc, hm] at ht
      | closed =>
        simp only [hc, hm, Except.ok.injEq] at ht
        subst ht
        simp only [left, hs, List.map_cons, List.sum_cons]
        omega

/-- a walk with as much fuel as it has turns left ends with an empty stack -/
theorem walk_stops {support : List V} (hsupp : ∀ v, ∀ c ∈ children v, c ∈ support) (fuel : ℕ) {s s' : Search V}
    (h : Inv children roots s) (hf : left children support s < fuel) (hw : walk children fuel s = .ok s') :
    s'.stack = [] := by
  induction fuel generalizing s with
  | zero => omega
  | succ fuel ih =>
    unfold walk at hw
    cases hs : s.stack with
    | nil =>
      simp only [hs, Except.ok.injEq] at hw
      rw [← hw, hs]
    | cons f rest =>
      obtain ⟨v, i⟩ := f
      simp only [hs] at hw
      have ht := turn_inv h hs
      cases hq : turn children s v i rest with
      | error c => simp [hq, bind, Except.bind] at hw
      | ok t =>
        rw [hq] at ht hw
        have hl := turn_left hsupp h hs hq
        exact ih ht (by omega) hw

/-- marks once a walk has ended: nothing is open, and what is closed is closed under children and free of cycles -/
structure Done (children : V → List V) (marks : V → Option Mark) : Prop where
  not_open : ∀ v, marks v ≠ some .open
  closed_children : ∀ v, marks v = some .closed → ∀ c ∈ children v, marks c = some .closed
  closed_acyclic : ∀ v, marks v = some .closed → ¬TransGen (Edge children) v v

theorem Done.start_inv {marks : V → Option Mark} (h : Done children marks) {r : V} (hr : r ∈ roots) (hm : marks r = none) :
    Inv children roots (start marks r) := by
  have hclosed : ∀ w, Closed (start marks r) w ↔ marks w = some .closed := by
    intro w
    by_cases hw : w = r
    · subst hw
      simp [Closed, start, hm]
    · simp [Closed, start, Function.update_of_ne hw]
  refine ⟨rfl, ?_, by simp [start], ⟨Nat.zero_le _, by simp, by simp, trivial⟩, ?_, ?_, ?_⟩
  · intro v
    by_cases hv : v = r
    · simp [start, hv]
    · simp [start, hv, h.not_open v]
  · intro v hv
    have : v = r := by simpa [start] using hv
    exact ⟨r, hr, this ▸ ReflTransGen.refl⟩
  · exact fun v hv c hc => (hclosed c).mpr (h.closed_children v ((hclosed v).mp hv) c hc)
  · exact fun v hv => h.closed_acyclic v ((hclosed v).mp hv)

omit [DecidableEq V] in
theorem Inv.done {s : Search V} (h : Inv children roots s) (hs : s.stack = []) : Done children s.marks :=
  ⟨fun v hv => by simpa [hs] using (h.open_iff v).mp hv, h.closed_children, h.closed_acyclic⟩

/-! ## What stays marked -/

/-- a mark is never taken off -/
theorem turn_marked {s s' : Search V} {v : V} {i : ℕ} {rest : List (V × ℕ)} (ht : turn children s v i rest = .ok s')
    {u : V} (hu : (s.marks u).isSome) : (s'.marks u).isSome := by
  have hupd (w : V) (m : Mark) : (Function.update s.marks w (some m) u).isSome := by
    by_cases hw : u = w
    · simp [hw]
    · rwa [Function.update_of_ne hw]
  unfold turn at ht
  cases hc : (children v)[i]? with
  | none =>
    simp only [hc, Except.ok.injEq] at ht
    subst ht
    exact hupd v .closed
  | some c =>
    cases hm : s.marks c with
    | none =>
      simp only [hc, hm, Except.ok.injEq] at ht
      subst ht
      exact hupd c .open
    | some m =>
      cases m with
      | «open» => simp [hc, hm] at ht
      | closed =>
        simp only [hc, hm, Except.ok.injEq] at ht
        subst ht
        exact hu

theorem walk_marked (fuel : ℕ) {s s' : Search V} (hw : walk children fuel s = .ok s') {u : V} (hu : (s.marks u).isSome) :
    (s'.marks u).isSome := by
  induction fuel generalizing s with
  | zero =>
    simp only [walk, Except.ok.injEq] at hw
    exact hw ▸ hu
  | succ fuel ih =>
    unfold walk at hw
    cases hs : s.stack with
    | nil =>
      simp only [hs, Except.ok.injEq] at hw
      exact hw ▸ hu
    | cons f rest =>
      obtain ⟨v, i⟩ := f
      simp only [hs] at hw
      cases hq : turn children s v i rest with
      | error c => simp [hq, bind, Except.bind] at hw
      | ok t =>
        rw [hq] at hw
        exact ih hw (turn_marked hq hu)

/-! ## The search -/

theorem left_start {support : List V} {marks : V → Option Mark} {r : V} (hr : r ∈ support) (hm : marks r = none) :
    left children support (start marks r) < fuelOf children support := by
  have hsum : (support.map fun v => if ((start marks r).marks v).isNone then (children v).length + 1 else 0).sum +
      ((children r).length + 1) ≤ (support.map fun v => if (marks v).isNone then (children v).length + 1 else 0).sum :=
    sum_unmet_update hr hm .open _
  have hall : (support.map fun v => if (marks v).isNone then (children v).length + 1 else 0).sum ≤
      (support.map fun v => (children v).length + 1).sum := by
    refine List.sum_le_sum fun v _ => ?_
    split_ifs <;> omega
  have hstack : ((start marks r).stack.map fun f => (children f.1).length - f.2 + 1).sum = (children r).length + 1 := by
    simp [start]
  simp only [left, fuelOf, hstack]
  omega

section Search

variable {support : List V} (hsupp : ∀ v, ∀ c ∈ children v, c ∈ support)

include hsupp

/-- **One root.** The marks it leaves are done and hold it closed, or a root starts a cycle. -/
theorem fromRoot_spec {marks : V → Option Mark} (h : Done children marks) {r : V} (hr : r ∈ roots) (hs : r ∈ support) :
    match fromRoot children (fuelOf children support) marks r with
    | .error cycle => IsCycle children cycle ∧ ∃ r ∈ roots, ¬AcyclicFrom children r
    | .ok marks' => Done children marks' ∧ (∀ v, (marks v).isSome → (marks' v).isSome) ∧ (marks' r).isSome := by
  unfold fromRoot
  split_ifs with hm
  · exact ⟨h, fun _ hv => hv, hm⟩
  · have hnone : marks r = none := by simpa using hm
    have hinv := h.start_inv hr hnone
    have hwalk := walk_inv (fuelOf children support) hinv
    cases hw : walk children (fuelOf children support) (start marks r) with
    | error c =>
      rw [hw] at hwalk
      exact hwalk
    | ok s' =>
      rw [hw] at hwalk
      have hstart (v : V) (hv : (marks v).isSome) : ((start marks r).marks v).isSome := by
        by_cases hvr : v = r
        · simp [start, hvr]
        · simpa [start, Function.update_of_ne hvr] using hv
      refine ⟨hwalk.done (walk_stops hsupp _ hinv (left_start hs hnone) hw), fun v hv => ?_, ?_⟩
      · exact walk_marked _ hw (hstart v hv)
      · exact walk_marked _ hw (by simp [start])

theorem search_spec {rs : List V} (hrs : ∀ r ∈ rs, r ∈ roots ∧ r ∈ support) {marks : V → Option Mark}
    (h : Done children marks) :
    match search children (fuelOf children support) rs marks with
    | .error cycle => IsCycle children cycle ∧ ∃ r ∈ roots, ¬AcyclicFrom children r
    | .ok marks' => Done children marks' ∧ (∀ v, (marks v).isSome → (marks' v).isSome) ∧ ∀ r ∈ rs, (marks' r).isSome := by
  induction rs generalizing marks with
  | nil => exact ⟨h, fun _ hv => hv, by simp⟩
  | cons r rs ih =>
    have hr := hrs r (by simp)
    have hone := fromRoot_spec hsupp h hr.1 hr.2
    unfold search
    cases hq : fromRoot children (fuelOf children support) marks r with
    | error c =>
      rw [hq] at hone
      exact hone
    | ok m =>
      rw [hq] at hone
      obtain ⟨hd, hkeep, hrm⟩ := hone
      have hrest := ih (fun r' h' => hrs r' (List.mem_cons_of_mem _ h')) hd
      simp only [bind, Except.bind]
      cases hq' : search children (fuelOf children support) rs m with
      | error c =>
        rw [hq'] at hrest
        exact hrest
      | ok m' =>
        rw [hq'] at hrest
        obtain ⟨hd', hkeep', hrs'⟩ := hrest
        refine ⟨hd', fun v hv => hkeep' v (hkeep v hv), fun r' hr' => ?_⟩
        rcases List.mem_cons.mp hr' with rfl | hr'
        · exact hkeep' r' hrm
        · exact hrs' r' hr'

/-- **The search.** It answers no cycle exactly when no vertex reachable from a root reaches itself. -/
theorem findCycle_eq_none (hroots : ∀ r ∈ roots, r ∈ support) :
    findCycle children support roots = none ↔ ∀ r ∈ roots, AcyclicFrom children r := by
  have hstart : Done children fun _ : V => none := ⟨by simp, by simp, by simp⟩
  have hspec := search_spec hsupp (fun r hr => ⟨hr, hroots r hr⟩) hstart
  unfold findCycle
  cases hq : search children (fuelOf children support) roots fun _ => none with
  | error c =>
    rw [hq] at hspec
    obtain ⟨-, r, hr, hna⟩ := hspec
    simp only [reduceCtorEq, false_iff]
    exact fun hall => hna (hall r hr)
  | ok marks =>
    rw [hq] at hspec
    obtain ⟨hd, -, hall⟩ := hspec
    simp only [true_iff]
    intro r hr w hw
    have hclosed : marks w = some .closed := by
      induction hw with
      | refl =>
        obtain ⟨m, hm⟩ := Option.isSome_iff_exists.mp (hall r hr)
        cases m with
        | «open» => exact absurd hm (hd.not_open r)
        | closed => exact hm
      | tail _ hxy ih => exact hd.closed_children _ ih _ hxy
    exact hd.closed_acyclic w hclosed

/-- **The path answered.** It is a cycle. -/
theorem findCycle_some (hroots : ∀ r ∈ roots, r ∈ support) {cycle : List V}
    (h : findCycle children support roots = some cycle) : IsCycle children cycle := by
  have hstart : Done children fun _ : V => none := ⟨by simp, by simp, by simp⟩
  have hspec := search_spec hsupp (fun r hr => ⟨hr, hroots r hr⟩) hstart
  unfold findCycle at h
  cases hq : search children (fuelOf children support) roots fun _ => none with
  | error c =>
    rw [hq] at hspec
    simp only [hq, Option.some.injEq] at h
    exact h ▸ hspec.1
  | ok marks => simp [hq] at h

end Search

/-! ## The loop with no bound on its turns -/

/-- a walk that ends: its stack runs empty, or one of its turns answers a cycle -/
inductive Walks (children : V → List V) : Search V → Except (List V) (V → Option Mark) → Prop
  | ended {s : Search V} (hs : s.stack = []) : Walks children s (.ok s.marks)
  | found {s : Search V} {v : V} {i : ℕ} {rest : List (V × ℕ)} {cycle : List V} (hs : s.stack = (v, i) :: rest)
      (ht : turn children s v i rest = .error cycle) : Walks children s (.error cycle)
  | turned {s s' : Search V} {v : V} {i : ℕ} {rest : List (V × ℕ)} {r : Except (List V) (V → Option Mark)}
      (hs : s.stack = (v, i) :: rest) (ht : turn children s v i rest = .ok s') (hw : Walks children s' r) :
      Walks children s r

/-- the roots in order, up to the first whose walk answers a cycle -/
inductive Searches (children : V → List V) : List V → (V → Option Mark) → Except (List V) (V → Option Mark) → Prop
  | ended {marks : V → Option Mark} : Searches children [] marks (.ok marks)
  | met {r : V} {rs : List V} {marks : V → Option Mark} {out : Except (List V) (V → Option Mark)}
      (hm : (marks r).isSome) (hs : Searches children rs marks out) : Searches children (r :: rs) marks out
  | found {r : V} {rs : List V} {marks : V → Option Mark} {cycle : List V} (hm : marks r = none)
      (hw : Walks children (start marks r) (.error cycle)) : Searches children (r :: rs) marks (.error cycle)
  | walked {r : V} {rs : List V} {marks marks' : V → Option Mark} {out : Except (List V) (V → Option Mark)}
      (hm : marks r = none) (hw : Walks children (start marks r) (.ok marks')) (hs : Searches children rs marks' out) :
      Searches children (r :: rs) marks out

/-- fuel not used up is a walk that ends -/
theorem walk_walks {fuel : ℕ} {s : Search V} (h : ∀ s', walk children fuel s = .ok s' → s'.stack = []) :
    Walks children s ((walk children fuel s).map Search.marks) := by
  induction fuel generalizing s with
  | zero => exact .ended (h s rfl)
  | succ fuel ih =>
    unfold walk at h ⊢
    cases hs : s.stack with
    | nil => exact .ended hs
    | cons f rest =>
      obtain ⟨v, i⟩ := f
      simp only [hs] at h
      simp only
      cases hq : turn children s v i rest with
      | error cycle => exact .found hs hq
      | ok t =>
        rw [hq] at h
        exact .turned hs hq (ih h)

section

variable {support : List V} (hsupp : ∀ v, ∀ c ∈ children v, c ∈ support)

include hsupp

theorem search_searches {rs : List V} (hrs : ∀ r ∈ rs, r ∈ support) {marks : V → Option Mark} (h : Done children marks) :
    Searches children rs marks (search children (fuelOf children support) rs marks) := by
  induction rs generalizing marks with
  | nil => exact .ended
  | cons r rs ih =>
    have hrest {marks : V → Option Mark} (hd : Done children marks) := ih (fun r' h' => hrs r' (List.mem_cons_of_mem _ h')) hd
    unfold search fromRoot
    split_ifs with hm
    · exact .met hm (hrest h)
    · have hnone : marks r = none := by simpa using hm
      have hinv : Inv children [r] (start marks r) := h.start_inv (List.mem_singleton_self r) hnone
      have hstops (s' : Search V) (hw : walk children (fuelOf children support) (start marks r) = .ok s') :=
        walk_stops hsupp _ hinv (left_start (hrs r (by simp)) hnone) hw
      have hwalks := walk_walks hstops
      have hkept := walk_inv (fuelOf children support) hinv
      cases hw : walk children (fuelOf children support) (start marks r) with
      | error cycle =>
        rw [hw] at hwalks
        exact .found hnone hwalks
      | ok s' =>
        rw [hw] at hwalks hkept
        exact .walked hnone hwalks (hrest (hkept.done (hstops s' hw)))

/-- **Termination.** The loop ends, and `findCycle` answers what it ends with. -/
theorem findCycle_searches (hroots : ∀ r ∈ roots, r ∈ support) :
    ∃ out, Searches children roots (fun _ => none) out ∧
      findCycle children support roots = match out with | .error cycle => some cycle | .ok _ => none :=
  ⟨_, search_searches hsupp hroots ⟨by simp, by simp, by simp⟩, rfl⟩

end

omit [DecidableEq V] in
/-- **A rank.** A relation with no cycle, onto finitely many places, goes down a rank. -/
theorem exists_rank {r : V → V → Prop} {support : Finset V} (hs : ∀ a b, r a b → b ∈ support)
    (h : ∀ a, ¬TransGen r a a) : ∃ rank : V → ℕ, ∀ a b, r a b → rank b < rank a := by
  classical
  refine ⟨fun a => (support.filter fun b => TransGen r a b).card, fun a b hab => Finset.card_lt_card ?_⟩
  refine (Finset.ssubset_iff_of_subset fun c hc => ?_).mpr ⟨b, ?_, fun hb => ?_⟩
  · obtain ⟨hin, hbc⟩ := Finset.mem_filter.mp hc
    exact Finset.mem_filter.mpr ⟨hin, .head hab hbc⟩
  · exact Finset.mem_filter.mpr ⟨hs a b hab, .single hab⟩
  · exact h b (Finset.mem_filter.mp hb).2

end OnePipeline.Dfs
