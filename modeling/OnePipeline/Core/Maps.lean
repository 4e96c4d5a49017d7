/-
Ordered maps read at a key: what an update answers, and which updates leave a map as it is.

Results:
- `get_insert`, `get_erase`, `get_insertAll`, `get_foldl_insert_by`, `get_foldl_update`, `get_foldl_orInsert`: what each update
  answers at every key;
- `mem_values`: which values a map holds;
- `any_toList`, `find?_toList`, `find?_toList_none`: whether an entry satisfies a predicate, and the first one that does, in the order of
  the keys;
- `insert_of_get`, `erase_of_not_mem`, `erase_eq_self`: the updates that change nothing;
- `erase_insert`: an insertion and an erasure at two keys in either order.

Nothing in this file names the program.
-/
import Mathlib.Tactic

namespace OnePipeline.Maps

open Std

variable {α β : Type*} {cmp : α → α → Ordering} [TransCmp cmp] [LawfulEqCmp cmp] [DecidableEq α]
variable (m : ExtTreeMap α β cmp)

/-! ## Lookups -/

theorem get_insert (k a : α) (v : β) : (m.insert k v)[a]? = if a = k then some v else m[a]? := by
  rw [ExtTreeMap.getElem?_insert]
  simp only [LawfulEqCmp.compare_eq_iff_eq, eq_comm (a := k)]

theorem get_erase (k a : α) : (m.erase k)[a]? = if a = k then none else m[a]? := by
  rw [ExtTreeMap.getElem?_erase]
  simp only [LawfulEqCmp.compare_eq_iff_eq, eq_comm (a := k)]

variable {m}

omit [LawfulEqCmp cmp] [DecidableEq α] in
theorem mem_iff {k : α} : k ∈ m ↔ ∃ v, m[k]? = some v := by
  rw [ExtTreeMap.mem_iff_isSome_getElem?, Option.isSome_iff_exists]

omit [LawfulEqCmp cmp] [DecidableEq α] in
theorem not_mem_iff {k : α} : k ∉ m ↔ m[k]? = none := by
  rw [mem_iff, Option.eq_none_iff_forall_ne_some, not_exists]

omit [DecidableEq α] in
theorem mem_insert_iff {k a : α} {v : β} : a ∈ m.insert k v ↔ a = k ∨ a ∈ m := by
  rw [Std.ExtTreeMap.mem_insert, Std.LawfulEqCmp.compare_eq_iff_eq, eq_comm]

omit [LawfulEqCmp cmp] [DecidableEq α] in
/-- the values of a map are the seconds of its entries -/
theorem values_eq (m : ExtTreeMap α β cmp) : m.values = m.toList.map Prod.snd := by
  obtain ⟨m⟩ := m
  induction m using ExtDTreeMap.inductionOn with
  | mk m =>
    obtain ⟨m, hm⟩ := m
    show m.values = (DTreeMap.Internal.Impl.Const.toList m).map Prod.snd
    rw [DTreeMap.Internal.Impl.Const.toList_eq_toListModel_map, DTreeMap.Internal.Impl.values_eq_map_snd, List.map_map]
    rfl

omit [DecidableEq α] in
theorem mem_values {m : ExtTreeMap α β cmp} {v : β} : v ∈ m.values ↔ ∃ k : α, m[k]? = some v := by
  rw [values_eq, List.mem_map]
  constructor
  · rintro ⟨⟨k, w⟩, hin, rfl⟩
    exact ⟨k, ExtTreeMap.mem_toList_iff_getElem?_eq_some.mp hin⟩
  · rintro ⟨k, hk⟩
    exact ⟨(k, v), ExtTreeMap.mem_toList_iff_getElem?_eq_some.mpr hk, rfl⟩

omit [DecidableEq α] in
theorem any_toList {p : α × β → Bool} : m.toList.any p = true ↔ ∃ k v, m[k]? = some v ∧ p (k, v) = true := by
  rw [List.any_eq_true]
  constructor
  · rintro ⟨⟨k, v⟩, hin, hp⟩
    exact ⟨k, v, ExtTreeMap.mem_toList_iff_getElem?_eq_some.mp hin, hp⟩
  · rintro ⟨k, v, hget, hp⟩
    exact ⟨(k, v), ExtTreeMap.mem_toList_iff_getElem?_eq_some.mpr hget, hp⟩

omit [DecidableEq α] in
/-- the first entry in the order of the keys that satisfies a predicate: no entry before it does -/
theorem find?_toList {p : α × β → Bool} {k : α} {v : β} (h : m.toList.find? p = some (k, v)) :
    m[k]? = some v ∧ p (k, v) = true ∧ ∀ k' v', m[k']? = some v' → p (k', v') = true → cmp k' k ≠ .lt := by
  obtain ⟨hp, before, after, hlist, hbefore⟩ := List.find?_eq_some_iff_append.mp h
  have hin : (k, v) ∈ m.toList := by rw [hlist]; exact List.mem_append_right _ List.mem_cons_self
  refine ⟨ExtTreeMap.mem_toList_iff_getElem?_eq_some.mp hin, hp, fun k' v' hget hp' hlt => ?_⟩
  have hin' := ExtTreeMap.mem_toList_iff_getElem?_eq_some.mpr hget
  rw [hlist, List.mem_append, List.mem_cons] at hin'
  have horder : m.toList.Pairwise fun a b => cmp a.1 b.1 = .lt := ExtTreeMap.ordered_keys_toList
  rw [hlist, List.pairwise_append, List.pairwise_cons] at horder
  rcases hin' with hin' | heq | hin'
  · have hnot := hbefore _ hin'
    rw [hp'] at hnot
    cases hnot
  · rw [(Prod.mk.inj heq).1, (ReflCmp.compare_self : cmp k k = .eq)] at hlt
    cases hlt
  · have hgt : cmp k k' = .lt := horder.2.1.1 _ hin'
    rw [(OrientedCmp.eq_swap : cmp k k' = (cmp k' k).swap), hlt] at hgt
    cases hgt

omit [DecidableEq α] in
theorem find?_toList_none {p : α × β → Bool} (h : m.toList.find? p = none) {k : α} {v : β} (hget : m[k]? = some v) : ¬p (k, v) = true :=
  List.find?_eq_none.mp h _ (ExtTreeMap.mem_toList_iff_getElem?_eq_some.mpr hget)

omit [LawfulEqCmp cmp] [DecidableEq α] in
/-- entries written over a map, in order -/
def insertAll (m : ExtTreeMap α β cmp) (l : List (α × β)) : ExtTreeMap α β cmp := l.foldl (fun m p => m.insert p.1 p.2) m

theorem get_insertAll_of_not_mem {l : List (α × β)} (m : ExtTreeMap α β cmp) {k : α} (h : k ∉ l.map Prod.fst) :
    (insertAll m l)[k]? = m[k]? := by
  induction l generalizing m with
  | nil => rfl
  | cons p l ih =>
    rw [List.map_cons, List.mem_cons, not_or] at h
    have hrest := ih (m.insert p.1 p.2) h.2
    rw [get_insert, if_neg h.1] at hrest
    exact hrest

/-- an entry of a map after others are written over it is one of them, or was there -/
theorem mem_or_get_of_insertAll {l : List (α × β)} {k : α} {v : β} (h : (insertAll m l)[k]? = some v) :
    (k, v) ∈ l ∨ m[k]? = some v := by
  induction l generalizing m with
  | nil => exact .inr h
  | cons p l ih =>
    rcases ih (m := m.insert p.1 p.2) h with hin | hat
    · exact .inl (List.mem_cons_of_mem _ hin)
    · rw [get_insert] at hat
      split_ifs at hat with hk
      · refine .inl (List.mem_cons.mpr (.inl ?_))
        rw [hk, ← Option.some.inj hat]
      · exact .inr hat

/-- a map written over another answers where it holds a key, and leaves the other elsewhere -/
theorem get_insertAll (m o : ExtTreeMap α β cmp) (k : α) : (insertAll m o.toList)[k]? = o[k]?.or m[k]? := by
  have hd : o.toList.Pairwise fun p q => p.1 ≠ q.1 := by
    refine ExtTreeMap.distinct_keys_toList.imp fun {p q} h heq => h ?_
    rw [heq]
    exact ReflCmp.compare_self
  have hmem (p : α × β) : p ∈ o.toList ↔ o[p.1]? = some p.2 := by
    obtain ⟨a, b⟩ := p
    exact ExtTreeMap.mem_toList_iff_getElem?_eq_some
  cases ho : o[k]? with
  | none =>
    refine get_insertAll_of_not_mem m fun h => ?_
    obtain ⟨p, hp, rfl⟩ := List.mem_map.mp h
    rw [(hmem p).mp hp] at ho
    cases ho
  | some v =>
    have hin : (k, v) ∈ o.toList := (hmem (k, v)).mpr ho
    generalize o.toList = l at hd hin
    induction l generalizing m with
    | nil => cases hin
    | cons p l ih =>
      obtain ⟨hp, hd⟩ := List.pairwise_cons.mp hd
      rcases List.mem_cons.mp hin with rfl | hin
      · have hout : k ∉ l.map Prod.fst := by
          intro h
          obtain ⟨q, hq, hk⟩ := List.mem_map.mp h
          exact hp q hq hk.symm
        have hrest := get_insertAll_of_not_mem (m.insert k v) hout
        rw [get_insert, if_pos rfl] at hrest
        exact hrest
      · exact ih (m.insert p.1 p.2) hd hin

/-- one value written at each key of a list -/
theorem get_foldl_insert (l : List α) (v : β) (m : ExtTreeMap α β cmp) (a : α) :
    (l.foldl (fun m k => m.insert k v) m)[a]? = if a ∈ l then some v else m[a]? := by
  induction l generalizing m with
  | nil => simp
  | cons k l ih =>
    rw [List.foldl_cons, ih, get_insert]
    by_cases ha : a = k
    · simp [ha]
    · simp [ha]

/-- an entry written for each element of a list, at keys of their own -/
theorem get_foldl_insert_by {γ : Type*} (key : γ → α) (value : γ → β) {l : List γ} (hnd : (l.map key).Nodup)
    (m : ExtTreeMap α β cmp) {c : γ} (hc : c ∈ l) :
    (l.foldl (fun m c => m.insert (key c) (value c)) m)[key c]? = some (value c) := by
  have hmap : ∀ (l : List γ) (m : ExtTreeMap α β cmp),
      l.foldl (fun m c => m.insert (key c) (value c)) m = insertAll m (l.map fun c => (key c, value c)) := by
    intro l m
    rw [insertAll, List.foldl_map]
  induction l generalizing m with
  | nil => cases hc
  | cons d l ih =>
    rw [List.map_cons, List.nodup_cons] at hnd
    rw [List.foldl_cons]
    rcases List.mem_cons.mp hc with rfl | hc
    · rw [hmap, get_insertAll_of_not_mem, get_insert, if_pos rfl]
      rw [List.map_map]
      exact hnd.1
    · exact ih hnd.2 _ hc

omit [DecidableEq α] in
theorem mem_foldl_insert_by {γ : Type*} (key : γ → α) (value : γ → β) (l : List γ) (m : ExtTreeMap α β cmp) (a : α) :
    a ∈ l.foldl (fun m c => m.insert (key c) (value c)) m ↔ a ∈ m ∨ a ∈ l.map key := by
  induction l generalizing m with
  | nil => simp
  | cons c l ih =>
    rw [List.foldl_cons, ih, List.map_cons, List.mem_cons, ExtTreeMap.mem_insert, LawfulEqCmp.compare_eq_iff_eq,
      eq_comm (a := key c)]
    tauto

/-- an entry written for each element of a list, the same for those of one key -/
theorem get_foldl_insert_same {γ : Type*} (key : γ → α) (value : γ → β) {l : List γ}
    (hsame : ∀ c ∈ l, ∀ d ∈ l, key c = key d → value c = value d) (m : ExtTreeMap α β cmp) {c : γ} (hc : c ∈ l) :
    (l.foldl (fun m c => m.insert (key c) (value c)) m)[key c]? = some (value c) := by
  induction l using List.reverseRecOn with
  | nil => cases hc
  | append_singleton l d ih =>
    rw [List.foldl_append, List.foldl_cons, List.foldl_nil, get_insert]
    split_ifs with heq
    · rw [hsame c hc d (by simp) heq]
    · have hin : c ∈ l := by
        rcases List.mem_append.mp hc with hin | hin
        · exact hin
        · exact absurd (congrArg key (List.mem_singleton.mp hin)) heq
      exact ih (fun a ha b hb => hsame a (List.mem_append_left _ ha) b (List.mem_append_left _ hb)) hin

/-- an entry rewritten at each key of a list, of what it was -/
theorem get_foldl_update {l : List α} (hnd : l.Nodup) (f : α → Option β → β) (m : ExtTreeMap α β cmp) (a : α) :
    (l.foldl (fun m k => m.insert k (f k m[k]?)) m)[a]? = if a ∈ l then some (f a m[a]?) else m[a]? := by
  induction l generalizing m with
  | nil => simp
  | cons k l ih =>
    rw [List.nodup_cons] at hnd
    rw [List.foldl_cons, ih hnd.2, get_insert]
    by_cases ha : a = k
    · subst ha
      simp [hnd.1]
    · simp [ha]

/-- the first element of a list for each key, where the map has none of its own -/
theorem get_foldl_orInsert {γ : Type*} (key : γ → α) (value : γ → β) (l : List γ) (m : ExtTreeMap α β cmp) (a : α) :
    (l.foldl (fun m c => if key c ∈ m then m else m.insert (key c) (value c)) m)[a]? =
      m[a]?.or ((l.find? fun c => key c = a).map value) := by
  induction l generalizing m with
  | nil => simp
  | cons c l ih =>
    rw [List.foldl_cons, ih, List.find?_cons]
    by_cases hin : key c ∈ m
    · rw [if_pos hin]
      by_cases hkey : key c = a
      · obtain ⟨v, hv⟩ := mem_iff.mp hin
        rw [hkey] at hv
        simp [hv]
      · simp [hkey]
    · rw [if_neg hin, get_insert]
      by_cases hkey : key c = a
      · subst hkey
        rw [not_mem_iff.mp hin]
        simp
      · simp [hkey, Ne.symm hkey]

/-! ## Updates that change nothing -/

theorem insert_of_get {k : α} {v : β} (h : m[k]? = some v) : m.insert k v = m := by
  refine ExtTreeMap.ext_getElem? fun a => ?_
  rw [get_insert]
  split_ifs with ha
  · rw [ha, h]
  · rfl

theorem erase_of_not_mem {k : α} (h : k ∉ m) : m.erase k = m := by
  refine ExtTreeMap.ext_getElem? fun a => ?_
  rw [get_erase]
  split_ifs with ha
  · rw [ha, not_mem_iff.mp h]
  · rfl

theorem erase_eq_self {k : α} : m.erase k = m ↔ k ∉ m := by
  refine ⟨fun h => ?_, erase_of_not_mem⟩
  rw [not_mem_iff, ← h, get_erase, if_pos rfl]

/-! ## Two updates -/

theorem erase_insert {k k' : α} (h : k ≠ k') (v : β) : (m.insert k v).erase k' = (m.erase k').insert k v := by
  refine ExtTreeMap.ext_getElem? fun a => ?_
  simp only [get_insert, get_erase]
  by_cases ha : a = k
  · rw [if_neg (ha ▸ h), if_pos ha, if_pos ha]
  · rw [if_neg ha, if_neg ha]

end OnePipeline.Maps
