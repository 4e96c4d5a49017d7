/-
An insertion-ordered collection of values, one a key: a list whose keys are distinct, with the distinctness carried as
a field, so that no operation can build a collection holding one key twice.

Results:
- `get_insert`, `get_remove`, `get_modify`: what each operation answers at every key;
- `keys_insert_mem`, `keys_insert_new`, `keys_remove`, `keys_modify`: what each operation does to the order;
- `ext_get`: the keys in order and the value at each key determine the collection;
- `items_ofItems`: collecting values of distinct keys keeps them as they came.

Nothing in this file names the program.
-/
import Mathlib.Tactic

namespace OnePipeline

/-- values in insertion order, no two of one key -/
structure Keyed {α κ : Type*} (key : α → κ) where
  items : List α
  nodup : (items.map key).Nodup

namespace Keyed

variable {α κ : Type*} [DecidableEq κ] {key : α → κ}

/-! ## Operations -/

def empty : Keyed key := ⟨[], List.nodup_nil⟩

def keys (s : Keyed key) : List κ := s.items.map key

def get (s : Keyed key) (k : κ) : Option α := s.items.find? fun a => key a = k

def contains (s : Keyed key) (k : κ) : Bool := (s.get k).isSome

/-- the list with `a` in the place of the value of its key -/
def put (key : α → κ) (a : α) (l : List α) : List α := l.map fun b => if key b = key a then a else b

theorem map_key_put (a : α) (l : List α) : (put key a l).map key = l.map key := by
  simp only [put, List.map_map]
  refine List.map_congr_left fun b _ => ?_
  simp only [Function.comp_apply]
  split_ifs with h
  · exact h.symm
  · rfl

/-- add a value, or replace the one of its key in place -/
def insert (s : Keyed key) (a : α) : Keyed key :=
  if h : key a ∈ s.keys then ⟨put key a s.items, by rw [map_key_put]; exact s.nodup⟩
  else ⟨s.items ++ [a], by
    rw [List.map_append, List.map_singleton]
    exact List.Nodup.append s.nodup (List.nodup_singleton _) (by simpa [keys] using h)⟩

/-- take a key out, keeping the order of the rest -/
def remove (s : Keyed key) (k : κ) : Keyed key :=
  ⟨s.items.filter fun a => key a ≠ k, s.nodup.sublist (List.filter_sublist.map key)⟩

/-- change the value of a key by a function that keeps the key -/
def modify (s : Keyed key) (k : κ) (f : α → α) (keeps : ∀ a, key (f a) = key a) : Keyed key :=
  ⟨s.items.map fun a => if key a = k then f a else a, by
    have h : (s.items.map fun a => if key a = k then f a else a).map key = s.keys := by
      simp only [List.map_map, keys]
      refine List.map_congr_left fun a _ => ?_
      simp only [Function.comp_apply]
      split_ifs with ha
      · exact keeps a
      · rfl
    rw [h]
    exact s.nodup⟩

/-- change every value by a function that keeps its key -/
def mapItems (s : Keyed key) (f : α → α) (keeps : ∀ a, key (f a) = key a) : Keyed key :=
  ⟨s.items.map f, by
    have h : (s.items.map f).map key = s.keys := by
      simp only [List.map_map, keys]
      exact List.map_congr_left fun a _ => keeps a
    rw [h]
    exact s.nodup⟩

/-- the collection of a list of values, a later one of a key replacing an earlier one in place -/
def ofItems (l : List α) : Keyed key := l.foldl insert empty

/-! ## Lookups -/

omit [DecidableEq κ] in
theorem mem_keys {s : Keyed key} {k : κ} : k ∈ s.keys ↔ ∃ a ∈ s.items, key a = k := by
  simp only [keys, List.mem_map]

omit [DecidableEq κ] in
/-- values of one key in a list of distinct keys are one value -/
theorem eq_of_key_eq (s : Keyed key) {a b : α} (ha : a ∈ s.items) (hb : b ∈ s.items) (h : key a = key b) : a = b :=
  List.inj_on_of_nodup_map s.nodup ha hb h

theorem get_eq_some {s : Keyed key} {k : κ} {a : α} : s.get k = some a ↔ a ∈ s.items ∧ key a = k := by
  constructor
  · intro h
    exact ⟨List.mem_of_find?_eq_some h, by simpa using List.find?_some h⟩
  · rintro ⟨ha, rfl⟩
    obtain ⟨b, hb⟩ : ∃ b, s.get (key a) = some b := by
      rw [← Option.isSome_iff_exists, get, List.find?_isSome]
      exact ⟨a, ha, by simp⟩
    have hk : key b = key a := by simpa using List.find?_some hb
    rw [hb, s.eq_of_key_eq (List.mem_of_find?_eq_some hb) ha hk]

theorem get_eq_none {s : Keyed key} {k : κ} : s.get k = none ↔ k ∉ s.keys := by
  simp [get, mem_keys]

theorem isSome_get {s : Keyed key} {k : κ} : (s.get k).isSome ↔ k ∈ s.keys := by
  rw [← Option.ne_none_iff_isSome, Ne, get_eq_none, not_not]

theorem contains_iff {s : Keyed key} {k : κ} : s.contains k = true ↔ k ∈ s.keys := isSome_get

theorem contains_eq_false {s : Keyed key} {k : κ} : s.contains k = false ↔ k ∉ s.keys := by
  rw [← contains_iff, Bool.not_eq_true]

theorem key_of_get {s : Keyed key} {k : κ} {a : α} (h : s.get k = some a) : key a = k := (get_eq_some.mp h).2

theorem mem_of_get {s : Keyed key} {k : κ} {a : α} (h : s.get k = some a) : a ∈ s.items := (get_eq_some.mp h).1

theorem get_of_mem {s : Keyed key} {a : α} (h : a ∈ s.items) : s.get (key a) = some a := get_eq_some.mpr ⟨h, rfl⟩

/-- two lookups agree when they are of the same values -/
theorem get_congr {s t : Keyed key} {k k' : κ}
    (h : ∀ a, (a ∈ s.items ∧ key a = k) ↔ (a ∈ t.items ∧ key a = k')) : s.get k = t.get k' := by
  refine Option.ext fun a => ?_
  rw [get_eq_some, get_eq_some]
  exact h a

/-! ## What each operation answers -/

omit [DecidableEq κ] in
@[simp] theorem items_empty : (empty : Keyed key).items = [] := rfl

omit [DecidableEq κ] in
@[simp] theorem keys_empty : (empty : Keyed key).keys = [] := rfl

@[simp] theorem get_empty (k : κ) : (empty : Keyed key).get k = none := rfl

theorem items_insert_new {s : Keyed key} {a : α} (h : key a ∉ s.keys) : (s.insert a).items = s.items ++ [a] := by
  rw [insert, dif_neg h]

theorem mem_insert {s : Keyed key} {a b : α} :
    b ∈ (s.insert a).items ↔ b = a ∨ (b ∈ s.items ∧ key b ≠ key a) := by
  unfold insert
  split_ifs with h
  · obtain ⟨c, hc, hk⟩ := mem_keys.mp h
    simp only [put, List.mem_map]
    constructor
    · rintro ⟨d, hd, rfl⟩
      split_ifs with hda
      · exact Or.inl rfl
      · exact Or.inr ⟨hd, hda⟩
    · rintro (rfl | ⟨hb, hne⟩)
      · exact ⟨c, hc, if_pos hk⟩
      · exact ⟨b, hb, if_neg hne⟩
  · rw [List.mem_append, List.mem_singleton]
    constructor
    · rintro (hb | rfl)
      · exact Or.inr ⟨hb, fun hk => h (mem_keys.mpr ⟨b, hb, hk⟩)⟩
      · exact Or.inl rfl
    · rintro (rfl | ⟨hb, -⟩)
      · exact Or.inr rfl
      · exact Or.inl hb

theorem get_insert (s : Keyed key) (a : α) (k : κ) : (s.insert a).get k = if k = key a then some a else s.get k := by
  split_ifs with h
  · exact get_eq_some.mpr ⟨mem_insert.mpr (Or.inl rfl), h.symm⟩
  · refine get_congr fun b => ?_
    rw [mem_insert]
    constructor
    · rintro ⟨rfl | ⟨hb, -⟩, hk⟩
      · exact absurd hk.symm h
      · exact ⟨hb, hk⟩
    · rintro ⟨hb, rfl⟩
      exact ⟨Or.inr ⟨hb, h⟩, rfl⟩

theorem keys_insert_mem {s : Keyed key} {a : α} (h : key a ∈ s.keys) : (s.insert a).keys = s.keys := by
  rw [insert, dif_pos h]
  exact map_key_put a s.items

theorem keys_insert_new {s : Keyed key} {a : α} (h : key a ∉ s.keys) : (s.insert a).keys = s.keys ++ [key a] := by
  rw [keys, items_insert_new h, List.map_append, List.map_singleton]
  rfl

theorem mem_keys_insert {s : Keyed key} {a : α} {k : κ} : k ∈ (s.insert a).keys ↔ k = key a ∨ k ∈ s.keys := by
  rw [← isSome_get, get_insert]
  split_ifs with h
  · simp [h]
  · simp [h, isSome_get]

@[simp] theorem items_remove (s : Keyed key) (k : κ) : (s.remove k).items = s.items.filter fun a => key a ≠ k := rfl

theorem get_remove (s : Keyed key) (k k' : κ) : (s.remove k).get k' = if k' = k then none else s.get k' := by
  split_ifs with h
  · rw [get_eq_none, mem_keys]
    rintro ⟨a, ha, rfl⟩
    simp [h] at ha
  · refine get_congr fun a => ?_
    simp only [items_remove, List.mem_filter, decide_eq_true_eq]
    constructor
    · rintro ⟨⟨ha, -⟩, hk⟩
      exact ⟨ha, hk⟩
    · rintro ⟨ha, rfl⟩
      exact ⟨⟨ha, h⟩, rfl⟩

theorem keys_remove (s : Keyed key) (k : κ) : (s.remove k).keys = s.keys.filter fun k' => k' ≠ k := by
  simp only [keys, items_remove, List.filter_map]
  rfl

theorem mem_keys_remove {s : Keyed key} {k k' : κ} : k' ∈ (s.remove k).keys ↔ k' ∈ s.keys ∧ k' ≠ k := by
  simp [keys_remove]

variable {f : α → α} (keeps : ∀ a, key (f a) = key a)

@[simp] theorem items_modify (s : Keyed key) (k : κ) :
    (s.modify k f keeps).items = s.items.map fun a => if key a = k then f a else a := rfl

omit [DecidableEq κ] in
@[simp] theorem items_mapItems (s : Keyed key) : (s.mapItems f keeps).items = s.items.map f := rfl

omit [DecidableEq κ] in
@[simp] theorem keys_mapItems (s : Keyed key) : (s.mapItems f keeps).keys = s.keys := by
  simp only [keys, items_mapItems, List.map_map]
  exact List.map_congr_left fun a _ => keeps a

theorem get_mapItems (s : Keyed key) (k : κ) : (s.mapItems f keeps).get k = (s.get k).map f := by
  simp only [get, items_mapItems, List.find?_map]
  congr 2
  funext a
  simp only [Function.comp_apply, keeps]

@[simp] theorem keys_modify (s : Keyed key) (k : κ) : (s.modify k f keeps).keys = s.keys := by
  simp only [keys, items_modify, List.map_map]
  refine List.map_congr_left fun a _ => ?_
  simp only [Function.comp_apply]
  split_ifs with ha
  · exact keeps a
  · rfl

theorem get_modify (s : Keyed key) (k k' : κ) :
    (s.modify k f keeps).get k' = if k' = k then (s.get k').map f else s.get k' := by
  have key_ite (a : α) : key (if key a = k then f a else a) = key a := by
    split_ifs
    · exact keeps a
    · rfl
  have found : (s.modify k f keeps).get k' = (s.get k').map fun a => if key a = k then f a else a := by
    simp only [get, items_modify, List.find?_map]
    congr 2
    funext a
    simp only [Function.comp_apply, key_ite]
  rw [found]
  cases hg : s.get k' with
  | none => simp
  | some a =>
    have hk := key_of_get hg
    by_cases h : k' = k
    · simp [hk, h]
    · simp [hk, h]

/-! ## Extensionality -/

omit [DecidableEq κ] in
theorem ext_items {s t : Keyed key} (h : s.items = t.items) : s = t := by
  cases s
  cases t
  cases h
  rfl

/-- the values are the lookups of the keys, in order -/
theorem items_map_some (s : Keyed key) : s.items.map some = s.keys.map s.get := by
  rw [keys, List.map_map]
  exact List.map_congr_left fun a ha => (get_of_mem ha).symm

theorem ext_get {s t : Keyed key} (hk : s.keys = t.keys) (hg : ∀ k, s.get k = t.get k) : s = t := by
  have h : s.items.map some = t.items.map some := by
    rw [items_map_some, items_map_some, hk]
    exact List.map_congr_left fun k _ => hg k
  exact ext_items (List.map_injective_iff.mpr (Option.some_injective α) h)

/-! ## Collecting a list -/

theorem items_foldl_insert (l : List α) (s : Keyed key) (h : (s.keys ++ l.map key).Nodup) :
    (l.foldl insert s).items = s.items ++ l := by
  induction l generalizing s with
  | nil => simp
  | cons a l ih =>
    have hn : key a ∉ s.keys := by
      intro hm
      exact (List.nodup_append.mp h).2.2 _ hm _ (by simp) rfl
    rw [List.foldl_cons, ih, items_insert_new hn, List.append_assoc, List.singleton_append]
    rw [keys_insert_new hn, List.append_assoc]
    exact h

theorem items_ofItems (l : List α) (h : (l.map key).Nodup) : (ofItems l : Keyed key).items = l := by
  rw [ofItems, items_foldl_insert l empty h]
  rfl

@[simp] theorem ofItems_items (s : Keyed key) : ofItems s.items = s := ext_items (items_ofItems _ s.nodup)

end Keyed

end OnePipeline
