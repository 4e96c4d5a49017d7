/-
A ledger kept by stating differences: what began or changed is written under its name, and what ended is erased, judged
against a memory of what was said last.

The memory and the findings are maps; the ledger is a map by the spelling of a key. A new writer's memory is read back from
the ledger.

Results:
- `names_follow`: where the memory accounts for the ledger, the ledger afterwards names exactly what is found;
- `Follows.of_names`: a memory of what the ledger names accounts for it;
- `get_seed`, `seed_eq`: a memory read back from a ledger is what it names, where reading undoes spelling and writing;
- `begun_self`, `ended_self`: nothing is said where nothing changed.

Nothing in this file names the program.
-/
import OnePipeline.Core.Maps

namespace OnePipeline.Reported

open Std

variable {K β γ : Type} {cmp : K → K → Ordering} [TransCmp cmp] [LawfulEqCmp cmp] [DecidableEq K] [DecidableEq β]

/-! ## What is said -/

omit [LawfulEqCmp cmp] [DecidableEq K] in
/-- what began, or is not as it was said last -/
def begun (memory found : ExtTreeMap K β cmp) : ExtTreeMap K β cmp := found.filter fun k v => memory[k]? ≠ some v

omit [LawfulEqCmp cmp] [DecidableEq K] [DecidableEq β] in
/-- what was said and is not found -/
def ended (memory found : ExtTreeMap K β cmp) : ExtTreeMap K β cmp := memory.filter fun k _ => k ∉ found

omit [LawfulEqCmp cmp] [DecidableEq K] in
/-- the ledger once the differences are written, each under its key's spelling -/
def follow (spell : K → String) (write : β → γ) (ledger : ExtTreeMap String γ) (memory found : ExtTreeMap K β cmp) :
    ExtTreeMap String γ :=
  (ended memory found).toList.foldl (fun m p => m.erase (spell p.1))
    ((begun memory found).toList.foldl (fun m p => m.insert (spell p.1) (write p.2)) ledger)

omit [LawfulEqCmp cmp] [DecidableEq K] [DecidableEq β] in
/-- the memory a new writer reads back -/
def seed (read : String → γ → Option (K × β)) (ledger : ExtTreeMap String γ) : ExtTreeMap K β cmp :=
  Maps.insertAll ∅ (ledger.toList.filterMap fun p => read p.1 p.2)

variable {memory found said : ExtTreeMap K β cmp}

omit [DecidableEq K] in
theorem get_begun {k : K} {v : β} : (begun memory found)[k]? = some v ↔ found[k]? = some v ∧ memory[k]? ≠ some v := by
  rw [begun, ExtTreeMap.getElem?_filter', Option.filter_eq_some_iff, decide_eq_true_iff]

omit [DecidableEq K] [DecidableEq β] in
theorem get_ended {k : K} {v : β} : (ended memory found)[k]? = some v ↔ memory[k]? = some v ∧ found[k]? = none := by
  rw [ended, ExtTreeMap.getElem?_filter', Option.filter_eq_some_iff, decide_eq_true_iff, Maps.not_mem_iff]

/-! ## Nothing changed -/

omit [DecidableEq K] in
theorem begun_self : begun found found = ∅ := by
  refine ExtTreeMap.ext_getElem? fun k => Option.ext fun v => ?_
  rw [get_begun, ExtTreeMap.getElem?_empty]
  simp

omit [DecidableEq K] [DecidableEq β] in
theorem ended_self : ended found found = ∅ := by
  refine ExtTreeMap.ext_getElem? fun k => Option.ext fun v => ?_
  rw [get_ended, ExtTreeMap.getElem?_empty]
  constructor
  · rintro ⟨hsome, hnone⟩
    exact nomatch hsome.symm.trans hnone
  · nofun

/-! ## The ledger -/

section Ledger

variable (spell : K → String) (write : β → γ)

/-- the ledger names exactly what is found, each with what is written of it -/
def Names (ledger : ExtTreeMap String γ) (found : ExtTreeMap K β cmp) : Prop :=
  ∀ (name : String) (g : γ), ledger[name]? = some g ↔ ∃ k v, found[k]? = some v ∧ spell k = name ∧ write v = g

/-- no two keys found are spelled alike -/
def Apart (found : ExtTreeMap K β cmp) : Prop := ∀ k ∈ found, ∀ k' ∈ found, spell k = spell k' → k = k'

/-- the memory accounts for the ledger, as far as what is found asks -/
structure Follows (ledger : ExtTreeMap String γ) (memory found : ExtTreeMap K β cmp) : Prop where
  /-- what is found as it was said is written so -/
  same : ∀ k v, found[k]? = some v → memory[k]? = some v → ledger[spell k]? = some (write v)
  /-- a name the ledger holds and nothing found has is one the memory ends -/
  gone : ∀ name ∈ ledger, (∀ k ∈ found, spell k ≠ name) → ∃ k ∈ memory, k ∉ found ∧ spell k = name
  /-- what ends shares its spelling with nothing found -/
  apart : ∀ k ∈ memory, k ∉ found → ∀ k' ∈ found, spell k ≠ spell k'

variable {spell write} {ledger : ExtTreeMap String γ}

omit [TransCmp cmp] [LawfulEqCmp cmp] [DecidableEq K] [DecidableEq β] in
theorem get_foldl_erase (l : List (K × β)) (m : ExtTreeMap String γ) (name : String) :
    (l.foldl (fun m p => m.erase (spell p.1)) m)[name]? = if name ∈ l.map (fun p => spell p.1) then none else m[name]? := by
  induction l generalizing m with
  | nil => rfl
  | cons p l ih =>
    rw [List.foldl_cons, ih, Maps.get_erase]
    by_cases hname : name = spell p.1
    · simp [hname]
    · simp only [List.map_cons, List.mem_cons, hname, false_or, if_false]

omit [TransCmp cmp] [LawfulEqCmp cmp] [DecidableEq K] [DecidableEq β] in
theorem get_foldl_insert_of_not_mem (l : List (K × β)) (m : ExtTreeMap String γ) {name : String}
    (h : name ∉ l.map fun p => spell p.1) :
    (l.foldl (fun m p => m.insert (spell p.1) (write p.2)) m)[name]? = m[name]? := by
  induction l generalizing m with
  | nil => rfl
  | cons p l ih =>
    rw [List.map_cons, List.mem_cons, not_or] at h
    rw [List.foldl_cons, ih _ h.2, Maps.get_insert, if_neg h.1]

omit [DecidableEq K] [DecidableEq β] in
theorem mem_toList {p : K × β} : p ∈ found.toList ↔ found[p.1]? = some p.2 := ExtTreeMap.mem_toList_iff_getElem?_eq_some

omit [DecidableEq K] [DecidableEq β] in
theorem mem_names {name : String} : name ∈ found.toList.map (fun p => spell p.1) ↔ ∃ k ∈ found, spell k = name := by
  rw [List.mem_map]
  constructor
  · rintro ⟨p, hp, hname⟩
    exact ⟨p.1, Maps.mem_iff.mpr ⟨p.2, mem_toList.mp hp⟩, hname⟩
  · rintro ⟨k, hk, hname⟩
    obtain ⟨v, hv⟩ := Maps.mem_iff.mp hk
    exact ⟨(k, v), mem_toList.mpr hv, hname⟩

omit [DecidableEq K] [DecidableEq β] in
/-- keys spelled apart are spelled once each -/
theorem Apart.nodup (h : Apart spell found) : (found.toList.map fun p => spell p.1).Nodup := by
  have hdistinct : found.toList.Pairwise fun p q => p.1 ≠ q.1 := by
    refine ExtTreeMap.distinct_keys_toList.imp fun {p q} hne heq => hne ?_
    rw [heq]
    exact ReflCmp.compare_self
  rw [List.Nodup, List.pairwise_map]
  refine hdistinct.imp_of_mem fun {p q} hp hq hne heq => hne ?_
  exact h p.1 (Maps.mem_iff.mpr ⟨p.2, mem_toList.mp hp⟩) q.1 (Maps.mem_iff.mpr ⟨q.2, mem_toList.mp hq⟩) heq

omit [DecidableEq K] in
theorem mem_of_mem_begun {k : K} (h : k ∈ begun memory found) : k ∈ found := by
  obtain ⟨v, hv⟩ := Maps.mem_iff.mp h
  exact Maps.mem_iff.mpr ⟨v, (get_begun.mp hv).1⟩

omit [DecidableEq K] in
/-- **The differences written.** Where the memory accounts for the ledger, it names exactly what is found. -/
theorem names_follow (hapart : Apart spell found) (h : Follows spell write ledger memory found) :
    Names spell write (follow spell write ledger memory found) found := by
  have hone {k k' : K} {v v' : β} (hk : found[k]? = some v) (hk' : found[k']? = some v') (heq : spell k = spell k') :
      v = v' := by
    have hkey : k = k' := hapart k (Maps.mem_iff.mpr ⟨v, hk⟩) k' (Maps.mem_iff.mpr ⟨v', hk'⟩) heq
    rw [hkey] at hk
    exact Option.some.inj (hk.symm.trans hk')
  intro name g
  rw [follow, get_foldl_erase]
  split_ifs with hended
  · -- a name erased is no name found
    obtain ⟨k, hk, rfl⟩ := mem_names.mp hended
    obtain ⟨v, hv⟩ := Maps.mem_iff.mp hk
    obtain ⟨hmem, hnone⟩ := get_ended.mp hv
    refine iff_of_false nofun ?_
    rintro ⟨k', v', hk', heq, -⟩
    exact h.apart k (Maps.mem_iff.mpr ⟨v, hmem⟩) (Maps.not_mem_iff.mpr hnone) k' (Maps.mem_iff.mpr ⟨v', hk'⟩) heq.symm
  · by_cases hbegun : name ∈ (begun memory found).toList.map fun p => spell p.1
    · obtain ⟨p, hp, rfl⟩ := List.mem_map.mp hbegun
      have hsub : Apart spell (begun memory found) := fun k hk k' hk' =>
        hapart k (mem_of_mem_begun hk) k' (mem_of_mem_begun hk')
      rw [Maps.get_foldl_insert_by (fun p : K × β => spell p.1) (fun p => write p.2) hsub.nodup ledger hp,
        Option.some.injEq]
      have hfound : found[p.1]? = some p.2 := (get_begun.mp (mem_toList.mp hp)).1
      constructor
      · intro heq
        exact ⟨p.1, p.2, hfound, rfl, heq⟩
      · rintro ⟨k, v, hk, heq, rfl⟩
        rw [hone hk hfound heq]
    · rw [get_foldl_insert_of_not_mem _ _ hbegun]
      by_cases hname : ∃ k ∈ found, spell k = name
      · obtain ⟨k, hk, rfl⟩ := hname
        obtain ⟨v, hv⟩ := Maps.mem_iff.mp hk
        have hsaid : memory[k]? = some v := by
          by_contra hne
          exact hbegun (mem_names.mpr ⟨k, Maps.mem_iff.mpr ⟨v, get_begun.mpr ⟨hv, hne⟩⟩, rfl⟩)
        rw [h.same k v hv hsaid, Option.some.injEq]
        constructor
        · intro heq
          exact ⟨k, v, hv, rfl, heq⟩
        · rintro ⟨k', v', hk', heq, rfl⟩
          rw [hone hk' hv heq]
      · have hnone : ∀ k ∈ found, spell k ≠ name := fun k hk heq => hname ⟨k, hk, heq⟩
        refine iff_of_false (fun hget => ?_) fun ⟨k, v, hk, heq, _⟩ => hnone k (Maps.mem_iff.mpr ⟨v, hk⟩) heq
        obtain ⟨k, hk, hout, heq⟩ := h.gone name (Maps.mem_iff.mpr ⟨g, hget⟩) hnone
        obtain ⟨v, hv⟩ := Maps.mem_iff.mp hk
        exact hended (mem_names.mpr ⟨k, Maps.mem_iff.mpr ⟨v, get_ended.mpr ⟨hv, Maps.not_mem_iff.mp hout⟩⟩, heq⟩)

omit [LawfulEqCmp cmp] [DecidableEq K] [DecidableEq β] in
/-- a memory of what the ledger names accounts for it, where no key said is spelled as another found -/
theorem Follows.of_names (hnames : Names spell write ledger said)
    (hinj : ∀ k ∈ said, ∀ k' ∈ found, spell k = spell k' → k = k') : Follows spell write ledger said found where
  same k v _ hsaid := (hnames _ _).mpr ⟨k, v, hsaid, rfl, rfl⟩
  gone name hin hnone := by
    obtain ⟨g, hget⟩ := Maps.mem_iff.mp hin
    obtain ⟨k, v, hk, hname, -⟩ := (hnames name g).mp hget
    exact ⟨k, Maps.mem_iff.mpr ⟨v, hk⟩, fun hfound => hnone k hfound hname, hname⟩
  apart k hk hout k' hk' heq := hout (hinj k hk k' hk' heq ▸ hk')

omit [DecidableEq β] in
/-- a memory read back, where no two entries of the ledger read as one key -/
theorem get_seed {read : String → γ → Option (K × β)}
    (hone : ∀ name g name' g' (k : K) v v', ledger[name]? = some g → ledger[name']? = some g' →
      read name g = some (k, v) → read name' g' = some (k, v') → v = v') {k : K} {v : β} :
    (seed read ledger : ExtTreeMap K β cmp)[k]? = some v ↔ ∃ name g, ledger[name]? = some g ∧ read name g = some (k, v) := by
  have hmem (p : K × β) : p ∈ ledger.toList.filterMap (fun p => read p.1 p.2) ↔
      ∃ name g, ledger[name]? = some g ∧ read name g = some p := by
    rw [List.mem_filterMap]
    constructor
    · rintro ⟨⟨name, g⟩, hin, hp⟩
      exact ⟨name, g, ExtTreeMap.mem_toList_iff_getElem?_eq_some.mp hin, hp⟩
    · rintro ⟨name, g, hget, hp⟩
      exact ⟨(name, g), ExtTreeMap.mem_toList_iff_getElem?_eq_some.mpr hget, hp⟩
  have hin {w : β} (h : (seed read ledger : ExtTreeMap K β cmp)[k]? = some w) :
      ∃ name g, ledger[name]? = some g ∧ read name g = some (k, w) := by
    rcases Maps.mem_or_get_of_insertAll h with hin | hempty
    · exact (hmem _).mp hin
    · rw [ExtTreeMap.getElem?_empty] at hempty
      cases hempty
  refine ⟨hin, ?_⟩
  rintro ⟨name, g, hget, hread⟩
  have hkey : k ∈ (seed read ledger : ExtTreeMap K β cmp) := by
    refine (Maps.mem_foldl_insert_by Prod.fst Prod.snd _ ∅ k).mpr (.inr ?_)
    exact List.mem_map.mpr ⟨(k, v), (hmem _).mpr ⟨name, g, hget, hread⟩, rfl⟩
  obtain ⟨w, hw⟩ := Maps.mem_iff.mp hkey
  obtain ⟨name', g', hget', hread'⟩ := hin hw
  rw [hw, hone name g name' g' k v w hget hget' hread hread']

omit [DecidableEq β] in
/-- a memory read back is what the ledger names, where reading undoes the writing -/
theorem seed_eq {read : String → γ → Option (K × β)} (hnames : Names spell write ledger said)
    (hread : ∀ k v, said[k]? = some v → read (spell k) (write v) = some (k, v)) : seed read ledger = said := by
  have hback {name : String} {g : γ} {k : K} {v : β} (hget : ledger[name]? = some g) (hr : read name g = some (k, v)) :
      said[k]? = some v := by
    obtain ⟨k', v', hk', rfl, rfl⟩ := (hnames name g).mp hget
    obtain ⟨rfl, rfl⟩ := Prod.mk.inj (Option.some.inj ((hread k' v' hk').symm.trans hr))
    exact hk'
  refine ExtTreeMap.ext_getElem? fun k => Option.ext fun v => ?_
  rw [get_seed fun name g name' g' k v v' h h' hr hr' => Option.some.inj ((hback h hr).symm.trans (hback h' hr'))]
  constructor
  · rintro ⟨name, g, hget, hr⟩
    exact hback hget hr
  · intro hk
    exact ⟨spell k, write v, (hnames _ _).mpr ⟨k, v, hk, rfl, rfl⟩, hread k v hk⟩

end Ledger

end OnePipeline.Reported
