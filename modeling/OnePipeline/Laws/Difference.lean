/-
One targeted update makes an item say its rendering (`src/writeback.rs`: `difference`).

The edges of an item read by its own id are not known; an update names every one its rendering declares, so where it declares none the
item's are left as they are (`unread_edges_left`).

Results:
- `difference_ok`: what an update asks, field by field;
- `metadata_after`: the engine's keys of an item an update was applied to, and every other key of it;
- `update_carries`: the whole of it.
-/
import OnePipeline.Model.Difference

namespace OnePipeline.Writeback

open Checks

variable {V : Type}

/-! ## A board's items -/

/-- a destination item, as its store holds it: its edges by the items at their far ends -/
structure BoardItem (V : Type) where
  title : String
  content : String
  status : Status
  metadata : StrMap V
  delivers : List String
  edges : List String

/-- an item as the engine records it, of the edges it is known to have -/
def BoardItem.asLanded (sha256 : String → String) (item : BoardItem V) (destination : String) (dependsOn : List String) : LandedItem V where
  destination := destination
  title := item.title
  contentSha256 := sha256 item.content
  status := ProjectedStatus.ofWord item.status.name
  metadata := owned item.metadata
  owned _ h := isOwned_of_owned h
  delivers := item.delivers
  dependsOn := dependsOn

/-- what a store does of an update: each field it names is replaced, and no other -/
structure Applies (apply : TaskUpdate V → BoardItem V → BoardItem V) : Prop where
  title : ∀ u i, (apply u i).title = u.title.getD i.title
  content : ∀ u i, (apply u i).content = u.content.getD i.content
  status : ∀ u i, (apply u i).status = u.status.getD i.status
  metadata : ∀ u i (key : String), (apply u i).metadata[key]? =
    if key ∈ u.metadataRemove then none else u.metadataSet[key]?.or i.metadata[key]?
  delivers : ∀ u i, (apply u i).delivers = u.delivers.getD i.delivers
  edges : ∀ u i e, e ∈ (apply u i).edges ↔
    match u.dependsOn with
    | some edges => e ∈ edges.map DependencyEdge.to
    | none => e ∈ i.edges

/-- one item under one update -/
def BoardItem.updated (update : TaskUpdate V) (item : BoardItem V) : BoardItem V where
  title := update.title.getD item.title
  content := update.content.getD item.content
  status := update.status.getD item.status
  metadata := (Maps.insertAll item.metadata update.metadataSet.toList).filter fun key _ => key ∉ update.metadataRemove
  delivers := update.delivers.getD item.delivers
  edges :=
    match update.dependsOn with
    | some edges => edges.map DependencyEdge.to
    | none => item.edges

theorem updated_applies : Applies (BoardItem.updated (V := V)) where
  title _ _ := rfl
  content _ _ := rfl
  status _ _ := rfl
  metadata u i key := by
    show ((Maps.insertAll i.metadata u.metadataSet.toList).filter fun key _ => key ∉ u.metadataRemove)[key]? = _
    rw [Std.ExtTreeMap.getElem?_filter', Maps.get_insertAll]
    split_ifs with hremove
    · exact Option.filter_eq_none_iff.mpr fun _ _ h => of_decide_eq_true h hremove
    · cases u.metadataSet[key]?.or i.metadata[key]? with
      | none => rfl
      | some value => exact Option.filter_eq_some_iff.mpr ⟨rfl, decide_eq_true hremove⟩
  delivers _ _ := rfl
  edges u i e := by
    rw [BoardItem.updated]
    cases u.dependsOn <;> rfl

section

variable {sha256 : String → String} {names : BoardNames} {held : HeldItem V} {now : Rendering V sha256} {ends : StrMap String}
  {update : TaskUpdate V} {place : String → String}

theorem mapM_edgeOnto {id : String} {fars : List String} {edges : List DependencyEdge}
    (h : fars.mapM (edgeOnto names id ends) = .ok edges) (hplace : ∀ far ∈ fars, ends[far]? = some (place far)) :
    edges.map DependencyEdge.to = fars.map place := by
  induction fars generalizing edges with
  | nil =>
    cases h
    rfl
  | cons far fars ih =>
    simp only [List.mapM_cons, bind_eq_ok, pure_eq_ok] at h
    obtain ⟨edge, hedge, rest, hrest, rfl⟩ := h
    have hto : edge.to = place far := by
      rw [edgeOnto, hplace far List.mem_cons_self] at hedge
      simp only [] at hedge
      cases hend : names.endpoint (place far) with
      | some why => simp [hend] at hedge
      | none =>
        simp only [hend, Except.ok.injEq] at hedge
        rw [← hedge]
    rw [List.map_cons, List.map_cons, hto, ih hrest fun far hfar => hplace far (List.mem_cons_of_mem _ hfar)]

variable [DecidableEq V]

/-- what an update asks of an item, field by field -/
structure Asked (held : HeldItem V) (now : Rendering V sha256) (place : String → String) (update : TaskUpdate V) : Prop where
  title : update.title = if held.item.title ≠ now.item.title then some now.item.title else none
  content : update.content = if held.item.contentSha256 ≠ now.item.contentSha256 then some now.content else none
  status : update.status = if held.item.status ≠ now.item.status then now.item.status.map ProjectedStatus.status else none
  metadataSet : update.metadataSet = Writeback.metadataSet held.item now.item
  metadataRemove : update.metadataRemove = Writeback.metadataRemove held.item now.item
  delivers : update.delivers = if held.item.delivers ≠ now.item.delivers then some now.item.delivers else none
  dependsOn : if edgesMoved held now.item then ∃ edges, update.dependsOn = some edges ∧
    edges.map DependencyEdge.to = now.item.dependsOn.map place else update.dependsOn = none

theorem difference_ok (h : difference names held now ends = .ok update)
    (hplace : ∀ far ∈ now.item.dependsOn, ends[far]? = some (place far)) : Asked held now place update := by
  unfold difference at h
  simp only [bind_eq_ok, pure_eq_ok] at h
  obtain ⟨-, -, -, -, delivers, hdelivers, dependsOn, hdependsOn, rfl⟩ := h
  refine ⟨rfl, rfl, rfl, rfl, rfl, ?_, ?_⟩
  · show delivers = _
    unfold deliversNamed at hdelivers
    split_ifs at hdelivers ⊢ with hdiffer
    · obtain ⟨-, -, heq⟩ := map_eq_ok.mp hdelivers
      exact heq.symm
    · exact (Except.ok.inj hdelivers).symm
  · show if edgesMoved held now.item then ∃ edges, dependsOn = some edges ∧ _ else dependsOn = none
    unfold edgesNamed at hdependsOn
    split_ifs at hdependsOn ⊢ with hmoved
    · obtain ⟨edges, hedges, heq⟩ := map_eq_ok.mp hdependsOn
      exact ⟨edges, heq.symm, mapM_edgeOnto hedges hplace⟩
    · exact (Except.ok.inj hdependsOn).symm

theorem get_metadataSet (was is : LandedItem V) (key : String) :
    (Writeback.metadataSet was is)[key]? = is.metadata[key]?.filter fun value => was.metadata[key]? ≠ some value := by
  rw [Writeback.metadataSet, Std.ExtTreeMap.getElem?_filter']

omit [DecidableEq V] in
theorem mem_metadataRemove (was is : LandedItem V) (key : String) :
    key ∈ Writeback.metadataRemove was is ↔ key ∈ was.metadata ∧ key ∉ is.metadata := by
  rw [Writeback.metadataRemove, List.mem_filter, Std.ExtTreeMap.mem_keys, decide_eq_true_eq]

/-- **Metadata.** After an update an item's keys are its rendering's where they are the engine's, and its own elsewhere. -/
theorem metadata_after {apply : TaskUpdate V → BoardItem V → BoardItem V} (happly : Applies apply) (h : Asked held now place update)
    {item : BoardItem V} (hitem : owned item.metadata = held.item.metadata) (key : String) :
    (apply update item).metadata[key]? = if isOwned key then now.item.metadata[key]? else item.metadata[key]? := by
  rw [happly.metadata, h.metadataSet, h.metadataRemove, get_metadataSet]
  have hheld : held.item.metadata[key]? = item.metadata[key]?.filter fun _ => isOwned key := by
    rw [← hitem, owned, Std.ExtTreeMap.getElem?_filter']
  cases hours : isOwned key with
  | false =>
    have hwas : key ∉ held.item.metadata := fun hin => Bool.false_ne_true (hours.symm.trans (held.item.owned key hin))
    have his : key ∉ now.item.metadata := fun hin => Bool.false_ne_true (hours.symm.trans (now.item.owned key hin))
    rw [if_neg fun hin => hwas ((mem_metadataRemove ..).mp hin).1, Maps.not_mem_iff.mp his]
    simp
  | true =>
    have hsame : held.item.metadata[key]? = item.metadata[key]? := by
      rw [hheld, hours]
      cases item.metadata[key]? <;> rfl
    rw [if_pos rfl]
    cases hnow : now.item.metadata[key]? with
    | none =>
      have his : key ∉ now.item.metadata := Maps.not_mem_iff.mpr hnow
      by_cases hwas : key ∈ held.item.metadata
      · rw [if_pos ((mem_metadataRemove ..).mpr ⟨hwas, his⟩)]
      · rw [if_neg fun hin => hwas ((mem_metadataRemove ..).mp hin).1, ← hsame, Maps.not_mem_iff.mp hwas]
        rfl
    | some value =>
      have his : key ∈ now.item.metadata := Maps.mem_iff.mpr ⟨value, hnow⟩
      rw [if_neg fun hin => ((mem_metadataRemove ..).mp hin).2 his, hsame]
      by_cases hvalue : item.metadata[key]? = some value
      · simp [hvalue, Option.filter]
      · simp [Option.filter, hvalue]

end

/-! ## What an update carries -/

section

variable (sha256 : String → String) (place : String → String)

/-- an item whose owned fields are the held ones, its edges too where they are known -/
structure HeldAs [DecidableEq V] (held : HeldItem V) (item : BoardItem V) : Prop where
  said : (item.asLanded sha256 held.id held.item.dependsOn).saysWhat held.item = true
  edges : held.edges = .landed → ∀ e, e ∈ item.edges ↔ e ∈ held.item.dependsOn.map place

/-- a rendering's field an update names is one the held item differs in -/
structure NamesOnlyChanges (held : HeldItem V) (now : Rendering V sha256) (update : TaskUpdate V) : Prop where
  title : update.title.isSome → held.item.title ≠ now.item.title
  content : update.content.isSome → held.item.contentSha256 ≠ now.item.contentSha256
  status : update.status.isSome → held.item.status ≠ now.item.status
  metadata : ∀ key, key ∈ update.metadataSet ∨ key ∈ update.metadataRemove → held.item.metadata[key]? ≠ now.item.metadata[key]?
  delivers : update.delivers.isSome → held.item.delivers ≠ now.item.delivers
  dependsOn : held.edges = .landed → update.dependsOn.isSome → held.item.dependsOn.toFinset ≠ now.item.dependsOn.toFinset

end

section

variable [DecidableEq V] {sha256 : String → String} {names : BoardNames} {held : HeldItem V} {now : Rendering V sha256}
  {ends : StrMap String} {update : TaskUpdate V} {place : String → String} {apply : TaskUpdate V → BoardItem V → BoardItem V}
  {item : BoardItem V}

theorem saysWhat_iff {item other : LandedItem V} : item.saysWhat other = true ↔
    item.title = other.title ∧ item.contentSha256 = other.contentSha256 ∧ item.status = other.status ∧
      item.metadata = other.metadata ∧ item.delivers = other.delivers ∧ item.dependsOn = other.dependsOn := by
  simp [LandedItem.saysWhat, and_assoc]

theorem says_after (happly : Applies apply) (h : Asked held now place update) (hitem : HeldAs sha256 place held item) :
    ((apply update item).asLanded sha256 held.id now.item.dependsOn).saysWhat now.item = true := by
  obtain ⟨htitle, hcontent, hstatus, hmetadata, hdelivers, -⟩ := saysWhat_iff.mp hitem.said
  refine saysWhat_iff.mpr ⟨?_, ?_, ?_, ?_, ?_, rfl⟩
  · show (apply update item).title = _
    rw [happly.title, h.title]
    split_ifs with hdiffer
    · rfl
    · exact htitle.trans (not_not.mp hdiffer)
  · show sha256 (apply update item).content = _
    rw [happly.content, h.content]
    split_ifs with hdiffer
    · exact now.digest.symm
    · exact hcontent.trans (not_not.mp hdiffer)
  · show ProjectedStatus.ofWord (apply update item).status.name = _
    rw [happly.status, h.status]
    split_ifs with hdiffer
    · obtain ⟨word, hword⟩ := Option.isSome_iff_exists.mp now.stated
      rw [hword]
      exact ProjectedStatus.ofWord_word word
    · exact hstatus.trans (not_not.mp hdiffer)
  · show owned (apply update item).metadata = _
    refine Std.ExtTreeMap.ext_getElem? fun key => ?_
    rw [owned, Std.ExtTreeMap.getElem?_filter', metadata_after happly h hmetadata]
    cases hours : isOwned key with
    | true =>
      rw [if_pos rfl]
      cases now.item.metadata[key]? <;> rfl
    | false =>
      have his : key ∉ now.item.metadata := fun hin => Bool.false_ne_true (hours.symm.trans (now.item.owned key hin))
      rw [Maps.not_mem_iff.mp his]
      cases item.metadata[key]? <;> rfl
  · show (apply update item).delivers = _
    rw [happly.delivers, h.delivers]
    split_ifs with hdiffer
    · rfl
    · exact hdelivers.trans (not_not.mp hdiffer)

omit [DecidableEq V] in
theorem edgesMoved_unread (hunread : held.edges = .unread) : edgesMoved held now.item = !now.item.dependsOn.isEmpty := by
  rw [edgesMoved, hunread]

omit [DecidableEq V] in
theorem edgesMoved_landed (hlanded : held.edges = .landed) :
    edgesMoved held now.item = true ↔ held.item.dependsOn.toFinset ≠ now.item.dependsOn.toFinset := by
  rw [edgesMoved, hlanded]
  exact decide_eq_true_iff

/-- after an update an item's edges are its rendering's, save where they are not known and it declares none -/
theorem edges_after (happly : Applies apply) (h : Asked held now place update) (hitem : HeldAs sha256 place held item) (e : String) :
    e ∈ (apply update item).edges ↔
      if held.edges = .unread ∧ now.item.dependsOn = [] then e ∈ item.edges else e ∈ now.item.dependsOn.map place := by
  have hdepends := h.dependsOn
  rw [happly.edges]
  by_cases hmoved : edgesMoved held now.item = true
  · rw [if_pos hmoved] at hdepends
    obtain ⟨edges, hedges, hto⟩ := hdepends
    have hnames : ¬(held.edges = .unread ∧ now.item.dependsOn = []) := by
      rintro ⟨hunread, hnone⟩
      rw [edgesMoved_unread hunread, hnone] at hmoved
      exact Bool.false_ne_true hmoved
    rw [if_neg hnames, hedges, ← hto]
  · rw [if_neg hmoved] at hdepends
    rw [hdepends]
    cases hwhere : held.edges with
    | unread =>
      rw [edgesMoved_unread hwhere] at hmoved
      have hnone : now.item.dependsOn = [] := by simpa using hmoved
      rw [if_pos ⟨rfl, hnone⟩]
    | landed =>
      have hset : held.item.dependsOn.toFinset = now.item.dependsOn.toFinset := by
        by_contra hne
        exact hmoved ((edgesMoved_landed hwhere).mpr hne)
      rw [if_neg fun hunread => nomatch hunread.1]
      refine (hitem.edges hwhere e).trans ?_
      rw [List.mem_map, List.mem_map]
      exact exists_congr fun far => and_congr_left' (by rw [← List.mem_toFinset, hset, List.mem_toFinset])

theorem names_only_changes (h : Asked held now place update) : NamesOnlyChanges sha256 held now update where
  title hnamed hsame := by
    rw [h.title, if_neg (not_not.mpr hsame)] at hnamed
    exact Bool.false_ne_true hnamed
  content hnamed hsame := by
    rw [h.content, if_neg (not_not.mpr hsame)] at hnamed
    exact Bool.false_ne_true hnamed
  status hnamed hsame := by
    rw [h.status, if_neg (not_not.mpr hsame)] at hnamed
    exact Bool.false_ne_true hnamed
  metadata key hnamed hsame := by
    rw [h.metadataSet, h.metadataRemove] at hnamed
    obtain hset | hremove := hnamed
    · obtain ⟨value, hvalue⟩ := Maps.mem_iff.mp hset
      rw [get_metadataSet, Option.filter_eq_some_iff] at hvalue
      exact of_decide_eq_true hvalue.2 (hsame.trans hvalue.1)
    · obtain ⟨hwas, his⟩ := (mem_metadataRemove ..).mp hremove
      exact his (Maps.mem_iff.mpr ((Maps.mem_iff.mp hwas).imp fun _ hvalue => hsame.symm.trans hvalue))
  delivers hnamed hsame := by
    rw [h.delivers, if_neg (not_not.mpr hsame)] at hnamed
    exact Bool.false_ne_true hnamed
  dependsOn hlanded hnamed hsame := by
    have hdepends := h.dependsOn
    rw [if_neg fun hmoved => (edgesMoved_landed hlanded).mp hmoved hsame] at hdepends
    rw [hdepends] at hnamed
    exact Bool.false_ne_true hnamed

/-- only the engine's keys are named -/
theorem isOwned_of_named (h : Asked held now place update) {key : String}
    (hnamed : key ∈ update.metadataSet ∨ key ∈ update.metadataRemove) : isOwned key = true := by
  rw [h.metadataSet, h.metadataRemove] at hnamed
  obtain hset | hremove := hnamed
  · obtain ⟨value, hvalue⟩ := Maps.mem_iff.mp hset
    rw [get_metadataSet, Option.filter_eq_some_iff] at hvalue
    exact now.item.owned key (Maps.mem_iff.mpr ⟨value, hvalue.1⟩)
  · exact held.item.owned key ((mem_metadataRemove ..).mp hremove).1

theorem metadata_unasked (was is : LandedItem V) :
    (Writeback.metadataSet was is = ∅ ∧ Writeback.metadataRemove was is = []) ↔ was.metadata = is.metadata := by
  constructor
  · rintro ⟨hset, hremove⟩
    refine Std.ExtTreeMap.ext_getElem? fun key => ?_
    cases his : is.metadata[key]? with
    | none =>
      refine Maps.not_mem_iff.mp fun hwas => ?_
      have hmem := (mem_metadataRemove was is key).mpr ⟨hwas, Maps.not_mem_iff.mpr his⟩
      rw [hremove] at hmem
      exact List.not_mem_nil hmem
    | some value =>
      by_contra hne
      have hget := get_metadataSet was is key
      rw [hset, his, Std.ExtTreeMap.getElem?_empty] at hget
      exact Option.filter_eq_none_iff.mp hget.symm value rfl (decide_eq_true hne)
  · intro hsame
    constructor
    · refine Std.ExtTreeMap.ext_getElem? fun key => ?_
      rw [get_metadataSet, hsame, Std.ExtTreeMap.getElem?_empty, Option.filter_eq_none_iff]
      intro value hvalue hdiffer
      exact of_decide_eq_true hdiffer hvalue
    · refine List.eq_nil_iff_forall_not_mem.mpr fun key hmem => ?_
      obtain ⟨hwas, his⟩ := (mem_metadataRemove ..).mp hmem
      exact his (hsame ▸ hwas)

/-- a field is left alone exactly where it is not asked for -/
theorem unasked_iff {α : Type} {p : Prop} [Decidable p] {asked : α} : (if p then some asked else none) = none ↔ ¬p := by
  split_ifs with h
  · exact iff_of_false nofun (not_not.mpr h)
  · exact iff_of_true rfl h

/-- an update of a held baseline item asks for nothing exactly where the two agree, up to the order of edges -/
theorem isEmpty_iff_of_landed (h : Asked held now place update) (hlanded : held.edges = .landed) :
    update.isEmpty = true ↔
      held.item.saysWhat { now.item with dependsOn := held.item.dependsOn } = true ∧
        held.item.dependsOn.toFinset = now.item.dependsOn.toFinset := by
  obtain ⟨word, hword⟩ := Option.isSome_iff_exists.mp now.stated
  have hmetadata := metadata_unasked held.item now.item
  have hdepends : update.dependsOn = none ↔ held.item.dependsOn.toFinset = now.item.dependsOn.toFinset := by
    have hasked := h.dependsOn
    by_cases hset : held.item.dependsOn.toFinset = now.item.dependsOn.toFinset
    · rw [if_neg fun hmoved => (edgesMoved_landed hlanded).mp hmoved hset] at hasked
      exact iff_of_true hasked hset
    · rw [if_pos ((edgesMoved_landed hlanded).mpr hset)] at hasked
      obtain ⟨edges, hedges, -⟩ := hasked
      exact iff_of_false (fun hnone => nomatch hedges.symm.trans hnone) hset
  have htitle : update.title = none ↔ held.item.title = now.item.title := by
    rw [h.title, unasked_iff, not_not]
  have hcontent : update.content = none ↔ held.item.contentSha256 = now.item.contentSha256 := by
    rw [h.content, unasked_iff, not_not]
  have hstatus : update.status = none ↔ held.item.status = now.item.status := by
    rw [h.status, hword, Option.map_some, unasked_iff, not_not]
  have hdelivers : update.delivers = none ↔ held.item.delivers = now.item.delivers := by
    rw [h.delivers, unasked_iff, not_not]
  rw [saysWhat_iff, TaskUpdate.isEmpty, h.metadataSet, h.metadataRemove]
  simp only [Bool.and_eq_true, Option.isNone_iff_eq_none, Std.ExtTreeMap.isEmpty_iff, List.isEmpty_iff, htitle, hcontent, hstatus,
    hdelivers, hdepends, ← hmetadata, and_assoc, and_true]

/-- **One update.** An item an update is applied to says its rendering, its edges as a set, save an item read with its edges unknown whose
rendering declares none, which keeps the edges it has. The update names no field that is already the rendering's, nor a key that is not the
engine's; of a baseline's item it is empty exactly where nothing differs. -/
theorem update_carries (happly : Applies apply) (h : difference names held now ends = .ok update)
    (hplace : ∀ far ∈ now.item.dependsOn, ends[far]? = some (place far)) (hitem : HeldAs sha256 place held item) :
    ((apply update item).asLanded sha256 held.id now.item.dependsOn).saysWhat now.item = true ∧
      (∀ e, e ∈ (apply update item).edges ↔
        if held.edges = .unread ∧ now.item.dependsOn = [] then e ∈ item.edges else e ∈ now.item.dependsOn.map place) ∧
      NamesOnlyChanges sha256 held now update ∧
      (∀ key, key ∈ update.metadataSet ∨ key ∈ update.metadataRemove → isOwned key = true) ∧
      (∀ key, isOwned key = false → (apply update item).metadata[key]? = item.metadata[key]?) ∧
      (held.edges = .landed → (update.isEmpty = true ↔
        held.item.saysWhat { now.item with dependsOn := held.item.dependsOn } = true ∧
          held.item.dependsOn.toFinset = now.item.dependsOn.toFinset)) := by
  have hasked := difference_ok h hplace
  refine ⟨says_after happly hasked hitem, edges_after happly hasked hitem, names_only_changes hasked, fun key => isOwned_of_named hasked,
    fun key hours => ?_, isEmpty_iff_of_landed hasked⟩
  rw [metadata_after happly hasked (saysWhat_iff.mp hitem.said).2.2.2.1, hours]
  rfl

end

/-! ## An item read with its edges unknown -/

/-- an item of one edge, and a store that takes every name -/
def heldTask : BoardItem String where
  title := "Add the cache"
  content := "## Acceptance criteria"
  status := ProjectedStatus.status .queued
  metadata := (∅ : StrMap String).insert "onepipeline.node" "cache"
  delivers := []
  edges := ["board:1"]

def openNames : BoardNames where
  key _ := none
  ticket _ := none
  endpoint _ := none

/-- what was held of the item before the edit, of the edges known or not -/
def heldBefore (edges : Edges) (dependsOn : List String) : HeldItem String :=
  ⟨"board:2", heldTask.asLanded id "board:2" dependsOn, edges⟩

/-- the node's rendering after its title is edited and its dependency dropped or kept -/
def renderedNode (dependsOn : List String) : Rendering String id where
  item :=
    { heldTask.asLanded id "" dependsOn with
      title := "Add the store cache"
      status := some .done }
  content := heldTask.content
  digest := rfl
  stated := rfl

def boardEnds : StrMap String := (∅ : StrMap String).insert "root" "board:1"

theorem heldTask_said (edges : Edges) (dependsOn : List String) :
    (heldTask.asLanded id "board:2" dependsOn).saysWhat (heldBefore edges dependsOn).item = true :=
  saysWhat_iff.mpr ⟨rfl, rfl, rfl, rfl, rfl, rfl⟩

theorem update_carries_title : ∃ update,
    difference openNames (heldBefore .landed ["root"]) (renderedNode ["root"]) boardEnds = .ok update ∧
      ((heldTask.updated update).asLanded id "board:2" ["root"]).saysWhat (renderedNode ["root"]).item = true ∧
      update.isEmpty = false ∧ "board:1" ∈ (heldTask.updated update).edges := by
  have hok : (difference openNames (heldBefore .landed ["root"]) (renderedNode ["root"]) boardEnds).toBool = true := by decide +kernel
  cases h : difference openNames (heldBefore .landed ["root"]) (renderedNode ["root"]) boardEnds with
  | error why => simp [h, Except.toBool] at hok
  | ok update =>
    have hplace : ∀ far ∈ (renderedNode ["root"]).item.dependsOn, boardEnds[far]? = some ((fun _ => "board:1") far) := by
      intro far hfar
      rw [List.mem_singleton.mp hfar]
      decide
    have hheld : HeldAs id (fun _ => "board:1") (heldBefore .landed ["root"]) heldTask :=
      ⟨heldTask_said .landed ["root"], fun _ e => by simp [heldTask, heldBefore, BoardItem.asLanded]⟩
    obtain ⟨hsaid, hedges, -, -, -, hempty⟩ := update_carries updated_applies h hplace hheld
    refine ⟨update, rfl, hsaid, ?_, ?_⟩
    · have hdiffer : ¬update.isEmpty = true := by
        rw [hempty rfl]
        rintro ⟨hsame, -⟩
        exact absurd (saysWhat_iff.mp hsame).1 (by decide)
      exact Bool.eq_false_iff.mpr hdiffer
    · rw [hedges, if_neg (fun hunread => nomatch hunread.1)]
      exact List.mem_singleton_self _

/-- an item's edge outlives an update onto a rendering of none, where the read did not answer its edges -/
theorem unread_edges_left : ∃ update,
    difference openNames (heldBefore .unread []) (renderedNode []) boardEnds = .ok update ∧
      HeldAs id (fun _ => "board:1") (heldBefore .unread []) heldTask ∧ (renderedNode []).item.dependsOn = [] ∧
      (heldTask.updated update).edges = ["board:1"] := by
  have hok : (difference openNames (heldBefore .unread []) (renderedNode []) boardEnds).toBool = true := by decide +kernel
  have hheld : HeldAs id (fun _ => "board:1") (heldBefore .unread []) heldTask :=
    ⟨heldTask_said .unread [], fun hlanded => nomatch hlanded⟩
  cases h : difference openNames (heldBefore .unread []) (renderedNode []) boardEnds with
  | error why => simp [h, Except.toBool] at hok
  | ok update =>
    have hasked : Asked _ _ (fun _ => "board:1") update := difference_ok h fun far hfar => nomatch hfar
    have hnone : update.dependsOn = none := hasked.dependsOn
    exact ⟨update, rfl, hheld, rfl, by rw [BoardItem.updated, hnone]; rfl⟩

end OnePipeline.Writeback
