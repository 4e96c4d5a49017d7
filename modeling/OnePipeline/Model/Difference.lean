/-
The targeted update that makes a board item say what its lineage renders (`src/writeback.rs`: `LandedItem`, `Rendering`, `difference`).

A metadata value is of any type that can be compared. The digest, and what the store's own names refuse, are given.
-/
import Mathlib.Tactic
import OnePipeline.Core.Checks
import OnePipeline.Core.Maps
import OnePipeline.Core.Text
import OnePipeline.Model.Writeback

namespace OnePipeline.Writeback

open Checks

/-! ## Words -/

/-- the word one node's state is written as -/
inductive ProjectedStatus where
  | inProgress
  | done
  | failed
  | providerFailed
  | cancelled
  | parked
  | skipped
  | todo
  | queued
deriving DecidableEq, Repr

/-- a status's normalised category -/
inductive StatusCategory where
  | todo
  | queued
  | inProgress
  | done
  | cancelled
  | unknown
deriving DecidableEq, Repr

structure Status where
  category : StatusCategory
  name : String
deriving DecidableEq, Repr

namespace ProjectedStatus

def word : ProjectedStatus → String
  | inProgress => "in progress"
  | done => "done"
  | failed => "failed"
  | providerFailed => "provider-failed"
  | cancelled => "cancelled"
  | parked => "parked"
  | skipped => "skipped"
  | todo => "todo"
  | queued => "queued"

def all : List ProjectedStatus := [inProgress, done, failed, providerFailed, cancelled, parked, skipped, todo, queued]

/-- the word a board's status holds, where it is one this engine writes -/
def ofWord (name : String) : Option ProjectedStatus := all.find? fun status => status.word = name

theorem ofWord_word (status : ProjectedStatus) : ofWord status.word = some status := by
  cases status <;> decide

/-- the status a targeted update writes the word as -/
def status (word : ProjectedStatus) : Status where
  category :=
    match word with
    | inProgress => .inProgress
    | done => .done
    | cancelled => .cancelled
    | todo => .todo
    | queued => .queued
    | failed | providerFailed | parked | skipped => .unknown
  name := word.word

end ProjectedStatus

/-! ## An item as it landed, and as it renders -/

/-- whether a metadata key is the engine's -/
def isOwned (key : String) : Bool := Text.startsWith "onepipeline.".toList key.toList

section

variable (V : Type)

/-- one lineage as it last landed; its metadata holds the engine's keys only -/
structure LandedItem where
  destination : String
  title : String
  contentSha256 : String
  status : Option ProjectedStatus
  metadata : StrMap V
  owned : ∀ key ∈ metadata, isOwned key = true
  delivers : List String
  /-- the lineage roots the item depends on -/
  dependsOn : List String

/-- one lineage as the snapshot alone renders it -/
structure Rendering (sha256 : String → String) where
  item : LandedItem V
  content : String
  digest : item.contentSha256 = sha256 content
  stated : item.status.isSome

/-- where what the run knows of an item's dependency edges came from -/
inductive Edges where
  | landed
  | unread
deriving DecidableEq

structure HeldItem where
  id : String
  item : LandedItem V
  edges : Edges

/-- what `task_document` answers of a lineage: its title, where it states one, its metadata and its body -/
structure Document where
  title : Option String
  metadata : StrMap V
  content : String

/-- a blocking edge, from one item to another -/
structure DependencyEdge where
  «from» : String
  «to» : String
deriving DecidableEq

/-- the fields a store is asked to change -/
structure TaskUpdate where
  title : Option String := none
  content : Option String := none
  status : Option Status := none
  metadataSet : StrMap V := ∅
  metadataRemove : List String := []
  delivers : Option (List String) := none
  dependsOn : Option (List DependencyEdge) := none

end

/-- what the store's own types refuse of a metadata key, a ticket and an edge's end -/
structure BoardNames where
  key : String → Option String
  ticket : String → Option String
  endpoint : String → Option String

section

variable {V : Type}

/-- the keys of a metadata map this engine owns, and no other -/
def owned (metadata : StrMap V) : StrMap V := metadata.filter fun key _ => isOwned key

theorem isOwned_of_owned {metadata : StrMap V} {key : String} (h : key ∈ owned metadata) : isOwned key = true := by
  obtain ⟨v, hv⟩ := Maps.mem_iff.mp h
  rw [owned, Std.ExtTreeMap.getElem?_filter', Option.filter_eq_some_iff] at hv
  exact hv.2

namespace LandedItem

/-- whether this says on the board what another would: every field but where it is -/
def saysWhat [DecidableEq V] (item other : LandedItem V) : Bool :=
  item.title = other.title && item.contentSha256 = other.contentSha256 && item.status = other.status &&
    decide (item.metadata = other.metadata) && item.delivers = other.delivers && item.dependsOn = other.dependsOn

def landedAt (item : LandedItem V) (destination : String) : LandedItem V := { item with destination }

end LandedItem

/-- one lineage rendered, of what its document says -/
def Rendering.of (sha256 : String → String) (snapshot : Snapshot) (lineages : Lineages) (wordOf : String → ProjectedStatus)
    (document : String → Except String (Document V)) (root : String) : Except String (Rendering V sha256) := do
  let document ← document root
  let head ← need (lineages.chains[root]?.bind List.getLast?) s!"no lineage is rooted at '{root}'"
  let node ← need snapshot.nodes[head]? s!"the snapshot holds no node '{head}'"
  pure
    { item :=
        { destination := ""
          title := document.title.getD ""
          contentSha256 := sha256 document.content
          status := some (wordOf head)
          metadata := owned document.metadata
          owned := fun _ => isOwned_of_owned
          delivers := node.delivers
          dependsOn := (node.deps.filter fun dep => !isCrossDag dep).map lineages.rootOf }
      content := document.content
      digest := rfl
      stated := rfl }

/-! ## The difference -/

/-- each of a list of names, refused with the first the store's own type refuses -/
def named (refuses : String → Option String) (what : String) (names : List String) : Except String Unit :=
  each (fun name => match refuses name with | some why => .error s!"{what} '{name}': {why}" | none => .ok ()) names

/-- an edge of an item, onto where a lineage's item is -/
def edgeOnto (names : BoardNames) (id : String) (ends : StrMap String) (far : String) : Except String DependencyEdge :=
  match ends[far]? with
  | none => .error s!"the edge onto '{far}' names a lineage with no item on the board yet"
  | some «end» =>
    match names.endpoint «end» with
    | some why => .error why
    | none => .ok { «from» := id, «to» := «end» }

variable [DecidableEq V] {sha256 : String → String}

/-- the keys of a rendering whose value an item does not hold, with it -/
def metadataSet (was is : LandedItem V) : StrMap V := is.metadata.filter fun key value => was.metadata[key]? ≠ some value

omit [DecidableEq V] in
/-- the keys of an item its rendering does not hold -/
def metadataRemove (was is : LandedItem V) : List String := was.metadata.keys.filter fun key => key ∉ is.metadata

omit [DecidableEq V] in
/-- whether the edges an item is known to have are others than its rendering's, compared as a set -/
def edgesMoved (held : HeldItem V) (is : LandedItem V) : Bool :=
  match held.edges with
  | .landed => decide (held.item.dependsOn.toFinset ≠ is.dependsOn.toFinset)
  | .unread => !is.dependsOn.isEmpty

omit [DecidableEq V] in
/-- the tickets an update names: the rendering's, where they differ -/
def deliversNamed (names : BoardNames) (was is : LandedItem V) : Except String (Option (List String)) :=
  if was.delivers ≠ is.delivers then (named names.ticket "ticket" is.delivers).map fun _ => some is.delivers else .ok none

omit [DecidableEq V] in
/-- the edges an update names: every one the rendering declares, where they moved -/
def edgesNamed (names : BoardNames) (held : HeldItem V) (is : LandedItem V) (ends : StrMap String) :
    Except String (Option (List DependencyEdge)) :=
  if edgesMoved held is then (is.dependsOn.mapM (edgeOnto names held.id ends)).map some else .ok none

/-- each field that differs from what is held, and nothing else -/
def difference (names : BoardNames) (held : HeldItem V) (now : Rendering V sha256) (ends : StrMap String) :
    Except String (TaskUpdate V) := do
  let was := held.item
  let is := now.item
  named names.key "key" (metadataSet was is).keys
  named names.key "key" (metadataRemove was is)
  let delivers ← deliversNamed names was is
  let dependsOn ← edgesNamed names held is ends
  pure
    { title := if was.title ≠ is.title then some is.title else none
      content := if was.contentSha256 ≠ is.contentSha256 then some now.content else none
      status := if was.status ≠ is.status then is.status.map ProjectedStatus.status else none
      metadataSet := metadataSet was is
      metadataRemove := metadataRemove was is
      delivers
      dependsOn }

omit [DecidableEq V] in
/-- whether an update asks for nothing -/
def TaskUpdate.isEmpty (update : TaskUpdate V) : Bool :=
  update.title.isNone && update.content.isNone && update.status.isNone && update.metadataSet.isEmpty &&
    update.metadataRemove.isEmpty && update.delivers.isNone && update.dependsOn.isNone

end

end OnePipeline.Writeback
