/-
A node's serialization as the two edits that go through it rely on it: a `requeue` merges its amendment into the
serialized node and reads the node it produces back.

`NodeSerde` is what the derived implementations answer, with the laws both edits rest on: a node reads back as it was
written, what is read carries the id its object states, and the `parked` flag is read by itself. It is a parameter of
both edits, because the inner types of several fields belong to other crates and refuse on their own terms.

`NodeSerde.derived` is the derived serialization with those inner types taken as they are written. It is built from
codecs, each carrying its round trip:
- `Codec.dec_enc`: a value reads back as it was written;
- `readAll_writeAll`: a record reads back field by field;
- `NodeSerde.derived`: a node does.
-/
import Mathlib.Tactic
import OnePipeline.Core.Checks
import OnePipeline.Model.Plan

namespace OnePipeline

open Checks

/-! ## What the edits rely on -/

structure NodeSerde where
  toObject : Node → Fields
  ofObject : Fields → Except String Node
  ofObject_toObject : ∀ n, ofObject (toObject n) = .ok n
  id_of_ok : ∀ {o : Fields} {n : Node}, ofObject o = .ok n → o["id"]? = some (.str n.id)
  parked_of_absent : ∀ {o : Fields} {n : Node}, o["parked"]? = none → ofObject o = .ok n → n.parked = false
  ofObject_parked : ∀ {o : Fields} {b : Bool} {n : Node}, o["parked"]? = none →
    (ofObject (o.insert "parked" (.bool b)) = .ok n ↔ ∃ m, ofObject o = .ok m ∧ { m with parked := b } = n)
  not_ok_of_not_bool : ∀ {o : Fields} {v : Value} {n : Node}, (∀ b, v ≠ .bool b) → ofObject (o.insert "parked" v) ≠ .ok n

/-! ## Values -/

structure Codec (α : Type) where
  enc : α → Value
  dec : Value → Except String α
  dec_enc : ∀ a, dec (enc a) = .ok a
  stated : ∀ a, (enc a).isNull = false

namespace Codec

def invalid {α : Type} (expected : String) : Except String α := .error s!"invalid type: expected {expected}"

def string : Codec String where
  enc := .str
  dec
    | .str s => .ok s
    | _ => invalid "a string"
  dec_enc _ := rfl
  stated _ := rfl

def bool : Codec Bool where
  enc := .bool
  dec
    | .bool b => .ok b
    | _ => invalid "a boolean"
  dec_enc _ := rfl
  stated _ := rfl

def u32 : Codec UInt32 where
  enc n := .num n.toNat
  dec
    | .num n => if 0 ≤ n ∧ n < 2 ^ 32 then .ok (UInt32.ofNat n.toNat) else invalid "u32"
    | _ => invalid "u32"
  dec_enc n := by
    have hlt : n.toNat < 2 ^ 32 := n.toNat_lt
    simp only
    rw [if_pos (by omega), Int.toNat_natCast, UInt32.ofNat_toNat]
  stated _ := rfl

/-- a JSON value as it is written -/
def written : Codec Written where
  enc w := w.value
  dec v := if h : v.isNull = false then .ok ⟨v, h⟩ else invalid "a value"
  dec_enc w := by rw [dif_pos w.stated]
  stated w := w.stated

/-- a word of a closed set -/
def word {α : Type} (asStr : α → String) (parse : String → Option α) (h : ∀ a, parse (asStr a) = some a) : Codec α where
  enc a := .str (asStr a)
  dec
    | .str s => need (parse s) s!"unknown variant `{s}`"
    | _ => invalid "a string"
  dec_enc a := by simp [h]
  stated _ := rfl

def decodeList {α : Type} (dec : Value → Except String α) : List Value → Except String (List α)
  | [] => .ok []
  | v :: vs => do
    let a ← dec v
    let as ← decodeList dec vs
    pure (a :: as)

def list {α : Type} (c : Codec α) : Codec (List α) where
  enc as := .arr (as.map c.enc)
  dec
    | .arr vs => decodeList c.dec vs
    | _ => invalid "a sequence"
  dec_enc as := by
    induction as with
    | nil => rfl
    | cons a as ih => simp_all [decodeList, c.dec_enc]
  stated _ := rfl

/-- a map's entries, each value read as a string -/
def decodeEntries : List (String × Value) → Except String (List (String × String))
  | [] => .ok []
  | (k, v) :: rest => do
    let s ← string.dec v
    let entries ← decodeEntries rest
    pure ((k, s) :: entries)

def stringMap : Codec (StrMap String) where
  enc m := .obj (m.toList.map fun p => (p.1, .str p.2))
  dec
    | .obj fields => (decodeEntries fields).map fun entries => Std.ExtTreeMap.ofList entries compare
    | _ => invalid "a map"
  dec_enc m := by
    have hentries (l : List (String × String)) :
        decodeEntries (l.map fun p => (p.1, Value.str p.2)) = .ok l := by
      induction l with
      | nil => rfl
      | cons p l ih => simp [decodeEntries, ih, string]
    simp only [hentries, map_eq_ok, Except.ok.injEq, exists_eq_left']
    refine Std.ExtTreeMap.ext_getElem? fun k => ?_
    cases h : m[k]? with
    | some v =>
      exact Std.ExtTreeMap.getElem?_ofList_of_mem (Std.ReflCmp.compare_self) Std.ExtTreeMap.distinct_keys_toList
        (Std.ExtTreeMap.mem_toList_iff_getElem?_eq_some.mpr h)
    | none =>
      refine Std.ExtTreeMap.getElem?_ofList_of_contains_eq_false ?_
      rw [List.contains_eq_mem, decide_eq_false_iff_not, List.mem_map]
      rintro ⟨⟨k', v⟩, hmem, rfl⟩
      rw [Std.ExtTreeMap.mem_toList_iff_getElem?_eq_some.mp hmem] at h
      cases h
  stated _ := rfl

end Codec

/-! ## Records -/

/-- one field of a record: what is written of it, if anything, and how it is read onto a record -/
structure RecordField (ρ : Type) where
  key : String
  write : ρ → Option Value
  read : Option Value → ρ → Except String ρ

namespace RecordField

variable {ρ α : Type}

def required (c : Codec α) (key : String) (get : ρ → α) (set : α → ρ → ρ) : RecordField ρ where
  key := key
  write r := some (c.enc (get r))
  read
    | some v, r => (c.dec v).map fun a => set a r
    | none, _ => .error s!"missing field `{key}`"

def optional (c : Codec α) (key : String) (get : ρ → Option α) (set : Option α → ρ → ρ) : RecordField ρ where
  key := key
  write r := (get r).map c.enc
  read
    | some v, r => if v.isNull then .ok (set none r) else (c.dec v).map fun a => set (some a) r
    | none, r => .ok (set none r)

def defaulted [DecidableEq α] (c : Codec α) (key : String) (d : α) (get : ρ → α) (set : α → ρ → ρ) : RecordField ρ where
  key := key
  write r := if get r = d then none else some (c.enc (get r))
  read
    | some v, r => (c.dec v).map fun a => set a r
    | none, r => .ok (set d r)

/-- a map, left out where it is empty -/
def entries (key : String) (get : ρ → StrMap String) (set : StrMap String → ρ → ρ) : RecordField ρ where
  key := key
  write r := if (get r).isEmpty then none else some (Codec.stringMap.enc (get r))
  read
    | some v, r => (Codec.stringMap.dec v).map fun m => set m r
    | none, r => .ok (set ∅ r)

theorem required_read_write (c : Codec α) (key : String) (get : ρ → α) (set : α → ρ → ρ) (r acc : ρ) :
    (required c key get set).read ((required c key get set).write r) acc = .ok (set (get r) acc) := by
  simp [required, c.dec_enc]

theorem optional_read_write (c : Codec α) (key : String) (get : ρ → Option α) (set : Option α → ρ → ρ) (r acc : ρ) :
    (optional c key get set).read ((optional c key get set).write r) acc = .ok (set (get r) acc) := by
  cases h : get r with
  | none => simp [optional, h]
  | some a => simp [optional, h, c.dec_enc, c.stated]

theorem defaulted_read_write [DecidableEq α] (c : Codec α) (key : String) (d : α) (get : ρ → α) (set : α → ρ → ρ)
    (r acc : ρ) :
    (defaulted c key d get set).read ((defaulted c key d get set).write r) acc = .ok (set (get r) acc) := by
  by_cases h : get r = d
  · simp [defaulted, h]
  · simp [defaulted, h, c.dec_enc]

theorem entries_read_write (key : String) (get : ρ → StrMap String) (set : StrMap String → ρ → ρ) (r acc : ρ) :
    (entries key get set).read ((entries key get set).write r) acc = .ok (set (get r) acc) := by
  by_cases h : get r = ∅
  · simp [entries, h]
  · simp [entries, h, Codec.stringMap.dec_enc]

end RecordField

section Record

variable {ρ : Type}

/-- what a record is written as -/
def writeAll (fields : List (RecordField ρ)) (r : ρ) : List (String × Value) :=
  fields.filterMap fun f => (f.write r).map fun v => (f.key, v)

/-- a record read field by field, each by its key -/
def readAll (look : String → Option Value) : List (RecordField ρ) → ρ → Except String ρ
  | [], r => .ok r
  | f :: fields, r => f.read (look f.key) r >>= readAll look fields

theorem readAll_append (look : String → Option Value) (fields fields' : List (RecordField ρ)) (r : ρ) :
    readAll look (fields ++ fields') r = readAll look fields r >>= readAll look fields' := by
  induction fields generalizing r with
  | nil => rfl
  | cons f fields ih =>
    simp only [List.cons_append, readAll]
    cases f.read (look f.key) r with
    | error e => rfl
    | ok r' => exact ih r'

theorem readAll_congr {look look' : String → Option Value} {fields : List (RecordField ρ)}
    (h : ∀ f ∈ fields, look f.key = look' f.key) (r : ρ) : readAll look fields r = readAll look' fields r := by
  induction fields generalizing r with
  | nil => rfl
  | cons f fields ih =>
    rw [readAll, readAll, h f (by simp)]
    congr 1
    funext r'
    exact ih (fun g hg => h g (List.mem_cons_of_mem _ hg)) r'

theorem mem_writeAll {fields : List (RecordField ρ)} {r : ρ} {k : String} {v : Value} :
    (k, v) ∈ writeAll fields r ↔ ∃ f ∈ fields, f.key = k ∧ f.write r = some v := by
  simp only [writeAll, List.mem_filterMap, Option.map_eq_some_iff, Prod.mk.injEq]
  constructor
  · rintro ⟨f, hf, w, hw, rfl, rfl⟩
    exact ⟨f, hf, rfl, hw⟩
  · rintro ⟨f, hf, rfl, hw⟩
    exact ⟨f, hf, v, hw, rfl, rfl⟩

/-- a field is found under its own key, and only what it wrote -/
theorem lookup_writeAll {fields : List (RecordField ρ)} (hn : (fields.map RecordField.key).Nodup) {f : RecordField ρ} (hf : f ∈ fields)
    (r : ρ) : (writeAll fields r).lookup f.key = f.write r := by
  induction fields with
  | nil => cases hf
  | cons g fields ih =>
    obtain ⟨hg, hn⟩ := List.nodup_cons.mp hn
    rcases List.mem_cons.mp hf with rfl | hf
    · cases hw : f.write r with
      | some v => simp [writeAll, hw]
      | none =>
        have hnone : (writeAll fields r).lookup f.key = none := by
          rw [List.lookup_eq_none_iff]
          rintro ⟨k, v⟩ hp
          obtain ⟨f', hf', rfl, -⟩ := mem_writeAll.mp hp
          have hne : f'.key ≠ f.key := fun h => hg (h ▸ List.mem_map_of_mem hf')
          simpa using hne.symm
        simpa [writeAll, hw] using hnone
    · have hne : f.key ≠ g.key := fun h => hg (h ▸ List.mem_map_of_mem hf)
      have hrest := ih hn hf
      unfold writeAll at hrest ⊢
      cases hw : g.write r with
      | none => simpa [hw] using hrest
      | some v => simpa [hw, List.lookup_cons, beq_eq_false_iff_ne.mpr hne] using hrest

theorem getElem?_writeAll {fields : List (RecordField ρ)} (hn : (fields.map RecordField.key).Nodup) {f : RecordField ρ} (hf : f ∈ fields)
    (r : ρ) : (Std.ExtTreeMap.ofList (writeAll fields r) compare : Fields)[f.key]? = f.write r := by
  cases hw : f.write r with
  | some v =>
    refine Std.ExtTreeMap.getElem?_ofList_of_mem Std.ReflCmp.compare_self ?_ (mem_writeAll.mpr ⟨f, hf, rfl, hw⟩)
    have hkeys : (writeAll fields r).Pairwise fun a b => a.1 ≠ b.1 := by
      rw [← List.pairwise_map (f := Prod.fst)]
      refine List.Nodup.sublist ?_ hn
      rw [writeAll, List.map_filterMap, ← List.filterMap_eq_map]
      have (l : List (RecordField ρ)) : (l.filterMap fun x => ((x.write r).map fun v => (x.key, v)).map Prod.fst).Sublist
          (l.filterMap (some ∘ RecordField.key)) := by
        induction l with
        | nil => simp
        | cons g l ih =>
          cases hg : g.write r with
          | none => simpa [hg] using ih.cons g.key
          | some w => simpa [hg] using ih
      exact this fields
    exact hkeys.imp fun h he => h (Std.LawfulEqCmp.eq_of_compare he)
  | none =>
    refine Std.ExtTreeMap.getElem?_ofList_of_contains_eq_false ?_
    rw [List.contains_eq_mem, decide_eq_false_iff_not, List.mem_map]
    rintro ⟨⟨k, v⟩, hp, hk⟩
    obtain ⟨g, hg, rfl, hgw⟩ := mem_writeAll.mp hp
    rw [List.inj_on_of_nodup_map hn hg hf hk, hw] at hgw
    cases hgw

/-- a record read back is what its fields, read from what each wrote, make of the record started from -/
theorem readAll_writeAll {fields : List (RecordField ρ)} {look : String → Option Value} {r : ρ}
    (h : ∀ f ∈ fields, look f.key = f.write r) (acc : ρ) :
    readAll look fields acc = fields.foldlM (fun acc f => f.read (f.write r) acc) acc := by
  induction fields generalizing acc with
  | nil => rfl
  | cons f fields ih =>
    rw [readAll, List.foldlM_cons, h f (by simp)]
    congr 1
    funext acc'
    exact ih (fun g hg => h g (List.mem_cons_of_mem _ hg)) acc'

/-- a record nested in another, read from an object that states no other field -/
def Codec.record (fields : List (RecordField ρ)) (start : ρ) (hn : (fields.map RecordField.key).Nodup)
    (whole : ∀ r, fields.foldlM (fun acc f => f.read (f.write r) acc) start = .ok r) : Codec ρ where
  enc r := .obj (writeAll fields r)
  dec
    | .obj l =>
      match l.find? fun p => p.1 ∉ fields.map RecordField.key with
      | some p => .error s!"unknown field `{p.1}`"
      | none => readAll (fun k => l.lookup k) fields start
    | _ => Codec.invalid "a map"
  dec_enc r := by
    have hknown : (writeAll fields r).find? (fun p => p.1 ∉ fields.map RecordField.key) = none := by
      rw [List.find?_eq_none]
      rintro ⟨k, v⟩ hp
      obtain ⟨f, hf, rfl, -⟩ := mem_writeAll.mp hp
      simpa using ⟨f, hf, rfl⟩
    simp only [hknown]
    rw [readAll_writeAll (fun f hf => lookup_writeAll hn hf r), whole]
  stated _ := rfl

end Record

/-! ## A node -/

def NodeKind.asStr : NodeKind → String
  | agent => "agent"
  | human => "human"

def NodeKind.parse : String → Option NodeKind
  | "agent" => some .agent
  | "human" => some .human
  | _ => none

def Publish.asStr : Publish → String
  | land => "land"
  | preserve => "preserve"

def Publish.parse : String → Option Publish
  | "land" => some .land
  | "preserve" => some .preserve
  | _ => none

def Classification.asStr : Classification → String
  | .public => "public"
  | .private => "private"

def Classification.parse : String → Option Classification
  | "public" => some .public
  | "private" => some .private
  | _ => none

namespace Codec

def kind : Codec NodeKind := word NodeKind.asStr NodeKind.parse fun k => by cases k <;> rfl

def publish : Codec Publish := word Publish.asStr Publish.parse fun p => by cases p <;> rfl

def classification : Codec Classification := word Classification.asStr Classification.parse fun c => by cases c <;> rfl

def strings : Codec (List String) := list string

end Codec

open Codec RecordField

def resumeFields : List (RecordField Resume) :=
  [required string "branch" Resume.branch fun v r => { r with branch := v },
   optional string "checkpoint" Resume.checkpoint fun v r => { r with checkpoint := v },
   defaulted strings "completed_steps" [] Resume.completedSteps fun v r => { r with completedSteps := v }]

def Codec.resume : Codec Resume := record resumeFields ⟨"", none, []⟩ (by decide) fun r => by
  simp only [resumeFields, List.foldlM_cons, List.foldlM_nil, required_read_write, optional_read_write,
    defaulted_read_write, bind, Except.bind, pure, Except.pure]

def stepFields : List (RecordField Step) :=
  [required string "id" Step.id fun v s => { s with id := v },
   defaulted kind "kind" .agent Step.kind fun v s => { s with kind := v },
   optional string "task" Step.task fun v s => { s with task := v },
   optional string "persona" Step.persona fun v s => { s with persona := v },
   defaulted strings "deps" [] Step.deps fun v s => { s with deps := v },
   optional u32 "max_turns" Step.maxTurns fun v s => { s with maxTurns := v },
   defaulted bool "expects_no_diff" false Step.expectsNoDiff fun v s => { s with expectsNoDiff := v },
   optional string "executor" Step.executor fun v s => { s with executor := v },
   optional string "agent_graph" Step.agentGraph fun v s => { s with agentGraph := v }]

def Codec.step : Codec Step := record stepFields ⟨"", .agent, none, none, [], none, false, none, none⟩ (by decide) fun s => by
  simp only [stepFields, List.foldlM_cons, List.foldlM_nil, required_read_write, optional_read_write,
    defaulted_read_write, bind, Except.bind, pure, Except.pure]

/-- every field of a node but its id and its park -/
def otherFields : List (RecordField Node) :=
  [optional written "human_item" Node.humanItem fun v n => { n with humanItem := v },
   defaulted kind "kind" .agent Node.kind fun v n => { n with kind := v },
   optional string "task" Node.task fun v n => { n with task := v },
   optional string "persona" Node.persona fun v n => { n with persona := v },
   defaulted strings "deps" [] Node.deps fun v n => { n with deps := v },
   optional u32 "max_turns" Node.maxTurns fun v n => { n with maxTurns := v },
   defaulted strings "sets" [] Node.sets fun v n => { n with sets := v },
   defaulted bool "expects_no_diff" false Node.expectsNoDiff fun v n => { n with expectsNoDiff := v },
   optional string "context" Node.context fun v n => { n with context := v },
   optional string "amendment" Node.amendment fun v n => { n with amendment := v },
   optional string "executor" Node.executor fun v n => { n with executor := v },
   optional string "agent_graph" Node.agentGraph fun v n => { n with agentGraph := v },
   optional string "repo" Node.repo fun v n => { n with repo := v },
   optional written "repo_type" Node.repoType fun v n => { n with repoType := v },
   optional written "workflow" Node.workflow fun v n => { n with workflow := v },
   optional written "merge_policy" Node.mergePolicy fun v n => { n with mergePolicy := v },
   optional string "base_branch" Node.baseBranch fun v n => { n with baseBranch := v },
   optional string "branch" Node.branch fun v n => { n with branch := v },
   optional string "title" Node.title fun v n => { n with title := v },
   optional string "body" Node.body fun v n => { n with body := v },
   defaulted bool "draft" false Node.draft fun v n => { n with draft := v },
   defaulted publish "publish" .land Node.publish fun v n => { n with publish := v },
   optional string "execution_checkout" Node.executionCheckout fun v n => { n with executionCheckout := v },
   optional u32 "pool" Node.pool fun v n => { n with pool := v },
   optional written "overflow" Node.overflow fun v n => { n with overflow := v },
   optional (list step) "steps" Node.steps fun v n => { n with steps := v },
   optional resume "resume" Node.resume fun v n => { n with resume := v },
   optional written "adoption" Node.adoption fun v n => { n with adoption := v },
   entries "consumes" Node.consumes fun v n => { n with consumes := v },
   defaulted strings "delivers" [] Node.delivers fun v n => { n with delivers := v },
   optional written "task_record" Node.taskRecord fun v n => { n with taskRecord := v },
   optional string "assets_from" Node.assetsFrom fun v n => { n with assetsFrom := v },
   defaulted classification "classification" .public Node.classification fun v n => { n with classification := v }]

def idField : RecordField Node := required string "id" Node.id fun v n => { n with id := v }

def parkedField : RecordField Node := defaulted bool "parked" false Node.parked fun v n => { n with parked := v }

/-- the fields in an order that reads a node's id and its park last -/
def nodeFields : List (RecordField Node) := otherFields ++ [idField, parkedField]

theorem nodup_nodeFields : (nodeFields.map RecordField.key).Nodup := by decide

theorem nodeFields_whole (n : Node) :
    nodeFields.foldlM (fun acc f => f.read (f.write n) acc) ({ id := "" } : Node) = .ok n := by
  simp only [nodeFields, otherFields, idField, parkedField, List.cons_append, List.nil_append, List.foldlM_cons,
    List.foldlM_nil, required_read_write, optional_read_write, defaulted_read_write, entries_read_write, bind,
    Except.bind, pure, Except.pure]

/-- the derived reader: a field the node has not is refused -/
def readNode (o : Fields) : Except String Node :=
  match o.keys.find? fun k => k ∉ nodeFields.map RecordField.key with
  | some k => .error s!"unknown field `{k}`"
  | none => readAll (fun k => o[k]?) nodeFields { id := "" }

/-- what a read node is: the other fields, then the id, then the park -/
theorem readNode_eq_ok {o : Fields} {n : Node} :
    readNode o = .ok n ↔ o.keys.find? (fun k => k ∉ nodeFields.map RecordField.key) = none ∧
      ∃ m m', readAll (fun k => o[k]?) otherFields { id := "" } = .ok m ∧ idField.read o["id"]? m = .ok m' ∧
        parkedField.read o["parked"]? m' = .ok n := by
  unfold readNode
  cases h : o.keys.find? fun k => k ∉ nodeFields.map RecordField.key with
  | some k => simp
  | none =>
    simp only [nodeFields, readAll_append, bind_eq_ok, readAll, Except.ok.injEq, true_and]
    constructor
    · rintro ⟨m, hm, m', hm', n', hn', rfl⟩
      exact ⟨m, m', hm, hm', hn'⟩
    · rintro ⟨m, m', hm, hm', hn'⟩
      exact ⟨m, hm, m', hm', n, hn', rfl⟩

/-- a field but the park reads an object with another park alike -/
theorem getElem?_insert_parked (o : Fields) (v : Value) {k : String} (hk : k ≠ "parked") :
    (o.insert "parked" v)[k]? = o[k]? := by
  simp [Std.ExtTreeMap.getElem?_insert, hk.symm]

theorem readAll_insert_parked (o : Fields) (v : Value) (n : Node) :
    readAll (fun k => (o.insert "parked" v)[k]?) otherFields n = readAll (fun k => o[k]?) otherFields n := by
  refine readAll_congr (fun f hf => getElem?_insert_parked o v ?_) n
  have hall : ∀ k ∈ otherFields.map RecordField.key, k ≠ "parked" := by decide
  exact hall _ (List.mem_map_of_mem hf)

/-- an object with a park states an unknown field exactly when it does without -/
theorem unknown_insert_parked (o : Fields) (v : Value) :
    (o.insert "parked" v).keys.find? (fun k => k ∉ nodeFields.map RecordField.key) = none ↔
      o.keys.find? (fun k => k ∉ nodeFields.map RecordField.key) = none := by
  have hp : "parked" ∈ nodeFields.map RecordField.key := by decide
  simp only [List.find?_eq_none, Std.ExtTreeMap.mem_keys, Std.ExtTreeMap.mem_insert, decide_eq_true_eq, not_not,
    Std.LawfulEqCmp.compare_eq_iff_eq]
  constructor
  · exact fun h k hk => h k (Or.inr hk)
  · rintro h k (rfl | hk)
    · exact hp
    · exact h k hk

namespace NodeSerde

/-- the derived serialization, with the inner types of other crates taken as they are written -/
def derived : NodeSerde where
  toObject n := Std.ExtTreeMap.ofList (writeAll nodeFields n) compare
  ofObject := readNode
  ofObject_toObject n := by
    have hread : ∀ f ∈ nodeFields, (Std.ExtTreeMap.ofList (writeAll nodeFields n) compare : Fields)[f.key]? = f.write n :=
      fun f hf => getElem?_writeAll nodup_nodeFields hf n
    have hknown : (Std.ExtTreeMap.ofList (writeAll nodeFields n) compare : Fields).keys.find?
        (fun k => k ∉ nodeFields.map RecordField.key) = none := by
      rw [List.find?_eq_none]
      intro k hk
      rw [Std.ExtTreeMap.mem_keys, Std.ExtTreeMap.mem_ofList, List.contains_eq_mem, decide_eq_true_eq,
        List.mem_map] at hk
      obtain ⟨⟨k', v⟩, hp, rfl⟩ := hk
      obtain ⟨f, hf, rfl, -⟩ := mem_writeAll.mp hp
      simpa using ⟨f, hf, rfl⟩
    simp only [readNode, hknown]
    rw [readAll_writeAll hread, nodeFields_whole]
  id_of_ok {o n} h := by
    obtain ⟨-, m, m', -, hid, hp⟩ := readNode_eq_ok.mp h
    cases ho : o["id"]? with
    | none => simp [idField, RecordField.required, ho] at hid
    | some v =>
      have hkeep : n.id = m'.id := by
        cases hv : o["parked"]? with
        | none =>
          simp only [parkedField, defaulted, hv, Except.ok.injEq] at hp
          rw [← hp]
        | some w =>
          simp only [parkedField, defaulted, hv, map_eq_ok] at hp
          obtain ⟨b, -, rfl⟩ := hp
          rfl
      simp only [idField, RecordField.required, ho, map_eq_ok] at hid
      obtain ⟨s, hs, rfl⟩ := hid
      cases v <;> simp_all [Codec.string, Codec.invalid]
  parked_of_absent {o n} ho h := by
    obtain ⟨-, m, m', -, -, hp⟩ := readNode_eq_ok.mp h
    simp only [parkedField, defaulted, ho, Except.ok.injEq] at hp
    rw [← hp]
  ofObject_parked {o b n} ho := by
    rw [readNode_eq_ok, unknown_insert_parked, readAll_insert_parked, getElem?_insert_parked o _ (by decide),
      Std.ExtTreeMap.getElem?_insert_self]
    have hset (m' : Node) : parkedField.read (some (.bool b)) m' = .ok n ↔ { m' with parked := b } = n := by
      simp [parkedField, defaulted, Codec.bool]
    have hunset (m' m : Node) : parkedField.read o["parked"]? m' = .ok m ↔ { m' with parked := false } = m := by
      simp [parkedField, defaulted, ho]
    simp only [readNode_eq_ok, hset, hunset]
    constructor
    · rintro ⟨hk, m, m', hm, hm', rfl⟩
      exact ⟨{ m' with parked := false }, ⟨hk, m, m', hm, hm', rfl⟩, rfl⟩
    · rintro ⟨-, ⟨hk, m, m', hm, hm', rfl⟩, rfl⟩
      exact ⟨hk, m, m', hm, hm', rfl⟩
  not_ok_of_not_bool {o v n} hv h := by
    obtain ⟨-, m, m', -, -, hp⟩ := readNode_eq_ok.mp h
    rw [Std.ExtTreeMap.getElem?_insert_self] at hp
    simp only [parkedField, defaulted, map_eq_ok] at hp
    obtain ⟨b, hb, -⟩ := hp
    cases v with
    | bool c => exact hv c rfl
    | _ => simp [Codec.bool, Codec.invalid] at hb

end NodeSerde

end OnePipeline
