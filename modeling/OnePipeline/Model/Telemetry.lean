/-
A run's clock (`src/telemetry.rs`): the aggregate its records are folded into one at a time, the document read off it,
and the serialization the aggregate is carried in between two writers.

Milliseconds and counts are naturals: a total is a sum of spans between two timestamps, none past the year 9999. What
was spent is a parameter, `Spending`: it is summed in floating point from reports the run kept, and no bucket reads it.
-/
import Mathlib.Tactic
import OnePipeline.Core.Maps
import OnePipeline.Model.Record
import OnePipeline.Model.Serde

namespace OnePipeline.Telemetry

/-! ## The records -/

inductive Source where
  | vcs
  | agentgraph
  | pipeline
deriving DecidableEq, Repr

/-- one record as the clock reads it: its kind as the word it is written as, and its whole payload -/
structure Event where
  ts : String
  stream : String
  source : Source
  kind : String
  node : Option String := none
  payload : List (String × Value) := []

/-- a session is keyed by its node where one is known, and by its stream where it is not -/
def Event.whose (event : Event) : String := event.node.getD event.stream

/-- `oneagentgraph`'s side of a two-party conversation -/
inductive Role where
  | judge
  | agent
deriving DecidableEq, Repr

def Role.parse : Value → Option Role
  | .str "judge" => some .judge
  | .str "agent" => some .agent
  | _ => none

/-- which side an event came from, when its producer said -/
def sideOf (event : Event) : Option Role := (event.payload.lookup "role").bind Role.parse

/-! ## The buckets -/

inductive BucketName where
  | agent
  | judge
  | llmlint
  | gate
  | publicationWait
  | lockWait
  | setup
  | scheduling
deriving DecidableEq, Repr

namespace BucketName

def all : List BucketName := [agent, judge, llmlint, gate, publicationWait, lockWait, setup, scheduling]

def asStr : BucketName → String
  | agent => "agent"
  | judge => "judge"
  | llmlint => "llmlint"
  | gate => "gate"
  | publicationWait => "publication_wait"
  | lockWait => "lock_wait"
  | setup => "setup"
  | scheduling => "scheduling"

def parse (s : String) : Option BucketName := all.find? fun b => b.asStr = s

theorem parse_asStr (b : BucketName) : parse b.asStr = some b := by cases b <;> decide

/-- the place of a bucket in the document -/
def place : BucketName → ℕ
  | agent => 0
  | judge => 1
  | llmlint => 2
  | gate => 3
  | publicationWait => 4
  | lockWait => 5
  | setup => 6
  | scheduling => 7

instance : Ord BucketName := ⟨compareOn place⟩

instance : Std.TransCmp (compare : BucketName → BucketName → Ordering) :=
  inferInstanceAs (Std.TransCmp (compareOn place))

instance : Std.LawfulEqCmp (compare : BucketName → BucketName → Ordering) where
  eq_of_compare {a b} h := by
    have hcompare : compare a.place b.place = .eq := h
    have hplace : a.place = b.place := Std.LawfulEqCmp.eq_of_compare hcompare
    cases a <;> cases b <;> first | rfl | cases hplace

end BucketName

/-- one named piece of the wall clock, and its milliseconds where something measured it -/
structure Bucket where
  name : BucketName
  ms : Option ℕ
deriving DecidableEq, Repr

/-! ## Phases -/

/-- what an open repository session is doing -/
inductive Phase where
  | setup
  | lockWait
  | gate
  | publication
deriving DecidableEq, Repr

namespace Phase

/-- the phase a `onevcs` event puts its session in, when it names one -/
def of (kind : String) : Option Phase :=
  if kind ∈ ["session-opened", "fetch", "commit-preserved", "lock-acquired", "recovery-attested"] then some .setup
  else if kind = "lock-wait" then some .lockWait
  else if kind = "gate-started" then some .gate
  else if kind ∈ ["gate-verdict", "push", "change-opened", "change-check", "merge-queued", "change-merged",
    "merge-completed", "sync-conflict", "change-drafted", "checks-settled", "draft-lifted", "draft-lifted-early",
    "draft-kept-for-review"] then some .publication
  else none

def bucket : Phase → BucketName
  | setup => .setup
  | lockWait => .lockWait
  | gate => .gate
  | publication => .publicationWait

/-- the order a millisecond is named in when two sessions disagree -/
def precedence : List Phase := [lockWait, gate, publication, setup]

def asStr : Phase → String
  | setup => "setup"
  | lockWait => "lock-wait"
  | gate => "gate"
  | publication => "publication"

def parse : String → Option Phase
  | "setup" => some setup
  | "lock-wait" => some lockWait
  | "gate" => some gate
  | "publication" => some publication
  | _ => none

end Phase

def sessionOpened : String := "session-opened"

def sessionClosed : String := "session-closed"

def memberSettled : String := "member-settled"

/-- the kinds that say a dispatch's own agent is working in the workspace -/
def working : List String := ["member-started", "turn-started", "turn-activity", "turn-completed", memberSettled]

/-! ## The aggregate -/

/-- what the run's records and reports say was spent; a sum written out reads back as some sum -/
structure Spending (U : Type) where
  zero : U
  foldUsage : U → Event → U
  enc : U → Value
  dec : Value → Except String U
  reads : ∀ u, ∃ u', dec (enc u) = .ok u'

structure Aggregate (U : Type) where
  /-- the first stamped record, which the wall clock is measured from -/
  first : Option ℕ
  /-- the last one, which it is measured to -/
  last : ℕ
  /-- where the span being measured began -/
  previous : ℕ
  totals : Std.ExtTreeMap BucketName ℕ compare
  /-- the nodes with a dispatch in flight -/
  dispatched : StrSet
  /-- what each open repository session is doing -/
  phases : StrMap Phase
  /-- the members whose judge side is running -/
  judging : StrSet
  judgeMeasured : Bool
  gateMeasured : Bool
  usage : U

/-- what the run is doing across one span, given everything open across it -/
def now (phases : StrMap Phase) (judging dispatched : StrSet) : BucketName :=
  match Phase.precedence.find? fun phase => phases.toList.any fun session => session.2 = phase with
  | some phase => phase.bucket
  | none => if !judging.isEmpty then .judge else if !dispatched.isEmpty then .agent else .scheduling

namespace Aggregate

variable {U : Type}

def empty (spending : Spending U) : Aggregate U :=
  { first := none, last := 0, previous := 0, totals := ∅, dispatched := ∅, phases := ∅, judging := ∅,
    judgeMeasured := false, gateMeasured := false, usage := spending.zero }

/-- a span credited to a bucket -/
def credit (totals : Std.ExtTreeMap BucketName ℕ compare) (bucket : BucketName) (span : ℕ) :
    Std.ExtTreeMap BucketName ℕ compare :=
  if 0 < span then totals.insert bucket (totals[bucket]?.getD 0 + span) else totals

/-- the clock moved to a record's stamp, the span up to it credited to what was open across it -/
def tick (a : Aggregate U) (ms : ℕ) : Aggregate U :=
  let previous := if a.first.isNone then ms else a.previous
  { a with
    first := a.first.or (some ms)
    last := ms
    totals := credit a.totals (now a.phases a.judging a.dispatched) (ms - previous)
    previous := ms }

/-- a working turn of a member, as the side it came from leaves the judging -/
def side (a : Aggregate U) (event : Event) : Aggregate U :=
  match sideOf event with
  | some .judge => { a with judgeMeasured := true, judging := a.judging.insert event.whose }
  | some .agent => { a with judgeMeasured := true, judging := a.judging.erase event.whose }
  | none => if event.kind = memberSettled then { a with judging := a.judging.erase event.whose } else a

/-- what is open once a record is taken in -/
def attributed (a : Aggregate U) (event : Event) : Aggregate U :=
  let whose := event.whose
  match event.source with
  | .vcs =>
    if event.kind = sessionClosed then { a with phases := a.phases.erase whose }
    else if event.kind = sessionOpened then { a with phases := a.phases.insertIfNew whose .setup }
    else
      match Phase.of event.kind with
      | some phase =>
        { a with gateMeasured := a.gateMeasured || phase = .gate, phases := a.phases.insert whose phase }
      | none => a
  | .agentgraph => if event.kind ∈ working then { a with phases := a.phases.erase whose }.side event else a
  | .pipeline =>
    if event.kind = "node-dispatched" then { a with dispatched := a.dispatched.insert whose }
    else if event.kind = "node-settled" then
      { a with
        dispatched := a.dispatched.erase whose
        judging := a.judging.erase whose
        phases := a.phases.erase whose }
    else a

/-- one record of the merged store; a record that cannot be dated measures no span, and counts toward what was spent -/
def fold (spending : Spending U) (a : Aggregate U) (event : Event) : Aggregate U :=
  let a := { a with usage := spending.foldUsage a.usage event }
  match millisOf event.ts with
  | none => a
  | some ms => (a.tick ms).attributed event

end Aggregate

/-! ## The document -/

/-- excess milliseconds taken off the buckets at some places, in order -/
def drainAt : List Bucket → ℕ → List ℕ → List Bucket
  | buckets, _, [] => buckets
  | buckets, excess, index :: rest =>
    if excess = 0 then buckets
    else
      let ms := (buckets[index]?.bind Bucket.ms).getD 0
      let taken := min ms excess
      drainAt (buckets.modify index fun b => { b with ms := some (ms - taken) }) (excess - taken) rest

/-- the places of the measured buckets, largest first; ties keep their order -/
def largestFirst (buckets : List Bucket) : List ℕ :=
  ((List.range buckets.length).filter fun index => (buckets[index]?.bind Bucket.ms).isSome).mergeSort fun i j =>
    (buckets[j]?.bind Bucket.ms).getD 0 ≤ (buckets[i]?.bind Bucket.ms).getD 0

def drain (buckets : List Bucket) (excess : ℕ) : List Bucket := drainAt buckets excess (largestFirst buckets)

/-- the measured milliseconds of some buckets -/
def counted (buckets : List Bucket) : ℕ := (buckets.filterMap Bucket.ms).sum

/-- the measured buckets made to add up to the wall clock: what is missing lands in scheduling, what is over is drained -/
def balance (buckets : List Bucket) (wallMs : ℕ) : List Bucket :=
  if counted buckets < wallMs then
    match buckets.findIdx? fun b => b.name = .scheduling with
    | some index => buckets.modify index fun b => { b with ms := some (b.ms.getD 0 + (wallMs - counted buckets)) }
    | none => buckets
  else if wallMs < counted buckets then drain buckets (counted buckets - wallMs)
  else buckets

/-- the counts of a run's state the document states beside its clock -/
structure Counts where
  dispatches : ℕ
  settledDone : ℕ
  noDiff : ℕ
  surfacesQueued : ℕ
  surfacesRead : ℕ

def telemetrySchemaVersion : ℕ := 2

structure RunTelemetry (U : Type) where
  schemaVersion : ℕ
  runId : String
  wallMs : ℕ
  buckets : List Bucket
  usage : U
  counts : Counts

namespace Aggregate

variable {U : Type} (a : Aggregate U)

/-- what a bucket was measured at: nothing runs an LLM lint, and the judge and the gate are measured by what names them -/
def measured : BucketName → Option ℕ
  | .llmlint => none
  | .judge => if a.judgeMeasured then some (a.totals[BucketName.judge]?.getD 0) else none
  | .gate => if a.gateMeasured then some (a.totals[BucketName.gate]?.getD 0) else none
  | name => some (a.totals[name]?.getD 0)

def wallMs : ℕ := a.last - a.first.getD 0

/-- the document, as everything folded so far measures it -/
def finish (run : String) (counts : Counts) : RunTelemetry U :=
  { schemaVersion := telemetrySchemaVersion
    runId := run
    wallMs := a.wallMs
    buckets := balance (BucketName.all.map fun name => { name, ms := a.measured name }) a.wallMs
    usage := a.usage
    counts }

end Aggregate

/-! ## What it is carried in -/

section

open Codec RecordField

def phase : Codec Phase := word Phase.asStr Phase.parse fun p => by cases p <;> rfl

def count : Codec ℕ where
  enc n := .num n
  dec
    | .num n => if 0 ≤ n then .ok n.toNat else invalid "u64"
    | _ => invalid "u64"
  dec_enc n := by simp
  stated _ := rfl

def stringSet : Codec StrSet where
  enc s := strings.enc s.toList
  dec v := (strings.dec v).map fun l => l.foldl (fun s a => s.insert a) ∅
  dec_enc s := by
    rw [strings.dec_enc, Except.map]
    congr 1
    refine Std.ExtTreeSet.ext_mem fun {a} => ?_
    have hmem : ∀ (l : List String) (t : StrSet), a ∈ l.foldl (fun t a => t.insert a) t ↔ a ∈ t ∨ a ∈ l := by
      intro l
      induction l with
      | nil => simp
      | cons b l ih =>
        intro t
        rw [List.foldl_cons, ih, Std.ExtTreeSet.mem_insert, Std.LawfulEqCmp.compare_eq_iff_eq, List.mem_cons,
          eq_comm (a := b)]
        tauto
    rw [hmem]
    simp [Std.ExtTreeSet.not_mem_empty]
  stated _ := rfl

def decodePairs {κ V : Type} (parse : String → Option κ) (c : Codec V) :
    List (String × Value) → Except String (List (κ × V))
  | [] => .ok []
  | (k, v) :: rest => do
    let key ← Checks.need (parse k) s!"unknown variant `{k}`"
    let value ← c.dec v
    let pairs ← decodePairs parse c rest
    pure ((key, value) :: pairs)

/-- a map, keyed by words -/
def mapOf {κ V : Type} [Ord κ] [Std.TransCmp (compare : κ → κ → Ordering)] [Std.LawfulEqCmp (compare : κ → κ → Ordering)]
    [DecidableEq κ] (name : κ → String) (parse : String → Option κ) (h : ∀ k, parse (name k) = some k) (c : Codec V) :
    Codec (Std.ExtTreeMap κ V compare) where
  enc m := .obj (m.toList.map fun p => (name p.1, c.enc p.2))
  dec
    | .obj fields => (decodePairs parse c fields).map fun pairs => Maps.insertAll ∅ pairs
    | _ => invalid "a map"
  dec_enc m := by
    have hpairs (l : List (κ × V)) : decodePairs parse c (l.map fun p => (name p.1, c.enc p.2)) = .ok l := by
      induction l with
      | nil => rfl
      | cons p l ih => simp [decodePairs, ih, h, c.dec_enc, Checks.need, bind, Except.bind, pure, Except.pure]
    simp only [hpairs, Except.map]
    congr 1
    refine Std.ExtTreeMap.ext_getElem? fun k => ?_
    rw [Maps.get_insertAll]
    simp
  stated _ := rfl

/-- a field written as `null` where it is absent -/
def nullable {ρ α : Type} (c : Codec α) (key : String) (get : ρ → Option α) (set : Option α → ρ → ρ) : RecordField ρ where
  key := key
  write r := some ((get r).elim .null c.enc)
  read := (RecordField.optional c key get set).read

variable {U : Type} (spending : Spending U)

/-- what was spent, beside the clock -/
def usageField : RecordField (Aggregate U) where
  key := "usage"
  write a := some (spending.enc a.usage)
  read
    | some v, a => (spending.dec v).map fun u => { a with usage := u }
    | none, _ => .error "missing field `usage`"

def clockFields : List (RecordField (Aggregate U)) :=
  [nullable count "first" Aggregate.first fun v a => { a with first := v },
   required count "last" Aggregate.last fun v a => { a with last := v },
   required count "previous" Aggregate.previous fun v a => { a with previous := v },
   required (mapOf BucketName.asStr BucketName.parse BucketName.parse_asStr count) "totals" Aggregate.totals
     fun v a => { a with totals := v },
   required stringSet "dispatched" Aggregate.dispatched fun v a => { a with dispatched := v },
   required (mapOf id some (fun _ => rfl) phase) "phases" Aggregate.phases fun v a => { a with phases := v },
   required stringSet "judging" Aggregate.judging fun v a => { a with judging := v },
   required bool "judge_measured" Aggregate.judgeMeasured fun v a => { a with judgeMeasured := v },
   required bool "gate_measured" Aggregate.gateMeasured fun v a => { a with gateMeasured := v }]

def aggregateFields : List (RecordField (Aggregate U)) := clockFields ++ [usageField spending]

def serialize (a : Aggregate U) : Value := .obj (writeAll (aggregateFields spending) a)

/-- an aggregate read back; a field it does not know is refused -/
def deserialize : Value → Except String (Aggregate U)
  | .obj l =>
    match l.find? fun p => p.1 ∉ (aggregateFields spending).map RecordField.key with
    | some p => .error s!"unknown field `{p.1}`"
    | none => readAll (fun k => l.lookup k) (aggregateFields spending) (.empty spending)
  | _ => invalid "a map"

/-- records folded in stretches, the aggregate written out and read back after each -/
def resumed : Aggregate U → List (List Event) → Except String (Aggregate U)
  | a, [] => .ok a
  | a, stretch :: rest => do
    let a ← deserialize spending (serialize spending (stretch.foldl (Aggregate.fold spending) a))
    resumed a rest

end

end OnePipeline.Telemetry
