/-
The plan schema (`src/plan.rs`): a node, its steps, the export edges between nodes, and the plan document holding
them. What a plan *may* say is `Validate`'s.

A node carries every field the source declares. A field whose inside nothing modelled here reads (a model override, a
repository type, a release adoption) is held as the JSON it is written as, `Written`: present, and not `null`, since
`null` is how the document spells an absent one.
-/
import Mathlib.Tactic
import OnePipeline.Core.Text

namespace OnePipeline

/-- a `BTreeMap<String, V>`: iterated in key order, one value a key -/
abbrev StrMap (V : Type) : Type := Std.ExtTreeMap String V compare

/-- a `BTreeSet<String>` -/
abbrev StrSet : Type := Std.ExtTreeSet String compare

/-! ## JSON -/

/-- `serde_json::Value` -/
inductive Value where
  | null
  | bool (b : Bool)
  | num (n : ℤ)
  | str (s : String)
  | arr (items : List Value)
  | obj (fields : List (String × Value))
deriving Repr, Inhabited

/-- `serde_json::Map<String, Value>` -/
abbrev Fields : Type := StrMap Value

namespace Value

def isNull : Value → Bool
  | null => true
  | _ => false

def asStr : Value → Option String
  | str s => some s
  | _ => none

/-- `Value == Value::Bool(b)` -/
def isBool (b : Bool) : Value → Bool
  | bool c => b == c
  | _ => false

end Value

/-- a field's JSON where the document states one -/
structure Written where
  value : Value
  stated : value.isNull = false

/-! ## The node -/

inductive NodeKind where
  | agent
  | human
deriving DecidableEq, Repr, Inhabited

/-- whether a finished branch is published or only kept on its origin -/
inductive Publish where
  | land
  | preserve
deriving DecidableEq, Repr, Inhabited

inductive Classification where
  | «public»
  | «private»
deriving DecidableEq, Repr, Inhabited

/-- the more private of two classifications -/
def Classification.strictest : Classification → Classification → Classification
  | .private, _ => .private
  | .public, c => c

/-- where a node picks preserved work back up -/
structure Resume where
  branch : String
  checkpoint : Option String
  completedSteps : List String
deriving DecidableEq, Repr, Inhabited

structure Step where
  id : String
  kind : NodeKind
  task : Option String
  persona : Option String
  deps : List String
  maxTurns : Option UInt32
  expectsNoDiff : Bool
  executor : Option String
  agentGraph : Option String
deriving DecidableEq, Inhabited

structure Node where
  humanItem : Option Written := none
  id : String
  kind : NodeKind := .agent
  task : Option String := none
  persona : Option String := none
  deps : List String := []
  maxTurns : Option UInt32 := none
  sets : List String := []
  expectsNoDiff : Bool := false
  context : Option String := none
  amendment : Option String := none
  parked : Bool := false
  executor : Option String := none
  agentGraph : Option String := none
  repo : Option String := none
  repoType : Option Written := none
  workflow : Option Written := none
  mergePolicy : Option Written := none
  baseBranch : Option String := none
  branch : Option String := none
  title : Option String := none
  body : Option String := none
  draft : Bool := false
  publish : Publish := .land
  executionCheckout : Option String := none
  pool : Option UInt32 := none
  overflow : Option Written := none
  steps : Option (List Step) := none
  resume : Option Resume := none
  adoption : Option Written := none
  /-- the release target each dependency is consumed at, keyed by dependency node id -/
  consumes : StrMap String := ∅
  delivers : List String := []
  taskRecord : Option Written := none
  assetsFrom : Option String := none
  classification : Classification := .public

/-! ## The plan -/

structure ExportEdge where
  «from» : String
  «to» : String
  sourceDirectory : String
  targetDirectory : String
  acceptedOpaque : List String
deriving DecidableEq, Repr, Inhabited

/-- the plan document; of its goal only the text is judged -/
structure Plan where
  schemaVersion : ℕ
  goal : Option String := none
  name : Option String := none
  concurrency : ℕ
  tasks : List Node
  exportEdges : List ExportEdge := []

/-- the version this build writes -/
def planSchemaVersion : ℕ := 3

/-- the versions this build reads, newest first -/
def planSchemaVersionsRead : List ℕ := [planSchemaVersion, 2, 1]

def titleIsRequired : String :=
  "a lifecycle node states the title its change request opens under, and this one names no `title`"

def bodyIsNewer (declared : ℕ) : String :=
  s!"`body` is a schema {planSchemaVersion} field and this plan declares schema_version {declared} — set " ++
    s!"`schema_version: {planSchemaVersion}`"

def draftIsNewer (declared : ℕ) : String :=
  s!"`draft` is a schema {planSchemaVersion} field and this plan declares schema_version {declared} — set " ++
    s!"`schema_version: {planSchemaVersion}`"

def nodeFieldIsNewer (field : String) (declared : ℕ) : String :=
  s!"`{field}` is a schema {planSchemaVersion} field and this plan declares schema_version {declared} — set " ++
    s!"`schema_version: {planSchemaVersion}`"

def preserveBesideDraft : String :=
  "`publish: \"preserve\"` keeps the branch and opens no change request, so there is nothing for " ++
    "`draft: true` to leave as a draft — drop one of the two"

def preserveNeedsABranch (what : String) : String :=
  s!"`publish: \"preserve\"` keeps a lifecycle node's branch, and {what} leaves no branch to keep"

def dependsOnPreserved (node dep : String) : String :=
  s!"node '{node}' depends on '{dep}', which states `publish: \"preserve\"`: its work is kept on a branch " ++
    "and never reaches a base, so nothing built on it could land"

def preservedFanIn (node : String) (candidates : List String) : String :=
  let named := ", ".intercalate candidates
  s!"node '{node}' has preserve dependencies [{named}] on separate stacking chains: a session starts from one kept " ++
    "branch and merging kept branches is not supported"

def preservedBaseConflict (node : String) : String :=
  s!"node '{node}' states base_branch and has a same-repository preserve dependency: those are two answers to " ++
    "where its session starts"

/-! ## Refusals -/

/-- what a check says is wrong, and the node and field it is about -/
structure Refusal where
  node : Option String := none
  field : Option String := none
  message : String
deriving DecidableEq, Repr, Inhabited

namespace Refusal

def plain (message : String) : Refusal := { message }

def about (node message : String) : Refusal := { node := some node, message }

/-- a refusal opening with the node it is about -/
def ofNode (id what : String) : Refusal := about id s!"node '{id}': {what}"

def withField (r : Refusal) (field : String) : Refusal := { r with field := some field }

end Refusal

end OnePipeline
