/-
Stacked drafts (`src/stack.rs`): where a node with stack parents is placed, and the block the engine keeps in its change request's
description.
-/
import Mathlib.Tactic
import OnePipeline.Core.Markers

namespace OnePipeline

/-! ## A stack -/

/-- one stack parent, as the record held it when the node was placed -/
structure StackParent where
  node : String
  branch : String
  head : String
  changeUrl : Option String
deriving DecidableEq, Repr

/-- two or more stack parents: what a stack base merges -/
structure Several where
  parents : List StackParent
  several : 2 ≤ parents.length
deriving DecidableEq

/-- `parents`, where there are at least two of them -/
def Several.of (parents : List StackParent) : Option Several :=
  if h : 2 ≤ parents.length then some ⟨parents, h⟩ else none

/-- where a node with stack parents is placed -/
inductive Stack where
  | onParent (parent : StackParent)
  | onStackBase (root branch : String) (parents : Several)
deriving DecidableEq

namespace Stack

/-- the branch the node's session is cut from and its change request is based on -/
def base : Stack → String
  | onParent parent => parent.branch
  | onStackBase _ branch _ => branch

/-- the stack parents, in the node's declared dependency order -/
def parents : Stack → List StackParent
  | onParent parent => [parent]
  | onStackBase _ _ parents => parents.parents

/-! ## The block -/

/-- the line that opens the block in a change request's description -/
def blockOpen : String := "<!-- onepipeline:stack -->"

/-- the line that closes it -/
def blockClose : String := "<!-- /onepipeline:stack -->"

def urlOrNone (url : Option String) : String := url.getD "(no change request on the record)"

/-- what the base is, in the words both the block and the task use -/
def draftedAgainst : Stack → String
  | onParent parent =>
    "Drafted against `" ++ parent.branch ++ "`, the branch of `" ++ parent.node ++ "`: " ++ urlOrNone parent.changeUrl
  | onStackBase root branch parents =>
    parents.parents.foldl
      (fun said parent => said ++ "\n- `" ++ parent.node ++ "` (`" ++ parent.branch ++ "`): " ++ urlOrNone parent.changeUrl)
      ("Drafted against the stack base `" ++ branch ++ "`, which merges `" ++ root ++ "` and each change below:")

/-- the text between the markers -/
def inner (stack : Stack) : String := "\n## Stack\n\n" ++ stack.draftedAgainst ++ "\n"

/-- the block the engine writes into the description, markers included -/
def block (stack : Stack) : String := blockOpen ++ stack.inner ++ blockClose

end Stack

/-- the line breaks needed for a blank line after a description -/
def blankLine (description : String) : String :=
  if description.isEmpty ∨ ['\n', '\n'] <:+ description.toList then ""
  else if ['\n'] <:+ description.toList then "\n"
  else "\n\n"

/-- a description with a block in it: in the place of the first opening marker through the first closing one after it, or appended -/
def splice (description block : String) : String :=
  match Markers.cut Stack.blockOpen.toList Stack.blockClose.toList description.toList with
  | some (before, after) => String.ofList before ++ block ++ String.ofList after
  | none => description ++ blankLine description ++ block

end OnePipeline
