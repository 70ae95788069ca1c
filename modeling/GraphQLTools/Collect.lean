import GraphQLTools.Walker

/-!
# What a selection set selects

The meaning of a selection set is what GraphQL's `CollectFields` selects from it for an
object of a given runtime type: the fields, in order, each under its response key. A field
with `@skip(if: true)` or `@include(if: false)` is left out, an inline fragment or a fragment
spread is followed only when its type condition applies to the runtime type and its own
directives do not leave it out, and each fragment is spread at most once.

Nothing of this is in the sources: it is the meaning the normalization passes are meant to
keep, taken from the execution algorithm of the GraphQL specification and read over the
model's document. It takes fuel, one unit per selection set entered.
-/

namespace GraphQLTools

namespace Ast

namespace Schema

variable (schema : Schema)

/-- `DoesFragmentTypeApply`: an object type is its own condition, an interface's condition
for the types that implement it, and a union's for its members. -/
def doesFragmentTypeApply (objectType fragmentType : String) : Bool :=
  match schema.typeDefinition fragmentType with
  | none => false
  | some t => match t.kind with
    | .object => t.name == objectType
    | .interface => match schema.typeDefinition objectType with
      | some o => o.interfaces.contains t.name
      | none => false
    | .union => t.members.contains objectType
    | .scalar => false

end Schema

/-- The Boolean the argument `if` of `@skip` or `@include` stands for under the variable
values. -/
def Value.eval (variableValues : String → Bool) : Value → Option Bool
  | .boolean b => some b
  | .variable name => some (variableValues name)
  | .other _ => none

/-- A directive leaves its node out: `@skip(if: true)` or `@include(if: false)`. -/
def Directive.excludes (variableValues : String → Bool) (directive : Directive) : Bool :=
  let condition := directive.arguments.lookup "if" >>= Value.eval variableValues
  (directive.name == "skip" && condition == some true) ||
    (directive.name == "include" && condition == some false)

/-- The response key of a field: its alias, or else its name. -/
def Field.responseKey (f : Field) : String := f.«alias».getD f.name

namespace Document

variable (schema : Schema) (d : Document) (variableValues : String → Bool)
variable (objectType : String)

/-- One of the directives leaves the node out. -/
def excluded (directives : List Nat) : Bool :=
  directives.any fun ref => (d.directive ref).excludes variableValues

variable (collectSet : Nat → List String → List (String × Nat) × List String)

/-- The loop of `CollectFields` over the selections of one set, given how a nested selection
set is collected: each selected field under its response key, and the fragments spread so
far. -/
def collectSelections : List Nat → List String → List (String × Nat) × List String
  | [], visited => ([], visited)
  | ref :: refs, visited =>
    let s := d.selection ref
    let (here, visited) : List (String × Nat) × List String := match s.kind with
      | .field =>
        let f := d.field s.ref
        if d.excluded variableValues f.directives then ([], visited)
        else ([(f.responseKey, s.ref)], visited)
      | .fragmentSpread =>
        let spread := d.fragmentSpread s.ref
        if d.excluded variableValues spread.directives then ([], visited)
        else if spread.fragmentName ∈ visited then ([], visited)
        else
          let visited := visited ++ [spread.fragmentName]
          match d.fragmentDefinitions.find? (·.name == spread.fragmentName) with
          | none => ([], visited)
          | some fragment =>
            if schema.doesFragmentTypeApply objectType fragment.typeCondition &&
                fragment.hasSelections then collectSet fragment.selectionSet visited
            else ([], visited)
      | .inlineFragment =>
        let f := d.inlineFragment s.ref
        if f.hasDirectives && d.excluded variableValues f.directives then ([], visited)
        else if (f.typeCondition.all fun tc =>
            schema.doesFragmentTypeApply objectType (d.typeName tc)) && f.hasSelections then
          collectSet f.selectionSet visited
        else ([], visited)
      | .unknown => ([], visited)
    let (rest, visited) := collectSelections refs visited
    (here ++ rest, visited)

end Document

/-- `CollectFields` for an object of type `objectType`: the response key and index of each
field selected from the set `ref`, in order. -/
def Document.collectFieldsFrom (schema : Schema) (d : Document)
    (variableValues : String → Bool) (objectType : String) : Nat → Nat → List String → List (String × Nat) × List String
  | 0, _, visited => ([], visited)
  | fuel + 1, ref, visited =>
    d.collectSelections schema variableValues objectType
      (collectFieldsFrom schema d variableValues objectType fuel) (d.selectionRefs ref) visited

/-- `CollectFields` from a selection set, starting with no fragment spread. -/
def Document.collectFields (schema : Schema) (d : Document) (variableValues : String → Bool)
    (objectType : String) (fuel ref : Nat) : List (String × Nat) :=
  (d.collectFieldsFrom schema variableValues objectType fuel ref []).1

end Ast

end GraphQLTools
