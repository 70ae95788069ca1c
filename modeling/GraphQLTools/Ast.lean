import Mathlib.Data.List.Basic

/-!
# The operation document

`pkg/ast` keeps a GraphQL document as flat arrays of nodes that refer to each other by
index: a selection set holds the indices of its selections, a selection the kind and index of
a field, an inline fragment or a fragment spread, and those the index of their own selection
set (`src/pkg/ast/ast_selection.go`, `src/unnamed/part_000`). The normalization passes
rewrite a document through the surgery primitives below: they append new nodes at the end of
the arrays and change the selection lists of existing sets in place.

The arrays are lists. An index past the end of an array reads as the empty or default node
where the source would panic. A Go slice is modelled as the list of its elements, so the
aliasing of slices that share a backing array is not modelled; an `int` index is a `Nat`, and
the type condition `-1` of an inline fragment without one is `none`.

Some functions the primitives call live in files of `pkg/ast` that are not in the sources:
`CopyField`, `CopyFragmentSpread`, `CopyDirectiveList` and `AddNamedType`. They are modelled
from their names and their callers: a copy appends fresh nodes with the same content, and
`AddNamedType` appends a named type.

Copying follows the selection structure down, and nothing stops an index-based document from
being cyclic, so the copies take fuel: one unit per selection set copied. On a document whose
selection structure below the copied set is a finite tree, enough fuel gives the source's
result.
-/

namespace GraphQLTools

namespace Ast

/-! ## Nodes -/

/-- `SelectionKind`. -/
inductive SelectionKind where
  | unknown
  | field
  | fragmentSpread
  | inlineFragment
  deriving DecidableEq, Repr, Inhabited

/-- A `Selection`: which kind of node it is, and that node's index. -/
structure Selection where
  kind : SelectionKind
  ref : Nat
  deriving DecidableEq, Repr, Inhabited

/-- The value of an argument, as far as `@skip` and `@include` read it: a Boolean literal, a
variable, or anything else. -/
inductive Value where
  | boolean (b : Bool)
  | variable (name : String)
  | other (text : String)
  deriving DecidableEq, Repr, Inhabited

/-- A directive and its arguments. -/
structure Directive where
  name : String
  arguments : List (String × Value)
  deriving DecidableEq, Repr, Inhabited

/-- A field selection: its name, alias, arguments, directives and selection set. -/
structure Field where
  name : String
  «alias» : Option String
  arguments : List (String × Value)
  directives : List Nat
  hasSelections : Bool
  selectionSet : Nat
  deriving DecidableEq, Repr, Inhabited

/-- An `InlineFragment`; its type condition is the index of a named type. -/
structure InlineFragment where
  typeCondition : Option Nat
  hasDirectives : Bool
  directives : List Nat
  selectionSet : Nat
  hasSelections : Bool
  deriving DecidableEq, Repr, Inhabited

/-- A `FragmentSpread`. -/
structure FragmentSpread where
  fragmentName : String
  directives : List Nat
  deriving DecidableEq, Repr, Inhabited

/-- The kind of an operation, which picks its root type in the schema. -/
inductive OperationType where
  | query
  | mutation
  | subscription
  deriving DecidableEq, Repr, Inhabited

/-- An `OperationDefinition`: its kind and its selection set. -/
structure OperationDefinition where
  operationType : OperationType
  hasSelections : Bool
  selectionSet : Nat
  deriving DecidableEq, Repr, Inhabited

/-- A `FragmentDefinition`: its name, the name of its type condition, its selection set. -/
structure FragmentDefinition where
  name : String
  typeCondition : String
  hasSelections : Bool
  selectionSet : Nat
  deriving DecidableEq, Repr, Inhabited

/-- The kinds of `ast.Node` the passes meet. -/
inductive NodeKind where
  | operationDefinition
  | fragmentDefinition
  | selectionSet
  | field
  | inlineFragment
  | fragmentSpread
  deriving DecidableEq, Repr, Inhabited

/-- An `ast.Node`: a kind and an index into the array of that kind. -/
structure Node where
  kind : NodeKind
  ref : Nat
  deriving DecidableEq, Repr, Inhabited

/-- The arrays of a `Document` that the passes read and write: the selection list of each
selection set, the selections, fields, inline fragments, fragment spreads, directives and
named types, the definitions, and the root nodes the walker starts from. -/
structure Document where
  selectionSets : List (List Nat)
  selections : List Selection
  fields : List Field
  inlineFragments : List InlineFragment
  fragmentSpreads : List FragmentSpread
  directives : List Directive
  types : List String
  operationDefinitions : List OperationDefinition
  fragmentDefinitions : List FragmentDefinition
  rootNodes : List Node
  deriving DecidableEq, Repr

namespace Document

variable (d : Document)

/-! ## Reading -/

/-- The selection list of the set `ref`. -/
def selectionRefs (ref : Nat) : List Nat := d.selectionSets[ref]?.getD []

def selection (ref : Nat) : Selection := d.selections[ref]?.getD default

def field (ref : Nat) : Field := d.fields[ref]?.getD default

def inlineFragment (ref : Nat) : InlineFragment := d.inlineFragments[ref]?.getD default

def fragmentSpread (ref : Nat) : FragmentSpread := d.fragmentSpreads[ref]?.getD default

def directive (ref : Nat) : Directive := d.directives[ref]?.getD default

def operationDefinition (ref : Nat) : OperationDefinition :=
  d.operationDefinitions[ref]?.getD default

def fragmentDefinition (ref : Nat) : FragmentDefinition := d.fragmentDefinitions[ref]?.getD default

/-- The name of the named type `ref`. -/
def typeName (ref : Nat) : String := d.types[ref]?.getD ""

/-- `InlineFragmentTypeConditionName`: `nil`, here `none`, without a type condition. -/
def inlineFragmentTypeConditionName (ref : Nat) : Option String :=
  (d.inlineFragment ref).typeCondition.map d.typeName

/-! ## Appending nodes -/

/-- `AddSelectionSetToDocument`: the set is appended, and its index returned. -/
def addSelectionSetToDocument (set : List Nat) : Document × Nat :=
  ({ d with selectionSets := d.selectionSets ++ [set] }, d.selectionSets.length)

/-- `AddSelectionSet`: a new empty selection set. -/
def addSelectionSet : Document × Nat := d.addSelectionSetToDocument []

/-- `AddSelectionToDocument`. -/
def addSelectionToDocument (selection : Selection) : Document × Nat :=
  ({ d with selections := d.selections ++ [selection] }, d.selections.length)

/-- The selection list of the set `ref` becomes `refs`. -/
def setSelectionRefs (ref : Nat) (refs : List Nat) : Document :=
  { d with selectionSets := d.selectionSets.set ref refs }

/-- `AddSelection`: a new selection, appended to the list of the set `set`. -/
def addSelection (set : Nat) (selection : Selection) : Document :=
  let (d', ref) := d.addSelectionToDocument selection
  d'.setSelectionRefs set (d'.selectionRefs set ++ [ref])

/-- `AddInlineFragment`. -/
def addInlineFragment (fragment : InlineFragment) : Document × Nat :=
  ({ d with inlineFragments := d.inlineFragments ++ [fragment] }, d.inlineFragments.length)

/-- The inline fragment `ref` becomes `fragment`. -/
def setInlineFragment (ref : Nat) (fragment : InlineFragment) : Document :=
  { d with inlineFragments := d.inlineFragments.set ref fragment }

def addField (field : Field) : Document × Nat :=
  ({ d with fields := d.fields ++ [field] }, d.fields.length)

def addFragmentSpread (spread : FragmentSpread) : Document × Nat :=
  ({ d with fragmentSpreads := d.fragmentSpreads ++ [spread] }, d.fragmentSpreads.length)

def addDirective (directive : Directive) : Document × Nat :=
  ({ d with directives := d.directives ++ [directive] }, d.directives.length)

/-- `AddNamedType`: a new named type of the given name. -/
def addNamedType (name : String) : Document × Nat :=
  ({ d with types := d.types ++ [name] }, d.types.length)

end Document

/-! ## Copying -/

namespace Document

/-- `CopyDirectiveList`: a fresh copy of each directive. -/
def copyDirectiveList : Document → List Nat → Document × List Nat
  | d, [] => (d, [])
  | d, ref :: refs =>
    let (d, ref') := d.addDirective (d.directive ref)
    let (d, refs') := copyDirectiveList d refs
    (d, ref' :: refs')

variable (copySet : Document → Nat → Document × Nat)

/-- `CopyField`, given how a selection set is copied: the same name, alias and arguments,
fresh copies of the directives, and a copy of the selection set when it has one. -/
def copyFieldWith (d : Document) (ref : Nat) : Document × Nat :=
  let f := d.field ref
  let (d, directives) := d.copyDirectiveList f.directives
  let (d, selectionSet) := if f.hasSelections then copySet d f.selectionSet else (d, 0)
  d.addField { f with directives := directives, selectionSet := selectionSet }

/-- `CopyFragmentSpread`: the same fragment name and fresh copies of the directives. -/
def copyFragmentSpread (d : Document) (ref : Nat) : Document × Nat :=
  let s := d.fragmentSpread ref
  let (d, directives) := d.copyDirectiveList s.directives
  d.addFragmentSpread { s with directives := directives }

/-- `CopyInlineFragment`, given how a selection set is copied. -/
def copyInlineFragmentWith (d : Document) (ref : Nat) : Document × Nat :=
  let f := d.inlineFragment ref
  let (d, directives) := if f.hasDirectives then d.copyDirectiveList f.directives else (d, [])
  let (d, selectionSet) := if f.hasSelections then copySet d f.selectionSet else (d, 0)
  d.addInlineFragment
    { typeCondition := f.typeCondition
      hasDirectives := f.hasDirectives
      directives := directives
      selectionSet := selectionSet
      hasSelections := f.hasSelections }

/-- `CopySelection`, given how a selection set is copied; a selection of unknown kind copies
to reference `0`, the source's `-1`. -/
def copySelectionWith (d : Document) (ref : Nat) : Document × Nat :=
  let s := d.selection ref
  let (d, innerRef) := match s.kind with
    | .field => copyFieldWith copySet d s.ref
    | .fragmentSpread => d.copyFragmentSpread s.ref
    | .inlineFragment => copyInlineFragmentWith copySet d s.ref
    | .unknown => (d, 0)
  d.addSelectionToDocument { kind := s.kind, ref := innerRef }

/-- The loop of `CopySelectionSet`: a copy of each selection, in order. -/
def copySelections : Document → List Nat → Document × List Nat
  | d, [] => (d, [])
  | d, ref :: refs =>
    let (d, ref') := copySelectionWith copySet d ref
    let (d, refs') := copySelections d refs
    (d, ref' :: refs')

end Document

/-- `CopySelectionSet`, with `fuel` selection sets left to copy; out of fuel it makes an empty
set. -/
def Document.copySelectionSet : Nat → Document → Nat → Document × Nat
  | 0, d, _ => d.addSelectionSetToDocument []
  | fuel + 1, d, ref =>
    let (d', refs) := d.copySelections (copySelectionSet fuel) (d.selectionRefs ref)
    d'.addSelectionSetToDocument refs

namespace Document

variable (d : Document) (fuel : Nat)

/-- `CopySelection`. -/
def copySelection (ref : Nat) : Document × Nat := copySelectionWith (copySelectionSet fuel) d ref

/-- `CopyInlineFragment`. -/
def copyInlineFragment (ref : Nat) : Document × Nat :=
  copyInlineFragmentWith (copySelectionSet fuel) d ref

/-! ## Selection-set surgery -/

/-- `SelectionIndex`: the position in the set `set` of the first selection of the given kind
and reference, and whether there is one; `(0, false)` when there is none. -/
def selectionIndex (kind : SelectionKind) (ref set : Nat) : Nat × Bool :=
  match (d.selectionRefs set).findIdx? (fun s => d.selection s == ⟨kind, ref⟩) with
  | some i => (i, true)
  | none => (0, false)

/-- `ReplaceSelectionOnSelectionSet`: the selection at `replace` in the set `ref` gives way to
the selections of the set `with`. -/
def replaceSelectionOnSelectionSet (ref replace «with» : Nat) : Document :=
  d.setSelectionRefs ref ((d.selectionRefs ref).take replace ++
    (d.selectionRefs «with» ++ (d.selectionRefs ref).drop (replace + 1)))

/-- `RemoveFromSelectionSet`. -/
def removeFromSelectionSet (ref index : Nat) : Document :=
  d.setSelectionRefs ref ((d.selectionRefs ref).take index ++ (d.selectionRefs ref).drop (index + 1))

/-- `AppendSelectionSet`. -/
def appendSelectionSet (ref appendRef : Nat) : Document :=
  d.setSelectionRefs ref (d.selectionRefs ref ++ d.selectionRefs appendRef)

/-- `EmptySelectionSet`. -/
def emptySelectionSet (ref : Nat) : Document := d.setSelectionRefs ref []

end Document

/-! ## Expanding abstract types -/

namespace Document

/-- The loop of `ExpandInterfaceInlineFragment`: for each type name, a copy of the fragment
`inlineFragment` with that type condition, added to the set `replacement`. -/
def expandTypeNames (fuel inlineFragment replacement : Nat) : Document → List String → Document
  | d, [] => d
  | d, typeName :: rest =>
    let (d, namedType) := d.addNamedType typeName
    let (d, newInlineFragment) := d.copyInlineFragment fuel inlineFragment
    let d := d.setInlineFragment newInlineFragment
      { d.inlineFragment newInlineFragment with typeCondition := some namedType }
    expandTypeNames fuel inlineFragment replacement
      (d.addSelection replacement ⟨.inlineFragment, newInlineFragment⟩) rest

variable (d : Document) (fuel : Nat)

/-- `ExpandInterfaceInlineFragment`: the fragment gives way, in its parent, to one copy of
itself per concrete type name, each with that type condition. -/
def expandInterfaceInlineFragment (inlineFragment parentSelectionSet : Nat)
    (concreteTypeNames : List String) : Document :=
  let (d, replacementSelectionSet) := d.addSelectionSet
  let d := d.expandTypeNames fuel inlineFragment replacementSelectionSet concreteTypeNames
  let (index, _) := d.selectionIndex .inlineFragment inlineFragment parentSelectionSet
  d.replaceSelectionOnSelectionSet parentSelectionSet index replacementSelectionSet

/-- `PromoteUnionInlineFragments`: the fragment gives way, in its parent, to the selections of
its own selection set. -/
def promoteUnionInlineFragments (inlineFragment parentSelectionSet : Nat) : Document :=
  let (index, _) := d.selectionIndex .inlineFragment inlineFragment parentSelectionSet
  d.replaceSelectionOnSelectionSet parentSelectionSet index
    (d.inlineFragment inlineFragment).selectionSet

end Document

/-- `literal.TYPENAME`. -/
def typenameField : String := "__typename"

namespace Document

/-- The first loop of `ExpandInterfaceSelectionSet`, from the last selection of the set `set`
down to the first: each field other than `__typename` leaves the set and is appended to the
set `staging`. `i` selections are left to look at. -/
def moveFields (set staging : Nat) : Document → Nat → Document
  | d, 0 => d
  | d, i + 1 =>
    let selection := (d.selectionRefs set).getD i 0
    let d' :=
      if (d.selection selection).kind != .field then d
      else if (d.field (d.selection selection).ref).name == typenameField then d
      else (d.removeFromSelectionSet set i).setSelectionRefs staging
        (d.selectionRefs staging ++ [selection])
    moveFields set staging d' i

/-- One turn of the second loop: `refs[i], refs[len(refs)-1] = refs[len(refs)-1], refs[i]`.
It is stated for any list, so that it applies to the views of the references as well. -/
def swapWithLast {α : Type} [Inhabited α] (refs : List α) (i : Nat) : List α :=
  (refs.set i (refs.getD (refs.length - 1) default)).set (refs.length - 1) (refs.getD i default)

/-- The second loop, which the source calls a reversal: `i` runs from `0` below
`len(refs)/2`. -/
def reverseRefs {α : Type} [Inhabited α] (refs : List α) : List α :=
  (List.range (refs.length / 2)).foldl swapWithLast refs

/-- The third loop: for each type name, a new inline fragment with that type condition whose
selection set is a copy of the set `staging`, added to the set `selectionSetToAdd`. -/
def addTypeFragments (fuel staging selectionSetToAdd : Nat) : Document → List String → Document
  | d, [] => d
  | d, typeName :: rest =>
    let (d, namedType) := d.addNamedType typeName
    let (d, copy) := d.copySelectionSet fuel staging
    let (d, newInlineFragment) := d.addInlineFragment
      { typeCondition := some namedType
        hasDirectives := false
        directives := []
        selectionSet := copy
        hasSelections := true }
    addTypeFragments fuel staging selectionSetToAdd
      (d.addSelection selectionSetToAdd ⟨.inlineFragment, newInlineFragment⟩) rest

variable (d : Document) (fuel : Nat)

/-- `ExpandInterfaceSelectionSet`: the fields of the set other than `__typename` move into a
staging set; when there are some, one inline fragment per concrete type name, each over a copy
of the staging set, is appended to the set. -/
def expandInterfaceSelectionSet (set : Nat) (concreteTypeNames : List String) : Document :=
  let (d, selectionSetToAdd) := d.addSelectionSet
  let (d, inlineFragmentSelectionSet) := d.addSelectionSet
  let d := d.moveFields set inlineFragmentSelectionSet (d.selectionRefs set).length
  if d.selectionRefs inlineFragmentSelectionSet = [] then d
  else
    let d := d.setSelectionRefs inlineFragmentSelectionSet
      (reverseRefs (d.selectionRefs inlineFragmentSelectionSet))
    let d := d.addTypeFragments fuel inlineFragmentSelectionSet selectionSetToAdd
      concreteTypeNames
    d.appendSelectionSet set selectionSetToAdd

end Document

end Ast

end GraphQLTools
