import GraphQLTools.Ast
import Mathlib.Data.List.Nodup

/-!
# The schema and the walk

The normalization passes read the schema (the `definition` document) for two things: the type
a field or a type condition names, which becomes the walker's enclosing type, and the list
`ConcreteInterfaceImplementationTypeNames` of an interface. Neither the schema's index nor
the walker (`pkg/astvisitor`) is in the sources, so both are modelled on what the visitors
read from them.

The walker goes through the root nodes of the operation document in order, and into each
operation and fragment definition, field and inline fragment that has selections. When it
enters a selection set it shows the visitors the set, its ancestors, the enclosing type and
its depth. Every `walk…` function raises the depth by one, so a selection set lies two levels
below the set that holds the field or inline fragment that owns it. A fragment spread is not
followed: the fragment definition is walked on its own, as a root node.

A field the enclosing type does not define, or a type condition that names no type, stops the
walker with an error; the walk is then `none`. Without a `LeaveDocument` the passes then
apply nothing. The walk takes fuel, one unit per selection set entered, since an index-based
document could be cyclic.

A successful walk is a tree of visits (`walk_tree`): below the root set of each definition,
every visit is `Visit.child?` of a selection of another visit, the visit of the set of the
field or inline fragment that selection names, and the walk goes through every selection of a
visited set (`walk_child`). When it enters no set twice, no two selections of one set share
their child (`walk_child_unique`).
-/

namespace GraphQLTools

namespace Ast

/-! ## The schema -/

/-- The kinds of type definition the passes tell apart. -/
inductive TypeKind where
  | object
  | interface
  | union
  | scalar
  deriving DecidableEq, Repr, Inhabited

/-- A type definition of the schema: its name and kind, the fields it defines with the name
of each one's type (lists and non-null wrappers removed), the interfaces an object type
implements and the members of a union. -/
structure TypeDefinition where
  name : String
  kind : TypeKind
  fields : List (String × String)
  interfaces : List String
  members : List String
  deriving DecidableEq, Repr, Inhabited

/-- The name of the type of a field on the enclosing type; `__typename` is a `String` on every
type. -/
def TypeDefinition.fieldTypeName (enclosing : TypeDefinition) (fieldName : String) :
    Option String :=
  if fieldName = typenameField then some "String" else enclosing.fields.lookup fieldName

/-- The schema, as far as the walker and the passes read it. -/
structure Schema where
  types : List TypeDefinition
  rootTypeName : OperationType → String
  concreteInterfaceImplementationTypeNames : String → List String

namespace Schema

variable (schema : Schema)

/-- The definition of the type of the given name, as the index finds it. -/
def typeDefinition (name : String) : Option TypeDefinition := schema.types.find? (·.name == name)

/-- The type the walker gives the selection set of the field `name` on `enclosing`. -/
def fieldType (enclosing : TypeDefinition) (name : String) : Option TypeDefinition :=
  enclosing.fieldTypeName name >>= schema.typeDefinition

/-- The type the walker gives the selection set of an inline fragment with the type condition
`typeCondition` inside `enclosing`. -/
def conditionType (enclosing : TypeDefinition) : Option String → Option TypeDefinition
  | none => some enclosing
  | some name => schema.typeDefinition name

/-- The interfaces' implementation lists are exact: an object type is listed for an interface
exactly when it implements it. -/
@[reducible] def ImplementationsExact : Prop :=
  ∀ i ∈ schema.types, i.kind = .interface →
    (∀ o ∈ schema.concreteInterfaceImplementationTypeNames i.name,
      ∃ t ∈ schema.types, t.name = o ∧ t.kind = .object ∧ i.name ∈ t.interfaces) ∧
    ∀ t ∈ schema.types, t.kind = .object → i.name ∈ t.interfaces →
      t.name ∈ schema.concreteInterfaceImplementationTypeNames i.name

end Schema

/-! ## The walk -/

/-- What the walker shows a visitor entering a selection set: the set, its ancestors
(innermost first, where the source's `Ancestors` has them last), the enclosing type and the
depth. -/
structure Visit where
  ref : Nat
  ancestors : List Node
  enclosingTypeDefinition : TypeDefinition
  depth : Nat
  deriving DecidableEq, Repr

namespace Document

variable (schema : Schema) (d : Document)
variable (walkSet : List Node → TypeDefinition → Nat → Nat → Option (List Visit))

/-- `walkField` and `walkInlineFragment`, given how a selection set is walked: the node
becomes an ancestor, the enclosing type becomes the field's type or the fragment's type
condition, and the node's selection set is walked if it has one. -/
def walkSelectionWith (ancestors : List Node) (enclosing : TypeDefinition) (depth : Nat)
    (ref : Nat) : Option (List Visit) :=
  let s := d.selection ref
  match s.kind with
  | .field =>
    let f := d.field s.ref
    match enclosing.fieldTypeName f.name >>= schema.typeDefinition with
    | none => none
    | some t =>
      if f.hasSelections then walkSet (⟨.field, s.ref⟩ :: ancestors) t (depth + 1) f.selectionSet
      else some []
  | .inlineFragment =>
    let f := d.inlineFragment s.ref
    let condition := match f.typeCondition with
      | none => some enclosing
      | some tc => schema.typeDefinition (d.typeName tc)
    match condition with
    | none => none
    | some t =>
      if f.hasSelections then
        walkSet (⟨.inlineFragment, s.ref⟩ :: ancestors) t (depth + 1) f.selectionSet
      else some []
  | .fragmentSpread | .unknown => some []

/-- The selections of a set, walked in order. -/
def walkSelections (ancestors : List Node) (enclosing : TypeDefinition) (depth : Nat) :
    List Nat → Option (List Visit)
  | [] => some []
  | ref :: refs => do
    let vs ← d.walkSelectionWith schema walkSet ancestors enclosing depth ref
    let vs' ← walkSelections ancestors enclosing depth refs
    pure (vs ++ vs')

end Document

/-- `walkSelectionSet`: the visit of the set itself, then the walk of its selections. -/
def Document.walkSelectionSet (schema : Schema) (d : Document) :
    Nat → List Node → TypeDefinition → Nat → Nat → Option (List Visit)
  | 0, _, _, _, _ => none
  | fuel + 1, ancestors, enclosing, depth, ref =>
    (d.walkSelections schema (walkSelectionSet schema d fuel) (⟨.selectionSet, ref⟩ :: ancestors)
      enclosing (depth + 1) (d.selectionRefs ref)).map
      fun vs => ⟨ref, ancestors, enclosing, depth + 1⟩ :: vs

namespace Document

variable (schema : Schema) (d : Document) (fuel : Nat)

/-- `walkOperationDefinition` and `walkFragmentDefinition`: the root type of the operation,
or the fragment's type condition, is the enclosing type of its selection set. -/
def walkRootNode (node : Node) : Option (List Visit) :=
  let walkDefinition (typeName : String) (hasSelections : Bool) (selectionSet : Nat) :=
    match schema.typeDefinition typeName with
    | none => none
    | some t => if hasSelections then d.walkSelectionSet schema fuel [node] t 1 selectionSet
      else some []
  match node.kind with
  | .operationDefinition =>
    let o := d.operationDefinition node.ref
    walkDefinition (schema.rootTypeName o.operationType) o.hasSelections o.selectionSet
  | .fragmentDefinition =>
    let f := d.fragmentDefinition node.ref
    walkDefinition f.typeCondition f.hasSelections f.selectionSet
  | _ => some []

/-- The root nodes walked in order. -/
def walkRootNodes : List Node → Option (List Visit)
  | [] => some []
  | node :: nodes => do
    let vs ← d.walkRootNode schema fuel node
    let vs' ← walkRootNodes nodes
    pure (vs ++ vs')

/-- The visits of a whole walk, in order; `none` when the walker stops with an error. -/
def walk : Option (List Visit) := d.walkRootNodes schema fuel d.rootNodes

end Document

/-! ## What a walk shows -/

/-- The selection a field or inline fragment ancestor stands for. -/
def Node.selection? : Node → Option Selection
  | ⟨.field, ref⟩ => some ⟨.field, ref⟩
  | ⟨.inlineFragment, ref⟩ => some ⟨.inlineFragment, ref⟩
  | _ => none

/-- An operation or a fragment definition, the root nodes the walker enters. -/
def Node.IsDefinition (node : Node) : Prop :=
  node.kind = .operationDefinition ∨ node.kind = .fragmentDefinition

/-- The selection set a field or an inline fragment owns. -/
def Document.ownedSelectionSet (d : Document) : Node → Nat
  | ⟨.field, ref⟩ => (d.field ref).selectionSet
  | ⟨.inlineFragment, ref⟩ => (d.inlineFragment ref).selectionSet
  | _ => 0

/-- A visit below the root set of its definition: the visit of the set owned by its innermost
ancestor `node`, a field or inline fragment held by a selection of the set `parent`, which
the walk entered two levels higher. -/
def Visit.Nested (d : Document) (visits : List Visit) (v : Visit) : Prop :=
  ∃ node parent rest, v.ancestors = node :: ⟨.selectionSet, parent⟩ :: rest ∧
    (∃ w ∈ visits, w.ref = parent ∧ w.ancestors = rest ∧ w.depth + 2 = v.depth) ∧
    (∃ j ∈ d.selectionRefs parent, node.selection? = some (d.selection j)) ∧
    v.ref = d.ownedSelectionSet node

theorem Visit.Nested.mono {d : Document} {vs vs' : List Visit} {v : Visit} (h : v.Nested d vs)
    (hs : vs ⊆ vs') : v.Nested d vs' :=
  let ⟨node, parent, rest, ha, ⟨w, hw, hw'⟩, hj, hr⟩ := h
  ⟨node, parent, rest, ha, ⟨w, hs hw, hw'⟩, hj, hr⟩

/-- A walk of a selection set: the visit of the set, then visits nested below it. -/
def WalkShape (d : Document) (ancestors : List Node) (enclosing : TypeDefinition)
    (depth ref : Nat) (vs : List Visit) : Prop :=
  ∃ tail, vs = ⟨ref, ancestors, enclosing, depth + 1⟩ :: tail ∧ ∀ v ∈ tail, v.Nested d vs

section Walk

variable {schema : Schema} {d : Document}
variable {walkSet : List Node → TypeDefinition → Nat → Nat → Option (List Visit)}

/-- The visits a walk entered from a selection of `parent` makes are nested in `parent`. -/
theorem walkSelectionWith_nested
    (hw : ∀ ancestors enclosing depth ref vs, walkSet ancestors enclosing depth ref = some vs →
      WalkShape d ancestors enclosing depth ref vs)
    {parent ref depth : Nat} {rest : List Node} {enclosing : TypeDefinition} {vs L : List Visit}
    (hj : ref ∈ d.selectionRefs parent)
    (h : d.walkSelectionWith schema walkSet (⟨.selectionSet, parent⟩ :: rest) enclosing depth ref =
      some vs)
    (hhead : ∃ w ∈ L, w.ref = parent ∧ w.ancestors = rest ∧ w.depth = depth) (hvs : vs ⊆ L) :
    ∀ v ∈ vs, v.Nested d L := by
  obtain ⟨w, hwL, hwr, hwa, hwd⟩ := hhead
  -- a walk entered from the selection `ref`, of the node it owns
  have child : ∀ node, node.selection? = some (d.selection ref) →
      ∀ t, walkSet (node :: ⟨.selectionSet, parent⟩ :: rest) t (depth + 1)
        (d.ownedSelectionSet node) = some vs → ∀ v ∈ vs, v.Nested d L := by
    intro node hn t hs v hv
    obtain ⟨tail, rfl, htail⟩ := hw _ _ _ _ _ hs
    rcases List.mem_cons.mp hv with rfl | hv
    · exact ⟨node, parent, rest, rfl, ⟨w, hwL, hwr, hwa, by simp [hwd]⟩, ⟨ref, hj, hn⟩, rfl⟩
    · exact (htail v hv).mono hvs
  rcases hs : d.selection ref with ⟨kind, sref⟩
  cases kind with
  | unknown | fragmentSpread =>
    simp only [Document.walkSelectionWith, hs] at h
    cases h; simp
  | field =>
    simp only [Document.walkSelectionWith, hs] at h
    split at h
    · cases h
    · split at h
      · exact child ⟨.field, sref⟩ (by simp [Node.selection?, hs]) _ h
      · cases h; simp
  | inlineFragment =>
    simp only [Document.walkSelectionWith, hs] at h
    split at h
    · cases h
    · split at h
      · exact child ⟨.inlineFragment, sref⟩ (by simp [Node.selection?, hs]) _ h
      · cases h; simp

theorem walkSelections_nested
    (hw : ∀ ancestors enclosing depth ref vs, walkSet ancestors enclosing depth ref = some vs →
      WalkShape d ancestors enclosing depth ref vs)
    {parent depth : Nat} {rest : List Node} {enclosing : TypeDefinition} {L : List Visit}
    (hhead : ∃ w ∈ L, w.ref = parent ∧ w.ancestors = rest ∧ w.depth = depth) :
    ∀ (refs : List Nat) (vs : List Visit), (∀ r ∈ refs, r ∈ d.selectionRefs parent) →
      d.walkSelections schema walkSet (⟨.selectionSet, parent⟩ :: rest) enclosing depth refs =
        some vs → vs ⊆ L → ∀ v ∈ vs, v.Nested d L
  | [], vs, _, h, _ => by cases h; simp
  | ref :: refs, vs, hr, h, hL => by
    simp only [Document.walkSelections, Option.bind_eq_bind, Option.bind_eq_some, pure,
      Option.some.injEq] at h
    obtain ⟨vs1, h1, vs2, h2, rfl⟩ := h
    intro v hv
    rcases List.mem_append.mp hv with hv | hv
    · exact walkSelectionWith_nested hw (hr ref (List.mem_cons_self _ _)) h1 hhead
        (fun x hx => hL (List.mem_append_left _ hx)) v hv
    · exact walkSelections_nested hw hhead refs vs2 (fun r hr' => hr r (List.mem_cons_of_mem _ hr'))
        h2 (fun x hx => hL (List.mem_append_right _ hx)) v hv

theorem walkSelectionSet_shape : ∀ fuel ancestors enclosing depth ref vs,
    d.walkSelectionSet schema fuel ancestors enclosing depth ref = some vs →
      WalkShape d ancestors enclosing depth ref vs
  | 0, _, _, _, _, _, h => by cases h
  | fuel + 1, ancestors, enclosing, depth, ref, vs, h => by
    simp only [Document.walkSelectionSet, Option.map_eq_some'] at h
    obtain ⟨ws, hws, rfl⟩ := h
    exact ⟨ws, rfl, walkSelections_nested (walkSelectionSet_shape fuel)
      ⟨_, List.mem_cons_self _ _, rfl, rfl, rfl⟩ _ _ (fun _ hr => hr) hws
      (List.subset_cons_self _ _)⟩

theorem walkRootNode_shape {fuel : Nat} {node : Node} {vs : List Visit}
    (h : d.walkRootNode schema fuel node = some vs) :
    ∀ v ∈ vs, (v.ancestors = [node] ∧ node.IsDefinition) ∨ v.Nested d vs := by
  have root : node.IsDefinition → ∀ t ref, d.walkSelectionSet schema fuel [node] t 1 ref = some vs →
      ∀ v ∈ vs, (v.ancestors = [node] ∧ node.IsDefinition) ∨ v.Nested d vs := by
    intro hn t ref hs v hv
    obtain ⟨tail, rfl, htail⟩ := walkSelectionSet_shape _ _ _ _ _ _ hs
    rcases List.mem_cons.mp hv with rfl | hv
    · exact .inl ⟨rfl, hn⟩
    · exact .inr (htail v hv)
  rcases node with ⟨kind, ref⟩
  cases kind <;> simp only [Document.walkRootNode] at h
  all_goals first
    | (cases h; simp)
    | (split at h
       · cases h
       · split at h
         · first | exact root (.inl rfl) _ _ h | exact root (.inr rfl) _ _ h
         · cases h; simp)

theorem walkRootNodes_shape {fuel : Nat} : ∀ (nodes : List Node) (vs : List Visit),
    d.walkRootNodes schema fuel nodes = some vs →
      ∀ v ∈ vs, (∃ node, v.ancestors = [node] ∧ node.IsDefinition) ∨ v.Nested d vs
  | [], vs, h => by cases h; simp
  | node :: nodes, vs, h => by
    simp only [Document.walkRootNodes, Option.bind_eq_bind, Option.bind_eq_some, pure,
      Option.some.injEq] at h
    obtain ⟨vs1, h1, vs2, h2, rfl⟩ := h
    intro v hv
    rcases List.mem_append.mp hv with hv | hv
    · exact (walkRootNode_shape h1 v hv).imp (fun h => ⟨node, h⟩)
        (·.mono fun _ => List.mem_append_left _)
    · exact (walkRootNodes_shape nodes vs2 h2 v hv).imp id (·.mono fun _ => List.mem_append_right _)

/-- **Every visit but a root's is nested**: the walk enters the root set of an operation or
fragment definition, and below it the sets owned by fields and inline fragments held by the
set entered two levels higher. -/
theorem walk_nested {fuel : Nat} {visits : List Visit} (h : d.walk schema fuel = some visits) :
    ∀ v ∈ visits, (∃ node, v.ancestors = [node] ∧ node.IsDefinition) ∨ v.Nested d visits :=
  walkRootNodes_shape _ _ h

end Walk

/-! ## The walk as a tree of visits -/

/-- The visit the walker makes of the set below the selection `j` of the set `w` visits: the
set of the field or inline fragment `j` names, with that node as its innermost ancestor and
the type the walker gives it, two levels deeper; `none` when the node has no selections, or
its type is not found. -/
def Visit.child? (schema : Schema) (d : Document) (w : Visit) (j : Nat) : Option Visit :=
  let s := d.selection j
  let enter (node : Node) (t : Option TypeDefinition) (hasSelections : Bool) (ref : Nat) :=
    if hasSelections then
      t.map fun t => (⟨ref, node :: ⟨.selectionSet, w.ref⟩ :: w.ancestors, t, w.depth + 2⟩ : Visit)
    else none
  match s.kind with
  | .field =>
    let f := d.field s.ref
    enter ⟨.field, s.ref⟩ (schema.fieldType w.enclosingTypeDefinition f.name) f.hasSelections
      f.selectionSet
  | .inlineFragment =>
    let f := d.inlineFragment s.ref
    enter ⟨.inlineFragment, s.ref⟩
      (schema.conditionType w.enclosingTypeDefinition (f.typeCondition.map d.typeName))
      f.hasSelections f.selectionSet
  | _ => none

/-- The walker goes through the selection `j` of a set whose enclosing type is `enclosing`:
the type of the field, or the type condition of the inline fragment, it names is found. -/
def Document.Resolves (schema : Schema) (d : Document) (enclosing : TypeDefinition) (j : Nat) :
    Prop :=
  match (d.selection j).kind with
  | .field => (schema.fieldType enclosing (d.field (d.selection j).ref).name).isSome
  | .inlineFragment => (schema.conditionType enclosing
      ((d.inlineFragment (d.selection j).ref).typeCondition.map d.typeName)).isSome
  | _ => True

namespace Document

section Tree

variable {schema : Schema} {d : Document}

/-- **One selection of a walked set.** The walk goes through the selection `j` of the set `w`
visits exactly when `j` resolves, and then it is the walk of the set of `w.child? j`, or no
visit when there is none. -/
theorem walkSelectionWith_eq_some_iff {g : Nat} {w : Visit} {j : Nat} {vs : List Visit} :
    d.walkSelectionWith schema (d.walkSelectionSet schema g)
        (⟨.selectionSet, w.ref⟩ :: w.ancestors) w.enclosingTypeDefinition w.depth j = some vs ↔
      d.Resolves schema w.enclosingTypeDefinition j ∧
        (w.child? schema d j).elim (vs = []) fun y =>
          d.walkSelectionSet schema g y.ancestors y.enclosingTypeDefinition (w.depth + 1) y.ref =
            some vs := by
  unfold walkSelectionWith Resolves Visit.child?
  rcases d.selection j with ⟨kind, ref⟩
  cases kind with
  | field =>
    dsimp only
    rw [show (w.enclosingTypeDefinition.fieldTypeName (d.field ref).name >>= schema.typeDefinition) =
      schema.fieldType w.enclosingTypeDefinition (d.field ref).name from rfl]
    rcases schema.fieldType w.enclosingTypeDefinition (d.field ref).name with _ | t <;>
      cases (d.field ref).hasSelections <;> simp [eq_comm]
  | inlineFragment =>
    dsimp only
    rcases (d.inlineFragment ref).typeCondition with _ | tc
    · cases (d.inlineFragment ref).hasSelections <;> simp [Schema.conditionType, eq_comm]
    · dsimp only [Option.map, Schema.conditionType]
      rcases schema.typeDefinition (d.typeName tc) with _ | t <;>
        cases (d.inlineFragment ref).hasSelections <;> simp [eq_comm]
  | fragmentSpread | unknown => simp [eq_comm]

theorem child?_field {w : Visit} {j f : Nat} (h : d.selection j = ⟨.field, f⟩) :
    w.child? schema d j = if (d.field f).hasSelections then
      (schema.fieldType w.enclosingTypeDefinition (d.field f).name).map fun t =>
        ⟨(d.field f).selectionSet, ⟨.field, f⟩ :: ⟨.selectionSet, w.ref⟩ :: w.ancestors, t,
          w.depth + 2⟩
    else none := by
  simp only [Visit.child?, h]

theorem child?_inlineFragment {w : Visit} {j f : Nat} (h : d.selection j = ⟨.inlineFragment, f⟩) :
    w.child? schema d j = if (d.inlineFragment f).hasSelections then
      (schema.conditionType w.enclosingTypeDefinition
          ((d.inlineFragment f).typeCondition.map d.typeName)).map fun t =>
        ⟨(d.inlineFragment f).selectionSet, ⟨.inlineFragment, f⟩ :: ⟨.selectionSet, w.ref⟩ ::
          w.ancestors, t, w.depth + 2⟩
    else none := by
  simp only [Visit.child?, h]

/-- The child of a selection depends on the selection only through the node it names. -/
theorem child?_congr {w : Visit} {j k : Nat} (h : d.selection j = d.selection k) :
    w.child? schema d j = w.child? schema d k := by
  simp only [Visit.child?, h]

/-- The child of a selection is the set below the node it names, one level of the walk below
the set that holds it. -/
theorem child?_eq_some {w y : Visit} {j : Nat} (h : w.child? schema d j = some y) :
    y.depth = w.depth + 2 ∧ ∃ node, y.ancestors = node :: ⟨.selectionSet, w.ref⟩ :: w.ancestors ∧
      node.selection? = some (d.selection j) ∧ y.ref = d.ownedSelectionSet node := by
  rcases hs : d.selection j with ⟨kind, f⟩
  cases kind with
  | field =>
    rw [child?_field hs] at h
    split at h
    · obtain ⟨_, -, rfl⟩ := Option.map_eq_some'.mp h
      exact ⟨rfl, _, rfl, rfl, rfl⟩
    · cases h
  | inlineFragment =>
    rw [child?_inlineFragment hs] at h
    split at h
    · obtain ⟨_, -, rfl⟩ := Option.map_eq_some'.mp h
      exact ⟨rfl, _, rfl, rfl, rfl⟩
    · cases h
  | fragmentSpread | unknown => simp [Visit.child?, hs] at h

theorem walkSelectionSet_eq_some {g : Nat} {ancestors : List Node} {enclosing : TypeDefinition}
    {depth ref : Nat} {vs : List Visit}
    (h : d.walkSelectionSet schema g ancestors enclosing depth ref = some vs) :
    ∃ g' tail, g = g' + 1 ∧ vs = ⟨ref, ancestors, enclosing, depth + 1⟩ :: tail ∧
      d.walkSelections schema (d.walkSelectionSet schema g') (⟨.selectionSet, ref⟩ :: ancestors)
        enclosing (depth + 1) (d.selectionRefs ref) = some tail := by
  cases g with
  | zero => cases h
  | succ g =>
    obtain ⟨tail, htail, rfl⟩ := Option.map_eq_some'.mp h
    exact ⟨g, tail, rfl, rfl, htail⟩

variable {walkSet : List Node → TypeDefinition → Nat → Nat → Option (List Visit)}
  {ancestors : List Node} {enclosing : TypeDefinition} {depth : Nat}

theorem walkSelections_append : ∀ {l₁ l₂ : List Nat} {vs : List Visit},
    d.walkSelections schema walkSet ancestors enclosing depth (l₁ ++ l₂) = some vs ↔
      ∃ vs₁ vs₂, d.walkSelections schema walkSet ancestors enclosing depth l₁ = some vs₁ ∧
        d.walkSelections schema walkSet ancestors enclosing depth l₂ = some vs₂ ∧ vs = vs₁ ++ vs₂
  | [], l₂, vs => by simp [walkSelections]
  | j :: l₁, l₂, vs => by
    simp only [List.cons_append, walkSelections, Option.bind_eq_bind, Option.bind_eq_some, pure,
      Option.some.injEq]
    constructor
    · rintro ⟨a, ha, bc, hbc, rfl⟩
      obtain ⟨b, c, hb, hc, rfl⟩ := walkSelections_append.mp hbc
      exact ⟨a ++ b, c, ⟨a, ha, b, hb, rfl⟩, hc, by simp⟩
    · rintro ⟨_, c, ⟨a, ha, b, hb, rfl⟩, hc, rfl⟩
      exact ⟨a, ha, b ++ c, walkSelections_append.mpr ⟨b, c, hb, hc, rfl⟩, by simp⟩

theorem walkSelections_mem : ∀ {l : List Nat} {vs : List Visit},
    d.walkSelections schema walkSet ancestors enclosing depth l = some vs → ∀ j ∈ l,
      ∃ vs', d.walkSelectionWith schema walkSet ancestors enclosing depth j = some vs' ∧ vs'.Sublist vs
  | [], _, _, _, hj => absurd hj (List.not_mem_nil _)
  | k :: l, vs, h, j, hj => by
    simp only [walkSelections, Option.bind_eq_bind, Option.bind_eq_some, pure,
      Option.some.injEq] at h
    obtain ⟨a, ha, b, hb, rfl⟩ := h
    rcases List.mem_cons.mp hj with rfl | hj
    · exact ⟨a, ha, List.sublist_append_left a b⟩
    · obtain ⟨vs', h', hs⟩ := walkSelections_mem hb j hj
      exact ⟨vs', h', hs.trans (List.sublist_append_right a b)⟩

end Tree

section Subwalks

variable {schema : Schema} {d : Document}

/-- The visit of a set heads the walk of its set, and the child of each of its selections is
visited in that walk. -/
theorem mem_walkSelections_of_child? {g : Nat} {w y : Visit} {j : Nat} {vs : List Visit}
    (h : d.walkSelections schema (d.walkSelectionSet schema g) (⟨.selectionSet, w.ref⟩ :: w.ancestors)
      w.enclosingTypeDefinition w.depth (d.selectionRefs w.ref) = some vs)
    (hj : j ∈ d.selectionRefs w.ref) (hy : w.child? schema d j = some y) :
    d.Resolves schema w.enclosingTypeDefinition j ∧ y ∈ vs := by
  obtain ⟨vs', h', hs⟩ := walkSelections_mem h j hj
  obtain ⟨hres, hwalk⟩ := walkSelectionWith_eq_some_iff.mp h'
  rw [hy] at hwalk
  obtain ⟨_, _, -, rfl, -⟩ := walkSelectionSet_eq_some hwalk
  refine ⟨hres, hs.subset ?_⟩
  rw [← (child?_eq_some hy).1]
  exact List.mem_cons_self _ _

theorem mem_walkSelections {walkSet : List Node → TypeDefinition → Nat → Nat → Option (List Visit)}
    {ancestors : List Node} {enclosing : TypeDefinition} {depth : Nat} {v : Visit} :
    ∀ {l : List Nat} {vs : List Visit},
      d.walkSelections schema walkSet ancestors enclosing depth l = some vs → v ∈ vs →
        ∃ j ∈ l, ∃ vs', d.walkSelectionWith schema walkSet ancestors enclosing depth j = some vs' ∧
          vs'.Sublist vs ∧ v ∈ vs'
  | [], vs, h, hv => by cases h; cases hv
  | k :: l, vs, h, hv => by
    simp only [walkSelections, Option.bind_eq_bind, Option.bind_eq_some, pure,
      Option.some.injEq] at h
    obtain ⟨a, ha, b, hb, rfl⟩ := h
    rcases List.mem_append.mp hv with hv | hv
    · exact ⟨k, List.mem_cons_self _ _, a, ha, List.sublist_append_left a b, hv⟩
    · obtain ⟨j, hj, vs', h', hs, hv'⟩ := mem_walkSelections hb hv
      exact ⟨j, List.mem_cons_of_mem _ hj, vs', h', hs.trans (List.sublist_append_right a b), hv'⟩

/-- **Every visit of a walk of a set heads a walk of its own set**, and every visit but the
first is the child of a selection of a visit of the walk. -/
theorem walkSelectionSet_tree : ∀ g ancestors enclosing depth ref vs,
    d.walkSelectionSet schema g ancestors enclosing depth ref = some vs → ∀ v ∈ vs,
      (∃ g' depth' ws, v.depth = depth' + 1 ∧
        d.walkSelectionSet schema g' v.ancestors v.enclosingTypeDefinition depth' v.ref = some ws ∧
          ws.Sublist vs) ∧
      (v = ⟨ref, ancestors, enclosing, depth + 1⟩ ∨
        ∃ w ∈ vs, ∃ j ∈ d.selectionRefs w.ref, w.child? schema d j = some v)
  | g, ancestors, enclosing, depth, ref, vs, h, v, hv => by
    obtain ⟨g', tail, rfl, rfl, htail⟩ := walkSelectionSet_eq_some h
    rcases List.mem_cons.mp hv with rfl | hv
    · exact ⟨⟨g' + 1, depth, _, rfl, h, List.Sublist.refl _⟩, .inl rfl⟩
    obtain ⟨j, hj, vs', h', hs, hv'⟩ := mem_walkSelections htail hv
    set w : Visit := ⟨ref, ancestors, enclosing, depth + 1⟩
    obtain ⟨-, hchild⟩ := walkSelectionWith_eq_some_iff (w := w).mp h'
    rcases hy : w.child? schema d j with _ | y
    · rw [hy] at hchild
      cases hchild
      cases hv'
    rw [hy] at hchild
    have hs' : vs'.Sublist (w :: tail) := hs.trans (List.sublist_cons_self _ _)
    obtain ⟨⟨g'', depth', ws, hd, hws, hsub⟩, hparent⟩ :=
      walkSelectionSet_tree g' _ _ _ _ vs' hchild v hv'
    refine ⟨⟨g'', depth', ws, hd, hws, hsub.trans hs'⟩, .inr ?_⟩
    rcases hparent with rfl | ⟨w', hw', j', hj', hc⟩
    · refine ⟨w, List.mem_cons_self _ _, j, hj, ?_⟩
      rw [hy, ← (child?_eq_some hy).1]
    · exact ⟨w', hs'.subset hw', j', hj', hc⟩

section Visits

/-- What a walk `vs` shows of its visit `v`: `v` heads a walk of its own set, made of visits of
`vs` in their order; and `v` is the visit of the root set of an operation or fragment
definition, or the child of a selection of a visit of `vs`. -/
def InWalk (schema : Schema) (d : Document) (vs : List Visit) (v : Visit) : Prop :=
  (∃ g depth ws, v.depth = depth + 1 ∧
    d.walkSelectionSet schema g v.ancestors v.enclosingTypeDefinition depth v.ref = some ws ∧
      ws.Sublist vs) ∧
  ((∃ node, v.ancestors = [node] ∧ node.IsDefinition) ∨
    ∃ w ∈ vs, ∃ j ∈ d.selectionRefs w.ref, w.child? schema d j = some v)

theorem InWalk.mono {vs vs' : List Visit} {v : Visit} (h : InWalk schema d vs v)
    (hs : vs.Sublist vs') : InWalk schema d vs' v :=
  let ⟨⟨g, dep, ws, hd, hws, hsub⟩, hp⟩ := h
  ⟨⟨g, dep, ws, hd, hws, hsub.trans hs⟩,
    hp.imp id fun ⟨w, hw, j, hj, hc⟩ => ⟨w, hs.subset hw, j, hj, hc⟩⟩

variable {fuel : Nat} {visits : List Visit} (hwalk : d.walk schema fuel = some visits)
include hwalk

/-- **The walk is a tree of visits**: every visit heads a walk of its own set, made of visits of
the walk in their order; and every visit is the visit of the root set of an operation or
fragment definition, or the child of a selection of another visit. -/
theorem walk_tree : ∀ v ∈ visits, InWalk schema d visits v := by
  have root : ∀ node vs, d.walkRootNode schema fuel node = some vs → ∀ v ∈ vs,
      InWalk schema d vs v := by
    intro node vs h v hv
    have hdef : ∀ t ref, d.walkSelectionSet schema fuel [node] t 1 ref = some vs →
        node.IsDefinition → InWalk schema d vs v := fun t ref hs hn =>
      (walkSelectionSet_tree _ _ _ _ _ _ hs v hv).imp id
        (Or.imp (fun e => ⟨node, by rw [e], hn⟩) id)
    rcases node with ⟨kind, ref⟩
    cases kind <;> simp only [walkRootNode] at h
    all_goals first
      | (cases h; cases hv)
      | (split at h
         · cases h
         · split at h
           · first | exact hdef _ _ h (.inl rfl) | exact hdef _ _ h (.inr rfl)
           · cases h; cases hv)
  have roots : ∀ (nodes : List Node) vs, d.walkRootNodes schema fuel nodes = some vs → ∀ v ∈ vs,
      InWalk schema d vs v := by
    intro nodes
    induction nodes with
    | nil => intro vs h; cases h; simp
    | cons node nodes ih =>
      intro vs h v hv
      simp only [walkRootNodes, Option.bind_eq_bind, Option.bind_eq_some, pure,
        Option.some.injEq] at h
      obtain ⟨vs1, h1, vs2, h2, rfl⟩ := h
      rcases List.mem_append.mp hv with hv | hv
      · exact (root node vs1 h1 v hv).mono (List.sublist_append_left _ _)
      · exact (ih vs2 h2 v hv).mono (List.sublist_append_right _ _)
  exact roots _ _ hwalk

/-- The walk of the set of a visit goes through each of its selections. -/
theorem walk_walkSelections {w : Visit} (hw : w ∈ visits) :
    ∃ g tail, d.walkSelections schema (d.walkSelectionSet schema g)
      (⟨.selectionSet, w.ref⟩ :: w.ancestors) w.enclosingTypeDefinition w.depth
        (d.selectionRefs w.ref) = some tail ∧ tail.Sublist visits := by
  obtain ⟨⟨g, dep, ws, hd, hws, hs⟩, -⟩ := walk_tree hwalk w hw
  obtain ⟨g', tail, -, rfl, htail⟩ := walkSelectionSet_eq_some hws
  rw [← hd] at htail
  exact ⟨g', tail, htail, (List.sublist_cons_self _ _).trans hs⟩

/-- **The walk goes through every selection of a visited set**: it finds the selection's type,
and visits the set below it. -/
theorem walk_child {w : Visit} (hw : w ∈ visits) {j : Nat} (hj : j ∈ d.selectionRefs w.ref) :
    d.Resolves schema w.enclosingTypeDefinition j ∧
      ∀ y, w.child? schema d j = some y → y ∈ visits := by
  obtain ⟨g, tail, htail, hs⟩ := walk_walkSelections hwalk hw
  obtain ⟨vs', h', -⟩ := walkSelections_mem htail j hj
  refine ⟨(walkSelectionWith_eq_some_iff.mp h').1, fun y hy => ?_⟩
  exact hs.subset (mem_walkSelections_of_child? htail hj hy).2

/-- **A walk that enters no set twice enters each child once**: no other selection of the
visited set has the child of `j`. -/
theorem walk_child_unique (htree : (visits.map Visit.ref).Nodup) {w : Visit} (hw : w ∈ visits)
    {A B : List Nat} {j : Nat} (hL : d.selectionRefs w.ref = A ++ j :: B) {y : Visit}
    (hy : w.child? schema d j = some y) : ∀ k ∈ A ++ B, w.child? schema d k ≠ some y := by
  intro k hk hky
  obtain ⟨g, tail, htail, hs⟩ := walk_walkSelections hwalk hw
  have mem : ∀ {k : Nat} {t : List Visit}, d.walkSelectionWith schema (d.walkSelectionSet schema g)
      (⟨.selectionSet, w.ref⟩ :: w.ancestors) w.enclosingTypeDefinition w.depth k = some t →
      w.child? schema d k = some y → y ∈ t := fun ht hc => by
    obtain ⟨-, hch⟩ := walkSelectionWith_eq_some_iff.mp ht
    rw [hc] at hch
    obtain ⟨_, _, -, rfl, -⟩ := walkSelectionSet_eq_some hch
    rw [← (child?_eq_some hc).1]
    exact List.mem_cons_self _ _
  rw [hL] at htail
  obtain ⟨tA, tjB, hA, hjB, rfl⟩ := walkSelections_append.mp htail
  simp only [walkSelections, Option.bind_eq_bind, Option.bind_eq_some, pure,
    Option.some.injEq] at hjB
  obtain ⟨tj, hj, tB, hB, rfl⟩ := hjB
  have hyj := mem hj hy
  have two : [y, y].Sublist (tA ++ (tj ++ tB)) := by
    rcases List.mem_append.mp hk with hk | hk
    · obtain ⟨t, ht, hts⟩ := walkSelections_mem hA k hk
      exact (List.singleton_sublist.mpr (hts.subset (mem ht hky))).append
        ((List.singleton_sublist.mpr hyj).trans (List.sublist_append_left _ _))
    · obtain ⟨t, ht, hts⟩ := walkSelections_mem hB k hk
      exact ((List.singleton_sublist.mpr hyj).append
        (List.singleton_sublist.mpr (hts.subset (mem ht hky)))).trans
          (List.sublist_append_right _ _)
  exact List.nodup_iff_sublist.mp htree y.ref ((two.trans hs).map Visit.ref)

end Visits

end Subwalks

end Document

end Ast

end GraphQLTools
