import GraphQLTools.View
import GraphQLTools.Walker

/-!
# The abstract-fragment pass on views, and its normal form

`expandAbstractInlineFragments` (`pkg/astnormalization/inline_fragment_type_expansion.go`)
rewrites every inline fragment whose selection set the walker enters with an interface or a
union type: `ExpandInterfaceInlineFragment` puts one copy of the fragment per implementation
in its place, each with that implementation as type condition, and
`PromoteUnionInlineFragments` puts the fragment's selections in its place. The actions run
deepest first, so what a fragment copies or promotes is already done.

Read on the views of the selection sets, with their indices forgotten, the pass is the
structural recursion `View.expandFragments`: the sets below a selection first, with the type
the walker gives them, then the selection itself. This module proves what that recursion
reaches. `View.Walks` says that the walker goes through a view without an error and that
every set of an inline fragment it enters has a type satisfying a predicate. On a view the
walker accepts, the pass leaves a view the walker accepts with no set of an inline fragment
of interface or union type (`walksList_expandFragmentsList`).

Two facts of a valid schema carry this through (`Schema.FragmentsValid`). A copy on an
implementation reads its done set at a subtype of the interface, and a set the pass is done
with stays done at a subtype (`walks_subType`), since a type implementing an interface has
each of its fields at a subtype. A union's selections are lifted into a set of another type,
and they stay done there (`walks_of_union`), since a union has no fields but `__typename`.
-/

namespace GraphQLTools

namespace Ast

/-! ## Subtypes and the valid schema -/

namespace Schema

variable (schema : Schema)

/-- `s` is `t` or one of its subtypes: a type that declares it implements the interface `t`, or
a member of the union `t`. -/
def IsSubType (s t : TypeDefinition) : Prop :=
  s = t ∨ (t.kind = .interface ∧ t.name ∈ s.interfaces) ∨ (t.kind = .union ∧ s.name ∈ t.members)

instance (s t : TypeDefinition) : Decidable (IsSubType s t) :=
  inferInstanceAs (Decidable (_ ∨ _))

/-- Every field of the interface `i` is a field of `s`, of the interface field's type or one of
its subtypes: GraphQL's `IsValidImplementationFieldType`, on types without their list and
non-null wrappers. -/
def ImplementsFields (s i : TypeDefinition) : Prop :=
  ∀ p ∈ i.fields, ∀ t ∈ (schema.typeDefinition p.2).toList,
    ∃ t' ∈ ((s.fields.lookup p.1).bind schema.typeDefinition).toList, IsSubType t' t

instance (s i : TypeDefinition) : Decidable (schema.ImplementsFields s i) :=
  inferInstanceAs (Decidable (∀ p ∈ i.fields, _))

/-- What `expandAbstractInlineFragments` reads of the schema, as a valid schema has it: type
names are unique; `ConcreteInterfaceImplementationTypeNames` lists object types that implement
the interface; a type that implements an interface has each of its fields, at a subtype; and a
union has no fields of its own. -/
structure FragmentsValid : Prop where
  nodup : (schema.types.map TypeDefinition.name).Nodup
  implementations : ∀ i ∈ schema.types, i.kind = .interface →
    ∀ o ∈ schema.concreteInterfaceImplementationTypeNames i.name,
      ∃ t ∈ schema.types, t.name = o ∧ t.kind = .object ∧ i.name ∈ t.interfaces
  implementsFields : ∀ s ∈ schema.types, ∀ i ∈ schema.types, i.kind = .interface →
    i.name ∈ s.interfaces → schema.ImplementsFields s i
  unionFields : ∀ u ∈ schema.types, u.kind = .union → u.fields = []

variable {schema}

theorem mem_of_typeDefinition {name : String} {t : TypeDefinition}
    (h : schema.typeDefinition name = some t) : t ∈ schema.types :=
  List.mem_of_find?_eq_some h

theorem typeDefinition_name (hnd : (schema.types.map TypeDefinition.name).Nodup)
    {t : TypeDefinition} (ht : t ∈ schema.types) : schema.typeDefinition t.name = some t := by
  obtain ⟨t', ht'⟩ := Option.isSome_iff_exists.mp
    (List.find?_isSome.mpr ⟨t, ht, by simp⟩ : (schema.typeDefinition t.name).isSome)
  have hname : t'.name = t.name := by simpa using List.find?_some ht'
  rw [show schema.typeDefinition t.name = some t' from ht',
    List.inj_on_of_nodup_map hnd (mem_of_typeDefinition ht') ht hname]

@[simp] theorem fieldType_typename (enclosing : TypeDefinition) :
    schema.fieldType enclosing typenameField = schema.typeDefinition "String" := by
  simp [fieldType, TypeDefinition.fieldTypeName]

theorem fieldType_of_ne {enclosing : TypeDefinition} {name : String} (h : name ≠ typenameField) :
    schema.fieldType enclosing name = (enclosing.fields.lookup name).bind schema.typeDefinition := by
  simp [fieldType, TypeDefinition.fieldTypeName, h]

theorem mem_of_fieldType {enclosing t : TypeDefinition} {name : String}
    (h : schema.fieldType enclosing name = some t) : t ∈ schema.types :=
  mem_of_typeDefinition (Option.bind_eq_some.mp h).choose_spec.2

theorem mem_of_conditionType {enclosing t : TypeDefinition} {typeCondition : Option String}
    (he : enclosing ∈ schema.types) (h : schema.conditionType enclosing typeCondition = some t) :
    t ∈ schema.types := by
  cases typeCondition with
  | none => cases h; exact he
  | some name => exact mem_of_typeDefinition h

/-- **A field keeps its type down a subtype**: on a subtype of `t`, a field of `t` has the
type it has on `t` or one of its subtypes. -/
theorem FragmentsValid.fieldType_subType (hv : schema.FragmentsValid) {s t ty : TypeDefinition}
    {name : String} (hs : s ∈ schema.types) (ht : t ∈ schema.types) (hst : IsSubType s t)
    (h : schema.fieldType t name = some ty) :
    ∃ ty', schema.fieldType s name = some ty' ∧ IsSubType ty' ty := by
  by_cases hn : name = typenameField
  · subst hn
    exact ⟨ty, by simpa using h, .inl rfl⟩
  rw [fieldType_of_ne hn] at h ⊢
  obtain ⟨tn, hl, hty⟩ := Option.bind_eq_some.mp h
  rcases hst with rfl | ⟨hi, hmem⟩ | ⟨hu, -⟩
  · exact ⟨ty, h, .inl rfl⟩
  · obtain ⟨l₁, l₂, hl, -⟩ := List.lookup_eq_some_iff.mp hl
    obtain ⟨t', ht', hsub⟩ := hv.implementsFields s hs t ht hi hmem (name, tn) (by simp [hl])
      ty (by simpa using hty)
    exact ⟨t', by simpa using ht', hsub⟩
  · simp [hv.unionFields t ht hu] at hl

end Schema

/-! ## The pass on views -/

/-- Neither an interface nor a union: a type whose inline fragments the pass leaves. -/
def TypeDefinition.NotAbstract (t : TypeDefinition) : Prop := t.kind ≠ .interface ∧ t.kind ≠ .union

namespace View

variable (schema : Schema)

mutual
/-- `expandAbstractInlineFragments` on the view of one selection whose enclosing type is
`enclosing`: the sets below are done first, with the type the walker gives them; then an
inline fragment whose set has an interface type gives way to one copy of itself per
implementation, and one whose set has a union type to its own selections. -/
def expandFragments (enclosing : TypeDefinition) : View Unit → List (View Unit)
  | .field name «alias» arguments directives none =>
    [.field name «alias» arguments directives none]
  | .field name «alias» arguments directives (some (_, vs)) =>
    match schema.fieldType enclosing name with
    | some t => [.field name «alias» arguments directives (some ((), expandFragmentsList t vs))]
    | none => [.field name «alias» arguments directives (some ((), vs))]
  | .inlineFragment typeCondition directives none =>
    [.inlineFragment typeCondition directives none]
  | .inlineFragment typeCondition directives (some (_, vs)) =>
    match schema.conditionType enclosing typeCondition with
    | some t =>
      match t.kind with
      | .interface => (schema.concreteInterfaceImplementationTypeNames t.name).map fun name =>
          .inlineFragment (some name) directives (some ((), expandFragmentsList t vs))
      | .union => expandFragmentsList t vs
      | _ => [.inlineFragment typeCondition directives (some ((), expandFragmentsList t vs))]
    | none => [.inlineFragment typeCondition directives (some ((), vs))]
  | .fragmentSpread fragmentName directives => [.fragmentSpread fragmentName directives]
  | .unknown => [.unknown]

/-- `expandFragments` on each view of a list, the results in order. -/
def expandFragmentsList (enclosing : TypeDefinition) : List (View Unit) → List (View Unit)
  | [] => []
  | v :: vs => expandFragments enclosing v ++ expandFragmentsList enclosing vs
end

section Unfolding

variable {schema} {enclosing t : TypeDefinition} {vs : List (View Unit)}

theorem expandFragments_field {name : String} (h : schema.fieldType enclosing name = some t)
    («alias» : Option String) (arguments : List (String × Value)) (directives : List Directive) :
    expandFragments schema enclosing (.field name «alias» arguments directives (some ((), vs))) =
      [.field name «alias» arguments directives (some ((), expandFragmentsList schema t vs))] := by
  simp [expandFragments, h]

theorem expandFragments_interface {typeCondition : Option String}
    (h : schema.conditionType enclosing typeCondition = some t) (hk : t.kind = .interface)
    (directives : Option (List Directive)) :
    expandFragments schema enclosing (.inlineFragment typeCondition directives (some ((), vs))) =
      (schema.concreteInterfaceImplementationTypeNames t.name).map fun name =>
        .inlineFragment (some name) directives (some ((), expandFragmentsList schema t vs)) := by
  simp [expandFragments, h, hk]

theorem expandFragments_union {typeCondition : Option String}
    (h : schema.conditionType enclosing typeCondition = some t) (hk : t.kind = .union)
    (directives : Option (List Directive)) :
    expandFragments schema enclosing (.inlineFragment typeCondition directives (some ((), vs))) =
      expandFragmentsList schema t vs := by
  simp [expandFragments, h, hk]

theorem expandFragments_concrete {typeCondition : Option String}
    (h : schema.conditionType enclosing typeCondition = some t) (hk : t.NotAbstract)
    (directives : Option (List Directive)) :
    expandFragments schema enclosing (.inlineFragment typeCondition directives (some ((), vs))) =
      [.inlineFragment typeCondition directives (some ((), expandFragmentsList schema t vs))] := by
  obtain ⟨hi, hu⟩ := hk
  rcases hkind : t.kind <;> simp_all [expandFragments]

end Unfolding

theorem expandFragmentsList_eq_flatMap (enclosing : TypeDefinition) :
    ∀ vs, expandFragmentsList schema enclosing vs = vs.flatMap (expandFragments schema enclosing)
  | [] => rfl
  | v :: vs => by rw [expandFragmentsList, expandFragmentsList_eq_flatMap enclosing vs]; rfl

/-! ## What the walker accepts -/

variable (ok : TypeDefinition → Prop)

mutual
/-- The walker goes through the view of a selection whose enclosing type is `enclosing` without
an error, the type of every field and the type condition of every inline fragment being a
type of the schema, and the type of every set of an inline fragment it enters satisfies
`ok`. -/
def Walks (enclosing : TypeDefinition) : View Unit → Prop
  | .field name _ _ _ none => ∃ t, schema.fieldType enclosing name = some t
  | .field name _ _ _ (some (_, vs)) =>
    ∃ t, schema.fieldType enclosing name = some t ∧ WalksList t vs
  | .inlineFragment typeCondition _ none =>
    ∃ t, schema.conditionType enclosing typeCondition = some t
  | .inlineFragment typeCondition _ (some (_, vs)) =>
    ∃ t, schema.conditionType enclosing typeCondition = some t ∧ ok t ∧ WalksList t vs
  | .fragmentSpread _ _ => True
  | .unknown => True

/-- `Walks` for each view of a list. -/
def WalksList (enclosing : TypeDefinition) : List (View Unit) → Prop
  | [] => True
  | v :: vs => Walks enclosing v ∧ WalksList enclosing vs
end

variable {schema ok}

theorem walksList_iff {enclosing : TypeDefinition} :
    ∀ {vs : List (View Unit)}, WalksList schema ok enclosing vs ↔ ∀ v ∈ vs, Walks schema ok enclosing v
  | [] => by simp [WalksList]
  | v :: vs => by simp [WalksList, walksList_iff]

end View

namespace View

open Schema

variable {schema : Schema}

mutual
/-- **A set the pass is done with stays done down a subtype.** Read at a subtype of its type, a
view the walker accepts with no abstract fragment set is still accepted, with none. -/
theorem walks_subType (hv : schema.FragmentsValid) :
    ∀ {s t : TypeDefinition} (v : View Unit), s ∈ schema.types →
    t ∈ schema.types → IsSubType s t → Walks schema TypeDefinition.NotAbstract t v →
      Walks schema TypeDefinition.NotAbstract s v
  | _, _, .field _ _ _ _ none, hs, ht, hst, ⟨ty, h⟩ =>
    let ⟨ty', h', _⟩ := hv.fieldType_subType hs ht hst h
    ⟨ty', h'⟩
  | _, _, .field _ _ _ _ (some (_, vs)), hs, ht, hst, ⟨ty, h, hvs⟩ =>
    let ⟨ty', h', hsub⟩ := hv.fieldType_subType hs ht hst h
    ⟨ty', h', walksList_subType hv vs (mem_of_fieldType h') (mem_of_fieldType h) hsub hvs⟩
  | _, _, .inlineFragment none _ none, _, _, _, _ => ⟨_, rfl⟩
  | _, _, .inlineFragment (some _) _ none, _, _, _, h => h
  | _, t, .inlineFragment none _ (some (_, vs)), _, _, hst, ⟨_, rfl, hok, hvs⟩ => by
    obtain rfl : _ = t := hst.resolve_right fun h => h.elim (hok.1 ·.1) (hok.2 ·.1)
    exact ⟨_, rfl, hok, hvs⟩
  | _, _, .inlineFragment (some _) _ (some _), _, _, _, h => h
  | _, _, .fragmentSpread _ _, _, _, _, h => h
  | _, _, .unknown, _, _, _, h => h

/-- `walks_subType` for each view of a list. -/
theorem walksList_subType (hv : schema.FragmentsValid) :
    ∀ {s t : TypeDefinition} (vs : List (View Unit)), s ∈ schema.types →
    t ∈ schema.types → IsSubType s t → WalksList schema TypeDefinition.NotAbstract t vs →
      WalksList schema TypeDefinition.NotAbstract s vs
  | _, _, [], _, _, _, h => h
  | _, _, v :: vs, hs, ht, hst, ⟨h, hvs⟩ =>
    ⟨walks_subType hv v hs ht hst h, walksList_subType hv vs hs ht hst hvs⟩
end

/-- A field of a union is `__typename`, whose type is the same on every type. -/
theorem fieldType_of_union (hv : schema.FragmentsValid) {u ty : TypeDefinition} {name : String}
    (hu : u ∈ schema.types) (hk : u.kind = .union) (h : schema.fieldType u name = some ty)
    (t : TypeDefinition) : schema.fieldType t name = some ty := by
  by_cases hn : name = typenameField
  · subst hn; simpa using h
  · simp [fieldType_of_ne hn, hv.unionFields u hu hk] at h

/-- **A union's selections can be lifted out of it.** A view the walker accepts at a union
type, with no abstract fragment set, is accepted at any type, with none: its fields are
`__typename`, and it has no untyped fragment with selections. -/
theorem walks_of_union (hv : schema.FragmentsValid) {u : TypeDefinition} (hu : u ∈ schema.types)
    (hk : u.kind = .union) (t : TypeDefinition) :
    ∀ v : View Unit, Walks schema TypeDefinition.NotAbstract u v →
      Walks schema TypeDefinition.NotAbstract t v
  | .field _ _ _ _ none, ⟨ty, h⟩ => ⟨ty, fieldType_of_union hv hu hk h t⟩
  | .field _ _ _ _ (some _), ⟨ty, h, hvs⟩ => ⟨ty, fieldType_of_union hv hu hk h t, hvs⟩
  | .inlineFragment none _ none, _ => ⟨t, rfl⟩
  | .inlineFragment (some _) _ none, h => h
  | .inlineFragment none _ (some _), ⟨_, rfl, hok, _⟩ => absurd hk hok.2
  | .inlineFragment (some _) _ (some _), h => h
  | .fragmentSpread _ _, h => h
  | .unknown, h => h

mutual
/-- **The abstract pass reaches its normal form.** On a view the walker accepts, the pass
leaves a view the walker accepts, where no inline fragment's set has an interface or a union
type: a fragment on an interface has become copies on object types, each over its done set
read at a subtype, and a fragment on a union has given way to its done selections. -/
theorem walks_expandFragments (hv : schema.FragmentsValid) :
    ∀ {enclosing : TypeDefinition} (v : View Unit), enclosing ∈ schema.types →
      Walks schema (fun _ => True) enclosing v →
        WalksList schema TypeDefinition.NotAbstract enclosing (expandFragments schema enclosing v)
  | _, .field _ _ _ _ none, _, h => ⟨h, trivial⟩
  | _, .field _ _ _ _ (some (_, vs)), _, ⟨t, h, hvs⟩ => by
    simp only [expandFragments, h]
    exact ⟨⟨t, h, walksList_expandFragmentsList hv vs (mem_of_fieldType h) hvs⟩, trivial⟩
  | _, .inlineFragment _ _ none, _, h => ⟨h, trivial⟩
  | _, .inlineFragment _ _ (some (_, vs)), he, ⟨t, h, _, hvs⟩ => by
    have ht := mem_of_conditionType he h
    have done := walksList_expandFragmentsList hv vs ht hvs
    simp only [expandFragments, h]
    rcases hk : t.kind
    case interface =>
      refine walksList_iff.mpr fun w hw => ?_
      obtain ⟨o, ho, rfl⟩ := List.mem_map.mp hw
      obtain ⟨s, hs, rfl, hobj, himpl⟩ := hv.implementations t ht hk o ho
      exact ⟨s, typeDefinition_name hv.nodup hs, ⟨by simp [hobj], by simp [hobj]⟩,
        walksList_subType hv _ hs ht (.inr (.inl ⟨hk, himpl⟩)) done⟩
    case union =>
      exact walksList_iff.mpr fun w hw =>
        walks_of_union hv ht hk _ w (walksList_iff.mp done w hw)
    all_goals exact ⟨⟨t, h, ⟨by simp [hk], by simp [hk]⟩, done⟩, trivial⟩
  | _, .fragmentSpread _ _, _, _ => ⟨trivial, trivial⟩
  | _, .unknown, _, _ => ⟨trivial, trivial⟩

/-- `walks_expandFragments` over a list of views. -/
theorem walksList_expandFragmentsList (hv : schema.FragmentsValid) :
    ∀ {enclosing : TypeDefinition} (vs : List (View Unit)), enclosing ∈ schema.types →
      WalksList schema (fun _ => True) enclosing vs →
        WalksList schema TypeDefinition.NotAbstract enclosing
          (expandFragmentsList schema enclosing vs)
  | _, [], _, _ => trivial
  | _, v :: vs, he, ⟨h, hvs⟩ => by
    rw [expandFragmentsList]
    exact walksList_iff.mpr fun w hw => (List.mem_append.mp hw).elim
      (walksList_iff.mp (walks_expandFragments hv v he h) w)
      (walksList_iff.mp (walksList_expandFragmentsList hv vs he hvs) w)
end

end View

end Ast

end GraphQLTools
