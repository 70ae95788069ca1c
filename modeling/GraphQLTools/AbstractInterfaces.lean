import GraphQLTools.AbstractFragments
import GraphQLTools.InterfaceExpansion

/-!
# The interface-set pass on views, and its normal form

`expandInterfaceSelectionSets` (`pkg/astnormalization/interface_selection_set_expansion.go`)
registers `ExpandInterfaceSelectionSet` on every selection set the walker enters with an
interface type right below a field, and the actions run deepest first. Read on views, one
`ExpandInterfaceSelectionSet` is `View.expandLevel` (`InterfaceExpansion`): the selections that
do not move stay, and one fragment per implementation over the moved fields follows.

The whole pass on views is the structural recursion `View.expandInterfaces`: the sets below a
selection first, with the type the walker gives them, then the set of a field whose type is an
interface (`View.expandSet`). `View.Normal` is what the pass is meant to reach: no set of a
field of interface type holds a field but `__typename`, at any depth, with the types the walker
gives. On a view the walker accepts and over a valid schema, the pass leaves a view the walker
accepts, in normal form (`walksList_expandInterfacesList`).

The new fragments copy fields read at the interface into sets of its implementations, where
the walker reads them at other types. Two facts of a valid schema keep the normal form there
(`normal_subType`): a type implementing an interface has each of its fields at a subtype, and a
subtype that is an interface is one of an interface or of a union, whose sets have no field but
`__typename`.
-/

namespace GraphQLTools

namespace Ast

namespace View

variable (schema : Schema)

/-- `ExpandInterfaceSelectionSet` as the pass applies it to a set of type `t` owned by a node of
kind `owner`: `View.expandLevel` over the implementations of `t` when the owner is a field and
`t` an interface, as `expandInterfaceSelectionSetsVisitor` registers it; nothing otherwise. -/
def expandSet (owner : NodeKind) (t : TypeDefinition) (vs : List (View Unit)) :
    List (View Unit) :=
  if owner = .field ∧ t.kind = .interface then
    expandLevel (schema.concreteInterfaceImplementationTypeNames t.name) vs
  else vs

mutual
/-- `expandInterfaceSelectionSets` on the view of one selection whose enclosing type is
`enclosing`: the sets below are done first, with the type the walker gives them; then the set
of a field is expanded when its type is an interface. The set of an inline fragment is not,
whatever its type. -/
def expandInterfaces (enclosing : TypeDefinition) : View Unit → View Unit
  | .field name «alias» arguments directives none => .field name «alias» arguments directives none
  | .field name «alias» arguments directives (some (_, vs)) =>
    match schema.fieldType enclosing name with
    | some t => .field name «alias» arguments directives
        (some ((), expandSet schema .field t (expandInterfacesList t vs)))
    | none => .field name «alias» arguments directives (some ((), vs))
  | .inlineFragment typeCondition directives none => .inlineFragment typeCondition directives none
  | .inlineFragment typeCondition directives (some (_, vs)) =>
    match schema.conditionType enclosing typeCondition with
    | some t => .inlineFragment typeCondition directives (some ((), expandInterfacesList t vs))
    | none => .inlineFragment typeCondition directives (some ((), vs))
  | .fragmentSpread fragmentName directives => .fragmentSpread fragmentName directives
  | .unknown => .unknown

/-- `expandInterfaces` on each view of a list. -/
def expandInterfacesList (enclosing : TypeDefinition) : List (View Unit) → List (View Unit)
  | [] => []
  | v :: vs => expandInterfaces enclosing v :: expandInterfacesList enclosing vs
end

mutual
/-- The normal form of the pass on the view of a selection whose enclosing type is
`enclosing`: the set of a field whose type is an interface holds no field but `__typename`, and
every set below is in normal form at the type the walker gives it. -/
def Normal (enclosing : TypeDefinition) : View Unit → Prop
  | .field name _ _ _ (some (_, vs)) => ∀ t, schema.fieldType enclosing name = some t →
    (t.kind = .interface → ∀ v ∈ vs, v.Moves = false) ∧ NormalList t vs
  | .inlineFragment typeCondition _ (some (_, vs)) =>
    ∀ t, schema.conditionType enclosing typeCondition = some t → NormalList t vs
  | _ => True

/-- `Normal` for each view of a list. -/
def NormalList (enclosing : TypeDefinition) : List (View Unit) → Prop
  | [] => True
  | v :: vs => Normal enclosing v ∧ NormalList enclosing vs
end

variable {schema}

theorem normalList_iff {enclosing : TypeDefinition} :
    ∀ {vs : List (View Unit)}, NormalList schema enclosing vs ↔ ∀ v ∈ vs, Normal schema enclosing v
  | [] => by simp [NormalList]
  | v :: vs => by simp [NormalList, normalList_iff]

theorem expandInterfacesList_eq_map (enclosing : TypeDefinition) :
    ∀ vs, expandInterfacesList schema enclosing vs = vs.map (expandInterfaces schema enclosing)
  | [] => rfl
  | v :: vs => by rw [expandInterfacesList, expandInterfacesList_eq_map enclosing vs]; rfl

/-- The pass keeps the kind and the name of a selection, so what moves. -/
@[simp]
theorem moves_expandInterfaces (enclosing : TypeDefinition) (v : View Unit) :
    (expandInterfaces schema enclosing v).Moves = v.Moves := by
  rcases v with ⟨_, _, _, _, _ | ⟨_, _⟩⟩ | ⟨_, _, _ | ⟨_, _⟩⟩ | _ | _ <;>
    simp only [expandInterfaces] <;> (try split) <;> rfl

theorem expandSet_of_ne {owner : NodeKind} (h : owner ≠ .field) (t : TypeDefinition)
    (vs : List (View Unit)) : expandSet schema owner t vs = vs := by
  simp [expandSet, h]

end View

/-! ## The walker's acceptance and the normal form down a subtype -/

namespace View

open Schema

variable {schema : Schema}

mutual
/-- **A view the walker accepts is accepted down a subtype**: a type implementing an interface
has each of its fields at a subtype, and a fragment without a type condition takes the type it
is read at. -/
theorem walks_true_subType (hv : schema.FragmentsValid) :
    ∀ {s t : TypeDefinition} (v : View Unit), s ∈ schema.types → t ∈ schema.types →
      IsSubType s t → Walks schema (fun _ => True) t v → Walks schema (fun _ => True) s v
  | _, _, .field _ _ _ _ none, hs, ht, hst, ⟨_, h⟩ =>
    let ⟨ty', h', _⟩ := hv.fieldType_subType hs ht hst h
    ⟨ty', h'⟩
  | _, _, .field _ _ _ _ (some (_, vs)), hs, ht, hst, ⟨_, h, hvs⟩ =>
    let ⟨ty', h', hsub⟩ := hv.fieldType_subType hs ht hst h
    ⟨ty', h', walksList_true_subType hv vs (mem_of_fieldType h') (mem_of_fieldType h) hsub hvs⟩
  | _, _, .inlineFragment none _ none, _, _, _, _ => ⟨_, rfl⟩
  | _, _, .inlineFragment (some _) _ none, _, _, _, h => h
  | _, _, .inlineFragment none _ (some (_, vs)), hs, ht, hst, ⟨_, rfl, _, hvs⟩ =>
    ⟨_, rfl, trivial, walksList_true_subType hv vs hs ht hst hvs⟩
  | _, _, .inlineFragment (some _) _ (some _), _, _, _, h => h
  | _, _, .fragmentSpread _ _, _, _, _, h => h
  | _, _, .unknown, _, _, _, h => h

/-- `walks_true_subType` for each view of a list. -/
theorem walksList_true_subType (hv : schema.FragmentsValid) :
    ∀ {s t : TypeDefinition} (vs : List (View Unit)), s ∈ schema.types → t ∈ schema.types →
      IsSubType s t → WalksList schema (fun _ => True) t vs →
        WalksList schema (fun _ => True) s vs
  | _, _, [], _, _, _, h => h
  | _, _, v :: vs, hs, ht, hst, ⟨h, hvs⟩ =>
    ⟨walks_true_subType hv v hs ht hst h, walksList_true_subType hv vs hs ht hst hvs⟩
end

/-- In a set of a union type the walker accepts, nothing moves: a union has no field but
`__typename`. -/
theorem moves_of_walks_union (hv : schema.FragmentsValid) {u : TypeDefinition}
    (hu : u ∈ schema.types) (hk : u.kind = .union) {ok : TypeDefinition → Prop} :
    ∀ v : View Unit, Walks schema ok u v → v.Moves = false
  | .field name _ _ _ o, h => by
    have ⟨_, hty⟩ : ∃ t, schema.fieldType u name = some t := by
      cases o with
      | none => exact h
      | some p => obtain ⟨t, ht, -⟩ := h; exact ⟨t, ht⟩
    by_contra hm
    have hn : name ≠ typenameField := by simpa [Moves] using hm
    simp [fieldType_of_ne hn, hv.unionFields u hu hk] at hty
  | .inlineFragment _ _ _, _ => rfl
  | .fragmentSpread _ _, _ => rfl
  | .unknown, _ => rfl

mutual
/-- **The normal form holds down a subtype.** Read at a subtype of its type, a view the walker
accepts in normal form is still in normal form: a field's type there is a subtype of its type
above, and when that subtype is an interface, the type above is an interface too, whose set is
expanded, or a union, whose set has nothing that moves. -/
theorem normal_subType (hv : schema.FragmentsValid) :
    ∀ {s t : TypeDefinition} (v : View Unit), s ∈ schema.types → t ∈ schema.types →
      IsSubType s t → Walks schema (fun _ => True) t v → Normal schema t v → Normal schema s v
  | _, _, .field _ _ _ _ none, _, _, _, _, _ => trivial
  | _, _, .field _ _ _ _ (some (_, vs)), hs, ht, hst, ⟨ty, h, hvs⟩, hn => fun ty' h' => by
    obtain ⟨ty'', h'', hsub⟩ := hv.fieldType_subType hs ht hst h
    obtain rfl : ty'' = ty' := Option.some.inj (h''.symm.trans h')
    obtain ⟨hmv, hnl⟩ := hn ty h
    refine ⟨fun hi => ?_,
      normalList_subType hv vs (mem_of_fieldType h'') (mem_of_fieldType h) hsub hvs hnl⟩
    rcases hsub with rfl | ⟨hti, -⟩ | ⟨htu, -⟩
    · exact hmv hi
    · exact hmv hti
    · exact fun v hv' => moves_of_walks_union hv (mem_of_fieldType h) htu v
        (walksList_iff.mp hvs v hv')
  | _, _, .inlineFragment _ _ none, _, _, _, _, _ => trivial
  | _, _, .inlineFragment none _ (some (_, vs)), hs, ht, hst, ⟨_, rfl, _, hvs⟩, hn =>
    fun _ h' => Option.some.inj h' ▸ normalList_subType hv vs hs ht hst hvs (hn _ rfl)
  | _, _, .inlineFragment (some _) _ (some _), _, _, _, _, hn => hn
  | _, _, .fragmentSpread _ _, _, _, _, _, _ => trivial
  | _, _, .unknown, _, _, _, _, _ => trivial

/-- `normal_subType` for each view of a list. -/
theorem normalList_subType (hv : schema.FragmentsValid) :
    ∀ {s t : TypeDefinition} (vs : List (View Unit)), s ∈ schema.types → t ∈ schema.types →
      IsSubType s t → WalksList schema (fun _ => True) t vs → NormalList schema t vs →
        NormalList schema s vs
  | _, _, [], _, _, _, _, h => h
  | _, _, v :: vs, hs, ht, hst, ⟨hw, hws⟩, ⟨h, hvs⟩ =>
    ⟨normal_subType hv v hs ht hst hw h, normalList_subType hv vs hs ht hst hws hvs⟩
end

end View

/-! ## The pass reaches its normal form -/

namespace View

open Schema

variable {schema : Schema} {t : TypeDefinition}

/-- **The fragments on the implementations are accepted, in normal form**: each names an object
type implementing the interface, at which the moved views, accepted in normal form at the
interface, are read in the order the second loop leaves them. -/
theorem typeFragments_normal (hv : schema.FragmentsValid) (ht : t ∈ schema.types)
    (hk : t.kind = .interface) {moved : List (View Unit)}
    (hw : WalksList schema (fun _ => True) t moved) (hn : NormalList schema t moved) :
    WalksList schema (fun _ => True) t
        (typeFragments (schema.concreteInterfaceImplementationTypeNames t.name) moved) ∧
      NormalList schema t
        (typeFragments (schema.concreteInterfaceImplementationTypeNames t.name) moved) := by
  unfold typeFragments
  split_ifs
  · exact ⟨trivial, trivial⟩
  have hperm : ∀ v, v ∈ Document.reverseRefs moved.reverse ↔ v ∈ moved := fun v => by
    rw [(Document.reverseRefs_perm _).mem_iff, List.mem_reverse]
  refine ⟨walksList_iff.mpr fun w hw' => ?_, normalList_iff.mpr fun w hw' => ?_⟩ <;>
    obtain ⟨o, ho, rfl⟩ := List.mem_map.mp hw' <;>
    obtain ⟨s, hs, rfl, -, himpl⟩ := hv.implementations t ht hk o ho <;>
    have hsub : IsSubType s t := .inr (.inl ⟨hk, himpl⟩)
  · refine ⟨s, typeDefinition_name hv.nodup hs, trivial, walksList_iff.mpr fun v hv' => ?_⟩
    exact walksList_iff.mp (walksList_true_subType hv moved hs ht hsub hw) v ((hperm v).mp hv')
  · intro s' hs'
    obtain rfl : s = s' := Option.some.inj ((typeDefinition_name hv.nodup hs).symm.trans hs')
    exact normalList_iff.mpr fun v hv' =>
      normalList_iff.mp (normalList_subType hv moved hs ht hsub hw hn) v ((hperm v).mp hv')

/-- **`ExpandInterfaceSelectionSet` on a field's set reaches the normal form at its level**: the
set is still accepted and in normal form, and when its type is an interface nothing in it
moves. -/
theorem expandSet_field_normal (hv : schema.FragmentsValid) (ht : t ∈ schema.types)
    {vs : List (View Unit)} (hw : WalksList schema (fun _ => True) t vs)
    (hn : NormalList schema t vs) :
    WalksList schema (fun _ => True) t (expandSet schema .field t vs) ∧
      NormalList schema t (expandSet schema .field t vs) ∧
      (t.kind = .interface → ∀ v ∈ expandSet schema .field t vs, v.Moves = false) := by
  by_cases hk : t.kind = .interface
  · have hkept : ∀ v ∈ vs.filter (!·.Moves), v ∈ vs := fun v h => List.mem_of_mem_filter h
    obtain ⟨hfw, hfn⟩ := typeFragments_normal hv ht hk
      (walksList_iff.mpr fun v h => walksList_iff.mp hw v (List.mem_of_mem_filter h))
      (normalList_iff.mpr fun v h => normalList_iff.mp hn v (List.mem_of_mem_filter h))
    simp only [expandSet, hk, and_self, if_true, expandLevel]
    refine ⟨walksList_iff.mpr fun v h => ?_, normalList_iff.mpr fun v h => ?_, fun _ v h => ?_⟩ <;>
      rcases List.mem_append.mp h with h | h
    · exact walksList_iff.mp hw v (hkept v h)
    · exact walksList_iff.mp hfw v h
    · exact normalList_iff.mp hn v (hkept v h)
    · exact normalList_iff.mp hfn v h
    · simpa using (List.mem_filter.mp h).2
    · unfold typeFragments at h
      split_ifs at h
      · simp at h
      · obtain ⟨_, _, rfl⟩ := List.mem_map.mp h
        rfl
  · simp only [expandSet, hk, and_false, if_false]
    exact ⟨hw, hn, False.elim⟩

mutual
/-- **The abstract pass reaches its normal form.** On a view the walker accepts, the pass
leaves a view the walker accepts, in normal form: the sets below are done first, and the set of
a field of interface type keeps nothing that moves and gains fragments on the implementations,
whose copies are in normal form down the subtype. -/
theorem walks_expandInterfaces (hv : schema.FragmentsValid) :
    ∀ {enclosing : TypeDefinition} (v : View Unit), enclosing ∈ schema.types →
      Walks schema (fun _ => True) enclosing v →
        Walks schema (fun _ => True) enclosing (expandInterfaces schema enclosing v) ∧
          Normal schema enclosing (expandInterfaces schema enclosing v)
  | _, .field _ _ _ _ none, _, h => ⟨h, trivial⟩
  | _, .field _ _ _ _ (some (_, vs)), _, ⟨t, h, hvs⟩ => by
    have ht := mem_of_fieldType h
    obtain ⟨hw, hn⟩ := walksList_expandInterfacesList hv vs ht hvs
    obtain ⟨hw', hn', hm'⟩ := expandSet_field_normal hv ht hw hn
    simp only [expandInterfaces, h]
    exact ⟨⟨t, h, hw'⟩, fun t' h' => Option.some.inj (h.symm.trans h') ▸ ⟨hm', hn'⟩⟩
  | _, .inlineFragment _ _ none, _, h => ⟨h, trivial⟩
  | _, .inlineFragment _ _ (some (_, vs)), he, ⟨t, h, _, hvs⟩ => by
    obtain ⟨hw, hn⟩ := walksList_expandInterfacesList hv vs (mem_of_conditionType he h) hvs
    simp only [expandInterfaces, h]
    exact ⟨⟨t, h, trivial, hw⟩, fun t' h' => Option.some.inj (h.symm.trans h') ▸ hn⟩
  | _, .fragmentSpread _ _, _, _ => ⟨trivial, trivial⟩
  | _, .unknown, _, _ => ⟨trivial, trivial⟩

/-- `walks_expandInterfaces` over a list of views. -/
theorem walksList_expandInterfacesList (hv : schema.FragmentsValid) :
    ∀ {enclosing : TypeDefinition} (vs : List (View Unit)), enclosing ∈ schema.types →
      WalksList schema (fun _ => True) enclosing vs →
        WalksList schema (fun _ => True) enclosing (expandInterfacesList schema enclosing vs) ∧
          NormalList schema enclosing (expandInterfacesList schema enclosing vs)
  | _, [], _, _ => ⟨trivial, trivial⟩
  | _, v :: vs, he, ⟨h, hvs⟩ =>
    have hv₁ := walks_expandInterfaces hv v he h
    have hv₂ := walksList_expandInterfacesList hv vs he hvs
    ⟨⟨hv₁.1, hv₂.1⟩, ⟨hv₁.2, hv₂.2⟩⟩
end

end View

end Ast

end GraphQLTools
