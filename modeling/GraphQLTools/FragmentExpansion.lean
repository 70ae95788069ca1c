import GraphQLTools.Transformer
import GraphQLTools.Collect

/-!
# Expanding abstract inline fragments

`expandAbstractInlineFragments` rewrites each inline fragment whose enclosing type is abstract:
a fragment on an interface gives way to one copy of itself per implementation, each on that
implementation; a fragment on a union gives way to its own selections
(`PromoteUnionInlineFragments`).

Promotion drops the union's type condition, and the selections it lifts into the parent
are no longer filtered by it. When the parent's type has possible types outside the union,
a selection inside the union fragment that applies to such a type starts to apply once it is
promoted. An interface fragment inside the union fragment is such a selection once it has
been expanded: a copy on each implementation of the interface, including those outside the
union (`unionPromotion_changesSelection`).
-/

namespace GraphQLTools

namespace Ast

/-! ## The union's type condition is lost -/

/-- A schema where `Query.f` has the interface type `J`, implemented by `A`, `B` and `C`;
the union `U` has the members `A` and `B`; the interface `I` is implemented by `A` and `C`. -/
def unionSchema : Schema where
  types := [⟨"Query", .object, [("f", "J")], [], []⟩, ⟨"J", .interface, [("x", "Int")], [], []⟩,
    ⟨"I", .interface, [("x", "Int")], [], []⟩, ⟨"U", .union, [], [], ["A", "B"]⟩,
    ⟨"A", .object, [("x", "Int")], ["J", "I"], []⟩, ⟨"B", .object, [("x", "Int")], ["J"], []⟩,
    ⟨"C", .object, [("x", "Int")], ["J", "I"], []⟩, ⟨"Int", .scalar, [], [], []⟩,
    ⟨"String", .scalar, [], [], []⟩]
  rootTypeName _ := "Query"
  concreteInterfaceImplementationTypeNames name :=
    ([("J", ["A", "B", "C"]), ("I", ["A", "C"])].lookup name).getD []

/-- The operation `{ f { ... on U { ... on I { x } } } }`: set `1` is the selection set of
`f`, holding the fragment on `U`, whose set `2` holds the fragment on `I`, whose set `3`
holds `x`. -/
def unionQuery : Document where
  selectionSets := [[0], [1], [2], [3]]
  selections := [⟨.field, 0⟩, ⟨.inlineFragment, 0⟩, ⟨.inlineFragment, 1⟩, ⟨.field, 1⟩]
  fields := [⟨"f", none, [], [], true, 1⟩, ⟨"x", none, [], [], false, 0⟩]
  inlineFragments := [⟨some 0, false, [], 2, true⟩, ⟨some 1, false, [], 3, true⟩]
  fragmentSpreads := []
  directives := []
  types := ["U", "I"]
  operationDefinitions := [⟨.query, true, 0⟩]
  fragmentDefinitions := []
  rootNodes := [⟨.operationDefinition, 0⟩]

/-- On an `f` of runtime type `C`, which implements `J` but is not a member of `U`, the
selection set of `f` selects nothing before the pass. After it, the fragment on `I` has become
fragments on `A` and `C`, and promoting the fragment on `U` has lifted them into the selection
set of `f`, where the one on `C` selects `x`. -/
theorem unionPromotion_changesSelection :
    unionSchema.ImplementationsExact ∧ unionSchema.doesFragmentTypeApply "C" "J" = true ∧
      unionQuery.collectFields unionSchema (fun _ => false) "C" 5 1 = [] ∧
      (unionQuery.expandAbstractInlineFragments unionSchema 5).collectFields unionSchema
        (fun _ => false) "C" 5 1 = [("x", 3)] :=
  ⟨by decide, by decide, by decide, by decide⟩

/-! ## Every registered fragment action finds its fragment -/

section Scheduling

open Document

/-- What a visit whose innermost ancestor is an inline fragment shows: it is the visit of that
fragment's selection set, and a selection of the set above holds the fragment. -/
theorem walk_inlineFragment {schema : Schema} {fuel : Nat} {d : Document} {visits : List Visit}
    (hwalk : d.walk schema fuel = some visits) {v : Visit} (hv : v ∈ visits) {f : Nat}
    (hhead : v.ancestors.headD default = ⟨.inlineFragment, f⟩) :
    ∃ parent rest, v.ancestors = ⟨.inlineFragment, f⟩ :: ⟨.selectionSet, parent⟩ :: rest ∧
      (∃ j ∈ d.selectionRefs parent, d.selection j = ⟨.inlineFragment, f⟩) ∧
      v.ref = (d.inlineFragment f).selectionSet := by
  rcases walk_nested hwalk v hv with ⟨node, hroot, hdef⟩ | ⟨node, parent, rest, ha, -, ⟨j, hj, hs⟩, hr⟩
  · rw [hroot] at hhead
    simp only [List.headD_cons] at hhead
    subst hhead
    simp [Node.IsDefinition] at hdef
  · rw [ha] at hhead
    simp only [List.headD_cons] at hhead
    subst hhead
    exact ⟨parent, rest, ha, ⟨j, hj, by simpa [Node.selection?] using hs.symm⟩, hr⟩

namespace expandAbstractInlineFragmentsVisitor

/-- The visitor registers, on a visit whose innermost ancestor is an inline fragment, a fragment
action that looks that fragment up in the next ancestor. -/
theorem enterSelectionSet_fragment? {schema : Schema} {v : Visit} {a : Action}
    (h : enterSelectionSet schema v = some a) :
    ∃ f, v.ancestors.headD default = ⟨.inlineFragment, f⟩ ∧
      a.transformation.fragment? = some (f, (v.ancestors.getD 1 default).ref) := by
  unfold enterSelectionSet at h
  dsimp only at h
  generalize v.ancestors.headD default = n at h ⊢
  obtain ⟨kind, f⟩ := n
  split_ifs at h with hk
  simp only [ne_eq, not_not] at hk
  subst hk
  refine ⟨f, rfl, ?_⟩
  split at h <;> first | (cases h; rfl) | cases h

end expandAbstractInlineFragmentsVisitor

section Registered

variable {schema : Schema} {fuel : Nat} {d : Document} {visits : List Visit}

/-- Every action one walk registers is a fragment action that finds its fragment in the
document walked. -/
theorem registered_finds (hwalk : d.walk schema fuel = some visits) :
    ∀ a ∈ visits.filterMap (expandAbstractInlineFragmentsVisitor.enterSelectionSet schema),
      a.transformation.fragment?.isSome ∧ a.transformation.Finds d := by
  intro a ha
  obtain ⟨v, hv, hva⟩ := List.mem_filterMap.mp ha
  obtain ⟨f, hhead, hfrag⟩ := expandAbstractInlineFragmentsVisitor.enterSelectionSet_fragment? hva
  obtain ⟨parent, rest, hanc, ⟨j, hj, hs⟩, -⟩ := walk_inlineFragment hwalk hv hhead
  rw [hanc] at hfrag
  refine ⟨by simp [hfrag], fun f' p' h' => ?_⟩
  simp only [hfrag, List.getD_cons_succ, List.getD_cons_zero, Option.some.injEq, Prod.mk.injEq] at h'
  obtain ⟨rfl, rfl⟩ := h'
  exact selectionIndex_snd_iff.mpr ⟨j, hj, hs⟩

/-- When the walk enters no selection set twice, the actions it registers look up pairwise
different inline fragments. -/
theorem registered_differ (hwalk : d.walk schema fuel = some visits)
    (htree : (visits.map Visit.ref).Nodup) :
    (visits.filterMap (expandAbstractInlineFragmentsVisitor.enterSelectionSet schema)).Pairwise
      fun a b => a.transformation.FragmentsDiffer b.transformation := by
  have hpw : visits.Pairwise fun v w => v ∈ visits ∧ w ∈ visits ∧ v.ref ≠ w.ref :=
    (List.pairwise_map.mp htree).imp_of_mem fun hv hw hne => ⟨hv, hw, hne⟩
  refine hpw.filterMap _ fun v w ⟨hv, hw, hne⟩ a ha b hb f p f' p' hfa hfb hff => hne ?_
  obtain ⟨g, hg, hga⟩ := expandAbstractInlineFragmentsVisitor.enterSelectionSet_fragment? ha
  obtain ⟨g', hg', hgb⟩ := expandAbstractInlineFragmentsVisitor.enterSelectionSet_fragment? hb
  rw [hfa, Option.some.injEq, Prod.mk.injEq] at hga
  rw [hfb, Option.some.injEq, Prod.mk.injEq] at hgb
  obtain ⟨-, -, -, -, hrv⟩ := walk_inlineFragment hwalk hv (hga.1 ▸ hg)
  obtain ⟨-, -, -, -, hrw⟩ := walk_inlineFragment hwalk hw (hgb.1 ▸ hg')
  rw [hrv, hrw, hff]

end Registered

/-- **Registered fragment actions always find their fragment.** For a walk of
`expandAbstractInlineFragments` that enters no selection set twice, in any order of the
actions it registers, each `ExpandInterfaceInlineFragment` or `PromoteUnionInlineFragments`
still finds its inline fragment in its recorded parent when it is applied: the index-`0`
fallback of `SelectionIndex` is never used. -/
theorem registered_fragments_found (schema : Schema) (fuel : Nat) (d : Document)
    (visits : List Visit) (hwalk : d.walk schema fuel = some visits)
    (htree : (visits.map Visit.ref).Nodup) (order : List Action)
    (horder : order.Perm
      (visits.filterMap (expandAbstractInlineFragmentsVisitor.enterSelectionSet schema))) :
    ∀ i (h : i < order.length), order[i].transformation.Finds (applyActions fuel d (order.take i)) :=
  finds_applyActions fuel order d (fun a ha => (registered_finds hwalk a (horder.subset ha)).1)
    ((registered_differ hwalk htree).perm horder.symm fun h f p f' p' ha hb e =>
      h f' p' f p hb ha e.symm)
    (fun a ha => (registered_finds hwalk a (horder.subset ha)).2)

/-- The visits of the walk of `unionQuery`. -/
def unionVisits : List Visit := (unionQuery.walk unionSchema 5).getD []

theorem walk_unionQuery : unionQuery.walk unionSchema 5 = some unionVisits := by decide

/-- The actions the walk of `unionQuery` registers, deepest first. -/
def unionActions : List Action :=
  sortActions (unionVisits.filterMap (expandAbstractInlineFragmentsVisitor.enterSelectionSet
    unionSchema))

/-- The promotion of the fragment on `U`, applied after the expansion of the fragment on `I`
inside it, finds its fragment. -/
theorem unionActions_promotion_found :
    (unionActions.get ⟨1, by decide⟩).transformation.Finds
      (applyActions 5 unionQuery (unionActions.take 1)) :=
  registered_fragments_found unionSchema 5 unionQuery unionVisits walk_unionQuery (by decide) _
    (sortActions_sortedOrder _).1 1 (by decide)

end Scheduling

end Ast

end GraphQLTools
