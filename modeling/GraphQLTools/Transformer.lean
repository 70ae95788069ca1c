import GraphQLTools.Walker
import GraphQLTools.Surgery
import Mathlib.Data.List.Sort

/-!
# Deferred transformations and the two expansion passes

A rewrite of the document made while the walker is inside it would move the indices the
walker is reading. `asttransform.Transformer` (in `src/pkg/engine/resolve/resolve.go`)
therefore only records the rewrites a walk asks for, each with a precedence, and applies them
at `LeaveDocument`: `ApplyTransformations` sorts them by greater depth first, then smaller
order, and applies them one after the other.

`sort.Slice` is not stable, so among actions of equal precedence it may leave any order. The
model applies the actions in any order that the sort's `less` leaves sorted
(`SortedOrder`), and `AppliesTo` is the set of documents these orders leave;
`applyTransformations` picks one of them, an insertion sort, so that the passes can be run,
and the theorems about the passes hold for every document of `ExpandsAbstractInlineFragments`
and `ExpandsInterfaceSelectionSets`.

The two passes of `pkg/astnormalization` built on it register one action per selection set:
`expandAbstractInlineFragments` for the selection set of an inline fragment whose enclosing
type is an interface or a union, `expandInterfaceSelectionSets` for the selection set of a
field whose type is an interface.
-/

namespace GraphQLTools

namespace Ast

/-! ## The transformer -/

/-- `Precedence`. -/
structure Precedence where
  depth : Nat
  order : Nat
  deriving DecidableEq, Repr

/-- The `transformation`s whose `Document` methods are in the sources. -/
inductive Transformation where
  | emptySelectionSet (ref : Nat)
  | appendSelectionSet (ref appendRef : Nat)
  | expandInterfaceInlineFragment (inlineFragment parentSelectionSet : Nat)
      (concreteTypeNames : List String)
  | promoteUnionInlineFragments (inlineFragment parentSelectionSet : Nat)
  | expandInterfaceSelectionSet (selectionSet : Nat) (concreteTypeNames : List String)
  deriving DecidableEq, Repr

/-- `apply`: each transformation calls the document's method of the same name. -/
def Transformation.apply (fuel : Nat) (d : Document) : Transformation → Document
  | .emptySelectionSet ref => d.emptySelectionSet ref
  | .appendSelectionSet ref appendRef => d.appendSelectionSet ref appendRef
  | .expandInterfaceInlineFragment inlineFragment parentSelectionSet concreteTypeNames =>
    d.expandInterfaceInlineFragment fuel inlineFragment parentSelectionSet concreteTypeNames
  | .promoteUnionInlineFragments inlineFragment parentSelectionSet =>
    d.promoteUnionInlineFragments inlineFragment parentSelectionSet
  | .expandInterfaceSelectionSet selectionSet concreteTypeNames =>
    d.expandInterfaceSelectionSet fuel selectionSet concreteTypeNames

/-- An `action`: a transformation and its precedence. -/
structure Action where
  precedence : Precedence
  transformation : Transformation
  deriving DecidableEq, Repr

namespace Action

/-- The `less` of the sort in `ApplyTransformations`: the greater depth first, then the
smaller order. -/
def less (a b : Action) : Bool :=
  if a.precedence.depth != b.precedence.depth then b.precedence.depth < a.precedence.depth
  else a.precedence.order < b.precedence.order

/-- The sort may put `a` before `b`: `b` is not less than `a`. -/
def Precedes (a b : Action) : Prop := b.less a = false

instance : DecidableRel Precedes := fun a b => inferInstanceAs (Decidable (b.less a = false))

theorem precedes_iff {a b : Action} : Precedes a b ↔ b.precedence.depth < a.precedence.depth ∨
    (a.precedence.depth = b.precedence.depth ∧ a.precedence.order ≤ b.precedence.order) := by
  unfold Precedes less
  by_cases h : b.precedence.depth = a.precedence.depth
  · simp [h]
  · simp [h]; omega

theorem precedes_total (a b : Action) : Precedes a b ∨ Precedes b a := by
  simp only [precedes_iff]; omega

theorem precedes_trans (a b c : Action) : Precedes a b → Precedes b c → Precedes a c := by
  simp only [precedes_iff]; omega

instance : IsTotal Action Precedes := ⟨precedes_total⟩

instance : IsTrans Action Precedes := ⟨precedes_trans⟩

end Action

/-- The orders `ApplyTransformations` may apply the actions in: the permutations of the
actions that its `less` leaves sorted. -/
def SortedOrder (actions order : List Action) : Prop :=
  order.Perm actions ∧ order.Sorted Action.Precedes

/-- The loop of `ApplyTransformations`: each action applied in turn. -/
def applyActions (fuel : Nat) (d : Document) (order : List Action) : Document :=
  order.foldl (fun d a => a.transformation.apply fuel d) d

/-- The order an insertion sort by `less` leaves, one of those `sort.Slice` may leave. -/
def sortActions (actions : List Action) : List Action := actions.insertionSort Action.Precedes

theorem sortActions_sortedOrder (actions : List Action) :
    SortedOrder actions (sortActions actions) :=
  ⟨List.perm_insertionSort _ _, List.sorted_insertionSort _ _⟩

/-- `ApplyTransformations`, in the order `sortActions` leaves. -/
def applyTransformations (fuel : Nat) (actions : List Action) (d : Document) : Document :=
  applyActions fuel d (sortActions actions)

/-- The documents `ApplyTransformations` may leave: the actions applied in any order that
`sort.Slice` may leave. -/
def AppliesTo (fuel : Nat) (actions : List Action) (d D : Document) : Prop :=
  ∃ order, SortedOrder actions order ∧ applyActions fuel d order = D

/-- The insertion sort is one of the orders `sort.Slice` may leave. -/
theorem appliesTo_applyTransformations (fuel : Nat) (actions : List Action) (d : Document) :
    AppliesTo fuel actions d (applyTransformations fuel actions d) :=
  ⟨_, sortActions_sortedOrder actions, rfl⟩

/-- With no action registered, every order leaves the document as it is. -/
theorem AppliesTo.eq_of_nil {fuel : Nat} {d D : Document} (h : AppliesTo fuel [] d D) : D = d := by
  obtain ⟨order, horder, rfl⟩ := h
  rw [horder.1.eq_nil]
  rfl

/-! ## What a transformation rewrites -/

section Rewrites

open Document

namespace Transformation

/-- The selection set a transformation rewrites. -/
def target : Transformation → Nat
  | .emptySelectionSet ref => ref
  | .appendSelectionSet ref _ => ref
  | .expandInterfaceInlineFragment _ parentSelectionSet _ => parentSelectionSet
  | .promoteUnionInlineFragments _ parentSelectionSet => parentSelectionSet
  | .expandInterfaceSelectionSet selectionSet _ => selectionSet

/-- The inline fragment a transformation looks up with `SelectionIndex`, and the parent it
looks in. -/
def fragment? : Transformation → Option (Nat × Nat)
  | .expandInterfaceInlineFragment inlineFragment parentSelectionSet _ =>
    some (inlineFragment, parentSelectionSet)
  | .promoteUnionInlineFragments inlineFragment parentSelectionSet =>
    some (inlineFragment, parentSelectionSet)
  | _ => none

/-- Applied to `d`, the transformation finds the inline fragment it looks up, so that
`SelectionIndex` does not fall back to index `0`. -/
def Finds (d : Document) (t : Transformation) : Prop :=
  ∀ inlineFragment parent, t.fragment? = some (inlineFragment, parent) →
    (d.selectionIndex .inlineFragment inlineFragment parent).2 = true

/-- Two transformations look up different inline fragments. -/
def FragmentsDiffer (t u : Transformation) : Prop :=
  ∀ f p f' p', t.fragment? = some (f, p) → u.fragment? = some (f', p') → f ≠ f'

theorem grows_apply (fuel : Nat) (d : Document) (t : Transformation) :
    Grows d (t.apply fuel d) (· = t.target) := by
  cases t with
  | emptySelectionSet ref => exact grows_setSelectionRefs d ref _
  | appendSelectionSet ref _ => exact grows_setSelectionRefs d ref _
  | expandInterfaceInlineFragment f p names =>
    exact grows_expandInterfaceInlineFragment fuel d f p names
  | promoteUnionInlineFragments f p => exact grows_promoteUnionInlineFragments d f p
  | expandInterfaceSelectionSet set names =>
    exact grows_expandInterfaceSelectionSet fuel d set names

theorem target_of_fragment? {t : Transformation} {f p : Nat} (h : t.fragment? = some (f, p)) :
    t.target = p := by
  cases t <;> simp_all [fragment?, target]

/-- **A fragment transformation keeps the others' fragments**: applying one that finds its
inline fragment leaves every other inline fragment where it was found. -/
theorem Finds.apply {fuel : Nat} {d : Document} {t u : Transformation} (ht : t.Finds d)
    (hu : u.Finds d) (htu : FragmentsDiffer t u) (hfrag : t.fragment?.isSome) :
    u.Finds (t.apply fuel d) := by
  intro f p hup
  obtain ⟨⟨f0, p0⟩, ht0⟩ := Option.isSome_iff_exists.mp hfrag
  have hne : f0 ≠ f := htu f0 p0 f p ht0 hup
  by_cases hp : p = p0
  · subst hp
    have found := hu f p hup
    have found0 := ht f0 p ht0
    cases t with
    | expandInterfaceInlineFragment f1 p1 names =>
      simp only [fragment?, Option.some.injEq, Prod.mk.injEq] at ht0
      have g := ((grows_addSelectionSet d).mono fun _ _ h => h.elim).trans
        (grows_expandTypeNames fuel f0 d.addSelectionSet.2 _ names)
      have fresh : ¬ p = d.addSelectionSet.2 := fun e =>
        lt_irrefl _ (e ▸ lt_of_mem_selectionRefs (selectionIndex_snd_iff.mp found).choose_spec.1)
      simp only [apply, ht0.1, ht0.2, expandInterfaceInlineFragment]
      exact found_replace_other _ (g.found fresh found) (g.found fresh found0) (Ne.symm hne)
    | promoteUnionInlineFragments f1 p1 =>
      simp only [fragment?, Option.some.injEq, Prod.mk.injEq] at ht0
      simp only [apply, ht0.1, ht0.2, promoteUnionInlineFragments]
      exact found_replace_other _ found found0 (Ne.symm hne)
    | _ => simp [fragment?] at ht0
  · exact (grows_apply fuel d t).found (by rw [target_of_fragment? ht0]; exact hp) (hu f p hup)

end Transformation

/-- **Fragment actions keep finding their fragments**: in an order of fragment actions that
each find their inline fragment in the document and look up pairwise different fragments,
every action still finds its fragment when its turn comes. -/
theorem finds_applyActions (fuel : Nat) : ∀ (order : List Action) (d : Document),
    (∀ a ∈ order, a.transformation.fragment?.isSome) →
    order.Pairwise (fun a b => a.transformation.FragmentsDiffer b.transformation) →
    (∀ a ∈ order, a.transformation.Finds d) →
    ∀ i (h : i < order.length), order[i].transformation.Finds (applyActions fuel d (order.take i))
  | [], _, _, _, _, _, h => absurd h (Nat.not_lt_zero _)
  | a :: _, _, _, _, hfind, 0, _ => hfind a (List.mem_cons_self _ _)
  | a :: rest, d, hfrag, hpw, hfind, i + 1, h => by
    have step := finds_applyActions fuel rest (a.transformation.apply fuel d)
      (fun b hb => hfrag b (List.mem_cons_of_mem _ hb)) (List.pairwise_cons.mp hpw).2
      (fun b hb => (hfind a (List.mem_cons_self _ _)).apply (hfind b (List.mem_cons_of_mem _ hb))
        ((List.pairwise_cons.mp hpw).1 b hb) (hfrag a (List.mem_cons_self _ _)))
      i (Nat.lt_of_succ_lt_succ h)
    simpa only [applyActions, List.take_succ_cons, List.foldl_cons, List.getElem_cons_succ] using step

end Rewrites

/-! ## The passes -/

/-- `expandAbstractInlineFragmentsVisitor.EnterSelectionSet`: on the selection set of an
inline fragment whose enclosing type is an interface, the expansion of the fragment into the
interface's implementations; on one whose enclosing type is a union, the promotion of its
selections. Both name the fragment and the selection set that holds it, and take the walker's
depth as precedence. -/
def expandAbstractInlineFragmentsVisitor.enterSelectionSet (schema : Schema) (v : Visit) :
    Option Action :=
  let inlineFragmentNode := v.ancestors.headD default
  if inlineFragmentNode.kind ≠ .inlineFragment then none
  else
    let parentSelectionSet := (v.ancestors.getD 1 default).ref
    let precedence : Precedence := ⟨v.depth, 0⟩
    match v.enclosingTypeDefinition.kind with
    | .interface =>
      some ⟨precedence, .expandInterfaceInlineFragment inlineFragmentNode.ref parentSelectionSet
        (schema.concreteInterfaceImplementationTypeNames v.enclosingTypeDefinition.name)⟩
    | .union =>
      some ⟨precedence, .promoteUnionInlineFragments inlineFragmentNode.ref parentSelectionSet⟩
    | _ => none

/-- `expandInterfaceSelectionSetsVisitor.EnterSelectionSet`: on the selection set of a field
whose type is an interface, its expansion into the interface's implementations. -/
def expandInterfaceSelectionSetsVisitor.enterSelectionSet (schema : Schema) (v : Visit) :
    Option Action :=
  if v.enclosingTypeDefinition.kind ≠ .interface then none
  else if (v.ancestors.headD default).kind ≠ .field then none
  else some ⟨⟨v.depth, 0⟩, .expandInterfaceSelectionSet v.ref
    (schema.concreteInterfaceImplementationTypeNames v.enclosingTypeDefinition.name)⟩

namespace Document

variable (schema : Schema) (fuel : Nat) (d : Document)

/-- The actions one walk of `expandAbstractInlineFragments` registers, in order. -/
def expandAbstractInlineFragmentsActions : Option (List Action) :=
  (d.walk schema fuel).map
    (·.filterMap (expandAbstractInlineFragmentsVisitor.enterSelectionSet schema))

/-- The actions one walk of `expandInterfaceSelectionSets` registers, in order. -/
def expandInterfaceSelectionSetsActions : Option (List Action) :=
  (d.walk schema fuel).map
    (·.filterMap (expandInterfaceSelectionSetsVisitor.enterSelectionSet schema))

/-- `expandAbstractInlineFragments`: the walk, then `ApplyTransformations` at `LeaveDocument`;
a walk stopped by an error changes nothing. -/
def expandAbstractInlineFragments : Document :=
  match d.expandAbstractInlineFragmentsActions schema fuel with
  | none => d
  | some actions => applyTransformations fuel actions d

/-- `expandInterfaceSelectionSets`, in the same way. -/
def expandInterfaceSelectionSets : Document :=
  match d.expandInterfaceSelectionSetsActions schema fuel with
  | none => d
  | some actions => applyTransformations fuel actions d

/-- The documents `expandAbstractInlineFragments` may leave, whatever order `sort.Slice` leaves
among actions of equal precedence. -/
def ExpandsAbstractInlineFragments (D : Document) : Prop :=
  match d.expandAbstractInlineFragmentsActions schema fuel with
  | none => D = d
  | some actions => AppliesTo fuel actions d D

/-- The documents `expandInterfaceSelectionSets` may leave, in the same way. -/
def ExpandsInterfaceSelectionSets (D : Document) : Prop :=
  match d.expandInterfaceSelectionSetsActions schema fuel with
  | none => D = d
  | some actions => AppliesTo fuel actions d D

/-- The document the pass computes is one of those it may leave. -/
theorem expandsAbstractInlineFragments_expandAbstractInlineFragments :
    d.ExpandsAbstractInlineFragments schema fuel (d.expandAbstractInlineFragments schema fuel) := by
  rcases h : d.expandAbstractInlineFragmentsActions schema fuel with _ | actions <;>
    simp only [ExpandsAbstractInlineFragments, expandAbstractInlineFragments, h]
  exact appliesTo_applyTransformations fuel actions d

/-- The document the pass computes is one of those it may leave. -/
theorem expandsInterfaceSelectionSets_expandInterfaceSelectionSets :
    d.ExpandsInterfaceSelectionSets schema fuel (d.expandInterfaceSelectionSets schema fuel) := by
  rcases h : d.expandInterfaceSelectionSetsActions schema fuel with _ | actions <;>
    simp only [ExpandsInterfaceSelectionSets, expandInterfaceSelectionSets, h]
  exact appliesTo_applyTransformations fuel actions d

end Document

end Ast

end GraphQLTools
