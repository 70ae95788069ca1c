import GraphQLTools.Walker
import GraphQLTools.Surgery

/-!
# Deleting invalid inline fragments

`deleteInvalidInlineFragmentsVisitor.EnterSelectionSet` captures the selection list of the set
it enters, then walks the captured slice from its last index down to `0` and removes, with
`RemoveFromSelectionSet`, every inline fragment whose type condition names a type of the schema
that `NodeFragmentIsAllowedOnNode` does not allow in the enclosing type.

The captured slice and the set's list share one backing array, and each removal shifts the
elements after it one place down inside that array, so the loop keeps reading an array that
it rewrites. The model keeps the array (`Slice`). Going down is what makes it work: a removal
at `index` moves only the elements after `index`, and every element the loop has yet to read
is before it (`loop_elems`). The set ends as its list with exactly the flagged fragments
removed, the rest in order (`enterSelectionSet_selectionRefs`).

Nothing in the loop looks at the fragment's own selection set: an inline fragment on an
allowed type with an empty selection set stays (`dogFragments_keepsEmpty`).

`NodeFragmentIsAllowedOnNode` is not in the sources; the model takes it as a parameter, so
that every result holds whatever it is.
-/

namespace GraphQLTools

namespace Ast

/-- A slice of selection references and the backing array it shares: the array, and how many
of its elements the slice holds. -/
structure Slice where
  array : List Nat
  len : Nat

namespace Slice

/-- The elements of the slice. -/
def elems (s : Slice) : List Nat := s.array.take s.len

/-- `RemoveFromSelectionSet` on the set whose list is the slice:
`append(refs[:index], refs[index+1:]...)` copies the elements after `index` one place down in
the same backing array, which keeps its old element past the new length. -/
def remove (s : Slice) (index : Nat) : Slice :=
  ⟨s.array.take index ++ (s.array.take s.len).drop (index + 1) ++ s.array.drop (s.len - 1),
    s.len - 1⟩

/-- Removing the element at `A.length` from a slice that holds `A`, that element and `M`. -/
theorem remove_eq (A : List Nat) (x : Nat) (M junk : List Nat) :
    remove ⟨A ++ x :: (M ++ junk), A.length + 1 + M.length⟩ A.length =
      ⟨A ++ M ++ (x :: (M ++ junk)).drop M.length, A.length + M.length⟩ := by
  have h1 : (A ++ x :: (M ++ junk)).take (A.length + 1 + M.length) = A ++ x :: M := by
    rw [List.take_append_eq_append_take, List.take_of_length_le (by omega),
      show A.length + 1 + M.length - A.length = M.length + 1 by omega, List.take_succ_cons,
      List.take_left' rfl]
  simp only [remove, Slice.mk.injEq]
  refine ⟨?_, by omega⟩
  rw [h1, List.take_left' rfl, show A ++ x :: M = (A ++ [x]) ++ M by simp,
    List.drop_left' (by simp), show A.length + 1 + M.length - 1 = A.length + M.length by omega,
    List.drop_append_eq_append_drop, List.drop_eq_nil_of_le (by simp), List.nil_append,
    show A.length + M.length - A.length = M.length by omega]

end Slice

open Document

namespace deleteInvalidInlineFragmentsVisitor

variable (schema : Schema) (nodeFragmentIsAllowedOnNode : TypeDefinition → TypeDefinition → Bool)
variable (enclosing : TypeDefinition) (d : Document)

/-- What the loop removes: an inline fragment whose type condition names a type of the schema
(`FirstNonExtensionNodeByNameBytes`, which finds nothing for the empty name of a fragment
without one) that is not allowed in the enclosing type. -/
def removes (selection : Nat) : Bool :=
  (d.selection selection).kind == .inlineFragment &&
    match schema.typeDefinition
        ((d.inlineFragmentTypeConditionName (d.selection selection).ref).getD "") with
    | none => false
    | some node => !nodeFragmentIsAllowedOnNode node enclosing

/-- The loop from `index - 1` down to `0`; `selections[index]` reads the shared array. -/
def loop : Slice → Nat → Slice
  | s, 0 => s
  | s, index + 1 =>
    loop (if removes schema nodeFragmentIsAllowedOnNode enclosing d (s.array.getD index 0) then
      s.remove index else s) index

/-- `EnterSelectionSet` on the set `ref`, seen with the enclosing type `enclosing`. -/
def enterSelectionSet (ref : Nat) : Document :=
  let selections := d.selectionRefs ref
  if selections.length = 0 then d
  else d.setSelectionRefs ref
    (loop schema nodeFragmentIsAllowedOnNode enclosing d ⟨selections, selections.length⟩
      selections.length).elems

/-- **The loop removes what it flags and keeps the rest in order.** When the loop has `k`
elements of the captured list `L` left to read, these are still the first `k` elements of the
array, followed by what it has kept of the rest of `L`. -/
theorem loop_elems (L : List Nat) : ∀ (k : Nat) (M junk : List Nat), k ≤ L.length →
    M = (L.drop k).filter (!removes schema nodeFragmentIsAllowedOnNode enclosing d ·) →
    (loop schema nodeFragmentIsAllowedOnNode enclosing d ⟨L.take k ++ M ++ junk, k + M.length⟩
      k).elems =
      (L.take k).filter (!removes schema nodeFragmentIsAllowedOnNode enclosing d ·) ++ M
  | 0, M, junk, _, _ => by simp [loop, Slice.elems]
  | k + 1, M, junk, hk, hM => by
    have hk' : k < L.length := by omega
    have htake : L.take (k + 1) = L.take k ++ [L[k]] := by
      rw [List.take_succ, List.getElem?_eq_getElem hk']
      rfl
    have hlen : (L.take k).length = k := by simp; omega
    have harr : L.take (k + 1) ++ M ++ junk = L.take k ++ L[k] :: (M ++ junk) := by
      rw [htake]; simp only [List.append_assoc, List.singleton_append, List.cons_append, List.nil_append]
    have hdrop : L.drop k = L[k] :: L.drop (k + 1) := List.drop_eq_getElem_cons hk'
    have hread : (L.take k ++ L[k] :: (M ++ junk)).getD k 0 = L[k] := by
      rw [List.getD_eq_getElem?_getD, List.getElem?_append_right (by omega), hlen, Nat.sub_self,
        List.getElem?_cons_zero, Option.getD_some]
    simp only [loop, harr, hread]
    split_ifs with hr
    · have e := Slice.remove_eq (L.take k) L[k] M junk
      rw [hlen] at e
      rw [e, loop_elems L k M _ (by omega) (by rw [hdrop, List.filter_cons_of_neg (by simp [hr]), hM]),
        htake, List.filter_append]
      simp [hr]
    · rw [show k + 1 + M.length = k + (L[k] :: M).length by simp; omega,
        show L.take k ++ L[k] :: (M ++ junk) = L.take k ++ (L[k] :: M) ++ junk by simp,
        loop_elems L k (L[k] :: M) junk (by omega)
          (by rw [hdrop, List.filter_cons_of_pos (by simp [hr]), hM]), htake,
        List.filter_append]
      simp [hr]

/-- **`EnterSelectionSet` removes exactly the flagged fragments.** The set's list ends as its
old list with the selections `removes` flags left out and the others in their order, and no
other selection list changes. -/
theorem enterSelectionSet_selectionRefs (ref : Nat) :
    (enterSelectionSet schema nodeFragmentIsAllowedOnNode enclosing d ref).selectionRefs ref =
        (d.selectionRefs ref).filter (!removes schema nodeFragmentIsAllowedOnNode enclosing d ·) ∧
      Grows d (enterSelectionSet schema nodeFragmentIsAllowedOnNode enclosing d ref) (· = ref) := by
  unfold enterSelectionSet
  dsimp only
  split_ifs with h
  · simp [List.length_eq_zero.mp h, Grows.refl]
  · obtain ⟨j, hj⟩ := List.exists_mem_of_ne_nil _ (mt List.length_eq_zero.mpr h)
    have hloop := loop_elems schema nodeFragmentIsAllowedOnNode enclosing d (d.selectionRefs ref)
      _ [] [] le_rfl (by simp)
    simp only [List.take_length, List.append_nil, List.length_nil, Nat.add_zero] at hloop
    exact ⟨by rw [selectionRefs_setSelectionRefs (lt_of_mem_selectionRefs hj), hloop],
      grows_setSelectionRefs _ _ _⟩

end deleteInvalidInlineFragmentsVisitor

/-! ## An empty fragment on an allowed type stays -/

/-- The object type `Dog`. -/
def dogType : TypeDefinition := ⟨"Dog", .object, [("barkVolume", "Int")], [], []⟩

/-- The object type `Cat`. -/
def catType : TypeDefinition := ⟨"Cat", .object, [("meowVolume", "Int")], [], []⟩

/-- A schema where `Query.dog` has the type `Dog`. -/
def dogSchema : Schema where
  types := [⟨"Query", .object, [("dog", "Dog")], [], []⟩, dogType, catType, ⟨"Int", .scalar, [], [], []⟩]
  rootTypeName _ := "Query"
  concreteInterfaceImplementationTypeNames _ := []

/-- The operation `{ dog { ... on Dog { barkVolume } ... on Cat { meowVolume } ... on Dog {} } }`,
the two cases of the deletion tests in one set: set `1` is the selection set of `dog`; the last
fragment has no selections, and its set `4` is empty. -/
def dogFragments : Document where
  selectionSets := [[0], [1, 2, 3], [4], [5], []]
  selections := [⟨.field, 0⟩, ⟨.inlineFragment, 0⟩, ⟨.inlineFragment, 1⟩, ⟨.inlineFragment, 2⟩,
    ⟨.field, 1⟩, ⟨.field, 2⟩]
  fields := [⟨"dog", none, [], [], true, 1⟩, ⟨"barkVolume", none, [], [], false, 0⟩,
    ⟨"meowVolume", none, [], [], false, 0⟩]
  inlineFragments := [⟨some 0, false, [], 2, true⟩, ⟨some 1, false, [], 3, true⟩,
    ⟨some 0, false, [], 4, false⟩]
  fragmentSpreads := []
  directives := []
  types := ["Dog", "Cat"]
  operationDefinitions := [⟨.query, true, 0⟩]
  fragmentDefinitions := []
  rootNodes := [⟨.operationDefinition, 0⟩]

/-- For every `NodeFragmentIsAllowedOnNode` that allows `Dog` in `Dog` and not `Cat`, entering
the selection set of `dog` removes the fragment on `Cat` and keeps the fragment on `Dog` whose
selection set is empty. -/
theorem dogFragments_keepsEmpty (nodeFragmentIsAllowedOnNode : TypeDefinition → TypeDefinition → Bool)
    (hdog : nodeFragmentIsAllowedOnNode dogType dogType = true)
    (hcat : nodeFragmentIsAllowedOnNode catType dogType = false) :
    let D := deleteInvalidInlineFragmentsVisitor.enterSelectionSet dogSchema
      nodeFragmentIsAllowedOnNode dogType dogFragments 1
    D.selectionRefs 1 = [1, 3] ∧
      D.selectionRefs (D.inlineFragment (D.selection 3).ref).selectionSet = [] := by
  have hdog' : deleteInvalidInlineFragmentsVisitor.removes dogSchema nodeFragmentIsAllowedOnNode
      dogType dogFragments 1 = !nodeFragmentIsAllowedOnNode dogType dogType := rfl
  have hcat' : deleteInvalidInlineFragmentsVisitor.removes dogSchema nodeFragmentIsAllowedOnNode
      dogType dogFragments 2 = !nodeFragmentIsAllowedOnNode catType dogType := rfl
  have hempty : deleteInvalidInlineFragmentsVisitor.removes dogSchema nodeFragmentIsAllowedOnNode
      dogType dogFragments 3 = !nodeFragmentIsAllowedOnNode dogType dogType := rfl
  have hrefs : dogFragments.selectionRefs 1 = [1, 2, 3] := rfl
  simp only [deleteInvalidInlineFragmentsVisitor.enterSelectionSet, hrefs]
  simp [deleteInvalidInlineFragmentsVisitor.loop, hdog', hcat', hempty, hdog, hcat, Slice.remove,
    Slice.elems]
  exact ⟨rfl, rfl⟩

theorem dogFragments_keepsEmpty_byName :
    (fun a b : TypeDefinition => a.name == b.name) dogType dogType = true ∧
      (fun a b : TypeDefinition => a.name == b.name) catType dogType = false ∧
      let D := deleteInvalidInlineFragmentsVisitor.enterSelectionSet dogSchema
        (fun a b => a.name == b.name) dogType dogFragments 1
      D.selectionRefs 1 = [1, 3] ∧
        D.selectionRefs (D.inlineFragment (D.selection 3).ref).selectionSet = [] :=
  ⟨rfl, rfl, dogFragments_keepsEmpty _ rfl rfl⟩

end Ast

end GraphQLTools
