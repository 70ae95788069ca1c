import GraphQLTools.AbstractFragments
import GraphQLTools.FragmentExpansion
import GraphQLTools.Copies

/-!
# The pass `expandAbstractInlineFragments` refines its abstract version

`View.expandFragments` (in `AbstractFragments`) says what the pass is for, on the index-free
view of a selection set: a fragment on an interface becomes one copy per implementation, a
fragment on a union gives way to its selections, and the result has no fragment set of an
abstract type. This module connects it to the pass itself: the walk, the actions
`expandAbstractInlineFragmentsVisitor` registers, and `ApplyTransformations` applying them
deepest first.

The proof has four stages.

1. A selection and its child: how the view of a selection with a child reads the child's set,
   in `d` and in a document grown from it (`Grows.viewSelectionWith_child`), and the actions
   a walk registers (`action_parent`, `action_unique`).
2. The invariant of a run (`PassInv`): once the actions `done` have run, each selection of a
   visited set stands for a part of its current list, which is the selection itself, its
   clones or the selections of its own set. A set all of whose deeper actions have run has the
   abstract expansion of its view (`PassInv.expands`).
3. One step (`PassInv.step`): the action's fragment is still where the walk saw it
   (`PassInv.selection_ne`), its expansion copies a set that is already expanded, and nothing
   else changes (`PassInv.step_of`). A run in any order the sort may leave keeps the invariant
   (`PassInv.run`).
4. The walk of the result: the walker accepts the abstract expansion of every root set
   (`walkSelectionSet_of_walks`, `walksList_expandFragmentsList`), so its visits have object
   types only and a second pass registers nothing (`expandAbstractInlineFragments_normalForm`).

Both results hold for every document the pass may leave (`ExpandsAbstractInlineFragments`),
whatever order `sort.Slice` leaves among actions of equal depth, and so for the one
`expandAbstractInlineFragments` computes.
-/

namespace GraphQLTools

namespace Ast

namespace Document

/-! ## Reading a selection's view -/

section Views

variable {d : Document} {viewSet : Nat → Option (List (View Nat))}

theorem viewSelectionSet_succ_of_lt {ref : Nat} (h : ref < d.selectionSets.length) (n : Nat) :
    d.viewSelectionSet (n + 1) ref = d.viewSelections (d.viewSelectionSet n) (d.selectionRefs ref) := by
  simp [viewSelectionSet, selectionRefs, List.getElem?_eq_getElem h]

theorem viewBelow_eq_some {b : Bool} {ref : Nat} {o : Option (Nat × List (View Nat))}
    (h : viewBelow viewSet b ref = some o) :
    (b = false ∧ o = none) ∨ (b = true ∧ ∃ vs, viewSet ref = some vs ∧ o = some (ref, vs)) := by
  cases b
  · simp only [viewBelow, Bool.false_eq_true, if_false, Option.some.injEq] at h
    exact .inl ⟨rfl, h.symm⟩
  · simp only [viewBelow, if_true] at h
    obtain ⟨vs, hvs, rfl⟩ := Option.map_eq_some'.mp h
    exact .inr ⟨rfl, vs, hvs, rfl⟩

theorem viewTypeCondition_eq_some {tc : Option Nat} {name : Option String}
    (h : d.viewTypeCondition tc = some name) : name = tc.map d.typeName := by
  cases tc with
  | none => simpa [viewTypeCondition, eq_comm] using h
  | some t =>
    simp only [viewTypeCondition] at h
    obtain ⟨x, hx, rfl⟩ := Option.map_eq_some'.mp h
    simp [typeName, hx]

/-- The view of a selection of kind `field`, taken apart. -/
theorem viewSelectionWith_field {j f : Nat} {u : View Nat} (hs : d.selection j = ⟨.field, f⟩)
    (hu : d.viewSelectionWith viewSet j = some u) :
    ∃ fd ds o, d.fields[f]? = some fd ∧ d.viewDirectives fd.directives = some ds ∧
      viewBelow viewSet fd.hasSelections fd.selectionSet = some o ∧
      u = .field fd.name fd.«alias» fd.arguments ds o := by
  obtain ⟨s, hs', hu⟩ := Option.bind_eq_some.mp hu
  obtain rfl : s = ⟨.field, f⟩ := by simpa [selection, hs'] using hs
  simp only [viewNode, Option.bind_eq_bind, Option.bind_eq_some, pure, Option.some.injEq] at hu
  obtain ⟨fd, hf, ds, hds, o, ho, rfl⟩ := hu
  exact ⟨fd, ds, o, hf, hds, ho, rfl⟩

/-- The view of a selection of kind `inlineFragment`, taken apart. -/
theorem viewSelectionWith_inlineFragment {j f : Nat} {u : View Nat}
    (hs : d.selection j = ⟨.inlineFragment, f⟩) (hu : d.viewSelectionWith viewSet j = some u) :
    ∃ fr ds o, d.inlineFragments[f]? = some fr ∧
      d.viewTypeCondition fr.typeCondition = some (fr.typeCondition.map d.typeName) ∧
      d.viewOptionalDirectives fr.hasDirectives fr.directives = some ds ∧
      viewBelow viewSet fr.hasSelections fr.selectionSet = some o ∧
      u = .inlineFragment (fr.typeCondition.map d.typeName) ds o := by
  obtain ⟨s, hs', hu⟩ := Option.bind_eq_some.mp hu
  obtain rfl : s = ⟨.inlineFragment, f⟩ := by simpa [selection, hs'] using hs
  simp only [viewNode, Option.bind_eq_bind, Option.bind_eq_some, pure, Option.some.injEq] at hu
  obtain ⟨fr, hf, tc, htc, ds, hds, o, ho, rfl⟩ := hu
  obtain rfl := viewTypeCondition_eq_some htc
  exact ⟨fr, ds, o, hf, htc, hds, ho, rfl⟩

/-- The view of a fragment spread or of an unknown selection has nothing below it. -/
theorem viewSelectionWith_leaf {j f : Nat} {kind : SelectionKind} {u : View Nat}
    (hs : d.selection j = ⟨kind, f⟩) (hk : kind = .fragmentSpread ∨ kind = .unknown)
    (hu : d.viewSelectionWith viewSet j = some u) :
    (∃ name directives, u = .fragmentSpread name directives) ∨ u = .unknown := by
  obtain ⟨s, hs', hu⟩ := Option.bind_eq_some.mp hu
  obtain rfl : s = ⟨kind, f⟩ := by simpa [selection, hs'] using hs
  rcases hk with rfl | rfl <;>
    simp only [viewNode, Option.bind_eq_bind, Option.bind_eq_some, pure, Option.some.injEq] at hu
  · obtain ⟨_, _, _, _, rfl⟩ := hu
    exact .inl ⟨_, _, rfl⟩
  · exact .inr hu.symm

theorem View.forgetList_append (vs ws : List (View Nat)) :
    View.forgetList (vs ++ ws) = View.forgetList vs ++ View.forgetList ws := by
  simp [View.forgetList_eq_map]

end Views

/-! ## A selection and its child -/

section Children

variable {schema : Schema} {d D : Document} {changed : Nat → Prop}
  {viewSet viewSet' : Nat → Option (List (View Nat))} {w y : Visit} {j : Nat} {u : View Nat}

/-- **The view of a selection with a child** is that of a field or an inline fragment whose set
is the child's, read at the child's type; a document grown from `d` reads the selection in the
same way, over any view of that set. -/
theorem Grows.viewSelectionWith_child (g : Grows d D changed)
    (viewSet' : Nat → Option (List (View Nat))) (hy : w.child? schema d j = some y)
    (hu : d.viewSelectionWith viewSet j = some u) :
    ∃ us, viewSet y.ref = some us ∧ ∀ ws, viewSet' y.ref = some ws →
      (∃ name «alias» arguments directives,
        u = .field name «alias» arguments directives (some (y.ref, us)) ∧
        D.viewSelectionWith viewSet' j =
          some (.field name «alias» arguments directives (some (y.ref, ws))) ∧
        schema.fieldType w.enclosingTypeDefinition name = some y.enclosingTypeDefinition ∧
        (y.ancestors.headD default).kind = .field) ∨
      (∃ f typeCondition directives,
        u = .inlineFragment typeCondition directives (some (y.ref, us)) ∧
        D.viewSelectionWith viewSet' j =
          some (.inlineFragment typeCondition directives (some (y.ref, ws))) ∧
        schema.conditionType w.enclosingTypeDefinition typeCondition =
          some y.enclosingTypeDefinition ∧
        y.ancestors.headD default = ⟨.inlineFragment, f⟩ ∧ d.selection j = ⟨.inlineFragment, f⟩) := by
  obtain ⟨s, hs, -⟩ := Option.bind_eq_some.mp hu
  have hD : D.selections[j]? = some s := List.getElem?_of_prefix_some g.selections hs
  have hsel : d.selection j = s := by simp [Document.selection, hs]
  obtain ⟨kind, f⟩ := s
  cases kind with
  | field =>
    obtain ⟨fd, ds, o, hf, hds, ho, rfl⟩ := viewSelectionWith_field hsel hu
    rw [child?_field hsel, show d.field f = fd by simp [Document.field, hf]] at hy
    split at hy
    · obtain ⟨t, ht, rfl⟩ := Option.map_eq_some'.mp hy
      simp only [viewBelow, *, if_true] at ho
      obtain ⟨us, hus, rfl⟩ := Option.map_eq_some'.mp ho
      refine ⟨us, hus, fun ws hws => .inl ⟨_, _, _, _, rfl, ?_, ht, rfl⟩⟩
      simp [viewSelectionWith, hD, viewNode, List.getElem?_of_prefix_some g.fields hf,
        g.viewDirectives hds, viewBelow, *]
    · cases hy
  | inlineFragment =>
    obtain ⟨fr, ds, o, hf, htc, hds, ho, rfl⟩ := viewSelectionWith_inlineFragment hsel hu
    rw [child?_inlineFragment hsel,
      show d.inlineFragment f = fr by simp [Document.inlineFragment, hf]] at hy
    split at hy
    · obtain ⟨t, ht, rfl⟩ := Option.map_eq_some'.mp hy
      simp only [viewBelow, *, if_true] at ho
      obtain ⟨us, hus, rfl⟩ := Option.map_eq_some'.mp ho
      refine ⟨us, hus, fun ws hws => .inr ⟨f, _, _, rfl, ?_, ht, rfl, hsel⟩⟩
      simp [viewSelectionWith, hD, viewNode, List.getElem?_of_prefix_some g.inlineFragments hf,
        g.viewTypeCondition_eq htc, g.viewOptionalDirectives hds, viewBelow, *]
    · cases hy
  | fragmentSpread | unknown => simp [Visit.child?, hsel] at hy

/-- A selection whose view enters no set has the same view in a grown document, over any view
of sets. -/
theorem Grows.viewSelectionWith_of_sets_nil (g : Grows d D changed)
    (viewSet' : Nat → Option (List (View Nat))) (hu : d.viewSelectionWith viewSet j = some u)
    (hs : u.sets = []) : D.viewSelectionWith viewSet' j = some u :=
  (g.mono fun _ _ _ => trivial).viewSelectionWith_eq (fun _ _ _ h _ => absurd trivial h) hu
    (by simp [hs])

/-- **A selection the walker goes through without a child** has no set in its view, and the
pass leaves it as it is. -/
theorem viewSelectionWith_of_child?_none (hres : d.Resolves schema w.enclosingTypeDefinition j)
    (hy : w.child? schema d j = none) (hu : d.viewSelectionWith viewSet j = some u) :
    u.sets = [] ∧
      View.expandFragments schema w.enclosingTypeDefinition (View.forget u) = [View.forget u] := by
  rcases hs : d.selection j with ⟨kind, f⟩
  cases kind with
  | field =>
    obtain ⟨fd, ds, o, hf, -, ho, rfl⟩ := viewSelectionWith_field hs hu
    have hfd : d.field f = fd := by simp [Document.field, hf]
    rw [child?_field hs, hfd] at hy
    simp only [Resolves, hs, hfd, Option.isSome_iff_exists] at hres
    obtain ⟨t, ht⟩ := hres
    rcases viewBelow_eq_some ho with ⟨-, rfl⟩ | ⟨hb, -, -, -⟩
    · simp [View.expandFragments, View.forgetBelow, View.setsBelow]
    · simp [hb, ht] at hy
  | inlineFragment =>
    obtain ⟨fr, ds, o, hf, -, -, ho, rfl⟩ := viewSelectionWith_inlineFragment hs hu
    have hfr : d.inlineFragment f = fr := by simp [Document.inlineFragment, hf]
    rw [child?_inlineFragment hs, hfr] at hy
    simp only [Resolves, hs, hfr, Option.isSome_iff_exists] at hres
    obtain ⟨t, ht⟩ := hres
    rcases viewBelow_eq_some ho with ⟨-, rfl⟩ | ⟨hb, -, -, -⟩
    · simp [View.expandFragments, View.forgetBelow, View.setsBelow]
    · simp [hb, ht] at hy
  | fragmentSpread | unknown =>
    rcases viewSelectionWith_leaf hs (by simp) hu with ⟨_, _, rfl⟩ | rfl <;>
      simp [View.sets, View.forget, View.expandFragments]

end Children

end Document

/-! ## The actions of the pass -/

namespace expandAbstractInlineFragmentsVisitor

variable {schema : Schema} {v : Visit} {a : Action}

/-- The visitor registers nothing on a visit exactly when, if it is the visit of an inline
fragment's set, the type of that set is neither an interface nor a union. -/
theorem enterSelectionSet_eq_none_iff :
    enterSelectionSet schema v = none ↔
      ((v.ancestors.headD default).kind = .inlineFragment →
        v.enclosingTypeDefinition.NotAbstract) := by
  unfold enterSelectionSet TypeDefinition.NotAbstract
  dsimp only
  split_ifs with hk
  · exact iff_of_true rfl fun h => absurd h hk
  · rcases v.enclosingTypeDefinition.kind <;> simp_all

/-- What the visitor registers: at the visit's depth, the expansion of the inline fragment that
owns the set when its type is an interface, its promotion when it is a union, each looking the
fragment up in the set above. -/
theorem enterSelectionSet_eq_some (h : enterSelectionSet schema v = some a) :
    a.precedence.depth = v.depth ∧ ∃ f, v.ancestors.headD default = ⟨.inlineFragment, f⟩ ∧
      ((v.enclosingTypeDefinition.kind = .interface ∧
          a.transformation = .expandInterfaceInlineFragment f (v.ancestors.getD 1 default).ref
            (schema.concreteInterfaceImplementationTypeNames v.enclosingTypeDefinition.name)) ∨
        (v.enclosingTypeDefinition.kind = .union ∧
          a.transformation = .promoteUnionInlineFragments f (v.ancestors.getD 1 default).ref)) := by
  unfold enterSelectionSet at h
  dsimp only at h
  generalize hn : v.ancestors.headD default = n at h
  obtain ⟨kind, f⟩ := n
  split_ifs at h with hk
  simp only [ne_eq, not_not] at hk
  subst hk
  split at h <;> first | (cases h; exact ⟨rfl, f, rfl, by simp_all⟩) | cases h

end expandAbstractInlineFragmentsVisitor

namespace Document

/-! ## What the walker accepts, on views -/

section Walks

variable {schema : Schema} {d : Document} {ok : TypeDefinition → Prop}

/-- **The walker's view of one selection.** The walker accepts the view of the selection `j` of
the set of `w` exactly when it goes through `j` and accepts the view of the set of its child,
whose type satisfies `ok` when that is the set of an inline fragment. -/
theorem walks_forget_iff {w : Visit} {j m : Nat} {u : View Nat}
    (hu : d.viewSelectionWith (d.viewSelectionSet m) j = some u) :
    View.Walks schema ok w.enclosingTypeDefinition (View.forget u) ↔
      d.Resolves schema w.enclosingTypeDefinition j ∧ ∀ y, w.child? schema d j = some y →
        ((y.ancestors.headD default).kind = .inlineFragment → ok y.enclosingTypeDefinition) ∧
        ∃ ws, d.viewSelectionSet m y.ref = some ws ∧
          View.WalksList schema ok y.enclosingTypeDefinition (View.forgetList ws) := by
  rcases hs : d.selection j with ⟨kind, f⟩
  cases kind with
  | field =>
    obtain ⟨fd, ds, o, hf, -, ho, rfl⟩ := viewSelectionWith_field hs hu
    have hfd : d.field f = fd := by simp [field, hf]
    rw [child?_field hs, hfd]
    simp only [Resolves, hs, hfd]
    rcases viewBelow_eq_some ho with ⟨hb, rfl⟩ | ⟨hb, ws, hws, rfl⟩
    · simp [hb, View.Walks, View.forgetBelow, Option.isSome_iff_exists]
    · simp only [hb, if_true, View.forget_field, View.forgetBelow, Option.map_some', View.Walks]
      rcases schema.fieldType w.enclosingTypeDefinition fd.name with _ | t <;> simp [hws]
  | inlineFragment =>
    obtain ⟨fr, ds, o, hf, -, -, ho, rfl⟩ := viewSelectionWith_inlineFragment hs hu
    have hfr : d.inlineFragment f = fr := by simp [inlineFragment, hf]
    rw [child?_inlineFragment hs, hfr]
    simp only [Resolves, hs, hfr]
    rcases viewBelow_eq_some ho with ⟨hb, rfl⟩ | ⟨hb, ws, hws, rfl⟩
    · simp [hb, View.Walks, View.forgetBelow, Option.isSome_iff_exists]
    · simp only [hb, if_true, View.forget_inlineFragment, View.forgetBelow, Option.map_some',
        View.Walks]
      rcases schema.conditionType w.enclosingTypeDefinition (fr.typeCondition.map d.typeName)
        with _ | t <;> simp [hws]
  | fragmentSpread | unknown =>
    rcases viewSelectionWith_leaf hs (by simp) hu with ⟨_, _, rfl⟩ | rfl <;>
      simp [View.Walks, View.forget, Resolves, Visit.child?, hs]

/-- **A view the walker accepts is walked.** When the view of a set, with no more fuel than the
walk has, is accepted with `ok` for the types of inline fragments' sets, the walk of the set
succeeds and every inline fragment's set it enters below has a type satisfying `ok`. -/
theorem walkSelectionSet_of_walks : ∀ g n ancestors enclosing depth ref ws, n ≤ g →
    d.viewSelectionSet n ref = some ws →
    View.WalksList schema ok enclosing (View.forgetList ws) →
    ∃ tail, d.walkSelectionSet schema g ancestors enclosing depth ref =
        some (⟨ref, ancestors, enclosing, depth + 1⟩ :: tail) ∧
      ∀ v ∈ tail, (v.ancestors.headD default).kind = .inlineFragment →
        ok v.enclosingTypeDefinition
  | _, 0, _, _, _, _, _, _, h, _ => by simp [viewSelectionSet] at h
  | 0, _ + 1, _, _, _, _, _, hn, _, _ => absurd hn (by omega)
  | g + 1, m + 1, ancestors, enclosing, depth, ref, ws, hn, h, hw => by
    rw [viewSelectionSet_succ_of_lt (lt_of_viewSelectionSet h)] at h
    set w : Visit := ⟨ref, ancestors, enclosing, depth + 1⟩
    suffices ∀ (l : List Nat) vs, d.viewSelections (d.viewSelectionSet m) l = some vs →
        View.WalksList schema ok enclosing (View.forgetList vs) →
        ∃ tail, d.walkSelections schema (d.walkSelectionSet schema g)
          (⟨.selectionSet, ref⟩ :: ancestors) enclosing (depth + 1) l = some tail ∧
          ∀ v ∈ tail, (v.ancestors.headD default).kind = .inlineFragment →
            ok v.enclosingTypeDefinition by
      obtain ⟨tail, ht, hp⟩ := this _ ws h hw
      exact ⟨tail, by simp [walkSelectionSet, ht], hp⟩
    intro l
    induction l with
    | nil => intro vs _ _; exact ⟨[], rfl, by simp⟩
    | cons j l ih =>
      intro vs hvs hw'
      simp only [viewSelections, Option.bind_eq_bind, Option.bind_eq_some, pure,
        Option.some.injEq] at hvs
      obtain ⟨u, hu, us, hus, rfl⟩ := hvs
      obtain ⟨hj, hl⟩ : View.Walks schema ok enclosing (View.forget u) ∧
          View.WalksList schema ok enclosing (View.forgetList us) := hw'
      obtain ⟨hres, hchild⟩ := (walks_forget_iff (w := w) hu).mp hj
      obtain ⟨tl, htl, hpl⟩ := ih us hus hl
      have hsel : ∃ vs, d.walkSelectionWith schema (d.walkSelectionSet schema g)
          (⟨.selectionSet, w.ref⟩ :: w.ancestors) w.enclosingTypeDefinition w.depth j = some vs ∧
          ∀ v ∈ vs, (v.ancestors.headD default).kind = .inlineFragment →
            ok v.enclosingTypeDefinition := by
        rcases hy : w.child? schema d j with _ | y
        · exact ⟨[], walkSelectionWith_eq_some_iff.mpr ⟨hres, by simp [hy]⟩, by simp⟩
        · obtain ⟨hok, ws', hws', hw''⟩ := hchild y hy
          obtain ⟨t', ht', hp'⟩ := walkSelectionSet_of_walks g m y.ancestors
            y.enclosingTypeDefinition (w.depth + 1) y.ref ws' (by omega) hws' hw''
          refine ⟨_, walkSelectionWith_eq_some_iff.mpr ⟨hres, by simpa [hy] using ht'⟩, ?_⟩
          intro v hv
          rcases List.mem_cons.mp hv with rfl | hv
          · exact hok
          · exact hp' v hv
      obtain ⟨vs, hvs, hp⟩ := hsel
      refine ⟨vs ++ tl, by simp [walkSelections, hvs, htl], fun v hv => ?_⟩
      rcases List.mem_append.mp hv with hv | hv
      · exact hp v hv
      · exact hpl v hv

end Walks

section Accepted

variable {schema : Schema} {d : Document} {fuel : Nat} {visits : List Visit}

/-- **The walker accepts the view of every set it visits.** -/
theorem walksList_of_walk (hwalk : d.walk schema fuel = some visits) :
    ∀ n (v : Visit), v ∈ visits → ∀ us, d.viewSelectionSet n v.ref = some us →
      View.WalksList schema (fun _ => True) v.enclosingTypeDefinition (View.forgetList us)
  | 0, _, _, _, h => by simp [viewSelectionSet] at h
  | n + 1, v, hv, us, h => by
    rw [viewSelectionSet_succ_of_lt (lt_of_viewSelectionSet h)] at h
    obtain ⟨hsome, rfl⟩ := viewSelections_eq_some_iff.mp h
    rw [View.forgetList_eq_map, List.map_map]
    refine View.walksList_iff.mpr fun x hx => ?_
    obtain ⟨j, hj, rfl⟩ := List.mem_map.mp hx
    obtain ⟨u, hu⟩ := Option.isSome_iff_exists.mp (hsome j hj)
    obtain ⟨hres, hchild⟩ := walk_child hwalk hv hj
    simp only [Function.comp, hu, Option.getD_some]
    refine (walks_forget_iff hu).mpr ⟨hres, fun y hy => ⟨fun _ => trivial, ?_⟩⟩
    obtain ⟨ws, hws, -⟩ := (Grows.refl d fun _ => False).viewSelectionWith_child
      (d.viewSelectionSet n) hy hu
    exact ⟨ws, hws, walksList_of_walk hwalk n y (hchild y hy) ws hws⟩

end Accepted

/-! ## The actions a walk registers -/

section Actions

open expandAbstractInlineFragmentsVisitor

variable {schema : Schema} {d : Document} {fuel : Nat} {visits : List Visit}
  (hwalk : d.walk schema fuel = some visits)
include hwalk

/-- **The visit an action is registered on** is the child of an inline fragment of a visited
set, the fragment and the set the action names. -/
theorem action_parent {y : Visit} (hy : y ∈ visits) {a : Action}
    (ha : enterSelectionSet schema y = some a) :
    ∃ w ∈ visits, ∃ j ∈ d.selectionRefs w.ref, ∃ f, w.child? schema d j = some y ∧
      d.selection j = ⟨.inlineFragment, f⟩ ∧ y.ancestors.headD default = ⟨.inlineFragment, f⟩ ∧
      (y.ancestors.getD 1 default).ref = w.ref := by
  obtain ⟨-, f, hhead, -⟩ := enterSelectionSet_eq_some ha
  obtain ⟨-, ⟨node, hroot, hdef⟩ | ⟨w, hw, j, hj, hc⟩⟩ := walk_tree hwalk y hy
  · rw [hroot, List.headD_cons] at hhead
    subst hhead
    simp [Node.IsDefinition] at hdef
  · obtain ⟨-, node, hanc, hsel, -⟩ := child?_eq_some hc
    rw [hanc, List.headD_cons] at hhead
    subst hhead
    exact ⟨w, hw, j, hj, f, hc, by simpa [Node.selection?] using hsel.symm, by rw [hanc]; rfl,
      by rw [hanc]; rfl⟩

/-- When the walk enters no set twice, an action is registered on one visit only. -/
theorem action_unique (htree : (visits.map Visit.ref).Nodup) {y y' : Visit} (hy : y ∈ visits)
    (hy' : y' ∈ visits) {a : Action} (ha : enterSelectionSet schema y = some a)
    (ha' : enterSelectionSet schema y' = some a) : y = y' := by
  obtain ⟨f, hf, hfa⟩ := enterSelectionSet_fragment? ha
  obtain ⟨f', hf', hfa'⟩ := enterSelectionSet_fragment? ha'
  rw [hfa, Option.some.injEq, Prod.mk.injEq] at hfa'
  obtain ⟨-, -, -, -, hr⟩ := walk_inlineFragment hwalk hy hf
  obtain ⟨-, -, -, -, hr'⟩ := walk_inlineFragment hwalk hy' (hfa'.1 ▸ hf')
  exact List.inj_on_of_nodup_map htree hy hy' (hr.trans hr'.symm)

/-- When the walk enters no set twice, it registers no action twice. -/
theorem actions_nodup (htree : (visits.map Visit.ref).Nodup) :
    (visits.filterMap (enterSelectionSet schema)).Nodup :=
  (registered_differ hwalk htree).imp_of_mem fun ha _ hdiff e => by
    subst e
    obtain ⟨⟨f, p⟩, hfp⟩ := Option.isSome_iff_exists.mp (registered_finds hwalk _ ha).1
    exact hdiff f p f p hfp hfp rfl

end Actions

/-! ## The invariant of a run of the pass

The pass applies its actions deepest first. Once the actions `done` have run, each selection
`j` of a visited set stands, in the selection list of that set, for a part: `j` itself while
the action on its child has not run; the clones of an interface fragment once its expansion
has; the selections of a union fragment's own set once its promotion has. The clones' views
are the abstract expansion of the fragment's view, and a set all of whose deeper actions have
run has the abstract expansion of its view (`PassInv.expands`). -/

section Invariant

open expandAbstractInlineFragmentsVisitor

variable (schema : Schema) (d₀ : Document) (fuel : Nat) (visits : List Visit)

/-- The selections `part` stand in `D` for the expansion of the selection `j` of the set of
`w`: they are new, and at every fuel the pass copies with, their views are the abstract
expansion of the view of `j` and enter only new sets. -/
def Copied (D : Document) (w : Visit) (j : Nat) (part : List Nat) : Prop :=
  (∀ k ∈ part, d₀.selections.length ≤ k) ∧
    ∀ n ≤ fuel, ∀ u, d₀.viewSelectionWith (d₀.viewSelectionSet n) j = some u →
      ∃ ws, D.viewSelections (D.viewSelectionSet n) part = some ws ∧
        View.forgetList ws =
          View.expandFragments schema w.enclosingTypeDefinition (View.forget u) ∧
        ∀ s ∈ View.setsList ws, d₀.selectionSets.length ≤ s

/-- What stands in `D`, once the actions `done` have run, for the selection `j` of the set of
`w`. -/
structure PartOf (done : List Action) (D : Document) (w : Visit) (j : Nat) (part : List Nat) :
    Prop where
  /-- `j` itself, while no action on its child has run; -/
  kept : (∀ y a, w.child? schema d₀ j = some y → enterSelectionSet schema y = some a →
    a ∉ done) → part = [j]
  /-- its clones, once the expansion of an interface fragment has run; -/
  expanded : ∀ y a, w.child? schema d₀ j = some y → enterSelectionSet schema y = some a →
    a ∈ done → y.enclosingTypeDefinition.kind = .interface → Copied schema d₀ fuel D w j part
  /-- the selections of its own set, once the promotion of a union fragment has run. -/
  promoted : ∀ y a, w.child? schema d₀ j = some y → enterSelectionSet schema y = some a →
    a ∈ done → y.enclosingTypeDefinition.kind = .union → part = D.selectionRefs y.ref

/-- **The invariant of a run of the pass** from `d₀`, once the actions `done` have run. -/
structure PassInv (done : List Action) (D : Document) : Prop where
  /-- Nodes are only added, and the definitions are kept. -/
  grows : Grows d₀ D fun _ => True
  /-- What is added refers only to what is added. -/
  newOnly : NewOnly d₀ D
  /-- A visited set lists new selections, and selections of visited sets as deep or deeper. -/
  within : ∀ w ∈ visits, ∀ k ∈ D.selectionRefs w.ref,
    d₀.selections.length ≤ k ∨ ∃ x ∈ visits, w.depth ≤ x.depth ∧ k ∈ d₀.selectionRefs x.ref
  /-- A visited set lists, in order, the parts that stand for its selections. -/
  replaced : ∀ w ∈ visits, ∃ parts : Nat → List Nat,
    D.selectionRefs w.ref = (d₀.selectionRefs w.ref).flatMap parts ∧
      ∀ j ∈ d₀.selectionRefs w.ref, PartOf schema d₀ fuel done D w j (parts j)

theorem passInv_nil : PassInv schema d₀ fuel visits [] d₀ where
  grows := Grows.refl d₀ _
  newOnly := NewOnly.refl d₀
  within w hw k hk := .inr ⟨w, hw, le_rfl, hk⟩
  replaced w _ := ⟨fun j => [j], by simp, fun _ _ =>
    ⟨fun _ => rfl, fun _ _ _ _ h => absurd h (List.not_mem_nil _),
      fun _ _ _ _ h => absurd h (List.not_mem_nil _)⟩⟩

end Invariant

/-! ## What the invariant shows of the views -/

section Expands

open expandAbstractInlineFragmentsVisitor

variable {schema : Schema} {d₀ D : Document} {fuel : Nat} {visits : List Visit}
  {done : List Action}

/-- The views of the parts standing for a list of selections, in order. -/
theorem viewSelections_flatMap (D : Document) (viewSet' : Nat → Option (List (View Nat)))
    (parts : Nat → List Nat) {viewSet : Nat → Option (List (View Nat))}
    {enclosing : TypeDefinition} :
    ∀ {L : List Nat} {us : List (View Nat)}, d₀.viewSelections viewSet L = some us →
      (∀ j ∈ L, ∀ u, d₀.viewSelectionWith viewSet j = some u →
        ∃ ws, D.viewSelections viewSet' (parts j) = some ws ∧
          View.forgetList ws = View.expandFragments schema enclosing (View.forget u)) →
      ∃ ws, D.viewSelections viewSet' (L.flatMap parts) = some ws ∧
        View.forgetList ws = View.expandFragmentsList schema enclosing (View.forgetList us)
  | [], us, h, _ => by
    cases h
    exact ⟨[], rfl, rfl⟩
  | j :: L, us, h, hp => by
    simp only [viewSelections, Option.bind_eq_bind, Option.bind_eq_some, pure,
      Option.some.injEq] at h
    obtain ⟨u, hu, us, hus, rfl⟩ := h
    obtain ⟨ws₁, h₁, e₁⟩ := hp j (List.mem_cons_self _ _) u hu
    obtain ⟨ws₂, h₂, e₂⟩ := viewSelections_flatMap D viewSet' parts hus fun k hk =>
      hp k (List.mem_cons_of_mem _ hk)
    exact ⟨ws₁ ++ ws₂, by simpa using viewSelections_append h₂ h₁,
      by rw [View.forgetList_append, e₁, e₂]; rfl⟩

variable (inv : PassInv schema d₀ fuel visits done D) (hwalk : d₀.walk schema fuel = some visits)
include inv hwalk

/-- **The part standing for one selection** has the abstract expansion of the selection's view,
when every action deeper than the set that holds it has run and its child's set has the
abstract expansion of its view. -/
theorem PassInv.part_views {v : Visit} (hv : v ∈ visits) {n : Nat} (hn : n ≤ fuel)
    (hdeep : ∀ b ∈ visits.filterMap (enterSelectionSet schema),
      v.depth < b.precedence.depth → b ∈ done)
    {j : Nat} (hj : j ∈ d₀.selectionRefs v.ref) {part : List Nat}
    (hpart : PartOf schema d₀ fuel done D v j part) {u : View Nat}
    (hu : d₀.viewSelectionWith (d₀.viewSelectionSet n) j = some u)
    (ih : ∀ y, v.child? schema d₀ j = some y → ∀ us, d₀.viewSelectionSet n y.ref = some us →
      ∃ ws, D.viewSelectionSet n y.ref = some ws ∧ View.forgetList ws =
        View.expandFragmentsList schema y.enclosingTypeDefinition (View.forgetList us)) :
    ∃ ws, D.viewSelections (D.viewSelectionSet n) part = some ws ∧
      View.forgetList ws = View.expandFragments schema v.enclosingTypeDefinition (View.forget u) := by
  obtain ⟨hres, hchild⟩ := walk_child hwalk hv hj
  rcases hy : v.child? schema d₀ j with _ | y
  · rw [hpart.kept fun y a h => by simp [hy] at h]
    obtain ⟨hsets, hexp⟩ := viewSelectionWith_of_child?_none hres hy hu
    refine ⟨[u], ?_, by rw [hexp]; rfl⟩
    simp [viewSelections, inv.grows.viewSelectionWith_of_sets_nil (D.viewSelectionSet n) hu hsets]
  obtain ⟨us, hus, hshape⟩ :=
    inv.grows.viewSelectionWith_child (D.viewSelectionSet n) hy hu
  obtain ⟨ws, hws, hfw⟩ := ih y hy us hus
  rcases ha : enterSelectionSet schema y with _ | a
  · rw [hpart.kept fun y' a' hy' ha' => by
      rw [hy, Option.some.injEq] at hy'
      subst hy'
      rw [ha] at ha'
      cases ha']
    rcases hshape ws hws with ⟨name, al, args, ds, rfl, hD, ht, -⟩ | ⟨_, tc, ds, rfl, hD, ht, hhead, -⟩
    · exact ⟨[.field name al args ds (some (y.ref, ws))], by simp [viewSelections, hD],
        by simp [View.forgetBelow, View.expandFragments_field ht, hfw, View.forgetList]⟩
    · have hna := enterSelectionSet_eq_none_iff.mp ha (by rw [hhead])
      exact ⟨[.inlineFragment tc ds (some (y.ref, ws))], by simp [viewSelections, hD],
        by simp [View.forgetBelow, View.expandFragments_concrete ht hna, hfw, View.forgetList]⟩
  obtain ⟨hdepth, f, hhead, hkind⟩ := enterSelectionSet_eq_some ha
  have hdone : a ∈ done := hdeep a (List.mem_filterMap.mpr ⟨y, hchild y hy, ha⟩)
    (by rw [hdepth, (child?_eq_some hy).1]; omega)
  rcases hkind with ⟨hint, -⟩ | ⟨hun, -⟩
  · obtain ⟨ws', h₁, h₂, -⟩ := (hpart.expanded y a hy ha hdone hint).2 n hn u hu
    exact ⟨ws', h₁, h₂⟩
  rw [hpart.promoted y a hy ha hdone hun]
  rcases hshape ws hws with ⟨-, -, -, -, -, -, -, hk⟩ | ⟨_, _, _, rfl, -, ht, -, -⟩
  · rw [hhead] at hk
    cases hk
  cases n with
  | zero => simp [viewSelectionSet] at hws
  | succ m =>
    rw [viewSelectionSet_succ_of_lt (lt_of_viewSelectionSet hws)] at hws
    exact ⟨ws, D.viewSelections_mono (Nat.le_succ m) hws,
      by simp [View.forgetBelow, View.expandFragments_union ht hun, hfw]⟩

/-- **A set all of whose deeper actions have run has the abstract expansion of its view**, at
every fuel the pass copies with. -/
theorem PassInv.expands : ∀ n, n ≤ fuel → ∀ v ∈ visits,
    (∀ b ∈ visits.filterMap (enterSelectionSet schema), v.depth < b.precedence.depth → b ∈ done) →
    ∀ us, d₀.viewSelectionSet n v.ref = some us →
      ∃ ws, D.viewSelectionSet n v.ref = some ws ∧ View.forgetList ws =
        View.expandFragmentsList schema v.enclosingTypeDefinition (View.forgetList us)
  | 0, _, _, _, _, _, h => by simp [viewSelectionSet] at h
  | n + 1, hn, v, hv, hdeep, us, h => by
    have hlt := lt_of_viewSelectionSet h
    rw [viewSelectionSet_succ_of_lt hlt] at h
    obtain ⟨parts, hrefs, hparts⟩ := inv.replaced v hv
    obtain ⟨ws, hws, hfw⟩ := viewSelections_flatMap D (D.viewSelectionSet n) parts h fun j hj u hu =>
        inv.part_views hwalk hv (by omega) hdeep hj (hparts j hj) hu fun y hy us' hus' =>
          PassInv.expands n (by omega) y ((walk_child hwalk hv hj).2 y hy)
            (fun b hb hlt' => hdeep b hb (by rw [(child?_eq_some hy).1] at hlt'; omega)) us' hus'
    refine ⟨ws, ?_, hfw⟩
    rw [viewSelectionSet_succ_of_lt (lt_of_lt_of_le hlt inv.grows.selectionSets), hrefs, hws]

end Expands

/-! ## One step of the run -/

section Children

variable {schema : Schema} {d : Document} {w x y : Visit} {j k : Nat}

/-- Two selections naming the same node have children with the same set, whichever visits
hold them, as soon as the walker goes through the second. -/
theorem child?_same_selection (hy : w.child? schema d j = some y)
    (hs : d.selection k = d.selection j) (hres : d.Resolves schema x.enclosingTypeDefinition k) :
    ∃ y', x.child? schema d k = some y' ∧ y'.ref = y.ref ∧ y'.depth = x.depth + 2 := by
  rcases hsel : d.selection j with ⟨kind, f⟩
  have hk := hs.trans hsel
  cases kind with
  | field =>
    rw [child?_field hsel] at hy
    rw [child?_field hk]
    simp only [Resolves, hk, Option.isSome_iff_exists] at hres
    obtain ⟨t, ht⟩ := hres
    split at hy
    · obtain ⟨_, -, rfl⟩ := Option.map_eq_some'.mp hy
      simp [*]
    · cases hy
  | inlineFragment =>
    rw [child?_inlineFragment hsel] at hy
    rw [child?_inlineFragment hk]
    simp only [Resolves, hk, Option.isSome_iff_exists] at hres
    obtain ⟨t, ht⟩ := hres
    split at hy
    · obtain ⟨_, -, rfl⟩ := Option.map_eq_some'.mp hy
      simp [*]
    · cases hy
  | fragmentSpread | unknown => simp [Visit.child?, hsel] at hy

/-- An inline fragment with a child is in the array. -/
theorem lt_of_child?_inlineFragment {f : Nat} (hy : w.child? schema d j = some y)
    (hs : d.selection j = ⟨.inlineFragment, f⟩) : f < d.inlineFragments.length := by
  by_contra h
  rw [child?_inlineFragment hs,
    show d.inlineFragment f = default by
      simp [Document.inlineFragment, List.getElem?_eq_none (not_lt.mp h)]] at hy
  cases hy

end Children

section Step

open expandAbstractInlineFragmentsVisitor

variable {schema : Schema} {d₀ D D' : Document} {fuel : Nat} {visits : List Visit}
  {done : List Action} {a : Action}

/-- Copies live in new sets, which a step that rewrites a set of `d₀` leaves. -/
theorem Copied.frame {w : Visit} {j : Nat} {part : List Nat} {P : Nat}
    (h : Copied schema d₀ fuel D w j part) (g : Grows D D' (· = P))
    (hP : P < d₀.selectionSets.length) : Copied schema d₀ fuel D' w j part := by
  refine ⟨h.1, fun n hn u hu => ?_⟩
  obtain ⟨ws, hws, hfw, hsets⟩ := h.2 n hn u hu
  refine ⟨ws, g.viewSelections_eq (fun r vs h hr hs => g.viewSelectionSet_eq n r vs h hr hs)
    part ws hws fun s hs e => ?_, hfw, hsets⟩
  have := hsets s hs
  omega

/-- **A step keeps the parts it does not make**: a step that rewrites only the set `P`, of
`d₀`, keeps the part of a selection whose child does not carry the step's action, as long
as the sets of the promoted unions it lists are not `P`. -/
theorem PartOf.frame {w : Visit} {j : Nat} {part : List Nat} {P : Nat}
    (h : PartOf schema d₀ fuel done D w j part) (g : Grows D D' (· = P))
    (hP : P < d₀.selectionSets.length)
    (hne : ∀ y a', w.child? schema d₀ j = some y → enterSelectionSet schema y = some a' → a' ≠ a)
    (hprom : ∀ y a', w.child? schema d₀ j = some y → enterSelectionSet schema y = some a' →
      a' ∈ done → y.ref ≠ P ∧ y.ref < D.selectionSets.length) :
    PartOf schema d₀ fuel (done ++ [a]) D' w j part where
  kept hk := h.kept fun y a' hy ha' hd => hk y a' hy ha' (List.mem_append_left _ hd)
  expanded y a' hy ha' hd hint := by
    have hd' : a' ∈ done := (List.mem_append.mp hd).resolve_right fun e =>
      hne y a' hy ha' (List.mem_singleton.mp e)
    exact (h.expanded y a' hy ha' hd' hint).frame g hP
  promoted y a' hy ha' hd hun := by
    have hd' : a' ∈ done := (List.mem_append.mp hd).resolve_right fun e =>
      hne y a' hy ha' (List.mem_singleton.mp e)
    obtain ⟨hyP, hylt⟩ := hprom y a' hy ha' hd'
    rw [h.promoted y a' hy ha' hd' hun, g.keeps y.ref hylt hyP]

variable (inv : PassInv schema d₀ fuel visits done D) (hwalk : d₀.walk schema fuel = some visits)
include inv hwalk

/-- Where the selections of a part come from: the selection itself, a new selection, or a
selection of a deeper visited set. -/
theorem PassInv.mem_part {w : Visit} (hw : w ∈ visits) {parts : Nat → List Nat}
    (hparts : ∀ j ∈ d₀.selectionRefs w.ref, PartOf schema d₀ fuel done D w j (parts j))
    {j : Nat} (hj : j ∈ d₀.selectionRefs w.ref) {k : Nat} (hk : k ∈ parts j) :
    k = j ∨ d₀.selections.length ≤ k ∨
      ∃ x ∈ visits, w.depth < x.depth ∧ k ∈ d₀.selectionRefs x.ref := by
  by_cases hrun : ∀ y a, w.child? schema d₀ j = some y → enterSelectionSet schema y = some a →
      a ∉ done
  · rw [(hparts j hj).kept hrun] at hk
    exact .inl (List.mem_singleton.mp hk)
  push_neg at hrun
  obtain ⟨y, a, hy, ha, hdone⟩ := hrun
  obtain ⟨-, -, -, ⟨hint, -⟩ | ⟨hun, -⟩⟩ := enterSelectionSet_eq_some ha
  · exact .inr (.inl (((hparts j hj).expanded y a hy ha hdone hint).1 k hk))
  rw [(hparts j hj).promoted y a hy ha hdone hun] at hk
  rcases inv.within y ((walk_child hwalk hw hj).2 y hy) k hk with h | ⟨x, hx, hle, hkx⟩
  · exact .inr (.inl h)
  · exact .inr (.inr ⟨x, hx, by rw [(child?_eq_some hy).1] at hle; omega, hkx⟩)

/-- **Before its action runs, an inline fragment is found where it was**: no part standing for
another selection of its set names it. -/
theorem PassInv.selection_ne (htree : (visits.map Visit.ref).Nodup) {w : Visit} (hw : w ∈ visits)
    {y : Visit} (hyv : y ∈ visits) {jf f : Nat} (hchild : w.child? schema d₀ jf = some y)
    (hsel : d₀.selection jf = ⟨.inlineFragment, f⟩) {parts : Nat → List Nat}
    (hparts : ∀ j ∈ d₀.selectionRefs w.ref, PartOf schema d₀ fuel done D w j (parts j))
    {j : Nat} (hj : j ∈ d₀.selectionRefs w.ref) (hjy : w.child? schema d₀ j ≠ some y)
    {k : Nat} (hk : k ∈ parts j) : D.selection k ≠ ⟨.inlineFragment, f⟩ := by
  intro e
  by_cases hk₀ : k < d₀.selections.length
  · rw [inv.grows.selection hk₀, ← hsel] at e
    rcases inv.mem_part hwalk hw hparts hj hk with rfl | h | ⟨x, hx, hlt, hkx⟩
    · exact hjy (by rw [child?_congr e, hchild])
    · omega
    · obtain ⟨y', hy', hr, hd⟩ := child?_same_selection hchild e (walk_child hwalk hx hkx).1
      have hyy : y' = y :=
        List.inj_on_of_nodup_map htree ((walk_child hwalk hx hkx).2 y' hy') hyv hr
      rw [hyy, (child?_eq_some hchild).1] at hd
      omega
  · have hfresh := inv.newOnly.nodes k (by omega)
    rw [e] at hfresh
    exact absurd hfresh (not_le.mpr (lt_of_child?_inlineFragment hchild hsel))

/-- **A step rewriting one visited set keeps the invariant.** The action on the child `y` of
the selection `jf` of the set of `w` runs after every deeper one; the step rewrites no list but
that of `w`, where it stands `part` for `jf`, and adds nodes that refer only to what it adds. -/
theorem PassInv.step_of (htree : (visits.map Visit.ref).Nodup)
    (hlt : ∀ v ∈ visits, v.ref < d₀.selectionSets.length)
    (hclosed : ∀ a' ∈ done, ∀ b ∈ visits.filterMap (enterSelectionSet schema),
      a'.precedence.depth < b.precedence.depth → b ∈ done)
    (hna : a ∉ done) (ha : a ∈ visits.filterMap (enterSelectionSet schema))
    {y : Visit} (hy : y ∈ visits) (hya : enterSelectionSet schema y = some a)
    {w : Visit} (hw : w ∈ visits) {A B : List Nat} {jf : Nat}
    (hL : d₀.selectionRefs w.ref = A ++ jf :: B) (hchild : w.child? schema d₀ jf = some y)
    {parts : Nat → List Nat} (hD : D.selectionRefs w.ref = (d₀.selectionRefs w.ref).flatMap parts)
    (hparts : ∀ j ∈ d₀.selectionRefs w.ref, PartOf schema d₀ fuel done D w j (parts j))
    (g : Grows D D' (· = w.ref)) (hnew : NewOnly d₀ D') {part : List Nat}
    (hrefs : D'.selectionRefs w.ref = A.flatMap parts ++ part ++ B.flatMap parts)
    (hexp : y.enclosingTypeDefinition.kind = .interface → Copied schema d₀ fuel D' w jf part)
    (hun : y.enclosingTypeDefinition.kind = .union → part = D'.selectionRefs y.ref)
    (hwithin : ∀ k ∈ part, d₀.selections.length ≤ k ∨
      ∃ x ∈ visits, w.depth ≤ x.depth ∧ k ∈ d₀.selectionRefs x.ref) :
    PassInv schema d₀ fuel visits (done ++ [a]) D' := by
  have huniq := walk_child_unique hwalk htree hw hL hchild
  -- the part of `jf` is the one the step makes, since its action has now run
  have hpart : PartOf schema d₀ fuel (done ++ [a]) D' w jf part :=
    ⟨fun h => absurd (List.mem_append_right _ (List.mem_singleton_self a)) (h y a hchild hya),
      fun _ _ hy' _ _ => Option.some.inj (hy'.symm.trans hchild) ▸ hexp,
      fun _ _ hy' _ _ => Option.some.inj (hy'.symm.trans hchild) ▸ hun⟩
  have hsame : ∀ v ∈ visits, v.ref = w.ref → v = w := fun v hv e =>
    List.inj_on_of_nodup_map htree hv hw e
  have hkeep : ∀ v ∈ visits, v.ref ≠ w.ref → D'.selectionRefs v.ref = D.selectionRefs v.ref :=
    fun v hv e => g.keeps v.ref (lt_of_lt_of_le (hlt v hv) inv.grows.selectionSets) e
  -- an action that has run is on a visit shallower than `y`'s, so not on `w`
  have hprom : ∀ v ∈ visits, ∀ a', enterSelectionSet schema v = some a' → a' ∈ done →
      v.ref ≠ w.ref := by
    intro v hv a' hva hd e
    obtain rfl := hsame v hv e
    refine hna (hclosed a' hd a ha ?_)
    rw [(enterSelectionSet_eq_some hva).1, (enterSelectionSet_eq_some hya).1,
      (child?_eq_some hchild).1]
    omega
  -- the action is carried by the child of `jf` only
  have hne : ∀ v ∈ visits, ∀ j ∈ d₀.selectionRefs v.ref, ∀ y' a',
      v.child? schema d₀ j = some y' → enterSelectionSet schema y' = some a' → a' = a →
        v = w ∧ w.child? schema d₀ j = some y := by
    intro v hv j hj y' a' hy' ha' e
    subst e
    obtain rfl := action_unique hwalk htree ((walk_child hwalk hv hj).2 y' hy') hy ha' hya
    obtain ⟨-, n₁, h₁, -⟩ := child?_eq_some hy'
    obtain ⟨-, n₂, h₂, -⟩ := child?_eq_some hchild
    simp only [h₁, List.cons.injEq, Node.mk.injEq, true_and] at h₂
    obtain rfl := hsame v hv h₂.2.1
    exact ⟨rfl, hy'⟩
  have hframe : ∀ v ∈ visits, ∀ j ∈ d₀.selectionRefs v.ref,
      ¬ (v = w ∧ w.child? schema d₀ j = some y) → ∀ {p : List Nat},
        PartOf schema d₀ fuel done D v j p → PartOf schema d₀ fuel (done ++ [a]) D' v j p :=
    fun v hv j hj hnot _ hp => hp.frame g (hlt w hw)
      (fun y' a' hy' ha' e => hnot (hne v hv j hj y' a' hy' ha' e))
      fun y' a' hy' ha' hd => ⟨hprom y' ((walk_child hwalk hv hj).2 y' hy') a' ha' hd,
        lt_of_lt_of_le (hlt y' ((walk_child hwalk hv hj).2 y' hy')) inv.grows.selectionSets⟩
  refine ⟨inv.grows.trans (g.mono fun _ _ _ => trivial), hnew, fun v hv k hk => ?_, fun v hv => ?_⟩
  · by_cases e : v.ref = w.ref
    · obtain rfl := hsame v hv e
      have hDv : D.selectionRefs v.ref = A.flatMap parts ++ (parts jf ++ B.flatMap parts) := by
        rw [hD, hL, List.flatMap_append, List.flatMap_cons]
      rw [hrefs, List.mem_append, List.mem_append] at hk
      rcases hk with (hk | hk) | hk
      · exact inv.within v hv k (hDv ▸ List.mem_append_left _ hk)
      · exact hwithin k hk
      · exact inv.within v hv k (hDv ▸ List.mem_append_right _ (List.mem_append_right _ hk))
    · rw [hkeep v hv e] at hk
      exact inv.within v hv k hk
  · by_cases e : v.ref = w.ref
    · obtain rfl := hsame v hv e
      have hA : ∀ j ∈ A, (if j = jf then part else parts j) = parts j := fun j hj =>
        if_neg fun e : j = jf => huniq j (List.mem_append_left _ hj) (by rw [e]; exact hchild)
      have hB : ∀ j ∈ B, (if j = jf then part else parts j) = parts j := fun j hj =>
        if_neg fun e : j = jf => huniq j (List.mem_append_right _ hj) (by rw [e]; exact hchild)
      refine ⟨fun j => if j = jf then part else parts j, ?_, fun j hj => ?_⟩
      · rw [hrefs, hL, List.flatMap_append, List.flatMap_cons, if_pos rfl, List.flatMap_congr hA,
          List.flatMap_congr hB, List.append_assoc]
      · by_cases hjf : j = jf
        · subst hjf
          simpa using hpart
        · simp only [hjf, if_false]
          refine hframe v hv j hj (fun ⟨_, h⟩ => huniq j ?_ h) (hparts j hj)
          rw [hL, List.mem_append] at hj
          exact List.mem_append.mpr (hj.imp_right (List.mem_of_ne_of_mem hjf))
    · obtain ⟨parts', hD', hparts'⟩ := inv.replaced v hv
      exact ⟨parts', by rw [hkeep v hv e, hD'], fun j hj =>
        hframe v hv j hj (fun ⟨h, _⟩ => e (h ▸ rfl)) (hparts' j hj)⟩

/-- **One step of the run keeps the invariant.** An action registered by the walk, not yet
run, all of whose deeper actions have run, keeps the invariant once applied: an interface
expansion stands the clones of its fragment for it, a union promotion the selections of its
set. -/
theorem PassInv.step (htree : (visits.map Visit.ref).Nodup)
    (hviews : ∀ v ∈ visits, (d₀.viewSelectionSet fuel v.ref).isSome)
    (hclosed : ∀ a' ∈ done, ∀ b ∈ visits.filterMap (enterSelectionSet schema),
      a'.precedence.depth < b.precedence.depth → b ∈ done)
    (hna : a ∉ done) (ha : a ∈ visits.filterMap (enterSelectionSet schema))
    (hdeeper : ∀ b ∈ visits.filterMap (enterSelectionSet schema),
      a.precedence.depth < b.precedence.depth → b ∈ done) :
    PassInv schema d₀ fuel visits (done ++ [a]) (a.transformation.apply fuel D) := by
  have hlt : ∀ v ∈ visits, v.ref < d₀.selectionSets.length := fun v hv => by
    obtain ⟨us, hus⟩ := Option.isSome_iff_exists.mp (hviews v hv)
    exact lt_of_viewSelectionSet hus
  obtain ⟨y, hy, hya⟩ := List.mem_filterMap.mp ha
  obtain ⟨w, hw, jf, hjf, f, hchild, hsel, hhead, hP⟩ := action_parent hwalk hy hya
  obtain ⟨hdepth, f', hhead', hkind⟩ := enterSelectionSet_eq_some hya
  obtain rfl : f = f' := (Node.mk.inj (hhead.symm.trans hhead')).2
  rw [hP] at hkind
  obtain ⟨parts, hD, hparts⟩ := inv.replaced w hw
  obtain ⟨A, B, hL⟩ := List.append_of_mem hjf
  have huniq := walk_child_unique hwalk htree hw hL hchild
  have hDw : D.selectionRefs w.ref = A.flatMap parts ++ jf :: B.flatMap parts := by
    rw [hD, hL, List.flatMap_append, List.flatMap_cons, (hparts jf hjf).kept fun y' a' hy' ha' => by
      obtain rfl := Option.some.inj (hy'.symm.trans hchild)
      exact Option.some.inj (ha'.symm.trans hya) ▸ hna]
    rfl
  -- the fragment is found where its selection stands
  have hfound : (D.selectionRefs w.ref).findIdx? (fun s => D.selection s == ⟨.inlineFragment, f⟩) =
      some (A.flatMap parts).length := by
    rw [hDw, List.findIdx?_append, List.findIdx?_eq_none_iff.mpr fun k hk => ?_]
    · simp [List.findIdx?_cons, inv.grows.selection (lt_of_selection_eq hsel (by simp)), hsel]
    · obtain ⟨j, hj, hkj⟩ := List.mem_flatMap.mp hk
      simpa using inv.selection_ne hwalk htree hw hy hchild hsel hparts
        (by rw [hL]; exact List.mem_append_left _ hj) (huniq j (List.mem_append_left _ hj)) hkj
  rcases hkind with ⟨hint, htr⟩ | ⟨hun, htr⟩
  · -- an interface fragment gives way to its clones
    rw [htr]
    dsimp only [Transformation.apply]
    set names := schema.concreteInterfaceImplementationTypeNames y.enclosingTypeDefinition.name
    set D' := D.expandInterfaceInlineFragment fuel f w.ref names
    have hcopy : ∀ n ≤ fuel, ∀ u, d₀.viewSelectionWith (d₀.viewSelectionSet n) jf = some u →
        Grows D D' (· = w.ref) ∧ NewOnly D D' ∧
        ∃ new ws, new = D'.selectionRefs D.selectionSets.length ∧
          D'.selectionRefs w.ref = (D.selectionRefs w.ref).take (A.flatMap parts).length ++ new ++
            (D.selectionRefs w.ref).drop ((A.flatMap parts).length + 1) ∧
          D'.viewSelections (D'.viewSelectionSet n) new = some ws ∧
          View.forgetList ws = View.expandFragments schema w.enclosingTypeDefinition (View.forget u) ∧
          (∀ j ∈ new, D.selections.length ≤ j) ∧
          ∀ s ∈ View.setsList ws, D.selectionSets.length ≤ s := by
      intro n hn u hu
      obtain ⟨us, hus, hshape⟩ :=
        inv.grows.viewSelectionWith_child (D.viewSelectionSet n) hchild hu
      obtain ⟨ws', hws', hfw'⟩ := inv.expands hwalk n hn y hy (hdepth ▸ hdeeper) us hus
      rcases hshape ws' hws' with ⟨-, -, -, -, -, -, -, hk⟩ | ⟨_, tc, ds, rfl, hDv, ht, -, -⟩
      · rw [hhead] at hk
        cases hk
      have hv : D.viewNode (D.viewSelectionSet n) ⟨.inlineFragment, f⟩ =
          some (.inlineFragment tc ds (some (y.ref, ws'))) := by
        rwa [viewSelectionWith, List.getElem?_of_prefix_some inv.grows.selections
          (show d₀.selections[jf]? = some ⟨.inlineFragment, f⟩ by
            rw [← hsel]; simp [Document.selection,
              List.getElem?_eq_getElem (lt_of_selection_eq hsel (by simp))]),
          Option.some_bind] at hDv
      obtain ⟨g, n3, new, ws, hnew, hrefs, hws, hfw, hsel', hsets⟩ :=
        expandInterfaceInlineFragment_views names hn hfound hv
      refine ⟨g, n3, new, ws, hnew, hrefs, hws, ?_, hsel', hsets⟩
      rw [hfw, View.forget_inlineFragment]
      simp only [View.forgetBelow, Option.map_some']
      rw [View.expandFragments_interface ht hint, hfw']
    -- the view the walk saw, at the fuel of the copy
    obtain ⟨vs, hvs⟩ := Option.isSome_iff_exists.mp (hviews w hw)
    obtain ⟨m, rfl⟩ : ∃ m, fuel = m + 1 := by
      cases fuel with
      | zero => simp [viewSelectionSet] at hvs
      | succ m => exact ⟨m, rfl⟩
    rw [viewSelectionSet_succ_of_lt (hlt w hw)] at hvs
    obtain ⟨u, hu⟩ := Option.isSome_iff_exists.mp ((viewSelections_eq_some_iff.mp hvs).1 jf hjf)
    obtain ⟨g, n3, new, -, hnew, hrefs, -, -, hsel', -⟩ :=
      hcopy (m + 1) le_rfl u (d₀.viewSelectionWith_mono (Nat.le_succ m) hu)
    have hold := inv.grows.selections.length_le
    refine inv.step_of hwalk htree hlt hclosed hna ha hy hya hw hL hchild hD hparts g
      (inv.newOnly.trans_old n3 inv.grows g fun s e => e ▸ hlt w hw)
      (by rw [hrefs, hDw]; generalize A.flatMap parts = X; simp)
      (fun _ => ⟨fun k hk => le_trans hold (hsel' k hk), fun n hn u hu => ?_⟩)
      (fun hun => nomatch hint.symm.trans hun) fun k hk => .inl (le_trans hold (hsel' k hk))
    obtain ⟨-, -, new', ws, hnew', -, hws, hfw, -, hsets⟩ := hcopy n hn u hu
    rw [hnew', ← hnew] at hws
    exact ⟨ws, hws, hfw, fun s hs => le_trans inv.grows.selectionSets (hsets s hs)⟩
  · -- a union fragment gives way to the selections of its set
    rw [htr]
    dsimp only [Transformation.apply]
    have hidx : D.selectionIndex .inlineFragment f w.ref = ((A.flatMap parts).length, true) := by
      simp [selectionIndex, hfound]
    have hset : (D.inlineFragment f).selectionSet = y.ref := by
      obtain ⟨-, -, -, -, hr⟩ := walk_inlineFragment hwalk hy hhead
      rw [inv.grows.inlineFragment (lt_of_child?_inlineFragment hchild hsel), hr]
    have g : Grows D (D.promoteUnionInlineFragments f w.ref) (· = w.ref) := by
      rw [promoteUnionInlineFragments, hidx, hset]
      exact grows_replaceSelectionOnSelectionSet D w.ref _ y.ref
    have hnew : NewOnly d₀ (D.promoteUnionInlineFragments f w.ref) := by
      rw [promoteUnionInlineFragments, hidx, hset]
      exact inv.newOnly.setSelectionRefs fun hle => absurd hle (not_le.mpr (hlt w hw))
    have hrefs : (D.promoteUnionInlineFragments f w.ref).selectionRefs w.ref =
        A.flatMap parts ++ D.selectionRefs y.ref ++ B.flatMap parts := by
      simp only [promoteUnionInlineFragments, hidx, hset, replaceSelectionOnSelectionSet]
      rw [selectionRefs_setSelectionRefs (lt_of_lt_of_le (hlt w hw) inv.grows.selectionSets), hDw]
      generalize A.flatMap parts = X
      simp
    -- the set of `y` is deeper than that of `w`, so the step keeps it
    have hyw : y.ref ≠ w.ref := fun e => by
      have := (child?_eq_some hchild).1
      rw [List.inj_on_of_nodup_map htree hy hw e] at this
      omega
    refine inv.step_of hwalk htree hlt hclosed hna ha hy hya hw hL hchild hD hparts g hnew hrefs
      (fun hint => nomatch hun.symm.trans hint)
      (fun _ => (g.keeps y.ref (lt_of_lt_of_le (hlt y hy) inv.grows.selectionSets) hyw).symm)
      fun k hk => ?_
    rcases inv.within y hy k hk with h | ⟨x, hx, hle, hkx⟩
    · exact .inl h
    · exact .inr ⟨x, hx, by rw [(child?_eq_some hchild).1] at hle; omega, hkx⟩

end Step

/-! ## A deepest-first run -/

section Run

open expandAbstractInlineFragmentsVisitor

/-- In an order the sort leaves, no action is shallower than one after it. -/
theorem not_deeper_of_sorted {l₁ l₂ : List Action} (h : (l₁ ++ l₂).Sorted Action.Precedes)
    {a b : Action} (ha : a ∈ l₁) (hb : b ∈ l₂) : ¬ a.precedence.depth < b.precedence.depth := by
  have := Action.precedes_iff.mp ((List.pairwise_append.mp h).2.2 a ha b hb)
  omega

variable {schema : Schema} {d₀ : Document} {fuel : Nat} {visits : List Visit}
  (hwalk : d₀.walk schema fuel = some visits) (htree : (visits.map Visit.ref).Nodup)
  (hviews : ∀ v ∈ visits, (d₀.viewSelectionSet fuel v.ref).isSome)
include hwalk htree hviews

/-- **A run in an order `ApplyTransformations` may take keeps the invariant**: each action
runs after every deeper one. -/
theorem PassInv.run {order : List Action}
    (horder : SortedOrder (visits.filterMap (enterSelectionSet schema)) order) :
    ∀ (post done : List Action) (D : Document), done ++ post = order →
      PassInv schema d₀ fuel visits done D →
      PassInv schema d₀ fuel visits order (applyActions fuel D post)
  | [], done, D, e, inv => by simpa [applyActions, ← e] using inv
  | a :: post, done, D, e, inv => by
    have hnodup : order.Nodup := horder.1.nodup_iff.mpr (actions_nodup hwalk htree)
    have hsorted := horder.2
    rw [← e] at hnodup hsorted
    have hmem : ∀ b ∈ visits.filterMap (enterSelectionSet schema), b ∈ done ∨ b ∈ a :: post :=
      fun b hb => List.mem_append.mp (e ▸ horder.1.mem_iff.mpr hb)
    have step := inv.step hwalk htree hviews
      (fun a' ha' b hb hlt => (hmem b hb).resolve_right fun hb' =>
        not_deeper_of_sorted hsorted ha' hb' hlt)
      (List.disjoint_of_nodup_append hnodup · (List.mem_cons_self a post))
      (horder.1.mem_iff.mp (e ▸ List.mem_append_right _ (List.mem_cons_self a post)))
      fun b hb hlt => (hmem b hb).resolve_right fun hb' => by
        rcases List.mem_cons.mp hb' with rfl | hb'
        · exact lt_irrefl _ hlt
        · have hsorted' : ((done ++ [a]) ++ post).Sorted Action.Precedes := by simpa using hsorted
          exact not_deeper_of_sorted hsorted' (List.mem_append_right _ (List.mem_singleton_self a))
            hb' hlt
    simpa [applyActions] using PassInv.run horder post (done ++ [a]) _ (by simpa using e) step

end Run

/-! ## The walk of the result -/

section Roots

variable {schema : Schema} {d D : Document} {fuel : Nat} {visits : List Visit}
  {P : Visit → Prop}

/-- **The walk of a document with the same definitions**: when every root set the walk of `d`
enters is walked in `D` too, with visits satisfying `P`, the walk of `D` over the same root
nodes succeeds, with visits satisfying `P`. -/
theorem walkRootNodes_of_roots (hops : D.operationDefinitions = d.operationDefinitions)
    (hfrags : D.fragmentDefinitions = d.fragmentDefinitions)
    (hroot : ∀ node t R vs, node.IsDefinition → t ∈ schema.types →
      d.walkSelectionSet schema fuel [node] t 1 R = some vs → (∀ v ∈ vs, v ∈ visits) →
        ∃ vs', D.walkSelectionSet schema fuel [node] t 1 R = some vs' ∧ ∀ v ∈ vs', P v) :
    ∀ (nodes : List Node) (vs : List Visit), d.walkRootNodes schema fuel nodes = some vs →
      (∀ v ∈ vs, v ∈ visits) →
        ∃ vs', D.walkRootNodes schema fuel nodes = some vs' ∧ ∀ v ∈ vs', P v
  | [], _, _, _ => ⟨[], rfl, by simp⟩
  | node :: nodes, vs, h, hsub => by
    simp only [walkRootNodes, Option.bind_eq_bind, Option.bind_eq_some, pure,
      Option.some.injEq] at h ⊢
    obtain ⟨vs₁, h₁, vs₂, h₂, rfl⟩ := h
    obtain ⟨vs₂', h₂', hp₂⟩ := walkRootNodes_of_roots hops hfrags hroot nodes vs₂ h₂
      fun v hv => hsub v (List.mem_append_right _ hv)
    have hsub₁ : ∀ v ∈ vs₁, v ∈ visits := fun v hv => hsub v (List.mem_append_left _ hv)
    have hdef : ∀ (t : String) (b : Bool) (R : Nat), node.IsDefinition →
        (match schema.typeDefinition t with
          | none => none
          | some t => if b then d.walkSelectionSet schema fuel [node] t 1 R else some []) =
          some vs₁ →
        ∃ vs₁', (match schema.typeDefinition t with
          | none => none
          | some t => if b then D.walkSelectionSet schema fuel [node] t 1 R else some []) =
          some vs₁' ∧ ∀ v ∈ vs₁', P v := by
      intro t b R hn h
      rcases ht : schema.typeDefinition t with _ | t'
      · simp [ht] at h
      simp only [ht] at h ⊢
      cases b
      · simp only [Bool.false_eq_true, if_false, Option.some.injEq] at h ⊢
        exact ⟨[], rfl, by simp [← h] at hsub₁ ⊢⟩
      · simp only [if_true] at h ⊢
        exact hroot node t' R vs₁ hn (schema.mem_of_typeDefinition ht) h hsub₁
    obtain ⟨vs₁', h₁', hp₁⟩ : ∃ vs₁', D.walkRootNode schema fuel node = some vs₁' ∧
        ∀ v ∈ vs₁', P v := by
      rcases node with ⟨kind, ref⟩
      cases kind <;> simp only [walkRootNode, operationDefinition, fragmentDefinition, hops,
        hfrags] at h₁ ⊢
      all_goals first
        | exact hdef _ _ _ (.inl rfl) h₁
        | exact hdef _ _ _ (.inr rfl) h₁
        | exact ⟨[], rfl, by simp⟩
    refine ⟨vs₁' ++ vs₂', ⟨vs₁', h₁', vs₂', h₂', rfl⟩, fun v hv => ?_⟩
    rcases List.mem_append.mp hv with hv | hv
    · exact hp₁ v hv
    · exact hp₂ v hv

end Roots

open expandAbstractInlineFragmentsVisitor in
/-- Every document the pass may leave keeps the invariant, with all the actions of its walk run
in the order that left it. -/
theorem passInv_of_expandsAbstractInlineFragments {schema : Schema} {d D : Document}
    {fuel : Nat} {visits : List Visit} (hwalk : d.walk schema fuel = some visits)
    (htree : (visits.map Visit.ref).Nodup)
    (hviews : ∀ v ∈ visits, (d.viewSelectionSet fuel v.ref).isSome)
    (hD : d.ExpandsAbstractInlineFragments schema fuel D) :
    ∃ order, SortedOrder (visits.filterMap (enterSelectionSet schema)) order ∧
      PassInv schema d fuel visits order D := by
  simp only [ExpandsAbstractInlineFragments, expandAbstractInlineFragmentsActions, hwalk,
    Option.map_some'] at hD
  obtain ⟨order, horder, rfl⟩ := hD
  exact ⟨order, horder,
    PassInv.run hwalk htree hviews horder _ [] d rfl (passInv_nil schema d fuel visits)⟩

/-- **`expandAbstractInlineFragments` refines the abstract pass.** On a document the walker
accepts, entering no selection set twice and whose visited sets have views, the view of every
visited set after the pass, at every fuel up to the pass's, is the abstract expansion of its
view before, read at the set's type: whatever order `sort.Slice` leaves among actions of equal
depth. -/
theorem expandAbstractInlineFragments_refines {schema : Schema} {d D : Document} {fuel : Nat}
    {visits : List Visit} (hwalk : d.walk schema fuel = some visits)
    (htree : (visits.map Visit.ref).Nodup)
    (hviews : ∀ v ∈ visits, (d.viewSelectionSet fuel v.ref).isSome)
    (hD : d.ExpandsAbstractInlineFragments schema fuel D) :
    ∀ n ≤ fuel, ∀ v ∈ visits, ∀ us, d.viewSelectionSet n v.ref = some us →
      ∃ ws, D.viewSelectionSet n v.ref = some ws ∧
        View.forgetList ws =
          View.expandFragmentsList schema v.enclosingTypeDefinition (View.forgetList us) := by
  obtain ⟨order, horder, inv⟩ := passInv_of_expandsAbstractInlineFragments hwalk htree hviews hD
  exact fun n hn v hv => inv.expands hwalk n hn v hv fun _ hb _ => horder.1.mem_iff.mpr hb

/-- The visit of the selection set of `f` in `unionQuery`. -/
def unionVisitF : Visit := unionVisits.get ⟨1, by decide⟩

theorem expandAbstractInlineFragments_refines_unionQuery :
    unionQuery.walk unionSchema 5 = some unionVisits ∧ (unionVisits.map Visit.ref).Nodup ∧
      (∀ v ∈ unionVisits, (unionQuery.viewSelectionSet 5 v.ref).isSome) ∧
      unionQuery.ExpandsAbstractInlineFragments unionSchema 5
        (unionQuery.expandAbstractInlineFragments unionSchema 5) ∧ 5 ≤ 5 ∧
      unionVisitF ∈ unionVisits ∧
      unionQuery.viewSelectionSet 5 unionVisitF.ref =
        some ((unionQuery.viewSelectionSet 5 unionVisitF.ref).getD []) ∧
      ∃ ws, (unionQuery.expandAbstractInlineFragments unionSchema 5).viewSelectionSet 5
          unionVisitF.ref = some ws ∧
        View.forgetList ws = View.expandFragmentsList unionSchema
          unionVisitF.enclosingTypeDefinition
          (View.forgetList ((unionQuery.viewSelectionSet 5 unionVisitF.ref).getD [])) :=
  have hD := expandsAbstractInlineFragments_expandAbstractInlineFragments unionSchema 5 unionQuery
  ⟨walk_unionQuery, by decide, by decide, hD, le_rfl, List.get_mem _ _ _, rfl,
    expandAbstractInlineFragments_refines walk_unionQuery (by decide) (by decide) hD 5 le_rfl _
      (List.get_mem _ _ _) _ rfl⟩

open expandAbstractInlineFragmentsVisitor in
/-- **`expandAbstractInlineFragments` reaches a normal form and is idempotent.** For a schema
whose implementation lists name object types implementing each interface with its fields,
and whose unions have no fields, and a document the walker accepts, entering no selection set
twice and whose visited sets have views: the walk of every document the pass may leave
succeeds and every inline fragment's set it enters has an object type (neither an interface
nor a union); so the pass registers nothing on it, and running it again, in any order, leaves
the document unchanged. -/
theorem expandAbstractInlineFragments_normalForm {schema : Schema} {d D : Document} {fuel : Nat}
    {visits : List Visit} (hv : schema.FragmentsValid) (hwalk : d.walk schema fuel = some visits)
    (htree : (visits.map Visit.ref).Nodup)
    (hviews : ∀ v ∈ visits, (d.viewSelectionSet fuel v.ref).isSome)
    (hD : d.ExpandsAbstractInlineFragments schema fuel D) :
    (∃ visits', D.walk schema fuel = some visits' ∧
      ∀ v ∈ visits', (v.ancestors.headD default).kind = .inlineFragment →
        v.enclosingTypeDefinition.NotAbstract) ∧
    ∀ D', D.ExpandsAbstractInlineFragments schema fuel D' → D' = D := by
  obtain ⟨order, horder, inv⟩ := passInv_of_expandsAbstractInlineFragments hwalk htree hviews hD
  -- every root set of the result is walked, into sets of object types only
  have hroot : ∀ node t R vs, node.IsDefinition → t ∈ schema.types →
      d.walkSelectionSet schema fuel [node] t 1 R = some vs → (∀ v ∈ vs, v ∈ visits) →
      ∃ vs', D.walkSelectionSet schema fuel [node] t 1 R = some vs' ∧
        ∀ v ∈ vs', (v.ancestors.headD default).kind = .inlineFragment →
          v.enclosingTypeDefinition.NotAbstract := by
    intro node t R vs hdef ht h hsub
    obtain ⟨_, _, _, rfl, _⟩ := walkSelectionSet_eq_some h
    have hR := hsub _ (List.mem_cons_self _ _)
    obtain ⟨us, hus⟩ := Option.isSome_iff_exists.mp (hviews _ hR)
    obtain ⟨ws, hws, hfw⟩ := inv.expands hwalk fuel le_rfl _ hR
      (fun _ hb _ => horder.1.mem_iff.mpr hb) us hus
    have hW := View.walksList_expandFragmentsList hv _ ht
      (walksList_of_walk hwalk fuel _ hR us hus)
    rw [← hfw] at hW
    obtain ⟨tail, h', hp⟩ := walkSelectionSet_of_walks fuel fuel [node] t 1 R ws le_rfl hws hW
    refine ⟨_, h', fun v hv hk => ?_⟩
    rcases List.mem_cons.mp hv with rfl | hv
    · rcases hdef with e | e <;> simp [e] at hk
    · exact hp v hv hk
  obtain ⟨visits', hroots, hnormal⟩ := walkRootNodes_of_roots inv.grows.operationDefinitions
    inv.grows.fragmentDefinitions hroot d.rootNodes visits hwalk fun _ => id
  have hwalk' : D.walk schema fuel = some visits' := by
    rw [walk, inv.grows.rootNodes]
    exact hroots
  refine ⟨⟨visits', hwalk', hnormal⟩, fun D' hD' => ?_⟩
  have hnone : visits'.filterMap (enterSelectionSet schema) = [] :=
    List.filterMap_eq_nil_iff.mpr fun v hv => enterSelectionSet_eq_none_iff.mpr (hnormal v hv)
  simp only [ExpandsAbstractInlineFragments, expandAbstractInlineFragmentsActions, hwalk',
    Option.map_some', hnone] at hD'
  exact hD'.eq_of_nil

theorem expandAbstractInlineFragments_normalForm_unionQuery :
    unionSchema.FragmentsValid ∧ unionQuery.walk unionSchema 5 = some unionVisits ∧
      (unionVisits.map Visit.ref).Nodup ∧
      (∀ v ∈ unionVisits, (unionQuery.viewSelectionSet 5 v.ref).isSome) ∧
      unionQuery.ExpandsAbstractInlineFragments unionSchema 5
        (unionQuery.expandAbstractInlineFragments unionSchema 5) ∧
      ((∃ visits', (unionQuery.expandAbstractInlineFragments unionSchema 5).walk unionSchema 5 =
          some visits' ∧ ∀ v ∈ visits', (v.ancestors.headD default).kind = .inlineFragment →
            v.enclosingTypeDefinition.NotAbstract) ∧
        ∀ D', (unionQuery.expandAbstractInlineFragments unionSchema 5).ExpandsAbstractInlineFragments
          unionSchema 5 D' → D' = unionQuery.expandAbstractInlineFragments unionSchema 5) :=
  have hv : unionSchema.FragmentsValid := ⟨by decide, by decide, by decide, by decide⟩
  have hD := expandsAbstractInlineFragments_expandAbstractInlineFragments unionSchema 5 unionQuery
  ⟨hv, walk_unionQuery, by decide, by decide, hD,
    expandAbstractInlineFragments_normalForm hv walk_unionQuery (by decide) (by decide) hD⟩

/-- `unionQuery` with a field `z` that `Query` does not define:
`{ f { ... on U { ... on I { x } } } z }`. -/
def undefinedFieldQuery : Document :=
  { unionQuery with
    selectionSets := [[0, 4], [1], [2], [3]]
    selections := unionQuery.selections ++ [⟨.field, 2⟩]
    fields := unionQuery.fields ++ [⟨"z", none, [], [], false, 0⟩] }

/-- The walker stops at `z`, so the pass changes nothing: the selection set of `f`, reachable
from the operation, still holds the inline fragment on the union `U`. -/
theorem undefinedFieldQuery_keepsUnionFragment :
    undefinedFieldQuery.walk unionSchema 5 = none ∧
      (unionSchema.typeDefinition "U").map TypeDefinition.kind = some .union ∧
      View.forgetList <$>
          (undefinedFieldQuery.expandAbstractInlineFragments unionSchema 5).viewSelectionSet 5 0 =
        some [.field "f" none [] [] (some ((), [.inlineFragment (some "U") none (some ((),
          [.inlineFragment (some "I") none (some ((), [.field "x" none [] [] none]))]))])),
          .field "z" none [] [] none] :=
  ⟨by decide, by decide, rfl⟩

end Document

end Ast

end GraphQLTools
