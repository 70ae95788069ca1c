import GraphQLTools.AbstractInterfaces
import GraphQLTools.FragmentPass

/-!
# The pass `expandInterfaceSelectionSets` refines its abstract version

`View.expandInterfaces` (in `AbstractInterfaces`) says what the pass is for, on the index-free
view of a selection set. This module connects it to the pass itself: the walk, the actions
`expandInterfaceSelectionSetsVisitor` registers, and `ApplyTransformations` applying them
deepest first. It follows the method of `FragmentPass`, with one difference in what an action
rewrites: the set it was registered on, not a selection of the set above.

1. Views: a view never enters its own set (`not_mem_setsList_self`), a grown document moves
   what the walker reads as it did (`Grows.moves_eq`), and a selection whose child's set has
   the abstract result has it too (`selection_expands`).
2. The invariant of a run (`SetsInv`): once the actions `done` have run, a visited set lists
   its own selections while its expansion has not run, and those that do not move followed by
   the fragments on the implementations once it has. A set all of whose deeper actions have
   run has the abstract result on its selections (`SetsInv.selections_expand`).
3. One step (`SetsInv.step`) and a run in any order the sort may leave (`SetsInv.run`): the
   copies the expansion makes are of sets that are already done, and the document grows at
   twice the depth at most, which the copies' fuel allows.
4. The result, for every document the pass may leave in any order the sort may leave
   (`ExpandsInterfaceSelectionSets`): the refinement (`SetsInv.views_expand`,
   `expandInterfaceSelectionSets_refines`), then its walk, whose sets of fields of interface
   type hold nothing that moves, so that a second pass only adds empty sets
   (`expandInterfaceSelectionSets_normalForm`).
-/

namespace GraphQLTools

namespace Ast

namespace Document

/-! ## Views -/

section Views

variable {d D : Document} {changed : Nat → Prop} {viewSet viewSet' : Nat → Option (List (View Nat))}

/-- A set the view of a set enters has a view with less fuel. -/
theorem exists_viewSelectionSet_of_mem_setsList : ∀ (n ref : Nat) (vs : List (View Nat)),
    d.viewSelectionSet n ref = some vs → ∀ s ∈ View.setsList vs,
      ∃ m < n, ∃ ws, d.viewSelectionSet m s = some ws
  | 0, _, _, h => by simp [viewSelectionSet] at h
  | n + 1, ref, vs, h => fun s hs => by
    rw [viewSelectionSet_succ_of_lt (lt_of_viewSelectionSet h)] at h
    obtain ⟨hsome, rfl⟩ := viewSelections_eq_some_iff.mp h
    obtain ⟨v, hv, hsv⟩ := View.mem_setsList.mp hs
    obtain ⟨j, hj, rfl⟩ := List.mem_map.mp hv
    obtain ⟨u, hu⟩ := Option.isSome_iff_exists.mp (hsome j hj)
    rw [hu, Option.getD_some] at hsv
    obtain ⟨r, ws, hr, rfl | hs'⟩ := mem_sets_of_viewSelectionWith hu hsv
    · exact ⟨n, Nat.lt_succ_self n, ws, hr⟩
    · obtain ⟨m, hm, ws', h'⟩ := exists_viewSelectionSet_of_mem_setsList n r ws hr s hs'
      exact ⟨m, by omega, ws', h'⟩

/-- **A view does not enter the set it is the view of**: the set's view would then hold a view
of the set with less fuel, which is the same view. -/
theorem not_mem_setsList_self (n : Nat) :
    ∀ (ref : Nat) (vs : List (View Nat)), d.viewSelectionSet n ref = some vs →
      ref ∉ View.setsList vs := by
  induction n using Nat.strong_induction_on with
  | _ n ih =>
    intro ref vs h hmem
    obtain ⟨m, hm, ws, hws⟩ := exists_viewSelectionSet_of_mem_setsList n ref vs h ref hmem
    obtain rfl : ws = vs := Option.some.inj ((d.viewSelectionSet_mono hm.le hws).symm.trans h)
    exact ih m hm ref ws hws hmem

/-- A grown document moves a selection the walker reads as it did. -/
theorem Grows.moves_eq (g : Grows d D changed) {j : Nat} {u : View Nat}
    (hu : d.viewSelectionWith viewSet j = some u) : D.moves j = d.moves j := by
  obtain ⟨⟨kind, f⟩, hs, -⟩ := Option.bind_eq_some.mp hu
  have hsel : d.selection j = ⟨kind, f⟩ := by simp [Document.selection, hs]
  have hD : D.selection j = ⟨kind, f⟩ := by
    simp [Document.selection, List.getElem?_of_prefix_some g.selections hs]
  cases kind with
  | field =>
    obtain ⟨fd, -, -, hf, -⟩ := viewSelectionWith_field hsel hu
    simp [moves, hsel, hD, Document.field, hf, List.getElem?_of_prefix_some g.fields hf]
  | inlineFragment | fragmentSpread | unknown => simp only [moves, hsel, hD]; rfl

/-- The views of the selections of a list that do not move. -/
theorem viewSelections_filter_moves : ∀ {refs : List Nat} {ws : List (View Nat)},
    d.viewSelections viewSet refs = some ws →
      d.viewSelections viewSet (refs.filter (!d.moves ·)) = some (ws.filter (!·.Moves))
  | [], ws, h => by cases h; rfl
  | j :: refs, ws, h => by
    simp only [viewSelections, Option.bind_eq_bind, Option.bind_eq_some, pure,
      Option.some.injEq] at h
    obtain ⟨u, hu, ws, hws, rfl⟩ := h
    have ih := viewSelections_filter_moves hws
    simp only [List.filter_cons, moves_of_viewSelectionWith hu]
    split <;> simp [viewSelections, hu, ih]

theorem View.forgetList_filter (p : Bool → Bool) (ws : List (View Nat)) :
    View.forgetList (ws.filter fun v => p v.Moves) =
      (View.forgetList ws).filter fun v => p v.Moves := by
  simp [View.forgetList_eq_map, List.filter_map, Function.comp_def]

/-- The views of a list read in `D`, when each selection's view there is its view in `d`
transformed by `f`. -/
theorem viewSelections_map (f : View Unit → View Unit) :
    ∀ {L : List Nat} {us : List (View Nat)}, d.viewSelections viewSet L = some us →
      (∀ j ∈ L, ∀ u, d.viewSelectionWith viewSet j = some u →
        ∃ u', D.viewSelectionWith viewSet' j = some u' ∧ View.forget u' = f (View.forget u)) →
      ∃ ws, D.viewSelections viewSet' L = some ws ∧
        View.forgetList ws = (View.forgetList us).map f
  | [], us, h, _ => by
    cases h
    exact ⟨[], rfl, rfl⟩
  | j :: L, us, h, hp => by
    simp only [viewSelections, Option.bind_eq_bind, Option.bind_eq_some, pure,
      Option.some.injEq] at h
    obtain ⟨u, hu, us, hus, rfl⟩ := h
    obtain ⟨u', h₁, e₁⟩ := hp j (List.mem_cons_self _ _) u hu
    obtain ⟨ws, h₂, e₂⟩ := viewSelections_map f hus fun k hk => hp k (List.mem_cons_of_mem _ hk)
    exact ⟨u' :: ws, by simp [viewSelections, h₁, h₂], by simp [View.forgetList, e₁, e₂]⟩

end Views

/-! ## A selection and its child -/

section Children

variable {schema : Schema} {d₀ D : Document} {w : Visit} {j : Nat}
  {viewSet viewSet' : Nat → Option (List (View Nat))}

/-- The pass leaves a view that enters no set as it is. -/
theorem View.expandInterfaces_of_sets_nil (enclosing : TypeDefinition) {u : View Nat}
    (h : u.sets = []) : View.expandInterfaces schema enclosing (View.forget u) = View.forget u := by
  rcases u with ⟨_, _, _, _, _ | ⟨_, _⟩⟩ | ⟨_, _, _ | ⟨_, _⟩⟩ | _ | _ <;>
    simp_all [View.sets, View.expandInterfaces, View.forget]

/-- **The pass on one selection, read in a grown document**: a selection the walker goes
through, whose child's set has the abstract result, has the abstract result of its view; the
set of a field is expanded at the field's type, that of an inline fragment is not. -/
theorem selection_expands (g : Grows d₀ D fun _ => True)
    (hres : d₀.Resolves schema w.enclosingTypeDefinition j) {u : View Nat}
    (hu : d₀.viewSelectionWith viewSet j = some u)
    (ih : ∀ y, w.child? schema d₀ j = some y → ∀ us, viewSet y.ref = some us →
      ∃ ws, viewSet' y.ref = some ws ∧ View.forgetList ws =
        View.expandSet schema (y.ancestors.headD default).kind y.enclosingTypeDefinition
          (View.expandInterfacesList schema y.enclosingTypeDefinition (View.forgetList us))) :
    ∃ u', D.viewSelectionWith viewSet' j = some u' ∧
      View.forget u' = View.expandInterfaces schema w.enclosingTypeDefinition (View.forget u) := by
  rcases hy : w.child? schema d₀ j with _ | y
  · obtain ⟨hsets, -⟩ := viewSelectionWith_of_child?_none hres hy hu
    exact ⟨u, g.viewSelectionWith_of_sets_nil viewSet' hu hsets,
      (View.expandInterfaces_of_sets_nil _ hsets).symm⟩
  obtain ⟨us, hus, hshape⟩ := g.viewSelectionWith_child viewSet' hy hu
  obtain ⟨ws, hws, hfw⟩ := ih y hy us hus
  rcases hshape ws hws with ⟨_, _, _, _, rfl, hD, ht, hk⟩ | ⟨_, _, _, rfl, hD, ht, hhead, -⟩
  · rw [hk] at hfw
    exact ⟨_, hD, by simp [View.forgetBelow, View.expandInterfaces, ht, hfw]⟩
  · rw [hhead, View.expandSet_of_ne (by simp)] at hfw
    exact ⟨_, hD, by simp [View.forgetBelow, View.expandInterfaces, ht, hfw]⟩

end Children

end Document

/-! ## The actions of the pass -/

namespace expandInterfaceSelectionSetsVisitor

variable {schema : Schema} {v : Visit} {a : Action}

/-- What the visitor registers: at the visit's depth, the expansion of the visit's own set over
the implementations of its type, when that type is an interface and the set a field's. -/
theorem enterSelectionSet_eq_some_iff :
    enterSelectionSet schema v = some a ↔
      v.enclosingTypeDefinition.kind = .interface ∧ (v.ancestors.headD default).kind = .field ∧
        a = ⟨⟨v.depth, 0⟩, .expandInterfaceSelectionSet v.ref
          (schema.concreteInterfaceImplementationTypeNames v.enclosingTypeDefinition.name)⟩ := by
  unfold enterSelectionSet
  split_ifs with h₁ h₂ <;> simp_all [eq_comm]

/-- Two visits with the same action enter the same set. -/
theorem ref_eq_of_enterSelectionSet {v' : Visit} (h : enterSelectionSet schema v = some a)
    (h' : enterSelectionSet schema v' = some a) : v.ref = v'.ref := by
  obtain ⟨-, -, rfl⟩ := enterSelectionSet_eq_some_iff.mp h
  obtain ⟨-, -, e⟩ := enterSelectionSet_eq_some_iff.mp h'
  simp only [Action.mk.injEq, Transformation.expandInterfaceSelectionSet.injEq] at e
  exact e.2.1

/-- When the walk enters no set twice, it registers no action twice. -/
theorem actions_nodup {visits : List Visit} (htree : (visits.map Visit.ref).Nodup) :
    (visits.filterMap (enterSelectionSet schema)).Nodup :=
  List.pairwise_filterMap.mpr <| (List.pairwise_map.mp htree).imp fun hne _ hb _ hb' e =>
    hne (ref_eq_of_enterSelectionSet hb (e ▸ hb'))

end expandInterfaceSelectionSetsVisitor

namespace Document

/-! ## The invariant of a run of the pass

The pass applies its actions deepest first. Once the actions `done` have run, a visited set
lists its own selections while its expansion has not run, and once it has, those that do not
move followed by the fragments the expansion appended. Those fragments enter only sets the pass
added, which later actions do not rewrite, so what their views are is kept along the run. -/

section Invariant

open expandInterfaceSelectionSetsVisitor

variable (schema : Schema) (d₀ : Document) (fuel : Nat) (visits : List Visit)

/-- The selections `new` stand in `D` for the fragments the expansion of the set of `w`
appends: at every fuel the copies allow, their views are the fragments of `View.typeFragments`
over the abstract results of the selections of the set that move, and enter only new sets. -/
def Appended (D : Document) (w : Visit) (new : List Nat) : Prop :=
  ∀ n, 2 * n + 1 ≤ fuel → ∀ us,
    d₀.viewSelections (d₀.viewSelectionSet n) (d₀.selectionRefs w.ref) = some us →
      ∃ ws, D.viewSelections (D.viewSelectionSet (2 * n + 1)) new = some ws ∧
        View.forgetList ws = View.typeFragments
          (schema.concreteInterfaceImplementationTypeNames w.enclosingTypeDefinition.name)
          ((View.expandInterfacesList schema w.enclosingTypeDefinition
            (View.forgetList us)).filter View.Moves) ∧
        ∀ s ∈ View.setsList ws, d₀.selectionSets.length ≤ s

/-- What the set of `w` lists in `D` once the actions `done` have run. -/
structure SetOf (done : List Action) (D : Document) (w : Visit) : Prop where
  /-- its own selections, while its expansion has not run; -/
  kept : (∀ a, enterSelectionSet schema w = some a → a ∉ done) →
    D.selectionRefs w.ref = d₀.selectionRefs w.ref
  /-- those that do not move, followed by the fragments on the implementations, once it has. -/
  expanded : ∀ a, enterSelectionSet schema w = some a → a ∈ done →
    ∃ new, D.selectionRefs w.ref = (d₀.selectionRefs w.ref).filter (!d₀.moves ·) ++ new ∧
      Appended schema d₀ fuel D w new

/-- **The invariant of a run of the pass** from `d₀`, once the actions `done` have run. -/
structure SetsInv (done : List Action) (D : Document) : Prop where
  /-- Nodes are only added, and the definitions are kept. -/
  grows : Grows d₀ D fun _ => True
  /-- Each visited set lists its own selections, or what its expansion leaves. -/
  sets : ∀ w ∈ visits, SetOf schema d₀ fuel done D w

theorem setsInv_nil : SetsInv schema d₀ fuel visits [] d₀ where
  grows := Grows.refl d₀ _
  sets _ _ := ⟨fun _ => rfl, fun _ _ h => absurd h (List.not_mem_nil _)⟩

end Invariant

/-! ## What the invariant shows of the views -/

section Expands

open expandInterfaceSelectionSetsVisitor

variable {schema : Schema} {d₀ D : Document} {fuel : Nat} {visits : List Visit}
  {done : List Action}

/-- The selections of a visited set read in a grown document, when each child's set has the
abstract result there. -/
theorem selections_expand_of (g : Grows d₀ D fun _ => True)
    (hwalk : d₀.walk schema fuel = some visits) {v : Visit} (hv : v ∈ visits)
    {viewSet viewSet' : Nat → Option (List (View Nat))} {us : List (View Nat)}
    (hus : d₀.viewSelections viewSet (d₀.selectionRefs v.ref) = some us)
    (ih : ∀ j ∈ d₀.selectionRefs v.ref, ∀ y, v.child? schema d₀ j = some y →
      ∀ us', viewSet y.ref = some us' → ∃ ws, viewSet' y.ref = some ws ∧ View.forgetList ws =
        View.expandSet schema (y.ancestors.headD default).kind y.enclosingTypeDefinition
          (View.expandInterfacesList schema y.enclosingTypeDefinition (View.forgetList us'))) :
    ∃ vs, D.viewSelections viewSet' (d₀.selectionRefs v.ref) = some vs ∧
      View.forgetList vs =
        View.expandInterfacesList schema v.enclosingTypeDefinition (View.forgetList us) := by
  rw [View.expandInterfacesList_eq_map]
  exact viewSelections_map _ hus fun j hj u hu =>
    selection_expands g (walk_child hwalk hv hj).1 hu (ih j hj)

variable (inv : SetsInv schema d₀ fuel visits done D)
include inv

/-- **A set whose expansion has run, or that has none, has the abstract result**, given the
abstract result on its selections: the selections that do not move keep theirs, and the
fragments the expansion appended follow. -/
theorem SetsInv.set_expands {y : Visit} (hy : y ∈ visits) {m : Nat} (hm : 2 * m + 2 ≤ fuel)
    (hdone : ∀ a, enterSelectionSet schema y = some a → a ∈ done) {us : List (View Nat)}
    (hus : d₀.viewSelectionSet (m + 1) y.ref = some us)
    (hsel : ∃ vs, D.viewSelections (D.viewSelectionSet (2 * m)) (d₀.selectionRefs y.ref) =
      some vs ∧ View.forgetList vs =
        View.expandInterfacesList schema y.enclosingTypeDefinition (View.forgetList us)) :
    ∃ ws, D.viewSelectionSet (2 * m + 2) y.ref = some ws ∧ View.forgetList ws =
      View.expandSet schema (y.ancestors.headD default).kind y.enclosingTypeDefinition
        (View.expandInterfacesList schema y.enclosingTypeDefinition (View.forgetList us)) := by
  have hlt := lt_of_viewSelectionSet hus
  rw [viewSelectionSet_succ_of_lt hlt] at hus
  obtain ⟨vs, hvs, hfw⟩ := hsel
  rw [viewSelectionSet_succ_of_lt (lt_of_lt_of_le hlt inv.grows.selectionSets)]
  rcases ha : enterSelectionSet schema y with _ | a
  · -- no expansion: the set lists its own selections
    rw [(inv.sets y hy).kept fun a' h => by simp [ha] at h, View.expandSet,
      if_neg fun ⟨hh, hk⟩ => by simp [enterSelectionSet_eq_some_iff.mpr ⟨hk, hh, rfl⟩] at ha]
    exact ⟨vs, D.viewSelections_mono (by omega) hvs, hfw⟩
  obtain ⟨hk, hh, rfl⟩ := enterSelectionSet_eq_some_iff.mp ha
  obtain ⟨new, hrefs, happ⟩ := (inv.sets y hy).expanded _ ha (hdone _ ha)
  obtain ⟨ws, hws, hfws, -⟩ := happ m (by omega) us hus
  have hfilter : (d₀.selectionRefs y.ref).filter (!d₀.moves ·) =
      (d₀.selectionRefs y.ref).filter (!D.moves ·) := List.filter_congr fun j hj => by
    obtain ⟨u, hu⟩ := Option.isSome_iff_exists.mp ((viewSelections_eq_some_iff.mp hus).1 j hj)
    rw [inv.grows.moves_eq hu]
  refine ⟨vs.filter (!·.Moves) ++ ws, ?_, ?_⟩
  · rw [hrefs, hfilter]
    exact viewSelections_append hws (D.viewSelections_mono (by omega) (viewSelections_filter_moves hvs))
  · rw [View.forgetList_append, View.forgetList_filter (fun b => !b), hfw, hfws]
    rw [View.expandSet, if_pos ⟨hh, hk⟩]
    rfl

/-- **A set all of whose deeper actions have run has the abstract result on its selections**,
read with twice the fuel: each level of interface sets below adds one level of fragments. -/
theorem SetsInv.selections_expand (hwalk : d₀.walk schema fuel = some visits) :
    ∀ n, 2 * n ≤ fuel → ∀ v ∈ visits,
      (∀ b ∈ visits.filterMap (enterSelectionSet schema), v.depth < b.precedence.depth →
        b ∈ done) →
      ∀ us, d₀.viewSelections (d₀.viewSelectionSet n) (d₀.selectionRefs v.ref) = some us →
        ∃ vs, D.viewSelections (D.viewSelectionSet (2 * n)) (d₀.selectionRefs v.ref) = some vs ∧
          View.forgetList vs =
            View.expandInterfacesList schema v.enclosingTypeDefinition (View.forgetList us)
  | 0, _, _, hv, _, _, hus => selections_expand_of inv.grows hwalk hv hus
      fun _ _ _ _ _ h => by simp [viewSelectionSet] at h
  | m + 1, hn, v, hv, hdeep, us, hus => selections_expand_of inv.grows hwalk hv hus
      fun j hj y hy us' hus' => by
    have hyv := (walk_child hwalk hv hj).2 y hy
    have hdepth := (child?_eq_some hy).1
    have hdeep' : ∀ b ∈ visits.filterMap (enterSelectionSet schema),
        y.depth ≤ b.precedence.depth → b ∈ done := fun b hb hle => hdeep b hb (by omega)
    refine inv.set_expands hyv (by omega) (fun a ha => hdeep' a
      (List.mem_filterMap.mpr ⟨y, hyv, ha⟩) (by rw [(enterSelectionSet_eq_some_iff.mp ha).2.2]))
      hus' ?_
    rw [viewSelectionSet_succ_of_lt (lt_of_viewSelectionSet hus')] at hus'
    exact SetsInv.selections_expand hwalk m (by omega) y hyv
      (fun b hb hlt => hdeep' b hb hlt.le) us' hus'

end Expands

end Document

namespace Document

/-! ## One step of the run -/

section Step

open expandInterfaceSelectionSetsVisitor

variable {schema : Schema} {d₀ D : Document} {fuel : Nat} {visits : List Visit}
  {done : List Action} {a : Action}

/-- Fragments appended earlier enter only new sets, which a step that rewrites a set of `d₀`
leaves. -/
theorem Appended.frame {w : Visit} {new : List Nat} {D' : Document} {P : Nat}
    (h : Appended schema d₀ fuel D w new) (g : Grows D D' (· = P))
    (hP : P < d₀.selectionSets.length) : Appended schema d₀ fuel D' w new := fun n hn us hus => by
  obtain ⟨ws, hws, hfw, hsets⟩ := h n hn us hus
  refine ⟨ws, g.viewSelections_eq (fun r vs h hr hs => g.viewSelectionSet_eq _ r vs h hr hs)
    new ws hws fun s hs e => ?_, hfw, hsets⟩
  have := hsets s hs
  omega

variable (inv : SetsInv schema d₀ fuel visits done D) (hwalk : d₀.walk schema fuel = some visits)
include inv hwalk

/-- **One step of the run keeps the invariant.** An action registered by the walk, not yet run,
all of whose deeper actions have run, expands a set that still lists its own selections, whose
views have the abstract result below: the set keeps what does not move and gains the
fragments, and no other visited set changes. The views of the visited sets are at most `M`
deep, so their results are at most `2 * M` deep, which the copies' fuel allows. -/
theorem SetsInv.step (htree : (visits.map Visit.ref).Nodup) {M : Nat} (hM : 2 * M ≤ fuel)
    (hviews : ∀ v ∈ visits, (d₀.viewSelectionSet M v.ref).isSome)
    (hna : a ∉ done) (ha : a ∈ visits.filterMap (enterSelectionSet schema))
    (hdeeper : ∀ b ∈ visits.filterMap (enterSelectionSet schema),
      a.precedence.depth < b.precedence.depth → b ∈ done) :
    SetsInv schema d₀ fuel visits (done ++ [a]) (a.transformation.apply fuel D) := by
  obtain ⟨w, hw, hwa⟩ := List.mem_filterMap.mp ha
  obtain ⟨-, -, rfl⟩ := enterSelectionSet_eq_some_iff.mp hwa
  set names := schema.concreteInterfaceImplementationTypeNames w.enclosingTypeDefinition.name
  dsimp only [Transformation.apply]
  set D' := D.expandInterfaceSelectionSet fuel w.ref names
  have hlt : ∀ v ∈ visits, v.ref < d₀.selectionSets.length := fun v hv => by
    obtain ⟨us, hus⟩ := Option.isSome_iff_exists.mp (hviews v hv)
    exact lt_of_viewSelectionSet hus
  have hset : w.ref < D.selectionSets.length := lt_of_lt_of_le (hlt w hw) inv.grows.selectionSets
  have g : Grows D D' (· = w.ref) := grows_expandInterfaceSelectionSet fuel D w.ref names
  -- the set still lists its own selections, whose views have the abstract result below
  have hown : D.selectionRefs w.ref = d₀.selectionRefs w.ref := (inv.sets w hw).kept fun a' h => by
    rw [hwa, Option.some.injEq] at h
    exact h ▸ hna
  have hstep : ∀ n, 2 * n + 1 ≤ fuel → ∀ us,
      d₀.viewSelections (d₀.viewSelectionSet n) (d₀.selectionRefs w.ref) = some us →
      ∃ new ws, D'.selectionRefs w.ref = (d₀.selectionRefs w.ref).filter (!d₀.moves ·) ++ new ∧
        D'.viewSelections (D'.viewSelectionSet (2 * n + 1)) new = some ws ∧
        View.forgetList ws = View.typeFragments names ((View.expandInterfacesList schema
          w.enclosingTypeDefinition (View.forgetList us)).filter View.Moves) ∧
        ∀ s ∈ View.setsList ws, d₀.selectionSets.length ≤ s := by
    intro n hn us hus
    obtain ⟨vs, hvs, hfw⟩ := inv.selections_expand hwalk n (by omega) w hw hdeeper us hus
    have hv : D.viewSelectionSet (2 * n + 1) w.ref = some vs := by
      rw [viewSelectionSet_succ_of_lt hset, hown]
      exact hvs
    have hfilter : (d₀.selectionRefs w.ref).filter (!D.moves ·) =
        (d₀.selectionRefs w.ref).filter (!d₀.moves ·) := List.filter_congr fun j hj => by
      obtain ⟨u, hu⟩ := Option.isSome_iff_exists.mp ((viewSelections_eq_some_iff.mp hus).1 j hj)
      rw [inv.grows.moves_eq hu]
    obtain ⟨new, ws, hrefs, hws, hfws, hsets⟩ := expandInterfaceSelectionSet_views names hn hset
      (by rw [hown]; exact hvs) (D.lt_of_mem_setsList _ _ _ hv) (not_mem_setsList_self _ _ _ hv)
    have e : View.forgetList (vs.filter View.Moves) = (View.forgetList vs).filter View.Moves := by
      simp [View.forgetList_eq_map, List.filter_map, Function.comp_def]
    exact ⟨new, ws, by rw [hrefs, hown, hfilter], hws, by rw [hfws, e, hfw],
      fun s hs => le_trans inv.grows.selectionSets (hsets s hs)⟩
  -- the fragments are the same at every fuel
  obtain ⟨us, hus⟩ := Option.isSome_iff_exists.mp (hviews w hw)
  obtain ⟨m, rfl⟩ : ∃ m, M = m + 1 := by
    cases M with
    | zero => simp [viewSelectionSet] at hus
    | succ m => exact ⟨m, rfl⟩
  rw [viewSelectionSet_succ_of_lt (hlt w hw)] at hus
  obtain ⟨new, -, hrefs, -⟩ := hstep m (by omega) us hus
  have happ : Appended schema d₀ fuel D' w new := fun n hn us' hus' => by
    obtain ⟨new', ws, hrefs', hws, hfw, hsets⟩ := hstep n hn us' hus'
    obtain rfl := List.append_cancel_left (hrefs'.symm.trans hrefs)
    exact ⟨ws, hws, hfw, hsets⟩
  refine ⟨inv.grows.trans (g.mono fun _ _ _ => trivial), fun v hv => ?_⟩
  by_cases e : v.ref = w.ref
  · obtain rfl : v = w := List.inj_on_of_nodup_map htree hv hw e
    refine ⟨fun h => absurd (List.mem_append_right _ (List.mem_singleton_self _)) (h _ hwa),
      fun a' ha' _ => ?_⟩
    obtain rfl := Option.some.inj (ha'.symm.trans hwa)
    exact ⟨new, hrefs, happ⟩
  -- another visited set keeps its list, and the fragments appended to it their views
  have hkeep : D'.selectionRefs v.ref = D.selectionRefs v.ref :=
    g.keeps v.ref (lt_of_lt_of_le (hlt v hv) inv.grows.selectionSets) e
  have hdone : ∀ a', enterSelectionSet schema v = some a' → a' ∈ done ++ [_] → a' ∈ done :=
    fun a' ha' hd => (List.mem_append.mp hd).resolve_right fun h =>
      e (ref_eq_of_enterSelectionSet ha' (List.mem_singleton.mp h ▸ hwa))
  obtain ⟨hkept, hexp⟩ := inv.sets v hv
  refine ⟨fun h => by rw [hkeep]; exact hkept fun a' ha' hd => h a' ha' (List.mem_append_left _ hd),
    fun a' ha' hd => ?_⟩
  obtain ⟨new', hrefs', happ'⟩ := hexp a' ha' (hdone a' ha' hd)
  exact ⟨new', by rw [hkeep, hrefs'], happ'.frame g (hlt w hw)⟩

end Step

end Document

namespace Document

/-! ## A deepest-first run -/

section Run

open expandInterfaceSelectionSetsVisitor

variable {schema : Schema} {d₀ : Document} {fuel : Nat} {visits : List Visit}
  (hwalk : d₀.walk schema fuel = some visits) (htree : (visits.map Visit.ref).Nodup)
  {M : Nat} (hM : 2 * M ≤ fuel) (hviews : ∀ v ∈ visits, (d₀.viewSelectionSet M v.ref).isSome)
include hwalk htree hM hviews

/-- **A run in an order `ApplyTransformations` may take keeps the invariant**: each action runs
after every deeper one. -/
theorem SetsInv.run {order : List Action}
    (horder : SortedOrder (visits.filterMap (enterSelectionSet schema)) order) :
    ∀ (post done : List Action) (D : Document), done ++ post = order →
      SetsInv schema d₀ fuel visits done D →
      SetsInv schema d₀ fuel visits order (applyActions fuel D post)
  | [], done, D, e, inv => by simpa [applyActions, ← e] using inv
  | a :: post, done, D, e, inv => by
    have hnodup : order.Nodup :=
      horder.1.nodup_iff.mpr (expandInterfaceSelectionSetsVisitor.actions_nodup htree)
    have hsorted := horder.2
    rw [← e] at hnodup hsorted
    have hmem : ∀ b ∈ visits.filterMap (enterSelectionSet schema), b ∈ done ∨ b ∈ a :: post :=
      fun b hb => List.mem_append.mp (e ▸ horder.1.mem_iff.mpr hb)
    have step := inv.step hwalk htree hM hviews
      (List.disjoint_of_nodup_append hnodup · (List.mem_cons_self a post))
      (horder.1.mem_iff.mp (e ▸ List.mem_append_right _ (List.mem_cons_self a post)))
      fun b hb hlt => (hmem b hb).resolve_right fun hb' => by
        rcases List.mem_cons.mp hb' with rfl | hb'
        · exact lt_irrefl _ hlt
        · have hsorted' : ((done ++ [a]) ++ post).Sorted Action.Precedes := by simpa using hsorted
          exact not_deeper_of_sorted hsorted' (List.mem_append_right _ (List.mem_singleton_self a))
            hb' hlt
    simpa [applyActions] using SetsInv.run horder post (done ++ [a]) _ (by simpa using e) step

end Run

open expandInterfaceSelectionSetsVisitor in
/-- Every document the pass may leave keeps the invariant, with all the actions of its walk run
in the order that left it. -/
theorem setsInv_of_expandsInterfaceSelectionSets {schema : Schema} {d D : Document} {fuel : Nat}
    {visits : List Visit} (hwalk : d.walk schema fuel = some visits)
    (htree : (visits.map Visit.ref).Nodup) {M : Nat} (hM : 2 * M ≤ fuel)
    (hviews : ∀ v ∈ visits, (d.viewSelectionSet M v.ref).isSome)
    (hD : d.ExpandsInterfaceSelectionSets schema fuel D) :
    ∃ order, SortedOrder (visits.filterMap (enterSelectionSet schema)) order ∧
      SetsInv schema d fuel visits order D := by
  simp only [ExpandsInterfaceSelectionSets, expandInterfaceSelectionSetsActions, hwalk,
    Option.map_some'] at hD
  obtain ⟨order, horder, rfl⟩ := hD
  exact ⟨order, horder,
    SetsInv.run hwalk htree hM hviews horder _ [] d rfl (setsInv_nil schema d fuel visits)⟩

open expandInterfaceSelectionSetsVisitor in
/-- Once every action of the walk has run, the view of every visited set, at twice the fuel of
its view before, is the abstract result of that view. -/
theorem SetsInv.views_expand {schema : Schema} {d D : Document} {fuel : Nat}
    {visits : List Visit} {order : List Action} (inv : SetsInv schema d fuel visits order D)
    (hwalk : d.walk schema fuel = some visits)
    (hall : ∀ b ∈ visits.filterMap (enterSelectionSet schema), b ∈ order) :
    ∀ n, 2 * n ≤ fuel → ∀ v ∈ visits, ∀ us, d.viewSelectionSet n v.ref = some us →
      ∃ ws, D.viewSelectionSet (2 * n) v.ref = some ws ∧
        View.forgetList ws = View.expandSet schema (v.ancestors.headD default).kind
          v.enclosingTypeDefinition
          (View.expandInterfacesList schema v.enclosingTypeDefinition (View.forgetList us))
  | 0, _, _, _, _, h => by simp [viewSelectionSet] at h
  | m + 1, hn, v, hv, us, hus => by
    rw [Nat.mul_succ]
    refine inv.set_expands hv (by omega) (fun a ha => hall a (List.mem_filterMap.mpr ⟨v, hv, ha⟩))
      hus ?_
    rw [viewSelectionSet_succ_of_lt (lt_of_viewSelectionSet hus)] at hus
    exact inv.selections_expand hwalk m (by omega) v hv (fun b hb _ => hall b hb) us hus

/-- **`expandInterfaceSelectionSets` refines the abstract pass.** On a document the walker
accepts, entering no selection set twice and whose visited sets have views at most `M` deep,
with the pass's fuel at least `2 * M`: after the pass, in whatever order `sort.Slice` leaves
among actions of equal depth, the view of every visited set, at twice the fuel of its view
before, is the abstract result of that view read at the set's type, the set itself expanded
when it is a field's of interface type. -/
theorem expandInterfaceSelectionSets_refines {schema : Schema} {d D : Document} {fuel : Nat}
    {visits : List Visit} (hwalk : d.walk schema fuel = some visits)
    (htree : (visits.map Visit.ref).Nodup) {M : Nat} (hM : 2 * M ≤ fuel)
    (hviews : ∀ v ∈ visits, (d.viewSelectionSet M v.ref).isSome)
    (hD : d.ExpandsInterfaceSelectionSets schema fuel D) :
    ∀ n, 2 * n ≤ fuel → ∀ v ∈ visits, ∀ us, d.viewSelectionSet n v.ref = some us →
      ∃ ws, D.viewSelectionSet (2 * n) v.ref = some ws ∧
        View.forgetList ws = View.expandSet schema (v.ancestors.headD default).kind
          v.enclosingTypeDefinition
          (View.expandInterfacesList schema v.enclosingTypeDefinition (View.forgetList us)) := by
  obtain ⟨order, horder, inv⟩ := setsInv_of_expandsInterfaceSelectionSets hwalk htree hM hviews hD
  exact inv.views_expand hwalk fun b hb => horder.1.mem_iff.mpr hb

/-- The operation `{ f { x } }` over `unionSchema`: set `1`, the selection set of `f`, has the
interface type `J` and holds the field `x`. -/
def interfaceQuery : Document where
  selectionSets := [[0], [1]]
  selections := [⟨.field, 0⟩, ⟨.field, 1⟩]
  fields := [⟨"f", none, [], [], true, 1⟩, ⟨"x", none, [], [], false, 0⟩]
  inlineFragments := []
  fragmentSpreads := []
  directives := []
  types := []
  operationDefinitions := [⟨.query, true, 0⟩]
  fragmentDefinitions := []
  rootNodes := [⟨.operationDefinition, 0⟩]

def interfaceVisits : List Visit := (interfaceQuery.walk unionSchema 4).getD []

theorem walk_interfaceQuery : interfaceQuery.walk unionSchema 4 = some interfaceVisits := by
  decide

/-- The visit of the selection set of `f` in `interfaceQuery`. -/
def interfaceVisitF : Visit := interfaceVisits.get ⟨1, by decide⟩

theorem expandInterfaceSelectionSets_refines_interfaceQuery :
    interfaceQuery.walk unionSchema 4 = some interfaceVisits ∧
      (interfaceVisits.map Visit.ref).Nodup ∧ 2 * 2 ≤ 4 ∧
      (∀ v ∈ interfaceVisits, (interfaceQuery.viewSelectionSet 2 v.ref).isSome) ∧
      interfaceQuery.ExpandsInterfaceSelectionSets unionSchema 4
        (interfaceQuery.expandInterfaceSelectionSets unionSchema 4) ∧ 2 * 1 ≤ 4 ∧
      interfaceVisitF ∈ interfaceVisits ∧
      interfaceQuery.viewSelectionSet 1 interfaceVisitF.ref =
        some ((interfaceQuery.viewSelectionSet 1 interfaceVisitF.ref).getD []) ∧
      ∃ ws, (interfaceQuery.expandInterfaceSelectionSets unionSchema 4).viewSelectionSet (2 * 1)
          interfaceVisitF.ref = some ws ∧
        View.forgetList ws = View.expandSet unionSchema
          (interfaceVisitF.ancestors.headD default).kind interfaceVisitF.enclosingTypeDefinition
          (View.expandInterfacesList unionSchema interfaceVisitF.enclosingTypeDefinition
            (View.forgetList ((interfaceQuery.viewSelectionSet 1 interfaceVisitF.ref).getD []))) :=
  have hD := expandsInterfaceSelectionSets_expandInterfaceSelectionSets unionSchema 4
    interfaceQuery
  ⟨walk_interfaceQuery, by decide, le_rfl, by decide, hD, by decide, List.get_mem _ _ _, rfl,
    expandInterfaceSelectionSets_refines walk_interfaceQuery (by decide)
      (show 2 * 2 ≤ 4 from le_rfl) (by decide) hD 1 (by decide) _ (List.get_mem _ _ _) _ rfl⟩

end Document

namespace Document

/-! ## The walk of the result -/

section Normal

variable {schema : Schema} {d : Document}

/-- A set whose view holds nothing that moves holds nothing that moves. -/
theorem moves_eq_false_of_view {n ref : Nat} {ws : List (View Nat)}
    (h : d.viewSelectionSet n ref = some ws) (hm : ∀ v ∈ View.forgetList ws, v.Moves = false) :
    ∀ k ∈ d.selectionRefs ref, d.moves k = false := by
  intro k hk
  cases n with
  | zero => simp [viewSelectionSet] at h
  | succ n =>
    rw [viewSelectionSet_succ_of_lt (lt_of_viewSelectionSet h)] at h
    obtain ⟨hsome, rfl⟩ := viewSelections_eq_some_iff.mp h
    obtain ⟨u, hu⟩ := Option.isSome_iff_exists.mp (hsome k hk)
    rw [← moves_of_viewSelectionWith hu, ← View.moves_forget]
    refine hm _ ?_
    rw [View.forgetList_eq_map, List.map_map]
    exact List.mem_map.mpr ⟨k, hk, by simp [hu]⟩

/-- **A view in normal form is walked in normal form.** When the view of a set, with no more
fuel than the walk has, is accepted and in normal form, the walk of the set succeeds, and every
set it enters below is in the document and, when it is a field's of interface type, holds
nothing that moves. -/
theorem walkSelectionSet_of_normal : ∀ g n ancestors enclosing depth ref ws, n ≤ g →
    d.viewSelectionSet n ref = some ws →
    View.WalksList schema (fun _ => True) enclosing (View.forgetList ws) →
    View.NormalList schema enclosing (View.forgetList ws) →
    ∃ tail, d.walkSelectionSet schema g ancestors enclosing depth ref =
        some (⟨ref, ancestors, enclosing, depth + 1⟩ :: tail) ∧
      ∀ v ∈ tail, v.ref < d.selectionSets.length ∧
        ((v.ancestors.headD default).kind = .field → v.enclosingTypeDefinition.kind = .interface →
          ∀ k ∈ d.selectionRefs v.ref, d.moves k = false)
  | _, 0, _, _, _, _, _, _, h, _, _ => by simp [viewSelectionSet] at h
  | 0, _ + 1, _, _, _, _, _, hn, _, _, _ => absurd hn (by omega)
  | g + 1, m + 1, ancestors, enclosing, depth, ref, ws, hn, h, hw, hnf => by
    rw [viewSelectionSet_succ_of_lt (lt_of_viewSelectionSet h)] at h
    set w : Visit := ⟨ref, ancestors, enclosing, depth + 1⟩
    suffices ∀ (l : List Nat) vs, d.viewSelections (d.viewSelectionSet m) l = some vs →
        View.WalksList schema (fun _ => True) enclosing (View.forgetList vs) →
        View.NormalList schema enclosing (View.forgetList vs) →
        ∃ tail, d.walkSelections schema (d.walkSelectionSet schema g)
          (⟨.selectionSet, ref⟩ :: ancestors) enclosing (depth + 1) l = some tail ∧
          ∀ v ∈ tail, v.ref < d.selectionSets.length ∧
            ((v.ancestors.headD default).kind = .field →
              v.enclosingTypeDefinition.kind = .interface →
              ∀ k ∈ d.selectionRefs v.ref, d.moves k = false) by
      obtain ⟨tail, ht, hp⟩ := this _ ws h hw hnf
      exact ⟨tail, by simp [walkSelectionSet, ht], hp⟩
    intro l
    induction l with
    | nil => intro vs _ _ _; exact ⟨[], rfl, by simp⟩
    | cons j l ih =>
      intro vs hvs hw' hn'
      simp only [viewSelections, Option.bind_eq_bind, Option.bind_eq_some, pure,
        Option.some.injEq] at hvs
      obtain ⟨u, hu, us, hus, rfl⟩ := hvs
      obtain ⟨hj, hl⟩ : View.Walks schema (fun _ => True) enclosing (View.forget u) ∧
          View.WalksList schema (fun _ => True) enclosing (View.forgetList us) := hw'
      obtain ⟨hnj, hnl⟩ : View.Normal schema enclosing (View.forget u) ∧
          View.NormalList schema enclosing (View.forgetList us) := hn'
      obtain ⟨hres, hchild⟩ := (walks_forget_iff (w := w) hu).mp hj
      obtain ⟨tl, htl, hpl⟩ := ih us hus hl hnl
      have hsel : ∃ vs, d.walkSelectionWith schema (d.walkSelectionSet schema g)
          (⟨.selectionSet, w.ref⟩ :: w.ancestors) w.enclosingTypeDefinition w.depth j = some vs ∧
          ∀ v ∈ vs, v.ref < d.selectionSets.length ∧
            ((v.ancestors.headD default).kind = .field →
              v.enclosingTypeDefinition.kind = .interface →
              ∀ k ∈ d.selectionRefs v.ref, d.moves k = false) := by
        rcases hy : w.child? schema d j with _ | y
        · exact ⟨[], walkSelectionWith_eq_some_iff.mpr ⟨hres, by simp [hy]⟩, by simp⟩
        obtain ⟨-, ws', hws', hw''⟩ := hchild y hy
        -- the child's set is in normal form, and holds nothing that moves if it must not
        obtain ⟨us', hus', hshape⟩ :=
          (Grows.refl d fun _ => False).viewSelectionWith_child (d.viewSelectionSet m) hy hu
        obtain rfl : us' = ws' := Option.some.inj (hus'.symm.trans hws')
        have hny : View.NormalList schema y.enclosingTypeDefinition (View.forgetList us') ∧
            ((y.ancestors.headD default).kind = .field →
              y.enclosingTypeDefinition.kind = .interface →
              ∀ v ∈ View.forgetList us', v.Moves = false) := by
          rcases hshape us' hus' with ⟨_, _, _, _, rfl, -, ht, -⟩ | ⟨_, _, _, rfl, -, ht, hhead, -⟩
          · obtain ⟨hm, hl'⟩ := hnj _ ht
            exact ⟨hl', fun _ => hm⟩
          · exact ⟨hnj _ ht, fun h => by rw [hhead] at h; cases h⟩
        obtain ⟨t', ht', hp'⟩ := walkSelectionSet_of_normal g m y.ancestors
          y.enclosingTypeDefinition (w.depth + 1) y.ref us' (by omega) hus' hw'' hny.1
        refine ⟨_, walkSelectionWith_eq_some_iff.mpr ⟨hres, by simpa [hy] using ht'⟩, ?_⟩
        intro v hv
        rcases List.mem_cons.mp hv with rfl | hv
        · exact ⟨lt_of_viewSelectionSet hus', fun hh hk => moves_eq_false_of_view hus' (hny.2 hh hk)⟩
        · exact hp' v hv
      obtain ⟨vs, hvs, hp⟩ := hsel
      refine ⟨vs ++ tl, by simp [walkSelections, hvs, htl], fun v hv => ?_⟩
      rcases List.mem_append.mp hv with hv | hv
      · exact hp v hv
      · exact hpl v hv

end Normal

/-- **Actions that find nothing to move only add empty sets**: each runs
`ExpandInterfaceSelectionSet` on a set of the document that holds nothing that moves, which adds
its two new sets and changes nothing else. -/
theorem applyActions_of_nothing_moves (fuel : Nat) : ∀ (l : List Action) (D : Document),
    (∀ a ∈ l, ∃ set names, a.transformation = .expandInterfaceSelectionSet set names ∧
      set < D.selectionSets.length ∧ ∀ k ∈ D.selectionRefs set, D.moves k = false) →
    applyActions fuel D l =
      { D with selectionSets := D.selectionSets ++ List.replicate (2 * l.length) [] }
  | [], D, _ => by simp [applyActions]
  | a :: l, D, h => by
    obtain ⟨set, names, ht, hset, hmv⟩ := h a (List.mem_cons_self _ _)
    have e : a.transformation.apply fuel D = D.withTwoSets := by
      rw [ht, Transformation.apply, expandInterfaceSelectionSet_eq D fuel set names hset,
        if_pos (List.filter_eq_nil_iff.mpr fun k hk => by simp [hmv k hk])]
    have ih := applyActions_of_nothing_moves fuel l D.withTwoSets fun b hb => by
      obtain ⟨s, ns, hb', hs, hm⟩ := h b (List.mem_cons_of_mem _ hb)
      have hR : D.withTwoSets.selectionRefs s = D.selectionRefs s := by
        simp [withTwoSets, selectionRefs, List.getElem?_append_left hs]
      exact ⟨s, ns, hb', by simp [withTwoSets]; omega, by rw [hR, withTwoSets_moves]; exact hm⟩
    rw [applyActions, List.foldl_cons, e, ← applyActions, ih]
    simp only [withTwoSets, List.length_cons, List.append_assoc, Document.mk.injEq, and_true,
      true_and]
    rw [show 2 * (l.length + 1) = 2 + 2 * l.length by omega, List.replicate_add]
    rfl

end Document

namespace Document

open expandInterfaceSelectionSetsVisitor in
/-- **`expandInterfaceSelectionSets` reaches a normal form and is idempotent.** For a schema
whose implementation lists name object types implementing each interface with its fields, and
whose unions have no fields, and a document the walker accepts, entering no selection set twice
and whose visited sets have views at most `M` deep, with the pass's fuel at least `2 * M`: the
walk of every document the pass may leave succeeds, and no set it enters that is a field's of
interface type holds a field other than `__typename`. So every action a second pass registers
finds nothing to move, and that pass, in any order, only appends empty selection sets, which
nothing refers to. -/
theorem expandInterfaceSelectionSets_normalForm {schema : Schema} {d D : Document} {fuel : Nat}
    {visits : List Visit} (hv : schema.FragmentsValid) (hwalk : d.walk schema fuel = some visits)
    (htree : (visits.map Visit.ref).Nodup) {M : Nat} (hM : 2 * M ≤ fuel)
    (hviews : ∀ v ∈ visits, (d.viewSelectionSet M v.ref).isSome)
    (hD : d.ExpandsInterfaceSelectionSets schema fuel D) :
    (∃ visits', D.walk schema fuel = some visits' ∧
      ∀ v ∈ visits', (v.ancestors.headD default).kind = .field →
        v.enclosingTypeDefinition.kind = .interface →
        ∀ k ∈ D.selectionRefs v.ref, D.moves k = false) ∧
    ∀ D', D.ExpandsInterfaceSelectionSets schema fuel D' →
      ∃ k, D' = { D with selectionSets := D.selectionSets ++ List.replicate (2 * k) [] } := by
  obtain ⟨order, horder, inv⟩ := setsInv_of_expandsInterfaceSelectionSets hwalk htree hM hviews hD
  -- every root set of the result is walked in normal form
  have hroot : ∀ node t R vs, node.IsDefinition → t ∈ schema.types →
      d.walkSelectionSet schema fuel [node] t 1 R = some vs → (∀ v ∈ vs, v ∈ visits) →
      ∃ vs', D.walkSelectionSet schema fuel [node] t 1 R = some vs' ∧
        ∀ v ∈ vs', v.ref < D.selectionSets.length ∧
          ((v.ancestors.headD default).kind = .field →
            v.enclosingTypeDefinition.kind = .interface →
            ∀ k ∈ D.selectionRefs v.ref, D.moves k = false) := by
    intro node t R vs hdef ht h hsub
    obtain ⟨_, _, _, rfl, _⟩ := walkSelectionSet_eq_some h
    have hR := hsub _ (List.mem_cons_self _ _)
    have hne : node.kind ≠ .field := by rcases hdef with e | e <;> simp [e]
    obtain ⟨us, hus⟩ := Option.isSome_iff_exists.mp (hviews _ hR)
    obtain ⟨ws, hws, hfw⟩ :=
      inv.views_expand hwalk (fun b hb => horder.1.mem_iff.mpr hb) M hM _ hR us hus
    simp only [List.headD_cons, View.expandSet, hne, false_and, if_false] at hfw
    obtain ⟨hW, hN⟩ := View.walksList_expandInterfacesList hv _ ht
      (walksList_of_walk hwalk M _ hR us hus)
    rw [← hfw] at hW hN
    obtain ⟨tail, h', hp⟩ := walkSelectionSet_of_normal fuel (2 * M) [node] t 1 R ws hM hws hW hN
    refine ⟨_, h', fun v hv => ?_⟩
    rcases List.mem_cons.mp hv with rfl | hv
    · exact ⟨lt_of_viewSelectionSet hws, fun hh => absurd hh hne⟩
    · exact hp v hv
  obtain ⟨visits', hroots, hnormal⟩ := walkRootNodes_of_roots inv.grows.operationDefinitions
    inv.grows.fragmentDefinitions hroot d.rootNodes visits hwalk fun _ => id
  have hwalk' : D.walk schema fuel = some visits' := by
    rw [walk, inv.grows.rootNodes]
    exact hroots
  refine ⟨⟨visits', hwalk', fun v hv => (hnormal v hv).2⟩, fun D' hD' => ?_⟩
  -- each action of the second pass, in whatever order, finds nothing to move
  simp only [ExpandsInterfaceSelectionSets, expandInterfaceSelectionSetsActions, hwalk',
    Option.map_some'] at hD'
  obtain ⟨order', horder', rfl⟩ := hD'
  refine ⟨order'.length, applyActions_of_nothing_moves fuel order' D fun a ha => ?_⟩
  obtain ⟨v, hv, hva⟩ := List.mem_filterMap.mp (horder'.1.mem_iff.mp ha)
  obtain ⟨hk, hh, rfl⟩ := enterSelectionSet_eq_some_iff.mp hva
  exact ⟨v.ref, _, rfl, (hnormal v hv).1, (hnormal v hv).2 hh hk⟩

theorem expandInterfaceSelectionSets_normalForm_interfaceQuery :
    unionSchema.FragmentsValid ∧ interfaceQuery.walk unionSchema 4 = some interfaceVisits ∧
      (interfaceVisits.map Visit.ref).Nodup ∧ 2 * 2 ≤ 4 ∧
      (∀ v ∈ interfaceVisits, (interfaceQuery.viewSelectionSet 2 v.ref).isSome) ∧
      interfaceQuery.ExpandsInterfaceSelectionSets unionSchema 4
        (interfaceQuery.expandInterfaceSelectionSets unionSchema 4) ∧
      ((∃ visits', (interfaceQuery.expandInterfaceSelectionSets unionSchema 4).walk unionSchema 4 =
          some visits' ∧ ∀ v ∈ visits', (v.ancestors.headD default).kind = .field →
            v.enclosingTypeDefinition.kind = .interface →
            ∀ k ∈ (interfaceQuery.expandInterfaceSelectionSets unionSchema 4).selectionRefs v.ref,
              (interfaceQuery.expandInterfaceSelectionSets unionSchema 4).moves k = false) ∧
        ∀ D', (interfaceQuery.expandInterfaceSelectionSets unionSchema 4).ExpandsInterfaceSelectionSets
            unionSchema 4 D' →
          ∃ k, D' = { interfaceQuery.expandInterfaceSelectionSets unionSchema 4 with
            selectionSets := (interfaceQuery.expandInterfaceSelectionSets unionSchema 4).selectionSets ++
              List.replicate (2 * k) [] }) :=
  have hv : unionSchema.FragmentsValid := ⟨by decide, by decide, by decide, by decide⟩
  have hD := expandsInterfaceSelectionSets_expandInterfaceSelectionSets unionSchema 4
    interfaceQuery
  ⟨hv, walk_interfaceQuery, by decide, le_rfl, by decide, hD,
    expandInterfaceSelectionSets_normalForm hv walk_interfaceQuery (by decide)
      (show 2 * 2 ≤ 4 from le_rfl) (by decide) hD⟩

/-- `interfaceQuery` with a field `z` that `Query` does not define: `{ f { x } z }`. -/
def undefinedInterfaceQuery : Document :=
  { interfaceQuery with
    selectionSets := [[0, 2], [1]]
    selections := interfaceQuery.selections ++ [⟨.field, 2⟩]
    fields := interfaceQuery.fields ++ [⟨"z", none, [], [], false, 0⟩] }

/-- The walker stops at `z`, so the pass changes nothing: the selection set of `f`, whose type
is the interface `J`, still holds the field `x`. -/
theorem undefinedInterfaceQuery_keepsField :
    undefinedInterfaceQuery.walk unionSchema 4 = none ∧
      (unionSchema.typeDefinition "J").map TypeDefinition.kind = some .interface ∧
      View.forgetList <$>
          (undefinedInterfaceQuery.expandInterfaceSelectionSets unionSchema 4).viewSelectionSet 2 0 =
        some [.field "f" none [] [] (some ((), [.field "x" none [] [] none])),
          .field "z" none [] [] none] :=
  ⟨by decide, by decide, rfl⟩

end Document

end Ast

end GraphQLTools
