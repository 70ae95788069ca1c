import GraphQLTools.Surgery

/-!
# Views of the document

The index-based document is a graph; what a selection set means is the tree of its selections
that the indices unfold to. `Document.viewSelectionSet` unfolds it: the content of each
selection, with its directives, type condition and, below it, the index and the selections
of its own selection set. The view is strict: an index that points past the end of its array,
or a nesting deeper than the fuel, gives `none`.

A view records the index of each selection set it enters. `View.forget` drops them: two sets
with the same forgotten view have the same content, whatever their indices. The indices are
what the frame lemma needs: a document that grows without rewriting any set a view enters has
the same view (`Grows.viewSelectionSet_eq`).
-/

namespace GraphQLTools

namespace Ast

/-- What a selection unfolds to: its content and, for a selection set below it, the set's
identity (an index, or nothing once forgotten) and the views of its selections. -/
inductive View (ι : Type) where
  | field (name : String) («alias» : Option String) (arguments : List (String × Value))
      (directives : List Directive) (selections : Option (ι × List (View ι)))
  | inlineFragment (typeCondition : Option String) (directives : Option (List Directive))
      (selections : Option (ι × List (View ι)))
  | fragmentSpread (fragmentName : String) (directives : List Directive)
  | unknown
  deriving Repr

instance {ι : Type} : Inhabited (View ι) := ⟨.unknown⟩

namespace View

mutual
/-- The view with the identities of its selection sets forgotten. -/
def forget : View Nat → View Unit
  | .field name «alias» arguments directives none => .field name «alias» arguments directives none
  | .field name «alias» arguments directives (some (_, vs)) =>
    .field name «alias» arguments directives (some ((), forgetList vs))
  | .inlineFragment typeCondition directives none => .inlineFragment typeCondition directives none
  | .inlineFragment typeCondition directives (some (_, vs)) =>
    .inlineFragment typeCondition directives (some ((), forgetList vs))
  | .fragmentSpread fragmentName directives => .fragmentSpread fragmentName directives
  | .unknown => .unknown

/-- `forget` on each view of a list. -/
def forgetList : List (View Nat) → List (View Unit)
  | [] => []
  | v :: vs => forget v :: forgetList vs
end

mutual
/-- The selection sets a view enters. -/
def sets : View Nat → List Nat
  | .field _ _ _ _ (some (ref, vs)) => ref :: setsList vs
  | .inlineFragment _ _ (some (ref, vs)) => ref :: setsList vs
  | _ => []

/-- The selection sets the views of a list enter. -/
def setsList : List (View Nat) → List Nat
  | [] => []
  | v :: vs => sets v ++ setsList vs
end

end View

namespace Document

variable (d : Document)

/-- The directives the indices name, or `none` when one is missing. -/
def viewDirectives (refs : List Nat) : Option (List Directive) :=
  refs.mapM fun ref => d.directives[ref]?

/-- The name of a type condition, when there is one. -/
def viewTypeCondition : Option Nat → Option (Option String)
  | none => some none
  | some t => d.types[t]?.map some

/-- The directives of a node that has some only when its flag says so. -/
def viewOptionalDirectives (hasDirectives : Bool) (refs : List Nat) :
    Option (Option (List Directive)) :=
  if hasDirectives then (d.viewDirectives refs).map some else some none

variable (viewSet : Nat → Option (List (View Nat)))

/-- The selection set below a node, when it has one, with its index. -/
def viewBelow (hasSelections : Bool) (ref : Nat) : Option (Option (Nat × List (View Nat))) :=
  if hasSelections then (viewSet ref).map fun vs => some (ref, vs) else some none

/-- The view of the node a selection names, given how a selection set is viewed. -/
def viewNode (s : Selection) : Option (View Nat) :=
  match s.kind with
  | .field => do
    let f ← d.fields[s.ref]?
    let directives ← d.viewDirectives f.directives
    let selections ← viewBelow viewSet f.hasSelections f.selectionSet
    pure (.field f.name f.«alias» f.arguments directives selections)
  | .inlineFragment => do
    let f ← d.inlineFragments[s.ref]?
    let typeCondition ← d.viewTypeCondition f.typeCondition
    let directives ← d.viewOptionalDirectives f.hasDirectives f.directives
    let selections ← viewBelow viewSet f.hasSelections f.selectionSet
    pure (.inlineFragment typeCondition directives selections)
  | .fragmentSpread => do
    let spread ← d.fragmentSpreads[s.ref]?
    let directives ← d.viewDirectives spread.directives
    pure (.fragmentSpread spread.fragmentName directives)
  | .unknown => pure .unknown

/-- The view of one selection. -/
def viewSelectionWith (ref : Nat) : Option (View Nat) :=
  d.selections[ref]?.bind (d.viewNode viewSet)

/-- The views of a list of selections. -/
def viewSelections : List Nat → Option (List (View Nat))
  | [] => some []
  | ref :: refs => do
    let v ← d.viewSelectionWith viewSet ref
    let vs ← viewSelections refs
    pure (v :: vs)

end Document

/-- The views of the selections of the set `ref`, `fuel` sets deep. -/
def Document.viewSelectionSet (d : Document) : Nat → Nat → Option (List (View Nat))
  | 0, _ => none
  | fuel + 1, ref => do
    let refs ← d.selectionSets[ref]?
    d.viewSelections (viewSelectionSet d fuel) refs

/-! ## The frame of a view -/

theorem List.getElem?_of_prefix_some {α : Type} {l₁ l₂ : List α} (h : l₁ <+: l₂) {n : Nat} {a : α}
    (hn : l₁[n]? = some a) : l₂[n]? = some a := by
  obtain ⟨t, rfl⟩ := h
  rw [List.getElem?_append_left (List.getElem?_eq_some_iff.mp hn).1, hn]

theorem List.mapM_some_of_imp {α β : Type} {f g : α → Option β}
    (hfg : ∀ a b, f a = some b → g a = some b) :
    ∀ (l : List α) (bs : List β), l.mapM f = some bs → l.mapM g = some bs
  | [], bs, h => h
  | a :: l, bs, h => by
    simp only [List.mapM_cons, Option.bind_eq_bind, Option.bind_eq_some, pure,
      Option.some.injEq] at h ⊢
    obtain ⟨b, hb, bs', hbs, rfl⟩ := h
    exact ⟨b, hfg a b hb, bs', List.mapM_some_of_imp hfg l bs' hbs, rfl⟩

namespace Document

section Frame

variable {d d' : Document} {changed : Nat → Prop}

theorem Grows.selectionSets_getElem? (h : Grows d d' changed) {ref : Nat} {refs : List Nat}
    (hr : d.selectionSets[ref]? = some refs) (hc : ¬ changed ref) :
    d'.selectionSets[ref]? = some refs := by
  have hlt := (List.getElem?_eq_some_iff.mp hr).1
  have := h.keeps ref hlt hc
  simp only [selectionRefs, hr, Option.getD_some] at this
  rw [List.getElem?_eq_getElem (lt_of_lt_of_le hlt h.selectionSets)]
  simp only [Option.some.injEq]
  rw [← this, List.getElem?_eq_getElem (lt_of_lt_of_le hlt h.selectionSets), Option.getD_some]

theorem Grows.viewDirectives (h : Grows d d' changed) {refs : List Nat} {ds : List Directive}
    (hd : d.viewDirectives refs = some ds) : d'.viewDirectives refs = some ds :=
  List.mapM_some_of_imp (fun _ _ => List.getElem?_of_prefix_some h.directives) refs ds hd

variable {viewSet viewSet' : Nat → Option (List (View Nat))}

theorem Grows.viewBelow_eq (hset : ∀ ref vs, viewSet ref = some vs → ¬ changed ref →
      (∀ s ∈ View.setsList vs, ¬ changed s) → viewSet' ref = some vs)
    {b : Bool} {ref : Nat} {o : Option (Nat × List (View Nat))}
    (hv : viewBelow viewSet b ref = some o)
    (hc : ∀ p ∈ o, ¬ changed p.1 ∧ ∀ s ∈ View.setsList p.2, ¬ changed s) :
    viewBelow viewSet' b ref = some o := by
  cases b with
  | false => exact hv
  | true =>
    simp only [Document.viewBelow, if_true] at hv ⊢
    obtain ⟨vs, hvs, rfl⟩ := Option.map_eq_some'.mp hv
    obtain ⟨h1, h2⟩ := hc _ rfl
    rw [hset ref vs hvs h1 h2]; rfl

/-- The sets below a node are among the sets its view enters. -/
theorem sets_below {o : Option (Nat × List (View Nat))} {sets : List Nat} {changed : Nat → Prop}
    (hsets : ∀ p ∈ o, p.1 :: View.setsList p.2 = sets) (hc : ∀ s ∈ sets, ¬ changed s) :
    ∀ p ∈ o, ¬ changed p.1 ∧ ∀ s ∈ View.setsList p.2, ¬ changed s := fun p hp => by
  rw [← hsets p hp] at hc
  exact ⟨hc _ (List.mem_cons_self _ _), fun s hs => hc s (List.mem_cons_of_mem _ hs)⟩

theorem Grows.viewNode_eq (h : Grows d d' changed)
    (hset : ∀ ref vs, viewSet ref = some vs → ¬ changed ref →
      (∀ s ∈ View.setsList vs, ¬ changed s) → viewSet' ref = some vs)
    {s : Selection} {v : View Nat} (hv : d.viewNode viewSet s = some v)
    (hc : ∀ s ∈ v.sets, ¬ changed s) : d'.viewNode viewSet' s = some v := by
  rcases s with ⟨kind, sref⟩
  cases kind with
  | field =>
    simp only [Document.viewNode, Option.bind_eq_bind, Option.bind_eq_some, pure,
      Option.some.injEq] at hv ⊢
    obtain ⟨f, hf, ds, hds, o, ho, rfl⟩ := hv
    exact ⟨f, List.getElem?_of_prefix_some h.fields hf, ds, h.viewDirectives hds, o,
      Grows.viewBelow_eq hset ho (sets_below (fun p hp => by subst hp; rfl) hc), rfl⟩
  | inlineFragment =>
    simp only [Document.viewNode, Option.bind_eq_bind, Option.bind_eq_some, pure,
      Option.some.injEq] at hv ⊢
    obtain ⟨f, hf, tc, htc, ds, hds, o, ho, rfl⟩ := hv
    refine ⟨f, List.getElem?_of_prefix_some h.inlineFragments hf, tc, ?_, ds, ?_, o,
      Grows.viewBelow_eq hset ho (sets_below (fun p hp => by subst hp; rfl) hc), rfl⟩
    · cases htc' : f.typeCondition with
      | none => simpa [viewTypeCondition, htc'] using htc
      | some t =>
        simp only [viewTypeCondition, htc'] at htc ⊢
        obtain ⟨n, hn, rfl⟩ := Option.map_eq_some'.mp htc
        simp only [List.getElem?_of_prefix_some h.types hn, Option.map_some']
    · cases hd : f.hasDirectives with
      | false => simpa [viewOptionalDirectives, hd] using hds
      | true =>
        simp only [viewOptionalDirectives, hd, if_true] at hds ⊢
        obtain ⟨l, hl, rfl⟩ := Option.map_eq_some'.mp hds
        simp only [h.viewDirectives hl, Option.map_some']
  | fragmentSpread =>
    simp only [Document.viewNode, Option.bind_eq_bind, Option.bind_eq_some, pure,
      Option.some.injEq] at hv ⊢
    obtain ⟨sp, hsp, ds, hds, rfl⟩ := hv
    exact ⟨sp, List.getElem?_of_prefix_some h.fragmentSpreads hsp, ds, h.viewDirectives hds, rfl⟩
  | unknown => exact hv

theorem Grows.viewSelectionWith_eq (h : Grows d d' changed)
    (hset : ∀ ref vs, viewSet ref = some vs → ¬ changed ref →
      (∀ s ∈ View.setsList vs, ¬ changed s) → viewSet' ref = some vs)
    {ref : Nat} {v : View Nat} (hv : d.viewSelectionWith viewSet ref = some v)
    (hc : ∀ s ∈ v.sets, ¬ changed s) : d'.viewSelectionWith viewSet' ref = some v := by
  obtain ⟨s, hs, hv⟩ := Option.bind_eq_some.mp hv
  exact Option.bind_eq_some.mpr ⟨s, List.getElem?_of_prefix_some h.selections hs,
    h.viewNode_eq hset hv hc⟩

theorem Grows.viewSelections_eq (h : Grows d d' changed)
    (hset : ∀ ref vs, viewSet ref = some vs → ¬ changed ref →
      (∀ s ∈ View.setsList vs, ¬ changed s) → viewSet' ref = some vs) :
    ∀ (refs : List Nat) (vs : List (View Nat)), d.viewSelections viewSet refs = some vs →
      (∀ s ∈ View.setsList vs, ¬ changed s) → d'.viewSelections viewSet' refs = some vs
  | [], vs, hv, _ => hv
  | ref :: refs, vs, hv, hc => by
    simp only [viewSelections, Option.bind_eq_bind, Option.bind_eq_some, pure,
      Option.some.injEq] at hv ⊢
    obtain ⟨v, hv1, vs', hvs', rfl⟩ := hv
    simp only [View.setsList, List.mem_append] at hc
    exact ⟨v, h.viewSelectionWith_eq hset hv1 fun s hs => hc s (.inl hs), vs',
      h.viewSelections_eq hset refs vs' hvs' fun s hs => hc s (.inr hs), rfl⟩

/-- **The frame of a view**: a document that grows without rewriting the set or any set
below it that the view enters has the same view of it. -/
theorem Grows.viewSelectionSet_eq (h : Grows d d' changed) :
    ∀ (fuel ref : Nat) (vs : List (View Nat)), d.viewSelectionSet fuel ref = some vs →
      ¬ changed ref → (∀ s ∈ View.setsList vs, ¬ changed s) →
      d'.viewSelectionSet fuel ref = some vs
  | 0, _, _, hv, _, _ => hv
  | fuel + 1, ref, vs, hv, hr, hc => by
    simp only [viewSelectionSet, Option.bind_eq_bind, Option.bind_eq_some] at hv ⊢
    obtain ⟨refs, hrefs, hv⟩ := hv
    exact ⟨refs, h.selectionSets_getElem? hrefs hr,
      h.viewSelections_eq (h.viewSelectionSet_eq fuel) refs vs hv hc⟩

end Frame

end Document

/-! ## Copies -/

namespace Document

/-- Views `vs'` copy `vs`: the same content, and every set they enter added after `d`. -/
def CopyOf (d : Document) (vs' vs : List (View Nat)) : Prop :=
  View.forgetList vs' = View.forgetList vs ∧ ∀ s ∈ View.setsList vs', d.selectionSets.length ≤ s

theorem directive_of_getElem? {d : Document} {r : Nat} {x : Directive}
    (h : d.directives[r]? = some x) : d.directive r = x := by
  simp [directive, h]

theorem viewDirectives_copyDirectiveList : ∀ (d : Document) (refs : List Nat) (ds : List Directive),
    d.viewDirectives refs = some ds →
      (d.copyDirectiveList refs).1.viewDirectives (d.copyDirectiveList refs).2 = some ds
  | _, [], ds, h => h
  | d, r :: rs, ds, h => by
    simp only [viewDirectives, List.mapM_cons, Option.bind_eq_bind, Option.bind_eq_some, pure,
      Option.some.injEq] at h
    obtain ⟨x, hx, xs, hxs, rfl⟩ := h
    rcases h1 : d.addDirective (d.directive r) with ⟨d1, r'⟩
    have g1 : Grows d d1 _ := h1 ▸ grows_addDirective d _
    have hr' : d1.directives[r']? = some x := by
      simp only [addDirective, Prod.mk.injEq] at h1
      obtain ⟨rfl, rfl⟩ := h1
      simp [directive_of_getElem? hx]
    have ih := viewDirectives_copyDirectiveList d1 rs xs (g1.viewDirectives hxs)
    rcases h2 : d1.copyDirectiveList rs with ⟨d2, rs'⟩
    rw [h2] at ih
    have g2 : Grows d1 d2 _ := h2 ▸ grows_copyDirectiveList d1 rs
    simp only [copyDirectiveList, h1, h2, viewDirectives, List.mapM_cons, Option.bind_eq_bind,
      Option.bind_eq_some, pure, Option.some.injEq]
    exact ⟨x, List.getElem?_of_prefix_some g2.directives hr', xs, ih, rfl⟩

end Document

namespace View

/-- What `forget` keeps of the set below a node. -/
def forgetBelow (o : Option (Nat × List (View Nat))) : Option (Unit × List (View Unit)) :=
  o.map fun p => ((), forgetList p.2)

/-- The sets the view of the set below a node enters. -/
def setsBelow (o : Option (Nat × List (View Nat))) : List Nat :=
  (o.map fun p => p.1 :: setsList p.2).getD []

@[simp] theorem forget_field (name : String) («alias» : Option String)
    (arguments : List (String × Value)) (directives : List Directive)
    (o : Option (Nat × List (View Nat))) :
    forget (.field name «alias» arguments directives o) =
      .field name «alias» arguments directives (forgetBelow o) := by
  rcases o with _ | ⟨_, _⟩ <;> rfl

@[simp] theorem forget_inlineFragment (typeCondition : Option String)
    (directives : Option (List Directive)) (o : Option (Nat × List (View Nat))) :
    forget (.inlineFragment typeCondition directives o) =
      .inlineFragment typeCondition directives (forgetBelow o) := by
  rcases o with _ | ⟨_, _⟩ <;> rfl

@[simp] theorem sets_field (name : String) («alias» : Option String)
    (arguments : List (String × Value)) (directives : List Directive)
    (o : Option (Nat × List (View Nat))) :
    sets (.field name «alias» arguments directives o) = setsBelow o := by
  rcases o with _ | ⟨_, _⟩ <;> rfl

@[simp] theorem sets_inlineFragment (typeCondition : Option String)
    (directives : Option (List Directive)) (o : Option (Nat × List (View Nat))) :
    sets (.inlineFragment typeCondition directives o) = setsBelow o := by
  rcases o with _ | ⟨_, _⟩ <;> rfl

@[simp] theorem forgetList_cons (v : View Nat) (vs : List (View Nat)) :
    forgetList (v :: vs) = forget v :: forgetList vs := rfl

@[simp] theorem setsList_cons (v : View Nat) (vs : List (View Nat)) :
    setsList (v :: vs) = sets v ++ setsList vs := rfl

end View

namespace Document

variable {copySet : Document → Nat → Document × Nat} {n : Nat}

/-- `copySet` copies every set whose view takes at most `n` levels. -/
def CopiesViews (copySet : Document → Nat → Document × Nat) (n : Nat) : Prop :=
  ∀ d ref vs, d.viewSelectionSet n ref = some vs →
    ∃ vs', (copySet d ref).1.viewSelectionSet n (copySet d ref).2 = some vs' ∧
      d.selectionSets.length ≤ (copySet d ref).2 ∧ CopyOf d vs' vs

/-- The set below a node, copied when there is one. -/
theorem viewBelow_copy (hcopy : CopyGrows copySet) (hviews : CopiesViews copySet n)
    {d : Document} {b : Bool} {ref : Nat} {o : Option (Nat × List (View Nat))}
    (hv : viewBelow (d.viewSelectionSet n) b ref = some o) :
    ∃ o', Grows d (if b then copySet d ref else (d, 0)).1 (fun _ => False) ∧
      (∀ d', Grows (if b then copySet d ref else (d, 0)).1 d' (fun _ => False) →
        viewBelow (d'.viewSelectionSet n) b (if b then copySet d ref else (d, 0)).2 = some o') ∧
      View.forgetBelow o' = View.forgetBelow o ∧
      ∀ s ∈ View.setsBelow o', d.selectionSets.length ≤ s := by
  cases b with
  | false =>
    simp only [viewBelow, Bool.false_eq_true, if_false, Option.some.injEq] at hv ⊢
    subst hv
    exact ⟨none, Grows.refl d _, fun _ _ => rfl, rfl, by simp [View.setsBelow]⟩
  | true =>
    simp only [viewBelow, if_true] at hv ⊢
    obtain ⟨vs, hvs, rfl⟩ := Option.map_eq_some'.mp hv
    obtain ⟨vs', hvs', hlen, hf, hs⟩ := hviews d ref vs hvs
    refine ⟨some ((copySet d ref).2, vs'), hcopy d ref, fun d' g => ?_, ?_, ?_⟩
    · rw [g.viewSelectionSet_eq n _ vs' hvs' id fun _ _ => id]; rfl
    · simp [View.forgetBelow, hf]
    · simp only [View.setsBelow, Option.map_some', Option.getD_some, List.mem_cons]
      rintro s (rfl | hs')
      · exact hlen
      · exact hs s hs'

end Document

namespace Document

variable {copySet : Document → Nat → Document × Nat} {n : Nat}

theorem getElem?_addSelectionToDocument (d : Document) (s : Selection) :
    (d.addSelectionToDocument s).1.selections[(d.addSelectionToDocument s).2]? = some s := by
  simp [addSelectionToDocument]

theorem getElem?_addField (d : Document) (f : Field) :
    (d.addField f).1.fields[(d.addField f).2]? = some f := by
  simp [addField]

theorem getElem?_addInlineFragment (d : Document) (f : InlineFragment) :
    (d.addInlineFragment f).1.inlineFragments[(d.addInlineFragment f).2]? = some f := by
  simp [addInlineFragment]

theorem getElem?_addFragmentSpread (d : Document) (s : FragmentSpread) :
    (d.addFragmentSpread s).1.fragmentSpreads[(d.addFragmentSpread s).2]? = some s := by
  simp [addFragmentSpread]

theorem Grows.viewBelow_self {d d' : Document} (g : Grows d d' fun _ => False) {b : Bool}
    {ref : Nat} {o : Option (Nat × List (View Nat))}
    (h : viewBelow (d.viewSelectionSet n) b ref = some o) :
    viewBelow (d'.viewSelectionSet n) b ref = some o :=
  Grows.viewBelow_eq (fun r vs hv _ _ => g.viewSelectionSet_eq n r vs hv id fun _ _ => id) h
    fun _ _ => ⟨id, fun _ _ => id⟩

theorem Grows.viewTypeCondition_eq {d d' : Document} {changed : Nat → Prop}
    (g : Grows d d' changed) {tc : Option Nat} {o : Option String}
    (h : d.viewTypeCondition tc = some o) : d'.viewTypeCondition tc = some o := by
  cases tc with
  | none => exact h
  | some t =>
    simp only [Document.viewTypeCondition] at h ⊢
    obtain ⟨n, hn, rfl⟩ := Option.map_eq_some'.mp h
    simp only [List.getElem?_of_prefix_some g.types hn, Option.map_some']

/-- The directives of an inline fragment, copied when it has some. -/
theorem viewOptionalDirectives_copy {d : Document} {b : Bool} {refs : List Nat}
    {o : Option (List Directive)} (h : d.viewOptionalDirectives b refs = some o) :
    Grows d (if b then d.copyDirectiveList refs else (d, [])).1 (fun _ => False) ∧
      ∀ d', Grows (if b then d.copyDirectiveList refs else (d, [])).1 d' (fun _ => False) →
        d'.viewOptionalDirectives b (if b then d.copyDirectiveList refs else (d, [])).2 = some o := by
  cases b with
  | false => exact ⟨Grows.refl d _, fun _ _ => h⟩
  | true =>
    simp only [viewOptionalDirectives, if_true] at h ⊢
    obtain ⟨ds, hds, rfl⟩ := Option.map_eq_some'.mp h
    refine ⟨grows_copyDirectiveList d refs, fun d' g => ?_⟩
    rw [g.viewDirectives (viewDirectives_copyDirectiveList d refs ds hds)]; rfl

/-- The view of a selection added last is the view of the node it names. -/
theorem Grows.viewSelectionWith_added {d d' : Document} {s : Selection}
    (g : Grows (d.addSelectionToDocument s).1 d' fun _ => False)
    (viewSet : Nat → Option (List (View Nat))) :
    d'.viewSelectionWith viewSet (d.addSelectionToDocument s).2 = d'.viewNode viewSet s := by
  simp only [viewSelectionWith, List.getElem?_of_prefix_some g.selections
    (getElem?_addSelectionToDocument d s), Option.some_bind]

/-- A copy of a selection has the view of the selection, and enters only sets it adds. -/
theorem viewSelectionWith_copy (hcopy : CopyGrows copySet) (hviews : CopiesViews copySet n)
    {d : Document} {ref : Nat} {v : View Nat}
    (hv : d.viewSelectionWith (d.viewSelectionSet n) ref = some v) :
    ∃ v', (∀ d', Grows (copySelectionWith copySet d ref).1 d' (fun _ => False) →
        d'.viewSelectionWith (d'.viewSelectionSet n) (copySelectionWith copySet d ref).2 =
          some v') ∧
      View.forget v' = View.forget v ∧ ∀ s ∈ v'.sets, d.selectionSets.length ≤ s := by
  obtain ⟨⟨kind, sref⟩, hs, hv⟩ := Option.bind_eq_some.mp hv
  have hsel : d.selection ref = ⟨kind, sref⟩ := by simp [selection, hs]
  cases kind with
  | field =>
    simp only [viewNode, Option.bind_eq_bind, Option.bind_eq_some, pure, Option.some.injEq] at hv
    obtain ⟨f, hf, ds, hds, o, ho, rfl⟩ := hv
    have hfield : d.field sref = f := by simp [field, hf]
    rcases h1 : d.copyDirectiveList f.directives with ⟨d1, dirs⟩
    have g1 : Grows d d1 _ := h1 ▸ grows_copyDirectiveList d _
    have hdirs : d1.viewDirectives dirs = some ds := by
      simpa [h1] using viewDirectives_copyDirectiveList d _ ds hds
    obtain ⟨o', g2, hbelow, hfo, hso⟩ := viewBelow_copy hcopy hviews (g1.viewBelow_self ho)
    rcases hp : (if f.hasSelections then copySet d1 f.selectionSet else (d1, 0)) with ⟨d2, set'⟩
    rw [hp] at g2 hbelow
    refine ⟨.field f.name f.«alias» f.arguments ds o', fun d' g => ?_, by simp [hfo],
      by simpa using fun s hs => le_trans g1.selectionSets (hso s hs)⟩
    simp only [copySelectionWith, hsel, copyFieldWith, hfield, h1, hp] at g ⊢
    have g3 := (grows_addField d2 _).trans ((grows_addSelectionToDocument _ _).trans g)
    rw [g.viewSelectionWith_added]
    simp only [viewNode, Option.bind_eq_bind, Option.bind_eq_some, pure, Option.some.injEq]
    exact ⟨_, List.getElem?_of_prefix_some ((grows_addSelectionToDocument _ _).trans g).fields
      (getElem?_addField d2 _), ds, (g2.trans g3).viewDirectives hdirs, o', hbelow d' g3, rfl⟩
  | inlineFragment =>
    simp only [viewNode, Option.bind_eq_bind, Option.bind_eq_some, pure, Option.some.injEq] at hv
    obtain ⟨f, hf, tc, htc, ds, hds, o, ho, rfl⟩ := hv
    have hfrag : d.inlineFragment sref = f := by simp [inlineFragment, hf]
    obtain ⟨g1, hdirs⟩ := viewOptionalDirectives_copy hds
    rcases h1 : (if f.hasDirectives then d.copyDirectiveList f.directives else (d, [])) with
      ⟨d1, dirs⟩
    rw [h1] at g1 hdirs
    obtain ⟨o', g2, hbelow, hfo, hso⟩ := viewBelow_copy hcopy hviews (g1.viewBelow_self ho)
    rcases hp : (if f.hasSelections then copySet d1 f.selectionSet else (d1, 0)) with ⟨d2, set'⟩
    rw [hp] at g2 hbelow
    refine ⟨.inlineFragment tc ds o', fun d' g => ?_, by simp [hfo],
      by simpa using fun s hs => le_trans g1.selectionSets (hso s hs)⟩
    simp only [copySelectionWith, hsel, copyInlineFragmentWith, hfrag, h1, hp] at g ⊢
    have g3 := (grows_addInlineFragment d2 _).trans ((grows_addSelectionToDocument _ _).trans g)
    rw [g.viewSelectionWith_added]
    simp only [viewNode, Option.bind_eq_bind, Option.bind_eq_some, pure, Option.some.injEq]
    exact ⟨_, List.getElem?_of_prefix_some
      ((grows_addSelectionToDocument _ _).trans g).inlineFragments
      (getElem?_addInlineFragment d2 _), tc, ((g1.trans g2).trans g3).viewTypeCondition_eq htc, ds,
      hdirs d' (g2.trans g3), o', hbelow d' g3, rfl⟩
  | fragmentSpread =>
    simp only [viewNode, Option.bind_eq_bind, Option.bind_eq_some, pure, Option.some.injEq] at hv
    obtain ⟨sp, hsp, ds, hds, rfl⟩ := hv
    have hspread : d.fragmentSpread sref = sp := by simp [fragmentSpread, hsp]
    rcases h1 : d.copyDirectiveList sp.directives with ⟨d1, dirs⟩
    have hdirs : d1.viewDirectives dirs = some ds := by
      simpa [h1] using viewDirectives_copyDirectiveList d _ ds hds
    refine ⟨.fragmentSpread sp.fragmentName ds, fun d' g => ?_, rfl, by simp [View.sets]⟩
    simp only [copySelectionWith, hsel, copyFragmentSpread, hspread, h1] at g ⊢
    have g3 := (grows_addFragmentSpread d1 _).trans ((grows_addSelectionToDocument _ _).trans g)
    rw [g.viewSelectionWith_added]
    simp only [viewNode, Option.bind_eq_bind, Option.bind_eq_some, pure, Option.some.injEq]
    exact ⟨_, List.getElem?_of_prefix_some
      ((grows_addSelectionToDocument _ _).trans g).fragmentSpreads
      (getElem?_addFragmentSpread d1 _), ds, g3.viewDirectives hdirs, rfl⟩
  | unknown =>
    simp only [viewNode, pure, Option.some.injEq] at hv
    subst hv
    refine ⟨.unknown, fun d' g => ?_, rfl, by simp [View.sets]⟩
    simp only [copySelectionWith, hsel] at g ⊢
    rw [g.viewSelectionWith_added]
    rfl


theorem viewSelections_copy (hcopy : CopyGrows copySet) (hviews : CopiesViews copySet n) :
    ∀ (d : Document) (refs : List Nat) (vs : List (View Nat)),
      d.viewSelections (d.viewSelectionSet n) refs = some vs →
      ∃ vs', (∀ d', Grows (d.copySelections copySet refs).1 d' (fun _ => False) →
          d'.viewSelections (d'.viewSelectionSet n) (d.copySelections copySet refs).2 = some vs') ∧
        CopyOf d vs' vs
  | d, [], vs, h => by
    cases h
    exact ⟨[], fun _ _ => rfl, rfl, by simp [View.setsList]⟩
  | d, ref :: refs, vs, h => by
    simp only [viewSelections, Option.bind_eq_bind, Option.bind_eq_some, pure,
      Option.some.injEq] at h
    obtain ⟨v, hv, vs0, hvs0, rfl⟩ := h
    obtain ⟨v', hv', hf, hs⟩ := viewSelectionWith_copy hcopy hviews hv
    rcases h1 : copySelectionWith copySet d ref with ⟨d1, r'⟩
    rw [h1] at hv'
    have g1 : Grows d d1 _ := h1 ▸ grows_copySelectionWith hcopy d ref
    obtain ⟨vs', hvs', hcf, hcs⟩ := viewSelections_copy hcopy hviews d1 refs vs0
      (g1.viewSelections_eq (fun r ws hw _ _ => g1.viewSelectionSet_eq n r ws hw id fun _ _ => id)
        refs vs0 hvs0 fun _ _ => id)
    rcases h2 : d1.copySelections copySet refs with ⟨d2, refs'⟩
    rw [h2] at hvs'
    have g2 : Grows d1 d2 _ := h2 ▸ grows_copySelections hcopy d1 refs
    refine ⟨v' :: vs', fun d' g => ?_, by simp [hf, hcf], ?_⟩
    · simp only [copySelections, h1, h2] at g ⊢
      simp only [viewSelections, Option.bind_eq_bind, Option.bind_eq_some, pure,
        Option.some.injEq]
      exact ⟨v', hv' d' (g2.trans g), vs', hvs' d' g, rfl⟩
    · simp only [View.setsList_cons, List.mem_append]
      rintro s (hs' | hs')
      · exact hs s hs'
      · exact le_trans g1.selectionSets (hcs s hs')

/-- **A copy has the view of its original**: with fuel for `n` levels, `CopySelectionSet`
makes a set whose view is that of the original, indices apart, and that enters only sets it
adds. -/
theorem copiesViews_copySelectionSet : ∀ m n, n ≤ m → CopiesViews (copySelectionSet m) n
  | _, 0, _ => fun _ _ _ h => by simp [viewSelectionSet] at h
  | 0, _ + 1, h => absurd h (Nat.not_succ_le_zero _)
  | m + 1, n + 1, h => fun d ref vs hv => by
    simp only [viewSelectionSet, Option.bind_eq_bind, Option.bind_eq_some] at hv
    obtain ⟨refs, hrefs, hv⟩ := hv
    have hsel : d.selectionRefs ref = refs := by simp [selectionRefs, hrefs]
    obtain ⟨vs', hvs', hc⟩ := viewSelections_copy (copyGrows_copySelectionSet m)
      (copiesViews_copySelectionSet m n (Nat.le_of_succ_le_succ h)) d refs vs hv
    rcases h1 : d.copySelections (copySelectionSet m) refs with ⟨d1, refs'⟩
    rw [h1] at hvs'
    have g1 : Grows d d1 _ := h1 ▸ grows_copySelections (copyGrows_copySelectionSet m) d refs
    refine ⟨vs', ?_, ?_, hc⟩
    · simp only [copySelectionSet, hsel, h1, viewSelectionSet, Option.bind_eq_bind,
        Option.bind_eq_some]
      refine ⟨refs', by simp [addSelectionSetToDocument], hvs' _ ?_⟩
      exact (grows_addSelectionSetToDocument d1 refs').mono fun _ _ h => h.elim
    · simp only [copySelectionSet, hsel, h1, addSelectionSetToDocument]
      exact g1.selectionSets

end Document

/-! ## Reading views -/

namespace View

theorem forgetList_eq_map : ∀ vs : List (View Nat), forgetList vs = vs.map forget
  | [] => rfl
  | v :: vs => by rw [forgetList_cons, forgetList_eq_map vs, List.map_cons]

theorem mem_setsList {s : Nat} : ∀ {vs : List (View Nat)}, s ∈ setsList vs ↔ ∃ v ∈ vs, s ∈ sets v
  | [] => by simp [setsList]
  | v :: vs => by simp [mem_setsList]

end View

namespace Document

section Reading

variable {d : Document} {viewSet : Nat → Option (List (View Nat))}

/-- The views of a list of selections, one by one. -/
theorem viewSelections_eq_some_iff : ∀ {refs : List Nat} {vs : List (View Nat)},
    d.viewSelections viewSet refs = some vs ↔
      (∀ j ∈ refs, (d.viewSelectionWith viewSet j).isSome) ∧
        vs = refs.map fun j => (d.viewSelectionWith viewSet j).getD default
  | [], vs => by
    simp only [viewSelections, Option.some.injEq, List.map_nil, List.not_mem_nil, false_implies,
      implies_true, true_and]
    exact eq_comm
  | j :: refs, vs => by
    simp only [viewSelections, Option.bind_eq_bind, Option.bind_eq_some, pure, Option.some.injEq,
      viewSelections_eq_some_iff, List.mem_cons, forall_eq_or_imp, List.map_cons]
    constructor
    · rintro ⟨v, hv, vs', ⟨hs, rfl⟩, rfl⟩
      exact ⟨⟨by simp [hv], hs⟩, by simp [hv]⟩
    · rintro ⟨⟨hj, hs⟩, rfl⟩
      obtain ⟨v, hv⟩ := Option.isSome_iff_exists.mp hj
      exact ⟨v, hv, _, ⟨hs, rfl⟩, by simp [hv]⟩

theorem viewSelections_append {ws₂ : List (View Nat)} {l₂ : List Nat}
    (h₂ : d.viewSelections viewSet l₂ = some ws₂) :
    ∀ {l₁ : List Nat} {ws₁ : List (View Nat)}, d.viewSelections viewSet l₁ = some ws₁ →
      d.viewSelections viewSet (l₁ ++ l₂) = some (ws₁ ++ ws₂)
  | [], ws₁, h₁ => by cases h₁; exact h₂
  | j :: l₁, ws₁, h₁ => by
    simp only [viewSelections, Option.bind_eq_bind, Option.bind_eq_some, pure,
      Option.some.injEq, List.cons_append] at h₁ ⊢
    obtain ⟨v, hv, vs, hvs, rfl⟩ := h₁
    exact ⟨v, hv, vs ++ ws₂, viewSelections_append h₂ hvs, rfl⟩

theorem viewSelections_of_forall {refs : List Nat} (g : Nat → View Nat)
    (h : ∀ j ∈ refs, d.viewSelectionWith viewSet j = some (g j)) :
    d.viewSelections viewSet refs = some (refs.map g) :=
  viewSelections_eq_some_iff.mpr ⟨fun j hj => by simp [h j hj],
    List.map_congr_left fun j hj => by simp [h j hj]⟩

/-- A set a selection's view enters is the set below it or a set that set's view enters. -/
theorem mem_sets_of_viewSelectionWith {j s : Nat} {v : View Nat}
    (h : d.viewSelectionWith viewSet j = some v) (hs : s ∈ v.sets) :
    ∃ r ws, viewSet r = some ws ∧ (s = r ∨ s ∈ View.setsList ws) := by
  have below : ∀ {b : Bool} {ref : Nat} {o : Option (Nat × List (View Nat))},
      viewBelow viewSet b ref = some o → s ∈ View.setsBelow o →
        ∃ r ws, viewSet r = some ws ∧ (s = r ∨ s ∈ View.setsList ws) := by
    intro b ref o ho hs
    cases b with
    | false =>
      simp only [viewBelow, Bool.false_eq_true, if_false, Option.some.injEq] at ho
      simp [← ho, View.setsBelow] at hs
    | true =>
      simp only [viewBelow, if_true] at ho
      obtain ⟨ws, hws, rfl⟩ := Option.map_eq_some'.mp ho
      exact ⟨ref, ws, hws, by simpa [View.setsBelow] using hs⟩
  obtain ⟨⟨kind, sref⟩, -, hv⟩ := Option.bind_eq_some.mp h
  cases kind with
  | field =>
    simp only [viewNode, Option.bind_eq_bind, Option.bind_eq_some, pure, Option.some.injEq] at hv
    obtain ⟨_, _, _, _, o, ho, rfl⟩ := hv
    exact below ho (by simpa using hs)
  | inlineFragment =>
    simp only [viewNode, Option.bind_eq_bind, Option.bind_eq_some, pure, Option.some.injEq] at hv
    obtain ⟨_, _, _, _, _, _, o, ho, rfl⟩ := hv
    exact below ho (by simpa using hs)
  | fragmentSpread =>
    simp only [viewNode, Option.bind_eq_bind, Option.bind_eq_some, pure, Option.some.injEq] at hv
    obtain ⟨_, _, _, _, rfl⟩ := hv
    simp [View.sets] at hs
  | unknown =>
    simp only [viewNode, pure, Option.some.injEq] at hv
    subst hv
    simp [View.sets] at hs

end Reading

theorem lt_of_viewSelectionSet {d : Document} {n ref : Nat} {vs : List (View Nat)}
    (h : d.viewSelectionSet n ref = some vs) : ref < d.selectionSets.length := by
  cases n with
  | zero => simp [viewSelectionSet] at h
  | succ n =>
    simp only [viewSelectionSet, Option.bind_eq_bind, Option.bind_eq_some] at h
    obtain ⟨refs, hrefs, -⟩ := h
    exact (List.getElem?_eq_some_iff.mp hrefs).1

/-- Every set a view enters is a set of the document. -/
theorem lt_of_mem_setsList (d : Document) : ∀ (n ref : Nat) (vs : List (View Nat)),
    d.viewSelectionSet n ref = some vs → ∀ s ∈ View.setsList vs, s < d.selectionSets.length
  | 0, _, _, h => by simp [viewSelectionSet] at h
  | n + 1, ref, vs, h => fun s hs => by
    simp only [viewSelectionSet, Option.bind_eq_bind, Option.bind_eq_some] at h
    obtain ⟨refs, -, h⟩ := h
    obtain ⟨hsome, rfl⟩ := viewSelections_eq_some_iff.mp h
    obtain ⟨v, hv, hsv⟩ := View.mem_setsList.mp hs
    obtain ⟨j, hj, rfl⟩ := List.mem_map.mp hv
    obtain ⟨v', hv'⟩ := Option.isSome_iff_exists.mp (hsome j hj)
    rw [hv', Option.getD_some] at hsv
    obtain ⟨r, ws, hws, rfl | hs'⟩ := mem_sets_of_viewSelectionWith hv' hsv
    · exact lt_of_viewSelectionSet hws
    · exact lt_of_mem_setsList d n r ws hws s hs'

/-- More fuel keeps a view. -/
theorem viewSelectionSet_succ (d : Document) : ∀ (n ref : Nat) (vs : List (View Nat)),
    d.viewSelectionSet n ref = some vs → d.viewSelectionSet (n + 1) ref = some vs
  | 0, _, _, h => by simp [viewSelectionSet] at h
  | n + 1, ref, vs, h => by
    simp only [viewSelectionSet, Option.bind_eq_bind, Option.bind_eq_some] at h ⊢
    obtain ⟨refs, hrefs, hv⟩ := h
    exact ⟨refs, hrefs, (Grows.refl d fun _ => False).viewSelections_eq
      (fun r ws hw _ _ => viewSelectionSet_succ d n r ws hw) refs vs hv fun _ _ => id⟩

theorem viewSelectionSet_mono (d : Document) {n m : Nat} (h : n ≤ m) {ref : Nat}
    {vs : List (View Nat)} (hv : d.viewSelectionSet n ref = some vs) :
    d.viewSelectionSet m ref = some vs := by
  induction h with
  | refl => exact hv
  | step _ ih => exact d.viewSelectionSet_succ _ ref vs ih

theorem viewSelectionWith_mono (d : Document) {n m : Nat} (h : n ≤ m) {j : Nat} {v : View Nat}
    (hv : d.viewSelectionWith (d.viewSelectionSet n) j = some v) :
    d.viewSelectionWith (d.viewSelectionSet m) j = some v :=
  (Grows.refl d fun _ => False).viewSelectionWith_eq
    (fun _ _ hw _ _ => d.viewSelectionSet_mono h hw) hv fun _ _ => id

theorem viewSelections_mono (d : Document) {n m : Nat} (h : n ≤ m) {refs : List Nat}
    {vs : List (View Nat)} (hv : d.viewSelections (d.viewSelectionSet n) refs = some vs) :
    d.viewSelections (d.viewSelectionSet m) refs = some vs :=
  (Grows.refl d fun _ => False).viewSelections_eq
    (fun _ _ hw _ _ => d.viewSelectionSet_mono h hw) refs vs hv fun _ _ => id

end Document

end Ast

end GraphQLTools
