import GraphQLTools.View

/-!
# Copies

`CopySelectionSet` copies a selection set by recursion through `CopySelection`,
`CopyField` and `CopyInlineFragment`; `ExpandInterfaceInlineFragment` replaces an inline
fragment with one such copy per type name. A copy is meant to be **independent**: whatever
later rewrites a clone must not reach the original.

Three things say so. The copy has the view of the original, indices apart
(`copiesViews_copySelectionSet`, with `View`). Everything a copy adds refers only to what it
adds: a set it adds lists only selections it adds, and a selection it adds names a node it adds
(`NewOnly`, kept by every primitive and by every copy, `copyNewOnly_copySelectionSet`). And the
copy does not depend on the fuel once the fuel covers the levels of the view
(`copiesAgree_copySelectionSet`): on a finite, acyclic structure the source's recursion ends
with the copy the model makes.

`copySelectionSet_fresh` puts these together for `CopySelectionSet`, and
`expandInterfaceInlineFragment_clones` for `ExpandInterfaceInlineFragment`. The latter replaces
the first selection of the parent that holds the fragment, which is the one meant whenever the
fragment is held once (`twiceFragment_replacesFirst`).
-/

namespace GraphQLTools

namespace Ast

namespace Document

/-! ## What a copy adds refers only to what it adds -/

/-- The node a selection names was added after `d`. -/
def NodeFresh (d : Document) (s : Selection) : Prop :=
  match s.kind with
  | .field => d.fields.length ≤ s.ref
  | .inlineFragment => d.inlineFragments.length ≤ s.ref
  | .fragmentSpread => d.fragmentSpreads.length ≤ s.ref
  | .unknown => True

/-- What `d'` adds to `d` refers only to what it adds: a set added after `d` lists only
selections added after `d`, and a selection added after `d` names a node added after `d`. -/
structure NewOnly (d d' : Document) : Prop where
  sets : ∀ t, d.selectionSets.length ≤ t → ∀ j ∈ d'.selectionRefs t, d.selections.length ≤ j
  nodes : ∀ j, d.selections.length ≤ j → NodeFresh d (d'.selection j)

section NewOnly

variable {d d₁ d₂ : Document} {changed : Nat → Prop}

theorem NodeFresh.mono (g : Grows d d₁ changed) {s : Selection} (h : NodeFresh d₁ s) :
    NodeFresh d s := by
  unfold NodeFresh at h ⊢
  split <;> simp only [*] at h ⊢
  · exact le_trans g.fields.length_le h
  · exact le_trans g.inlineFragments.length_le h
  · exact le_trans g.fragmentSpreads.length_le h

theorem NewOnly.refl (d : Document) : NewOnly d d where
  sets t ht j hj := by simp [selectionRefs, List.getElem?_eq_none ht] at hj
  nodes j hj := by simp [NodeFresh, selection, List.getElem?_eq_none hj]

/-- Nodes added to the other arrays do not count. -/
theorem NewOnly.congr (h : NewOnly d d₁) (hs : d₂.selectionSets = d₁.selectionSets)
    (hsel : d₂.selections = d₁.selections) : NewOnly d d₂ where
  sets t ht j hj := h.sets t ht j (by simpa [selectionRefs, hs] using hj)
  nodes j hj := by simpa [selection, hsel] using h.nodes j hj

/-- Rewriting only lists of sets of `d` keeps what is added referring only to what is
added. -/
theorem NewOnly.trans_old (h : NewOnly d d₁) (h' : NewOnly d₁ d₂) (g : Grows d d₁ changed)
    {changed' : Nat → Prop} (g' : Grows d₁ d₂ changed')
    (hc : ∀ s, changed' s → s < d.selectionSets.length) : NewOnly d d₂ where
  sets t ht j hj := by
    by_cases ht₁ : t < d₁.selectionSets.length
    · exact h.sets t ht j (g'.keeps t ht₁ (fun hct => absurd (hc t hct) (by omega)) ▸ hj)
    · exact le_trans g.selections.length_le (h'.sets t (by omega) j hj)
  nodes j hj := by
    by_cases hj₁ : j < d₁.selections.length
    · rw [g'.selection hj₁]; exact h.nodes j hj
    · exact (h'.nodes j (by omega)).mono g

theorem NewOnly.trans (h : NewOnly d d₁) (h' : NewOnly d₁ d₂) (g : Grows d d₁ changed)
    (g' : Grows d₁ d₂ fun _ => False) : NewOnly d d₂ :=
  h.trans_old h' g g' fun _ h => h.elim

theorem NewOnly.addSelectionToDocument (h : NewOnly d d₁) {s : Selection} (hs : NodeFresh d s) : NewOnly d (d₁.addSelectionToDocument s).1 where
  sets t ht j hj := h.sets t ht j (by simpa [addSelectionToDocument] using hj)
  nodes j hj := by
    simp only [Document.addSelectionToDocument, selection, List.getElem?_append]
    split
    · exact h.nodes j hj
    · rcases Nat.lt_or_ge j (d₁.selections.length + 1) with hlt | hge
      · obtain rfl : j = d₁.selections.length := by omega
        simpa using hs
      · simp [List.getElem?_eq_none (show [s].length ≤ j - d₁.selections.length by simp; omega),
          NodeFresh]

/-- The list of a set added after `d` may be rewritten to selections added after `d`; the list
of a set of `d` to anything. -/
theorem NewOnly.setSelectionRefs (h : NewOnly d d₁) {ref : Nat} {refs : List Nat}
    (hrefs : d.selectionSets.length ≤ ref → ∀ j ∈ refs, d.selections.length ≤ j) :
    NewOnly d (d₁.setSelectionRefs ref refs) where
  sets t ht j hj := by
    by_cases e : t = ref
    · subst e
      by_cases hlt : t < d₁.selectionSets.length
      · exact hrefs ht j (by rwa [selectionRefs_setSelectionRefs hlt] at hj)
      · simp only [selectionRefs, setSelectionRefs] at hj
        rw [List.getElem?_eq_none (by simpa using hlt)] at hj
        simp at hj
    · exact h.sets t ht j (by rwa [selectionRefs_setSelectionRefs_ne _ (Ne.symm e)] at hj)
  nodes := h.nodes

theorem NewOnly.addSelectionSetToDocument (h : NewOnly d d₁) {refs : List Nat}
    (hrefs : ∀ j ∈ refs, d.selections.length ≤ j) :
    NewOnly d (d₁.addSelectionSetToDocument refs).1 where
  sets t ht j hj := by
    simp only [Document.addSelectionSetToDocument, selectionRefs, List.getElem?_append] at hj
    split at hj
    · exact h.sets t ht j (by simpa [selectionRefs, List.getElem?_eq_getElem ‹_›] using hj)
    · rcases Nat.lt_or_ge t (d₁.selectionSets.length + 1) with hlt | hge
      · obtain rfl : t = d₁.selectionSets.length := by omega
        exact hrefs j (by simpa using hj)
      · simp [List.getElem?_eq_none (show [refs].length ≤ t - d₁.selectionSets.length by
          simp; omega)] at hj
  nodes := h.nodes

theorem NewOnly.addSelection (h : NewOnly d d₁) (g : Grows d d₁ changed) {set : Nat}
    {s : Selection} (hs : NodeFresh d s) : NewOnly d (d₁.addSelection set s) := by
  refine (h.addSelectionToDocument hs).setSelectionRefs fun hle j hj => ?_
  rcases List.mem_append.mp hj with hj | hj
  · exact h.sets set hle j (by simpa [addSelectionToDocument, selectionRefs] using hj)
  · simp only [List.mem_singleton] at hj
    subst hj
    exact g.selections.length_le.trans (by simp [addSelectionToDocument])

theorem copyDirectiveList_keeps : ∀ (d : Document) (refs : List Nat),
    (d.copyDirectiveList refs).1.selectionSets = d.selectionSets ∧
      (d.copyDirectiveList refs).1.selections = d.selections
  | _, [] => ⟨rfl, rfl⟩
  | d, _ :: refs => copyDirectiveList_keeps (d.addDirective _).1 refs

end NewOnly

section Copies

variable {copySet : Document → Nat → Document × Nat}

/-- A way of copying a selection set whose copy refers only to what it adds. -/
def CopyNewOnly (copySet : Document → Nat → Document × Nat) : Prop :=
  ∀ d ref, NewOnly d (copySet d ref).1

/-- The copies of the directives of a node refer to nothing. -/
theorem newOnly_copyDirectiveList (d : Document) (refs : List Nat) :
    NewOnly d (d.copyDirectiveList refs).1 :=
  (NewOnly.refl d).congr (copyDirectiveList_keeps d refs).1 (copyDirectiveList_keeps d refs).2

/-- The copy of a selection set below a node, when the node has one. -/
theorem newOnly_copyBelow (hcopy : CopyGrows copySet) (hnew : CopyNewOnly copySet)
    (d : Document) (b : Bool) (ref : Nat) :
    Grows d (if b then copySet d ref else (d, 0)).1 (fun _ => False) ∧
      NewOnly d (if b then copySet d ref else (d, 0)).1 := by
  cases b
  · exact ⟨Grows.refl d _, NewOnly.refl d⟩
  · exact ⟨hcopy d ref, hnew d ref⟩

theorem newOnly_copyFieldWith (hcopy : CopyGrows copySet) (hnew : CopyNewOnly copySet)
    (d : Document) (ref : Nat) :
    NewOnly d (copyFieldWith copySet d ref).1 ∧
      d.fields.length ≤ (copyFieldWith copySet d ref).2 := by
  rcases h1 : d.copyDirectiveList (d.field ref).directives with ⟨d1, dirs⟩
  have g1 : Grows d d1 _ := h1 ▸ grows_copyDirectiveList d _
  have n1 : NewOnly d d1 := by
    have := newOnly_copyDirectiveList d (d.field ref).directives
    rwa [h1] at this
  obtain ⟨g2, n2⟩ := newOnly_copyBelow hcopy hnew d1 (d.field ref).hasSelections
    (d.field ref).selectionSet
  rcases h2 : (if (d.field ref).hasSelections then copySet d1 (d.field ref).selectionSet
    else (d1, 0)) with ⟨d2, set⟩
  rw [h2] at g2 n2
  simp only [copyFieldWith, h1, h2]
  exact ⟨(n1.trans n2 g1 g2).congr rfl rfl, (g1.trans g2).fields.length_le⟩

theorem newOnly_copyFragmentSpread (d : Document) (ref : Nat) :
    NewOnly d (d.copyFragmentSpread ref).1 ∧
      d.fragmentSpreads.length ≤ (d.copyFragmentSpread ref).2 := by
  rcases h1 : d.copyDirectiveList (d.fragmentSpread ref).directives with ⟨d1, dirs⟩
  have g1 : Grows d d1 _ := h1 ▸ grows_copyDirectiveList d _
  have n1 : NewOnly d d1 := by
    have := newOnly_copyDirectiveList d (d.fragmentSpread ref).directives
    rwa [h1] at this
  simp only [copyFragmentSpread, h1]
  exact ⟨n1.congr rfl rfl, g1.fragmentSpreads.length_le⟩

theorem newOnly_copyInlineFragmentWith (hcopy : CopyGrows copySet) (hnew : CopyNewOnly copySet)
    (d : Document) (ref : Nat) :
    NewOnly d (copyInlineFragmentWith copySet d ref).1 ∧
      d.inlineFragments.length ≤ (copyInlineFragmentWith copySet d ref).2 := by
  obtain ⟨d1, dirs, g1, n1, h1⟩ : ∃ d1 dirs, Grows d d1 (fun _ => False) ∧ NewOnly d d1 ∧
      (if (d.inlineFragment ref).hasDirectives then
        d.copyDirectiveList (d.inlineFragment ref).directives else (d, [])) = (d1, dirs) := by
    split
    · exact ⟨_, _, grows_copyDirectiveList d _, newOnly_copyDirectiveList d _, rfl⟩
    · exact ⟨d, [], Grows.refl d _, NewOnly.refl d, rfl⟩
  obtain ⟨g2, n2⟩ := newOnly_copyBelow hcopy hnew d1 (d.inlineFragment ref).hasSelections
    (d.inlineFragment ref).selectionSet
  rcases h2 : (if (d.inlineFragment ref).hasSelections then
    copySet d1 (d.inlineFragment ref).selectionSet else (d1, 0)) with ⟨d2, set⟩
  rw [h2] at g2 n2
  simp only [copyInlineFragmentWith, h1, h2]
  exact ⟨(n1.trans n2 g1 g2).congr rfl rfl, (g1.trans g2).inlineFragments.length_le⟩

/-- A copy of a selection is a selection added after `d`, naming a node added after `d`. -/
theorem newOnly_copySelectionWith (hcopy : CopyGrows copySet) (hnew : CopyNewOnly copySet)
    (d : Document) (ref : Nat) :
    NewOnly d (copySelectionWith copySet d ref).1 ∧
      d.selections.length ≤ (copySelectionWith copySet d ref).2 := by
  have add : ∀ d₁ kind inner, Grows d d₁ (fun _ => False) → NewOnly d d₁ →
      NodeFresh d ⟨kind, inner⟩ → NewOnly d (d₁.addSelectionToDocument ⟨kind, inner⟩).1 ∧
        d.selections.length ≤ (d₁.addSelectionToDocument ⟨kind, inner⟩).2 :=
    fun _ _ _ g₁ n₁ hs => ⟨n₁.addSelectionToDocument hs, g₁.selections.length_le⟩
  rcases hs : d.selection ref with ⟨kind, sref⟩
  cases kind <;> simp only [copySelectionWith, hs]
  · exact add d _ 0 (Grows.refl d _) (NewOnly.refl d) trivial
  · exact add _ _ _ (grows_copyFieldWith hcopy d sref) (newOnly_copyFieldWith hcopy hnew d sref).1
      (newOnly_copyFieldWith hcopy hnew d sref).2
  · exact add _ _ _ (grows_copyFragmentSpread d sref) (newOnly_copyFragmentSpread d sref).1
      (newOnly_copyFragmentSpread d sref).2
  · exact add _ _ _ (grows_copyInlineFragmentWith hcopy d sref).1
      (newOnly_copyInlineFragmentWith hcopy hnew d sref).1
      (newOnly_copyInlineFragmentWith hcopy hnew d sref).2

theorem newOnly_copySelections (hcopy : CopyGrows copySet) (hnew : CopyNewOnly copySet) :
    ∀ (d : Document) (refs : List Nat), NewOnly d (d.copySelections copySet refs).1 ∧
      ∀ j ∈ (d.copySelections copySet refs).2, d.selections.length ≤ j
  | d, [] => ⟨NewOnly.refl d, by simp [copySelections]⟩
  | d, ref :: refs => by
    rcases h1 : copySelectionWith copySet d ref with ⟨d1, ref'⟩
    have g1 : Grows d d1 _ := h1 ▸ grows_copySelectionWith hcopy d ref
    obtain ⟨n1, hr⟩ := h1 ▸ newOnly_copySelectionWith hcopy hnew d ref
    obtain ⟨n2, hrs⟩ := newOnly_copySelections hcopy hnew d1 refs
    rcases h2 : d1.copySelections copySet refs with ⟨d2, refs'⟩
    rw [h2] at n2 hrs
    have g2 : Grows d1 d2 _ := h2 ▸ grows_copySelections hcopy d1 refs
    simp only [copySelections, h1, h2, List.mem_cons]
    exact ⟨n1.trans n2 g1 g2, by
      rintro j (rfl | hj)
      · exact hr
      · exact le_trans g1.selections.length_le (hrs j hj)⟩

/-- **A copy refers only to what it adds.** -/
theorem copyNewOnly_copySelectionSet : ∀ fuel, CopyNewOnly (copySelectionSet fuel)
  | 0, d, _ => (NewOnly.refl d).addSelectionSetToDocument (by simp)
  | fuel + 1, d, ref => by
    obtain ⟨n1, hrefs⟩ := newOnly_copySelections (copyGrows_copySelectionSet fuel)
      (copyNewOnly_copySelectionSet fuel) d (d.selectionRefs ref)
    simp only [copySelectionSet]
    exact n1.addSelectionSetToDocument hrefs

/-! ## Enough fuel gives the copy -/

variable {copySet' : Document → Nat → Document × Nat} {n : Nat}

/-- Two ways of copying a selection set agree on every set whose view takes at most `n`
levels. -/
def CopiesAgree (copySet copySet' : Document → Nat → Document × Nat) (n : Nat) : Prop :=
  ∀ d ref vs, d.viewSelectionSet n ref = some vs → copySet d ref = copySet' d ref

theorem copyBelow_congr (hagree : CopiesAgree copySet copySet' n) {d d₁ : Document}
    (g : Grows d d₁ fun _ => False) {b : Bool} {ref : Nat} {o : Option (Nat × List (View Nat))}
    (ho : viewBelow (d.viewSelectionSet n) b ref = some o) :
    (if b then copySet d₁ ref else (d₁, 0)) = (if b then copySet' d₁ ref else (d₁, 0)) := by
  cases b
  · rfl
  · simp only [viewBelow, if_true] at ho ⊢
    obtain ⟨vs, hvs, -⟩ := Option.map_eq_some'.mp ho
    exact hagree d₁ ref vs (g.viewSelectionSet_eq n ref vs hvs id fun _ _ => id)

theorem copySelectionWith_congr (hagree : CopiesAgree copySet copySet' n) {d : Document}
    {ref : Nat} {v : View Nat} (hv : d.viewSelectionWith (d.viewSelectionSet n) ref = some v) :
    copySelectionWith copySet d ref = copySelectionWith copySet' d ref := by
  obtain ⟨⟨kind, sref⟩, hs, hv⟩ := Option.bind_eq_some.mp hv
  have hsel : d.selection ref = ⟨kind, sref⟩ := by simp [selection, hs]
  cases kind with
  | field =>
    simp only [viewNode, Option.bind_eq_bind, Option.bind_eq_some, pure, Option.some.injEq] at hv
    obtain ⟨f, hf, _, _, o, ho, -⟩ := hv
    have hfield : d.field sref = f := by simp [field, hf]
    rcases h1 : d.copyDirectiveList f.directives with ⟨d1, dirs⟩
    have g1 : Grows d d1 _ := h1 ▸ grows_copyDirectiveList d _
    simp only [copySelectionWith, hsel, copyFieldWith, hfield, h1, copyBelow_congr hagree g1 ho]
  | inlineFragment =>
    simp only [viewNode, Option.bind_eq_bind, Option.bind_eq_some, pure, Option.some.injEq] at hv
    obtain ⟨f, hf, _, _, _, _, o, ho, -⟩ := hv
    have hfrag : d.inlineFragment sref = f := by simp [inlineFragment, hf]
    obtain ⟨d1, dirs, g1, h1⟩ : ∃ d1 dirs, Grows d d1 (fun _ => False) ∧
        (if f.hasDirectives then d.copyDirectiveList f.directives else (d, [])) = (d1, dirs) := by
      split
      · exact ⟨_, _, grows_copyDirectiveList d _, rfl⟩
      · exact ⟨d, [], Grows.refl d _, rfl⟩
    simp only [copySelectionWith, hsel, copyInlineFragmentWith, hfrag, h1,
      copyBelow_congr hagree g1 ho]
  | fragmentSpread | unknown => simp only [copySelectionWith, hsel]

theorem copySelections_congr (hcopy : CopyGrows copySet) (hagree : CopiesAgree copySet copySet' n) :
    ∀ (d : Document) (refs : List Nat) (vs : List (View Nat)),
      d.viewSelections (d.viewSelectionSet n) refs = some vs →
        d.copySelections copySet refs = d.copySelections copySet' refs
  | _, [], _, _ => rfl
  | d, ref :: refs, vs, h => by
    simp only [viewSelections, Option.bind_eq_bind, Option.bind_eq_some, pure,
      Option.some.injEq] at h
    obtain ⟨v, hv, vs0, hvs0, -⟩ := h
    have e := copySelectionWith_congr hagree hv
    rcases h1 : copySelectionWith copySet d ref with ⟨d1, ref'⟩
    have g1 : Grows d d1 _ := h1 ▸ grows_copySelectionWith hcopy d ref
    rw [h1] at e
    simp only [copySelections, h1, ← e, copySelections_congr hcopy hagree d1 refs vs0
      (g1.viewSelections_eq (fun r ws hw _ _ => g1.viewSelectionSet_eq n r ws hw id fun _ _ => id)
        refs vs0 hvs0 fun _ _ => id)]

/-- **Copies do not depend on the fuel once it suffices**: with fuel for the `n` levels of
the view of a set, more fuel copies it the same way. -/
theorem copiesAgree_copySelectionSet : ∀ n m, n ≤ m →
    CopiesAgree (copySelectionSet m) (copySelectionSet n) n
  | 0, _, _ => fun _ _ _ h => by simp [viewSelectionSet] at h
  | _ + 1, 0, h => absurd h (Nat.not_succ_le_zero _)
  | n + 1, m + 1, h => fun d ref vs hv => by
    simp only [viewSelectionSet, Option.bind_eq_bind, Option.bind_eq_some] at hv
    obtain ⟨refs, hrefs, hv⟩ := hv
    have hsel : d.selectionRefs ref = refs := by simp [selectionRefs, hrefs]
    simp only [copySelectionSet, hsel, copySelections_congr (copyGrows_copySelectionSet m)
      (copiesAgree_copySelectionSet n m (Nat.le_of_succ_le_succ h)) d refs vs hv]

/-! ## A copied inline fragment -/

/-- **`CopyInlineFragment` on views.** The copy is a new inline fragment with the type
condition, the flags and the directives of the original, over a copy of its selection set
that enters only sets added by the copy. -/
theorem copyInlineFragmentWith_eq (hcopy : CopyGrows copySet) (hviews : CopiesViews copySet n)
    {d : Document} {ref : Nat} {fr : InlineFragment} (hf : d.inlineFragments[ref]? = some fr)
    {ds : Option (List Directive)} {o : Option (Nat × List (View Nat))}
    (hds : d.viewOptionalDirectives fr.hasDirectives fr.directives = some ds)
    (ho : viewBelow (d.viewSelectionSet n) fr.hasSelections fr.selectionSet = some o) :
    ∃ d₁ dirs set o', copyInlineFragmentWith copySet d ref =
        d₁.addInlineFragment { fr with directives := dirs, selectionSet := set } ∧
      Grows d d₁ (fun _ => False) ∧ d₁.viewOptionalDirectives fr.hasDirectives dirs = some ds ∧
      viewBelow (d₁.viewSelectionSet n) fr.hasSelections set = some o' ∧
      View.forgetBelow o' = View.forgetBelow o ∧
      ∀ s ∈ View.setsBelow o', d.selectionSets.length ≤ s := by
  have hfrag : d.inlineFragment ref = fr := by simp [inlineFragment, hf]
  obtain ⟨g1, hdirs⟩ := viewOptionalDirectives_copy hds
  rcases h1 : (if fr.hasDirectives then d.copyDirectiveList fr.directives else (d, [])) with
    ⟨d1, dirs⟩
  rw [h1] at g1 hdirs
  obtain ⟨o', g2, hbelow, hfo, hso⟩ := viewBelow_copy hcopy hviews (g1.viewBelow_self ho)
  rcases hp : (if fr.hasSelections then copySet d1 fr.selectionSet else (d1, 0)) with ⟨d2, set⟩
  rw [hp] at g2 hbelow
  refine ⟨d2, dirs, set, o', ?_, g1.trans g2, hdirs d2 g2, hbelow d2 (Grows.refl d2 _), hfo,
    fun s hs => le_trans g1.selectionSets (hso s hs)⟩
  simp only [copyInlineFragmentWith, hfrag, h1, hp]

/-- Rewriting the inline fragment just added is adding the rewritten one. -/
theorem setInlineFragment_addInlineFragment (d : Document) (fr fr' : InlineFragment) :
    (d.addInlineFragment fr).1.setInlineFragment (d.addInlineFragment fr).2 fr' =
      (d.addInlineFragment fr').1 := by
  simp [addInlineFragment, setInlineFragment]

theorem inlineFragment_addInlineFragment (d : Document) (fr : InlineFragment) :
    (d.addInlineFragment fr).1.inlineFragment (d.addInlineFragment fr).2 = fr := by
  simp [addInlineFragment, inlineFragment]

theorem Grows.viewOptionalDirectives {d d' : Document} {changed : Nat → Prop}
    (g : Grows d d' changed) {b : Bool} {refs : List Nat} {o : Option (List Directive)}
    (h : d.viewOptionalDirectives b refs = some o) : d'.viewOptionalDirectives b refs = some o := by
  cases b
  · exact h
  · simp only [Document.viewOptionalDirectives, if_true] at h ⊢
    obtain ⟨ds, hds, rfl⟩ := Option.map_eq_some'.mp h
    rw [g.viewDirectives hds]; rfl

/-- One turn of the loop of `ExpandInterfaceInlineFragment`, once the copy is known. -/
theorem expandTypeNames_cons {fuel f R : Nat} {D D₁ Dp : Document} {t : String} {nt : Nat}
    {fr : InlineFragment} (names : List String) (h1 : D.addNamedType t = (D₁, nt))
    (hcopy : D₁.copyInlineFragment fuel f = Dp.addInlineFragment fr) :
    D.expandTypeNames fuel f R (t :: names) =
      ((Dp.addInlineFragment { fr with typeCondition := some nt }).1.addSelection R
        ⟨.inlineFragment, Dp.inlineFragments.length⟩).expandTypeNames fuel f R names := by
  simp only [expandTypeNames, h1, hcopy, inlineFragment_addInlineFragment,
    setInlineFragment_addInlineFragment]
  rfl

theorem not_mem_setsBelow {o : Option (Nat × List (View Nat))} {R : Nat}
    (h : ∀ s ∈ View.setsBelow o, s ≠ R) :
    ∀ p ∈ o, ¬ p.1 = R ∧ ∀ s ∈ View.setsList p.2, ¬ s = R := fun p hp => by
  obtain rfl : o = some p := hp
  exact ⟨h p.1 (by simp [View.setsBelow]), fun s hs => h s (by simp [View.setsBelow, hs])⟩

/-- **The loop of `ExpandInterfaceInlineFragment` on views.** For each type name, one
selection is appended to the set `R`: a copy of the inline fragment `f` on that type, with the
directives and the flags of `f` and a copy of its selection set, which enters only sets added
after `D`. -/
theorem expandTypeNames_views {fuel f R n : Nat} {fr : InlineFragment}
    {ds : Option (List Directive)} {o : Option (Nat × List (View Nat))} (hn : n ≤ fuel)
    (hRo : ∀ s ∈ View.setsBelow o, s ≠ R) :
    ∀ (names : List String) (D : Document), R < D.selectionSets.length →
      D.inlineFragments[f]? = some fr →
      D.viewOptionalDirectives fr.hasDirectives fr.directives = some ds →
      viewBelow (D.viewSelectionSet n) fr.hasSelections fr.selectionSet = some o →
      ∃ new ws, (D.expandTypeNames fuel f R names).selectionRefs R = D.selectionRefs R ++ new ∧
        (D.expandTypeNames fuel f R names).viewSelections
          ((D.expandTypeNames fuel f R names).viewSelectionSet n) new = some ws ∧
        View.forgetList ws =
          names.map (fun t => .inlineFragment (some t) ds (View.forgetBelow o)) ∧
        ∀ s ∈ View.setsList ws, D.selectionSets.length ≤ s
  | [], D, _, _, _, _ => ⟨[], [], by simp [expandTypeNames], rfl, rfl, by simp [View.setsList]⟩
  | t :: names, D, hR, hf, hds, ho => by
    rcases h1 : D.addNamedType t with ⟨D1, nt⟩
    have g1 : Grows D D1 _ := h1 ▸ grows_addNamedType D t
    obtain ⟨Dp, dirs, set, o', hcopy, gp, hdirs, hbelow, hfo, hso⟩ :=
      copyInlineFragmentWith_eq (copyGrows_copySelectionSet fuel)
        (copiesViews_copySelectionSet fuel n hn)
        (List.getElem?_of_prefix_some g1.inlineFragments hf) (g1.viewOptionalDirectives hds)
        (g1.viewBelow_self ho)
    rw [expandTypeNames_cons names h1 hcopy]
    set fr₂ : InlineFragment :=
      { { fr with directives := dirs, selectionSet := set } with typeCondition := some nt }
    set D3 := (Dp.addInlineFragment fr₂).1
    have g3 : Grows Dp D3 _ := grows_addInlineFragment Dp fr₂
    have g13 : Grows D D3 _ := (g1.trans gp).trans g3
    have hlt3 : R < D3.selectionSets.length := lt_of_lt_of_le hR g13.selectionSets
    have g4 := grows_addSelection D3 R ⟨.inlineFragment, Dp.inlineFragments.length⟩
    have g14 : Grows D (D3.addSelection R ⟨.inlineFragment, Dp.inlineFragments.length⟩) (· = R) :=
      (g13.mono fun _ _ h => h.elim).trans g4
    obtain ⟨new, ws, hrefs, hws, hfw, hsets⟩ := expandTypeNames_views hn hRo names _
      (lt_of_lt_of_le hR g14.selectionSets) (List.getElem?_of_prefix_some g14.inlineFragments hf)
      (g14.viewOptionalDirectives hds)
      (Grows.viewBelow_eq (fun r vs h hr hs => g14.viewSelectionSet_eq n r vs h hr hs) ho
        (not_mem_setsBelow hRo))
    have hlen1 : D.selectionSets.length ≤ D1.selectionSets.length := g1.selectionSets
    have hfresh : ∀ s ∈ View.setsBelow o', D.selectionSets.length ≤ s := fun s hs =>
      le_trans hlen1 (hso s hs)
    have hv4 : (D3.addSelection R ⟨.inlineFragment, Dp.inlineFragments.length⟩).viewSelectionWith
        ((D3.addSelection R ⟨.inlineFragment, Dp.inlineFragments.length⟩).viewSelectionSet n)
          D3.selections.length = some (.inlineFragment (some t) ds o') := by
      have g34 : Grows Dp (D3.addSelection R ⟨.inlineFragment, Dp.inlineFragments.length⟩)
          (· = R) := (g3.mono fun _ _ h => h.elim).trans g4
      have hnt : D1.types[nt]? = some t := by
        simpa [h1] using (show (D.addNamedType t).1.types[(D.addNamedType t).2]? = some t by
          simp [addNamedType])
      simp only [viewSelectionWith, getElem?_addSelection, Option.some_bind, viewNode,
        Option.bind_eq_bind, Option.bind_eq_some, pure, Option.some.injEq]
      refine ⟨fr₂, List.getElem?_of_prefix_some g4.inlineFragments
        (getElem?_addInlineFragment Dp fr₂), some t, ?_, ds, g34.viewOptionalDirectives hdirs,
        o', Grows.viewBelow_eq (fun r vs h hr hs => g34.viewSelectionSet_eq n r vs h hr hs)
          hbelow (not_mem_setsBelow fun s hs e => by have := hfresh s hs; omega), rfl⟩
      simp [fr₂, viewTypeCondition,
        List.getElem?_of_prefix_some ((gp.trans g3).types.trans g4.types) hnt]
    have g' := grows_expandTypeNames fuel f R
      (D3.addSelection R ⟨.inlineFragment, Dp.inlineFragments.length⟩) names
    refine ⟨D3.selections.length :: new, .inlineFragment (some t) ds o' :: ws, ?_, ?_, ?_, ?_⟩
    · rw [hrefs, selectionRefs_addSelection D3 _ hlt3, g13.keeps R hR id]
      simp
    · simp only [viewSelections, Option.bind_eq_bind, Option.bind_eq_some, pure,
        Option.some.injEq]
      refine ⟨_, g'.viewSelectionWith_eq
        (fun r vs h hr hs => g'.viewSelectionSet_eq n r vs h hr hs) hv4 fun s hs e => ?_, ws, hws,
        rfl⟩
      have := hfresh s (by simpa using hs)
      omega
    · simp [hfo, hfw]
    · simp only [View.setsList_cons, List.mem_append]
      rintro s (hs | hs)
      · exact hfresh s (by simpa using hs)
      · exact le_trans g14.selectionSets (hsets s hs)

theorem newOnly_expandTypeNames {fuel f R : Nat} {d : Document} :
    ∀ (names : List String) (D : Document), NewOnly d D → Grows d D (fun _ => True) →
      NewOnly d (D.expandTypeNames fuel f R names)
  | [], _, h, _ => h
  | t :: names, D, h, g => by
    rcases h1 : D.addNamedType t with ⟨D1, nt⟩
    have g1 : Grows d D1 fun _ => True :=
      g.trans ((h1 ▸ grows_addNamedType D t).mono fun _ _ _ => trivial)
    have n1 : NewOnly d D1 := by
      have : NewOnly d (D.addNamedType t).1 := h.congr rfl rfl
      rwa [h1] at this
    obtain ⟨g2, hc⟩ := grows_copyInlineFragment fuel D1 f
    obtain ⟨n2, -⟩ := newOnly_copyInlineFragmentWith (copyGrows_copySelectionSet fuel)
      (copyNewOnly_copySelectionSet fuel) D1 f
    rcases h2 : D1.copyInlineFragment fuel f with ⟨D2, c⟩
    rw [h2] at g2 hc
    rw [show copyInlineFragmentWith (copySelectionSet fuel) D1 f = (D2, c) from h2] at n2
    have hcd : d.inlineFragments.length ≤ c := le_trans g1.inlineFragments.length_le hc
    have g3 := (g1.trans (g2.mono fun _ _ _ => trivial)).setInlineFragment hcd
      { D2.inlineFragment c with typeCondition := some nt }
    have n3 : NewOnly d (D2.setInlineFragment c
        { D2.inlineFragment c with typeCondition := some nt }) :=
      (n1.trans n2 g1 g2).congr rfl rfl
    simp only [expandTypeNames, h1, h2]
    exact newOnly_expandTypeNames names _ (n3.addSelection g3 hcd)
      (g3.trans ((grows_addSelection _ R _).mono fun _ _ _ => trivial))

/-- With only new selections naming new nodes, `SelectionIndex` finds an inline fragment of `d`
in a set of `d` where it found it in `d`. -/
theorem selectionIndex_of_newOnly {d D : Document} {changed : Nat → Prop} (h : NewOnly d D)
    (g : Grows d D changed) {f P : Nat} (hP : P < d.selectionSets.length) (hc : ¬ changed P)
    (hf : f < d.inlineFragments.length) :
    D.selectionIndex .inlineFragment f P = d.selectionIndex .inlineFragment f P := by
  have hsel : (fun s => D.selection s == ⟨.inlineFragment, f⟩) =
      fun s => d.selection s == ⟨.inlineFragment, f⟩ := funext fun j => by
    by_cases hj : j < d.selections.length
    · rw [g.selection hj]
    · have hn := h.nodes j (by omega)
      have hd : d.selection j = default := by
        simp [selection, List.getElem?_eq_none (Nat.le_of_not_lt hj)]
      rw [hd, show (default : Selection) = ⟨.unknown, 0⟩ from rfl]
      rcases hs : D.selection j with ⟨kind, ref⟩
      rw [hs] at hn
      cases kind <;> simp [NodeFresh] at hn ⊢
      omega
  unfold selectionIndex
  rw [g.keeps P hP hc, hsel]

/-- The sets of a view below a node are sets of the document. -/
theorem lt_of_mem_setsBelow {d : Document} {n : Nat} {b : Bool} {ref : Nat}
    {o : Option (Nat × List (View Nat))} (h : viewBelow (d.viewSelectionSet n) b ref = some o) :
    ∀ s ∈ View.setsBelow o, s < d.selectionSets.length := by
  cases b
  · simp only [viewBelow, Bool.false_eq_true, if_false, Option.some.injEq] at h
    simp [← h, View.setsBelow]
  · simp only [viewBelow, if_true] at h
    obtain ⟨vs, hvs, rfl⟩ := Option.map_eq_some'.mp h
    simp only [View.setsBelow, Option.map_some', Option.getD_some, List.mem_cons]
    rintro s (rfl | hs)
    · exact lt_of_viewSelectionSet hvs
    · exact lt_of_mem_setsList d n ref vs hvs s hs

/-! ## Copies and clones are fresh -/

/-- The sets `sets` of `D` were added after `d`, and so were their selections and the nodes
those name. -/
def FreshFrom (d D : Document) (sets : List Nat) : Prop :=
  ∀ t ∈ sets, d.selectionSets.length ≤ t ∧
    ∀ j ∈ D.selectionRefs t, d.selections.length ≤ j ∧ NodeFresh d (D.selection j)

theorem NewOnly.freshFrom {d D : Document} (h : NewOnly d D) {sets : List Nat}
    (hs : ∀ t ∈ sets, d.selectionSets.length ≤ t) : FreshFrom d D sets := fun t ht =>
  ⟨hs t ht, fun j hj => ⟨h.sets t (hs t ht) j hj, h.nodes j (h.sets t (hs t ht) j hj)⟩⟩

/-- **`CopySelectionSet` makes a fresh, equal and independent copy.** On a set whose view
takes `n` levels, that is whose selection structure is finite, acyclic and within the arrays,
any fuel from `n` on copies it as fuel `n` does, so the recursion of the source ends there. The
copy has the view of the set, indices apart; the sets it enters, their selections and the
nodes those name are all added by the copy; and every node and every selection list there
before is unchanged. -/
theorem copySelectionSet_fresh {d : Document} {s n m : Nat} {vs : List (View Nat)}
    (hv : d.viewSelectionSet n s = some vs) (hm : n ≤ m) :
    d.copySelectionSet m s = d.copySelectionSet n s ∧
      Grows d (d.copySelectionSet m s).1 (fun _ => False) ∧
      ∃ vs', (d.copySelectionSet m s).1.viewSelectionSet n (d.copySelectionSet m s).2 = some vs' ∧
        View.forgetList vs' = View.forgetList vs ∧
        FreshFrom d (d.copySelectionSet m s).1 ((d.copySelectionSet m s).2 :: View.setsList vs') := by
  obtain ⟨vs', hvs', hlen, hf, hsets⟩ := copiesViews_copySelectionSet m n hm d s vs hv
  refine ⟨copiesAgree_copySelectionSet n m hm d s vs hv, copyGrows_copySelectionSet m d s, vs',
    hvs', hf, (copyNewOnly_copySelectionSet m d s).freshFrom ?_⟩
  intro t ht
  rcases List.mem_cons.mp ht with rfl | ht
  · exact hlen
  · exact hsets t ht

/-- The selection set `{ ... on I { x } }`: set `0` holds the fragment, whose set `1` holds
`x`. -/
def fragmentOnI : Document where
  selectionSets := [[0], [1]]
  selections := [⟨.inlineFragment, 0⟩, ⟨.field, 0⟩]
  fields := [⟨"x", none, [], [], false, 0⟩]
  inlineFragments := [⟨some 0, false, [], 1, true⟩]
  fragmentSpreads := []
  directives := []
  types := ["I"]
  operationDefinitions := []
  fragmentDefinitions := []
  rootNodes := []

/-- The view of `fragmentOnI`'s set `0`, two levels deep. -/
def fragmentOnIView : List (View Nat) :=
  [.inlineFragment (some "I") none (some (1, [.field "x" none [] [] none]))]

theorem copySelectionSet_fresh_fragmentOnI :
    fragmentOnI.viewSelectionSet 2 0 = some fragmentOnIView ∧ 2 ≤ 3 ∧
      fragmentOnI.copySelectionSet 3 0 = fragmentOnI.copySelectionSet 2 0 ∧
      Grows fragmentOnI (fragmentOnI.copySelectionSet 3 0).1 (fun _ => False) ∧
      ∃ vs', (fragmentOnI.copySelectionSet 3 0).1.viewSelectionSet 2
          (fragmentOnI.copySelectionSet 3 0).2 = some vs' ∧
        View.forgetList vs' = View.forgetList fragmentOnIView ∧
        FreshFrom fragmentOnI (fragmentOnI.copySelectionSet 3 0).1
          ((fragmentOnI.copySelectionSet 3 0).2 :: View.setsList vs') :=
  ⟨rfl, by decide, copySelectionSet_fresh rfl (by decide)⟩

/-- `ExpandInterfaceInlineFragment` when `i` is the first index of the set `P` that holds the
inline fragment `f`: `P` becomes its selections before `i`, the new selections, then its
selections after `i`; the new selections are clones of `f` on the type names, and everything
the expansion adds refers only to what it adds. -/
theorem expandInterfaceInlineFragment_views {d : Document} {fuel n f P i : Nat}
    (names : List String) {tc : Option String} {ds : Option (List Directive)}
    {o : Option (Nat × List (View Nat))} (hn : n ≤ fuel)
    (hi : (d.selectionRefs P).findIdx? (fun s => d.selection s == ⟨.inlineFragment, f⟩) = some i)
    (hv : d.viewNode (d.viewSelectionSet n) ⟨.inlineFragment, f⟩ =
      some (.inlineFragment tc ds o)) :
    Grows d (d.expandInterfaceInlineFragment fuel f P names) (· = P) ∧
      NewOnly d (d.expandInterfaceInlineFragment fuel f P names) ∧
      ∃ new ws, new = (d.expandInterfaceInlineFragment fuel f P names).selectionRefs
          d.selectionSets.length ∧
        (d.expandInterfaceInlineFragment fuel f P names).selectionRefs P =
          (d.selectionRefs P).take i ++ new ++ (d.selectionRefs P).drop (i + 1) ∧
        (d.expandInterfaceInlineFragment fuel f P names).viewSelections
          ((d.expandInterfaceInlineFragment fuel f P names).viewSelectionSet n) new = some ws ∧
        View.forgetList ws =
          names.map (fun t => .inlineFragment (some t) ds (View.forgetBelow o)) ∧
        (∀ j ∈ new, d.selections.length ≤ j) ∧
        ∀ s ∈ View.setsList ws, d.selectionSets.length ≤ s := by
  refine ⟨grows_expandInterfaceInlineFragment fuel d f P names, ?_⟩
  simp only [viewNode, Option.bind_eq_bind, Option.bind_eq_some, pure, Option.some.injEq,
    View.inlineFragment.injEq] at hv
  obtain ⟨fr, hf, _, _, _, hds, _, ho, -, rfl, rfl⟩ := hv
  have hP : P < d.selectionSets.length := by
    obtain ⟨hlt, -⟩ := List.findIdx?_eq_some_iff_getElem.mp hi
    exact lt_of_mem_selectionRefs (List.getElem_mem hlt)
  have hflt : f < d.inlineFragments.length := (List.getElem?_eq_some_iff.mp hf).1
  rcases h1 : d.addSelectionSet with ⟨d1, R⟩
  have hR : R = d.selectionSets.length := by rw [← addSelectionSet_snd, h1]
  have g1 : Grows d d1 _ := h1 ▸ grows_addSelectionSet d
  have hd1 : d1 = (d.addSelectionSetToDocument []).1 := by rw [← addSelectionSet, h1]
  have n1 : NewOnly d d1 := hd1 ▸ (NewOnly.refl d).addSelectionSetToDocument (by simp)
  have hR1 : R < d1.selectionSets.length := by simp [hd1, hR, addSelectionSetToDocument]
  have hRe : d1.selectionRefs R = [] := by
    simp [hd1, hR, addSelectionSetToDocument, selectionRefs]
  obtain ⟨new, ws, hrefs, hws, hfw, hsets⟩ := expandTypeNames_views hn
    (fun s hs e => by have := lt_of_mem_setsBelow ho s hs; omega) names d1 hR1
    (List.getElem?_of_prefix_some g1.inlineFragments hf) (g1.viewOptionalDirectives hds)
    (g1.viewBelow_self ho)
  set d2 := d1.expandTypeNames fuel f R names
  have g2 : Grows d d2 (· = R) :=
    (g1.mono fun _ _ h => h.elim).trans (grows_expandTypeNames fuel f R d1 names)
  have n2 : NewOnly d d2 := newOnly_expandTypeNames names d1 n1 (g1.mono fun _ _ _ => trivial)
  have hidx : d2.selectionIndex .inlineFragment f P = (i, true) := by
    rw [selectionIndex_of_newOnly n2 g2 hP (by omega) hflt]
    simp [selectionIndex, hi]
  have e : d.expandInterfaceInlineFragment fuel f P names =
      d2.replaceSelectionOnSelectionSet P i R := by
    simp only [expandInterfaceInlineFragment, h1, hidx, d2]
  rw [e]
  have g3 := grows_replaceSelectionOnSelectionSet d2 P i R
  have n3 : NewOnly d (d2.replaceSelectionOnSelectionSet P i R) :=
    n2.setSelectionRefs fun hle => absurd hle (by omega)
  have hRsel : (d2.replaceSelectionOnSelectionSet P i R).selectionRefs R = new := by
    rw [g3.keeps R (lt_of_lt_of_le hR1 (grows_expandTypeNames fuel f R d1 names).selectionSets)
      (by omega), hrefs, hRe, List.nil_append]
  refine ⟨n3, new, ws, hR ▸ hRsel.symm, ?_, g3.viewSelections_eq
    (fun r vs h hr hs => g3.viewSelectionSet_eq n r vs h hr hs) new ws hws
    (fun s hs e => by have := hsets s hs; omega), hfw,
    fun j hj => n3.sets R (by omega) j (hRsel ▸ hj),
    fun s hs => le_trans g1.selectionSets (hsets s hs)⟩
  rw [replaceSelectionOnSelectionSet, selectionRefs_setSelectionRefs
    (lt_of_lt_of_le hP g2.selectionSets), g2.keeps P hP (by omega), hrefs, hRe]
  simp

/-- **`ExpandInterfaceInlineFragment` replaces its fragment with independent clones.** When
`i` is the first index of the set `P` that holds the inline fragment `f`, whose view takes `n`
levels, `P` becomes its selections before `i`, then one new selection per type name, then its
selections after `i`. Each new selection is a clone of `f` on that type, with the directives
and the selection set of `f`; the clones, the sets they enter, their selections and the nodes
those name are all new; and no list but `P`'s changes. -/
theorem expandInterfaceInlineFragment_clones {d : Document} {fuel n f P i : Nat}
    (names : List String) {tc : Option String} {ds : Option (List Directive)}
    {o : Option (Nat × List (View Nat))} (hn : n ≤ fuel)
    (hi : (d.selectionRefs P).findIdx? (fun s => d.selection s == ⟨.inlineFragment, f⟩) = some i)
    (hv : d.viewNode (d.viewSelectionSet n) ⟨.inlineFragment, f⟩ =
      some (.inlineFragment tc ds o)) :
    Grows d (d.expandInterfaceInlineFragment fuel f P names) (· = P) ∧
      ∃ new ws, (d.expandInterfaceInlineFragment fuel f P names).selectionRefs P =
          (d.selectionRefs P).take i ++ new ++ (d.selectionRefs P).drop (i + 1) ∧
        (d.expandInterfaceInlineFragment fuel f P names).viewSelections
          ((d.expandInterfaceInlineFragment fuel f P names).viewSelectionSet n) new = some ws ∧
        View.forgetList ws =
          names.map (fun t => .inlineFragment (some t) ds (View.forgetBelow o)) ∧
        (∀ j ∈ new, d.selections.length ≤ j ∧
          NodeFresh d ((d.expandInterfaceInlineFragment fuel f P names).selection j)) ∧
        FreshFrom d (d.expandInterfaceInlineFragment fuel f P names) (View.setsList ws) := by
  obtain ⟨g, n3, new, ws, -, hrefs, hws, hfw, hnew, hsets⟩ :=
    expandInterfaceInlineFragment_views names hn hi hv
  exact ⟨g, new, ws, hrefs, hws, hfw, fun j hj => ⟨hnew j hj, n3.nodes j (hnew j hj)⟩,
    n3.freshFrom hsets⟩

theorem expandInterfaceInlineFragment_clones_fragmentOnI :
    2 ≤ 2 ∧
      (fragmentOnI.selectionRefs 0).findIdx? (fun s => fragmentOnI.selection s == ⟨.inlineFragment, 0⟩) =
        some 0 ∧
      fragmentOnI.viewNode (fragmentOnI.viewSelectionSet 2) ⟨.inlineFragment, 0⟩ =
        some (.inlineFragment (some "I") none (some (1, [.field "x" none [] [] none]))) ∧
      let D := fragmentOnI.expandInterfaceInlineFragment 2 0 0 ["A", "B"]
      Grows fragmentOnI D (· = 0) ∧
        ∃ new ws, D.selectionRefs 0 =
            (fragmentOnI.selectionRefs 0).take 0 ++ new ++ (fragmentOnI.selectionRefs 0).drop (0 + 1) ∧
          D.viewSelections (D.viewSelectionSet 2) new = some ws ∧
          View.forgetList ws = ["A", "B"].map (fun t => .inlineFragment (some t) none
            (View.forgetBelow (some (1, [.field "x" none [] [] none])))) ∧
          (∀ j ∈ new, fragmentOnI.selections.length ≤ j ∧ NodeFresh fragmentOnI (D.selection j)) ∧
          FreshFrom fragmentOnI D (View.setsList ws) :=
  ⟨by decide, by decide, rfl, expandInterfaceInlineFragment_clones ["A", "B"] (by decide) (by decide) rfl⟩

/-- A set whose two selections both name the inline fragment `0`, which has no selection
set. -/
def twiceFragment : Document where
  selectionSets := [[0, 1]]
  selections := [⟨.inlineFragment, 0⟩, ⟨.inlineFragment, 0⟩]
  fields := []
  inlineFragments := [⟨none, false, [], 0, false⟩]
  fragmentSpreads := []
  directives := []
  types := []
  operationDefinitions := []
  fragmentDefinitions := []
  rootNodes := []

/-- The fragment is at index `1` of the set, but the expansion replaces the selection at
index `0`, the first that holds it: the set becomes the clone, then the selection at index
`1`. -/
theorem twiceFragment_replacesFirst :
    twiceFragment.selection ((twiceFragment.selectionRefs 0).getD 1 0) = ⟨.inlineFragment, 0⟩ ∧
      (twiceFragment.expandInterfaceInlineFragment 1 0 0 ["T"]).selectionRefs 0 = [2, 1] := by
  decide

end Copies


end Document

end Ast

end GraphQLTools
