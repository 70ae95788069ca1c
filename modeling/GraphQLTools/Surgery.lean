import GraphQLTools.Ast

/-!
# What the surgery primitives keep

Every primitive of the document appends nodes at the ends of its arrays and rewrites the
selection lists of the sets it is given, and does nothing else: the nodes already there keep
their indices and their content (`Grows`). The copies rewrite no selection list at all, an
expansion or a promotion only the list of the parent it is given.

`ReplaceSelectionOnSelectionSet` at the index `SelectionIndex` found removes the selection
found and nothing else of the set (`mem_replaceSelectionOnSelectionSet`).
-/

namespace GraphQLTools

namespace Ast

theorem List.getElem?_of_prefix {α : Type} {l₁ l₂ : List α} (h : l₁ <+: l₂) {n : Nat}
    (hn : n < l₁.length) : l₂[n]? = l₁[n]? := by
  obtain ⟨t, rfl⟩ := h
  exact List.getElem?_append_left hn

theorem List.prefix_set_of_le {α : Type} {l₁ l₂ : List α} (h : l₁ <+: l₂) {n : Nat}
    (hn : l₁.length ≤ n) (a : α) : l₁ <+: l₂.set n a := by
  obtain ⟨t, rfl⟩ := h
  rw [List.set_append_right _ _ hn]
  exact List.prefix_append _ _

theorem List.set_getElem_eq {α : Type} (l : List α) (i : Nat) (h : i < l.length) :
    l.set i l[i] = l :=
  List.ext_getElem (by simp) fun n _ _ => by
    rw [List.getElem_set]; split <;> simp_all

namespace Document

/-- `d'` keeps the nodes of `d` and may add nodes after them; of the selection lists of `d`,
only those of the sets in `changed` may differ. -/
structure Grows (d d' : Document) (changed : Nat → Prop) : Prop where
  selectionSets : d.selectionSets.length ≤ d'.selectionSets.length
  keeps : ∀ s < d.selectionSets.length, ¬ changed s → d'.selectionRefs s = d.selectionRefs s
  selections : d.selections <+: d'.selections
  fields : d.fields <+: d'.fields
  inlineFragments : d.inlineFragments <+: d'.inlineFragments
  fragmentSpreads : d.fragmentSpreads <+: d'.fragmentSpreads
  directives : d.directives <+: d'.directives
  types : d.types <+: d'.types
  operationDefinitions : d'.operationDefinitions = d.operationDefinitions
  fragmentDefinitions : d'.fragmentDefinitions = d.fragmentDefinitions
  rootNodes : d'.rootNodes = d.rootNodes

namespace Grows

variable {d d' d'' : Document} {changed changed' : Nat → Prop}

theorem refl (d : Document) (changed : Nat → Prop) : Grows d d changed :=
  ⟨le_rfl, fun _ _ _ => rfl, List.prefix_refl _, List.prefix_refl _, List.prefix_refl _,
    List.prefix_refl _, List.prefix_refl _, List.prefix_refl _, rfl, rfl, rfl⟩

theorem trans (h : Grows d d' changed) (h' : Grows d' d'' changed) : Grows d d'' changed where
  selectionSets := h.selectionSets.trans h'.selectionSets
  keeps s hs hc := (h'.keeps s (lt_of_lt_of_le hs h.selectionSets) hc).trans (h.keeps s hs hc)
  selections := h.selections.trans h'.selections
  fields := h.fields.trans h'.fields
  inlineFragments := h.inlineFragments.trans h'.inlineFragments
  fragmentSpreads := h.fragmentSpreads.trans h'.fragmentSpreads
  directives := h.directives.trans h'.directives
  types := h.types.trans h'.types
  operationDefinitions := h'.operationDefinitions.trans h.operationDefinitions
  fragmentDefinitions := h'.fragmentDefinitions.trans h.fragmentDefinitions
  rootNodes := h'.rootNodes.trans h.rootNodes

/-- Only the changes to sets of `d` count: a set added after `d` may change freely. -/
theorem mono (h : Grows d d' changed)
    (hc : ∀ s < d.selectionSets.length, changed s → changed' s) : Grows d d' changed' :=
  { h with keeps := fun s hs hc' => h.keeps s hs fun hcs => hc' (hc s hs hcs) }

theorem selection (h : Grows d d' changed) {j : Nat} (hj : j < d.selections.length) :
    d'.selection j = d.selection j := by
  simp only [Document.selection, List.getElem?_of_prefix h.selections hj]

theorem field (h : Grows d d' changed) {j : Nat} (hj : j < d.fields.length) :
    d'.field j = d.field j := by
  simp only [Document.field, List.getElem?_of_prefix h.fields hj]

theorem inlineFragment (h : Grows d d' changed) {j : Nat} (hj : j < d.inlineFragments.length) :
    d'.inlineFragment j = d.inlineFragment j := by
  simp only [Document.inlineFragment, List.getElem?_of_prefix h.inlineFragments hj]

end Grows

/-- A selection that is not the default one is in the array. -/
theorem lt_of_selection_ne {d : Document} {j : Nat} (h : d.selection j ≠ default) :
    j < d.selections.length := by
  by_contra hj
  exact h (by simp [Document.selection, List.getElem?_eq_none (Nat.le_of_not_lt hj)])

/-! ## The primitives -/

section Primitives

variable (d : Document)

theorem grows_addSelectionSetToDocument (set : List Nat) :
    Grows d (d.addSelectionSetToDocument set).1 fun _ => False where
  selectionSets := by simp [addSelectionSetToDocument]
  keeps s hs _ := by
    simp [addSelectionSetToDocument, selectionRefs, List.getElem?_append_left hs]
  selections := List.prefix_refl _
  fields := List.prefix_refl _
  inlineFragments := List.prefix_refl _
  fragmentSpreads := List.prefix_refl _
  directives := List.prefix_refl _
  types := List.prefix_refl _
  operationDefinitions := rfl
  fragmentDefinitions := rfl
  rootNodes := rfl

theorem grows_addSelectionToDocument (selection : Selection) :
    Grows d (d.addSelectionToDocument selection).1 fun _ => False :=
  { Grows.refl d fun _ => False with selections := List.prefix_append _ _ }

theorem grows_addInlineFragment (fragment : InlineFragment) :
    Grows d (d.addInlineFragment fragment).1 fun _ => False :=
  { Grows.refl d fun _ => False with inlineFragments := List.prefix_append _ _ }

theorem grows_addField (field : Field) : Grows d (d.addField field).1 fun _ => False :=
  { Grows.refl d fun _ => False with fields := List.prefix_append _ _ }

theorem grows_addFragmentSpread (spread : FragmentSpread) :
    Grows d (d.addFragmentSpread spread).1 fun _ => False :=
  { Grows.refl d fun _ => False with fragmentSpreads := List.prefix_append _ _ }

theorem grows_addDirective (directive : Directive) :
    Grows d (d.addDirective directive).1 fun _ => False :=
  { Grows.refl d fun _ => False with directives := List.prefix_append _ _ }

theorem grows_addNamedType (name : String) : Grows d (d.addNamedType name).1 fun _ => False :=
  { Grows.refl d fun _ => False with types := List.prefix_append _ _ }

theorem grows_setSelectionRefs (ref : Nat) (refs : List Nat) :
    Grows d (d.setSelectionRefs ref refs) (· = ref) :=
  { Grows.refl d (· = ref) with
    selectionSets := by simp [setSelectionRefs]
    keeps := fun s _ hs => by
      simp only [setSelectionRefs, selectionRefs, List.getElem?_set_ne (Ne.symm hs)] }

theorem grows_addSelection (set : Nat) (selection : Selection) :
    Grows d (d.addSelection set selection) (· = set) :=
  ((grows_addSelectionToDocument d selection).mono fun _ _ h => h.elim).trans
    (grows_setSelectionRefs _ set _)

theorem Grows.setInlineFragment {d d' : Document} {changed : Nat → Prop}
    (h : Grows d d' changed) {ref : Nat} (hr : d.inlineFragments.length ≤ ref)
    (fragment : InlineFragment) : Grows d (d'.setInlineFragment ref fragment) changed :=
  { h with inlineFragments := List.prefix_set_of_le h.inlineFragments hr fragment }

end Primitives

theorem selectionRefs_setSelectionRefs {d : Document} {ref : Nat} {refs : List Nat}
    (h : ref < d.selectionSets.length) : (d.setSelectionRefs ref refs).selectionRefs ref = refs := by
  simp [setSelectionRefs, selectionRefs, List.getElem?_set_self h]

theorem lt_of_mem_selectionRefs {d : Document} {ref j : Nat} (h : j ∈ d.selectionRefs ref) :
    ref < d.selectionSets.length := by
  by_contra hr
  simp [selectionRefs, List.getElem?_eq_none (Nat.le_of_not_lt hr)] at h

/-! ## Rewriting selection lists -/

@[simp]
theorem length_setSelectionRefs (d : Document) (ref : Nat) (refs : List Nat) :
    (d.setSelectionRefs ref refs).selectionSets.length = d.selectionSets.length := by
  simp [setSelectionRefs]

@[simp]
theorem setSelectionRefs_selectionRefs (d : Document) (ref : Nat) :
    d.setSelectionRefs ref (d.selectionRefs ref) = d := by
  cases d
  simp only [setSelectionRefs, selectionRefs, mk.injEq, and_true]
  rcases Nat.lt_or_ge ref ‹List (List Nat)›.length with h | h
  · simp [List.getElem?_eq_getElem h, List.set_getElem_eq]
  · simp [List.getElem?_eq_none h, List.set_eq_of_length_le h]

theorem selectionRefs_setSelectionRefs_ne (d : Document) {r r' : Nat} (h : r ≠ r')
    (l : List Nat) : (d.setSelectionRefs r l).selectionRefs r' = d.selectionRefs r' := by
  simp [setSelectionRefs, selectionRefs, List.getElem?_set_ne h]

theorem setSelectionRefs_setSelectionRefs_self (d : Document) (ref : Nat) (l l' : List Nat) :
    (d.setSelectionRefs ref l).setSelectionRefs ref l' = d.setSelectionRefs ref l' := by
  simp [setSelectionRefs]

theorem setSelectionRefs_comm (d : Document) {r r' : Nat} (h : r ≠ r') (l l' : List Nat) :
    (d.setSelectionRefs r l).setSelectionRefs r' l' =
      (d.setSelectionRefs r' l').setSelectionRefs r l := by
  simp [setSelectionRefs, List.set_comm _ _ _ h]

/-- Two rewrites of the same two lists: the later ones are what stays. -/
theorem setSelectionRefs_setSelectionRefs_pair (d : Document) {r r' : Nat} (h : r ≠ r')
    (l₁ l₁' l₂ l₂' : List Nat) :
    (((d.setSelectionRefs r l₁).setSelectionRefs r' l₁').setSelectionRefs r l₂).setSelectionRefs
      r' l₂' = (d.setSelectionRefs r l₂).setSelectionRefs r' l₂' := by
  rw [setSelectionRefs_comm _ h l₁, setSelectionRefs_setSelectionRefs_self,
    setSelectionRefs_comm _ h.symm, setSelectionRefs_setSelectionRefs_self]

theorem selectionRefs_addSelection (d : Document) {set : Nat} (s : Selection)
    (h : set < d.selectionSets.length) :
    (d.addSelection set s).selectionRefs set = d.selectionRefs set ++ [d.selections.length] := by
  simp only [addSelection, addSelectionToDocument]
  exact selectionRefs_setSelectionRefs h

theorem getElem?_addSelection (d : Document) (set : Nat) (s : Selection) :
    (d.addSelection set s).selections[d.selections.length]? = some s := by
  simp [addSelection, addSelectionToDocument, setSelectionRefs]

section Copies

variable {copySet : Document → Nat → Document × Nat}

/-! ## Copies and expansions -/

/-- A way of copying a selection set that rewrites no selection list. -/
def CopyGrows (copySet : Document → Nat → Document × Nat) : Prop :=
  ∀ d ref, Grows d (copySet d ref).1 fun _ => False

theorem grows_copyDirectiveList : ∀ (d : Document) (refs : List Nat),
    Grows d (d.copyDirectiveList refs).1 fun _ => False
  | d, [] => Grows.refl d _
  | d, _ :: refs => (grows_addDirective d _).trans (grows_copyDirectiveList _ refs)

theorem grows_copyFieldWith (hcopy : CopyGrows copySet) (d : Document) (ref : Nat) :
    Grows d (copyFieldWith copySet d ref).1 fun _ => False := by
  rcases h1 : d.copyDirectiveList (d.field ref).directives with ⟨d1, dirs⟩
  have g1 : Grows d d1 _ := h1 ▸ grows_copyDirectiveList d _
  by_cases hs : (d.field ref).hasSelections
  · rcases h2 : copySet d1 (d.field ref).selectionSet with ⟨d2, set⟩
    have g2 : Grows d1 d2 _ := h2 ▸ hcopy d1 _
    simp only [copyFieldWith, h1, hs, if_true, h2]
    exact g1.trans (g2.trans (grows_addField _ _))
  · simp only [copyFieldWith, h1, hs]
    exact g1.trans (grows_addField _ _)

theorem grows_copyFragmentSpread (d : Document) (ref : Nat) :
    Grows d (d.copyFragmentSpread ref).1 fun _ => False := by
  rcases h1 : d.copyDirectiveList (d.fragmentSpread ref).directives with ⟨d1, dirs⟩
  have g1 : Grows d d1 _ := h1 ▸ grows_copyDirectiveList d _
  simp only [copyFragmentSpread, h1]
  exact g1.trans (grows_addFragmentSpread _ _)

/-- A copy of an inline fragment rewrites no selection list, and adds the copy after the
fragments already there. -/
theorem grows_copyInlineFragmentWith (hcopy : CopyGrows copySet) (d : Document) (ref : Nat) :
    Grows d (copyInlineFragmentWith copySet d ref).1 (fun _ => False) ∧
      d.inlineFragments.length ≤ (copyInlineFragmentWith copySet d ref).2 := by
  obtain ⟨d1, dirs, g1, h1⟩ : ∃ d1 dirs, Grows d d1 (fun _ => False) ∧
      (if (d.inlineFragment ref).hasDirectives then
        d.copyDirectiveList (d.inlineFragment ref).directives else (d, [])) = (d1, dirs) := by
    split
    · exact ⟨_, _, grows_copyDirectiveList d _, rfl⟩
    · exact ⟨d, [], Grows.refl d _, rfl⟩
  obtain ⟨d2, set, g2, h2⟩ : ∃ d2 set, Grows d1 d2 (fun _ => False) ∧
      (if (d.inlineFragment ref).hasSelections then
        copySet d1 (d.inlineFragment ref).selectionSet else (d1, 0)) = (d2, set) := by
    split
    · exact ⟨_, _, hcopy d1 _, rfl⟩
    · exact ⟨d1, 0, Grows.refl d1 _, rfl⟩
  simp only [copyInlineFragmentWith, h1, h2]
  exact ⟨(g1.trans g2).trans (grows_addInlineFragment _ _), (g1.trans g2).inlineFragments.length_le⟩

theorem grows_copySelectionWith (hcopy : CopyGrows copySet) (d : Document) (ref : Nat) :
    Grows d (copySelectionWith copySet d ref).1 fun _ => False := by
  have add : ∀ d1 inner, Grows d d1 (fun _ => False) → ∀ kind,
      Grows d (d1.addSelectionToDocument ⟨kind, inner⟩).1 fun _ => False :=
    fun d1 _ g1 _ => g1.trans (grows_addSelectionToDocument _ _)
  rcases hs : d.selection ref with ⟨kind, sref⟩
  cases kind <;> simp only [copySelectionWith, hs]
  · exact add d 0 (Grows.refl d _) _
  · exact add _ _ (grows_copyFieldWith hcopy d sref) _
  · exact add _ _ (grows_copyFragmentSpread d sref) _
  · exact add _ _ (grows_copyInlineFragmentWith hcopy d sref).1 _

theorem grows_copySelections (hcopy : CopyGrows copySet) : ∀ (d : Document) (refs : List Nat),
    Grows d (d.copySelections copySet refs).1 fun _ => False
  | d, [] => Grows.refl d _
  | d, ref :: refs => by
    rcases h1 : copySelectionWith copySet d ref with ⟨d1, ref'⟩
    have g1 : Grows d d1 _ := h1 ▸ grows_copySelectionWith hcopy d ref
    simp only [copySelections, h1]
    exact g1.trans (grows_copySelections hcopy d1 refs)

theorem copyGrows_copySelectionSet : ∀ fuel, CopyGrows (copySelectionSet fuel)
  | 0, d, _ => grows_addSelectionSetToDocument d _
  | fuel + 1, d, ref => by
    rcases h1 : d.copySelections (copySelectionSet fuel) (d.selectionRefs ref) with ⟨d1, refs⟩
    have g1 : Grows d d1 _ := h1 ▸ grows_copySelections (copyGrows_copySelectionSet fuel) d _
    simp only [copySelectionSet, h1]
    exact g1.trans (grows_addSelectionSetToDocument _ _)

end Copies

section Expansions

variable (fuel : Nat)

/-- The copy of an inline fragment that `CopyInlineFragment` makes. -/
theorem grows_copyInlineFragment (d : Document) (ref : Nat) :
    Grows d (d.copyInlineFragment fuel ref).1 (fun _ => False) ∧
      d.inlineFragments.length ≤ (d.copyInlineFragment fuel ref).2 :=
  grows_copyInlineFragmentWith (copyGrows_copySelectionSet fuel) d ref

theorem grows_expandTypeNames (inlineFragment replacement : Nat) :
    ∀ (d : Document) (names : List String),
      Grows d (d.expandTypeNames fuel inlineFragment replacement names) (· = replacement)
  | d, [] => Grows.refl d _
  | d, name :: names => by
    rcases h1 : d.addNamedType name with ⟨d1, t⟩
    have g1 : Grows d d1 _ := h1 ▸ grows_addNamedType d name
    have g2 := grows_copyInlineFragment fuel d1 inlineFragment
    rcases h2 : d1.copyInlineFragment fuel inlineFragment with ⟨d2, f⟩
    rw [h2] at g2
    simp only [expandTypeNames, h1, h2]
    have g3 : Grows d _ (· = replacement) :=
      ((g1.trans g2.1).setInlineFragment (g1.inlineFragments.length_le.trans g2.2)
        { d2.inlineFragment f with typeCondition := some t }).mono fun _ _ h => h.elim
    exact (g3.trans (grows_addSelection _ _ _)).trans
      (grows_expandTypeNames inlineFragment replacement _ names)

theorem grows_replaceSelectionOnSelectionSet (d : Document) (ref replace «with» : Nat) :
    Grows d (d.replaceSelectionOnSelectionSet ref replace «with») (· = ref) :=
  grows_setSelectionRefs d ref _

theorem addSelectionSet_snd (d : Document) : d.addSelectionSet.2 = d.selectionSets.length := rfl

theorem grows_addSelectionSet (d : Document) : Grows d d.addSelectionSet.1 fun _ => False :=
  grows_addSelectionSetToDocument d []

/-- `ExpandInterfaceInlineFragment` rewrites the list of the parent and no other. -/
theorem grows_expandInterfaceInlineFragment (d : Document) (inlineFragment parent : Nat)
    (names : List String) :
    Grows d (d.expandInterfaceInlineFragment fuel inlineFragment parent names) (· = parent) := by
  rcases h1 : d.addSelectionSet with ⟨d1, replacement⟩
  have g1 : Grows d d1 _ := h1 ▸ grows_addSelectionSet d
  have hr : replacement = d.selectionSets.length := by rw [← addSelectionSet_snd, h1]
  have g2 := (g1.mono fun _ _ h => h.elim).trans
    (grows_expandTypeNames fuel inlineFragment replacement d1 names)
  simp only [expandInterfaceInlineFragment, h1]
  exact (g2.mono fun s hs h => absurd (hr ▸ h ▸ hs) (lt_irrefl _)).trans
    (grows_replaceSelectionOnSelectionSet _ _ _ _)

/-- `PromoteUnionInlineFragments` rewrites the list of the parent and no other. -/
theorem grows_promoteUnionInlineFragments (d : Document) (inlineFragment parent : Nat) :
    Grows d (d.promoteUnionInlineFragments inlineFragment parent) (· = parent) := by
  exact grows_replaceSelectionOnSelectionSet _ _ _ _

theorem grows_moveFields (set staging : Nat) : ∀ (d : Document) (i : Nat),
    Grows d (d.moveFields set staging i) fun s => s = set ∨ s = staging
  | d, 0 => Grows.refl d _
  | d, i + 1 => by
    simp only [moveFields]
    refine Grows.trans ?_ (grows_moveFields set staging _ i)
    split_ifs
    · exact Grows.refl d _
    · exact Grows.refl d _
    · exact ((grows_setSelectionRefs d set _).mono fun _ _ => .inl).trans
        ((grows_setSelectionRefs _ staging _).mono fun _ _ => .inr)

theorem grows_addTypeFragments (staging selectionSetToAdd : Nat) :
    ∀ (d : Document) (names : List String),
      Grows d (d.addTypeFragments fuel staging selectionSetToAdd names) (· = selectionSetToAdd)
  | d, [] => Grows.refl d _
  | d, name :: names => by
    rcases h1 : d.addNamedType name with ⟨d1, t⟩
    have g1 : Grows d d1 _ := h1 ▸ grows_addNamedType d name
    rcases h2 : d1.copySelectionSet fuel staging with ⟨d2, c⟩
    have g2 : Grows d1 d2 _ := h2 ▸ copyGrows_copySelectionSet fuel d1 staging
    rcases h3 : d2.addInlineFragment ⟨some t, false, [], c, true⟩ with ⟨d3, f⟩
    have g3 : Grows d2 d3 _ := h3 ▸ grows_addInlineFragment d2 _
    simp only [addTypeFragments, h1, h2, h3]
    exact (((g1.trans (g2.trans g3)).mono fun _ _ h => h.elim).trans
      (grows_addSelection _ _ _)).trans (grows_addTypeFragments staging selectionSetToAdd _ names)

/-- `ExpandInterfaceSelectionSet` rewrites the list of its set and no other. -/
theorem grows_expandInterfaceSelectionSet (d : Document) (set : Nat) (names : List String) :
    Grows d (d.expandInterfaceSelectionSet fuel set names) (· = set) := by
  rcases h1 : d.addSelectionSet with ⟨d1, toAdd⟩
  have g1 : Grows d d1 _ := h1 ▸ grows_addSelectionSet d
  rcases h2 : d1.addSelectionSet with ⟨d2, staging⟩
  have g2 : Grows d1 d2 _ := h2 ▸ grows_addSelectionSet d1
  have ht : toAdd = d.selectionSets.length := by rw [← addSelectionSet_snd, h1]
  have hs : staging = d.selectionSets.length + 1 := by
    have e1 : d.addSelectionSet.1 = d1 := by rw [h1]
    have e2 : d1.addSelectionSet.2 = staging := by rw [h2]
    rw [← e2, addSelectionSet_snd, ← e1]
    simp [addSelectionSet, addSelectionSetToDocument]
  -- the sets the expansion adds are not sets of `d`
  have fresh : ∀ s < d.selectionSets.length, (s = set ∨ s = staging ∨ s = toAdd) → s = set :=
    fun s hlt h => h.resolve_right (by omega)
  have g3 : Grows d _ fun s => s = set ∨ s = staging ∨ s = toAdd :=
    ((g1.trans g2).mono fun _ _ h => h.elim).trans
      ((grows_moveFields set staging d2 (d2.selectionRefs set).length).mono
        fun _ _ h => h.imp_right .inl)
  simp only [expandInterfaceSelectionSet, h1, h2]
  split_ifs
  · exact g3.mono fresh
  · exact (((g3.trans ((grows_setSelectionRefs _ staging _).mono fun _ _ h => .inr (.inl h))).trans
      ((grows_addTypeFragments fuel staging toAdd _ _).mono fun _ _ h => .inr (.inr h))).trans
      ((grows_setSelectionRefs _ set _).mono fun _ _ h => .inl h)).mono fresh

end Expansions

/-! ## Finding and replacing a selection -/

/-- `SelectionIndex` finds a selection of the kind and reference asked for exactly when the
set holds one, and then at the first index that holds one. -/
theorem selectionIndex_found {d : Document} {kind : SelectionKind} {ref set i : Nat}
    (h : d.selectionIndex kind ref set = (i, true)) :
    ∃ hi : i < (d.selectionRefs set).length,
      d.selection ((d.selectionRefs set)[i]) = ⟨kind, ref⟩ := by
  unfold selectionIndex at h
  split at h
  · rename_i i' hi'
    cases h
    obtain ⟨hi, hp, -⟩ := List.findIdx?_eq_some_iff_getElem.mp hi'
    exact ⟨hi, by simpa using hp⟩
  · cases h

theorem selectionIndex_snd_iff {d : Document} {kind : SelectionKind} {ref set : Nat} :
    (d.selectionIndex kind ref set).2 = true ↔
      ∃ j ∈ d.selectionRefs set, d.selection j = ⟨kind, ref⟩ := by
  unfold selectionIndex
  split
  · rename_i i hi
    obtain ⟨hi, hp, -⟩ := List.findIdx?_eq_some_iff_getElem.mp hi
    simpa using ⟨_, List.getElem_mem hi, by simpa using hp⟩
  · rename_i hn
    simp only [Bool.false_eq_true, false_iff, not_exists, not_and]
    intro j hj hs
    simpa [hs] using List.findIdx?_eq_none_iff.mp hn j hj

/-- Replacing the selection `SelectionIndex` found keeps every selection that is not of the
kind and reference it looked for. -/
theorem mem_replaceSelectionOnSelectionSet {d : Document} {kind : SelectionKind}
    {ref set i «with» j : Nat} (hi : d.selectionIndex kind ref set = (i, true))
    (hj : j ∈ d.selectionRefs set) (hne : d.selection j ≠ ⟨kind, ref⟩) :
    j ∈ (d.replaceSelectionOnSelectionSet set i «with»).selectionRefs set := by
  obtain ⟨hlt, hsel⟩ := selectionIndex_found hi
  rw [replaceSelectionOnSelectionSet, selectionRefs_setSelectionRefs (lt_of_mem_selectionRefs hj)]
  have hji : (d.selectionRefs set)[i] ≠ j := fun e => hne (e ▸ hsel)
  rw [← List.take_append_drop i (d.selectionRefs set), List.mem_append] at hj
  rcases hj with hj | hj
  · exact List.mem_append_left _ hj
  · rw [List.drop_eq_getElem_cons hlt, List.mem_cons] at hj
    rcases hj with hj | hj
    · exact absurd hj.symm hji
    · exact List.mem_append_right _ (List.mem_append_right _ hj)

/-- A selection of a kind other than `unknown` is in the array. -/
theorem lt_of_selection_eq {d : Document} {j : Nat} {kind : SelectionKind} {ref : Nat}
    (h : d.selection j = ⟨kind, ref⟩) (hk : kind ≠ .unknown) : j < d.selections.length :=
  lt_of_selection_ne fun e => hk (by rw [h] at e; exact congrArg Selection.kind e)

/-- What `Grows` keeps keeps a fragment `SelectionIndex` finds. -/
theorem Grows.found {d d' : Document} {changed : Nat → Prop} (h : Grows d d' changed)
    {f p : Nat} (hp : ¬ changed p) (hf : (d.selectionIndex .inlineFragment f p).2 = true) :
    (d'.selectionIndex .inlineFragment f p).2 = true := by
  obtain ⟨j, hj, hs⟩ := selectionIndex_snd_iff.mp hf
  refine selectionIndex_snd_iff.mpr ⟨j, ?_, ?_⟩
  · rwa [h.keeps p (lt_of_mem_selectionRefs hj) hp]
  · rw [h.selection (lt_of_selection_eq hs (by simp)), hs]

/-- Replacing one inline fragment of a set keeps the other fragments `SelectionIndex` finds
there. -/
theorem found_replace_other {d : Document} {f f' p : Nat} (w : Nat)
    (hf : (d.selectionIndex .inlineFragment f p).2 = true)
    (hf' : (d.selectionIndex .inlineFragment f' p).2 = true) (hne : f ≠ f') :
    ((d.replaceSelectionOnSelectionSet p (d.selectionIndex .inlineFragment f' p).1 w).selectionIndex
      .inlineFragment f p).2 = true := by
  obtain ⟨j, hj, hs⟩ := selectionIndex_snd_iff.mp hf
  have hi : d.selectionIndex .inlineFragment f' p = ((d.selectionIndex .inlineFragment f' p).1, true) :=
    Prod.ext rfl hf'
  refine selectionIndex_snd_iff.mpr ⟨j, mem_replaceSelectionOnSelectionSet hi hj ?_, ?_⟩
  · rw [hs]; simpa using hne
  · rw [(grows_replaceSelectionOnSelectionSet _ _ _ _).selection (lt_of_selection_eq hs (by simp)),
      hs]

end Document

end Ast

end GraphQLTools
