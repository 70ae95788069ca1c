import GraphQLTools.View
import GraphQLTools.Transformer
import Mathlib.Data.List.FinRange

/-!
# `ExpandInterfaceSelectionSet`, one rewrite at a time

`ExpandInterfaceSelectionSet` runs three loops over the set it is given. The first moves every
field other than `__typename` out of the set into a new staging set, from the last selection to
the first (`moveFields_eq`). The second, meant to undo the reversal, swaps each element of the
first half with the last element rather than with its mirror; it permutes the staging set all
the same (`reverseRefs_perm`), but restores the order of the moved fields only when there are at
most three of them (`reverseRefs_reverse_eq_iff`). The third appends to the set, per concrete
type name, an inline fragment on that type over a copy of the staging set
(`addTypeFragments_views`).

Read through views, the rewrite is `View.expandLevel`: the selections that do not move stay in
order, followed by `View.typeFragments` over those that do
(`expandInterfaceSelectionSet_views`).
-/

namespace GraphQLTools

namespace Ast

namespace Document

/-- A selection `ExpandInterfaceSelectionSet` moves into the new fragments: a field other than
`__typename`. -/
def moves (d : Document) (selection : Nat) : Bool :=
  (d.selection selection).kind == .field &&
    (d.field (d.selection selection).ref).name != typenameField

@[simp]
theorem moves_setSelectionRefs (d : Document) (ref : Nat) (refs : List Nat) :
    (d.setSelectionRefs ref refs).moves = d.moves := rfl

/-- `moveFields` with its two `continue` checks read as one test. -/
theorem moveFields_succ (d : Document) (set staging i : Nat) :
    d.moveFields set staging (i + 1) =
      (if d.moves ((d.selectionRefs set).getD i 0) then
        (d.removeFromSelectionSet set i).setSelectionRefs staging
          (d.selectionRefs staging ++ [(d.selectionRefs set).getD i 0])
      else d).moveFields set staging i := by
  simp only [moveFields, moves]
  split_ifs <;> simp_all

/-- **The first loop of `ExpandInterfaceSelectionSet`.** Over the first `i` selections of
`R`, the set keeps those that do not move and the staging set receives those that do, the
last first. -/
theorem moveFields_eq {set staging : Nat} (hne : set ≠ staging) (R : List Nat) :
    ∀ (i : Nat) (d : Document) (K M : List Nat), i ≤ R.length →
      staging < d.selectionSets.length → d.selectionRefs set = R.take i ++ K →
      d.selectionRefs staging = M →
      d.moveFields set staging i =
        (d.setSelectionRefs set ((R.take i).filter (!d.moves ·) ++ K)).setSelectionRefs staging
          (M ++ ((R.take i).filter d.moves).reverse)
  | 0, d, K, M, _, _, hs, hm => by
    rw [List.take_zero, List.nil_append] at hs
    simp [moveFields, ← hs, ← hm]
  | i + 1, d, K, M, hi, hst, hs, hm => by
    have hlt : i < R.length := hi
    have htake : R.take (i + 1) = R.take i ++ [R[i]] := by
      rw [← List.take_concat_get _ _ hlt, List.concat_eq_append]
    rw [htake, List.append_assoc, List.singleton_append] at hs
    have hlen : (R.take i).length = i := by simp; omega
    have hR : (d.selectionRefs set).getD i 0 = R[i] := by
      rw [hs, List.getD_eq_getElem?_getD, List.getElem?_append_right (by omega), hlen]
      simp
    have hset : set < d.selectionSets.length :=
      lt_of_mem_selectionRefs (show R[i] ∈ d.selectionRefs set by rw [hs]; simp)
    rw [moveFields_succ, hR, htake, List.filter_append, List.filter_append]
    split_ifs with hmv
    · have hs' : ((d.removeFromSelectionSet set i).setSelectionRefs staging
          (d.selectionRefs staging ++ [R[i]])).selectionRefs set = R.take i ++ K := by
        rw [selectionRefs_setSelectionRefs_ne _ hne.symm, removeFromSelectionSet,
          selectionRefs_setSelectionRefs hset, hs]
        simp [List.take_append_eq_append_take, List.drop_append_eq_append_drop, hlen]
      have hst' := (by simpa [removeFromSelectionSet] using hst :
        staging < (d.removeFromSelectionSet set i).selectionSets.length)
      rw [moveFields_eq hne R i _ K (M ++ [R[i]]) (by omega) (by simpa using hst') hs'
        (by rw [selectionRefs_setSelectionRefs hst', hm])]
      simp only [moves_setSelectionRefs, removeFromSelectionSet,
        setSelectionRefs_setSelectionRefs_pair _ hne, List.filter_cons, List.filter_nil, hmv,
        Bool.not_true, Bool.false_eq_true, if_true, if_false, List.append_nil, List.reverse_append,
        List.reverse_singleton, List.singleton_append, List.append_assoc]
    · rw [moveFields_eq hne R i d (R[i] :: K) M (by omega) hst hs hm]
      simp only [List.filter_cons, List.filter_nil, hmv, Bool.not_false, if_true, if_false,
        List.append_assoc, List.singleton_append, List.append_nil, Bool.false_eq_true]

/-- The document with two new empty selection sets, the first two steps of
`ExpandInterfaceSelectionSet`. -/
def withTwoSets (d : Document) : Document :=
  { d with selectionSets := d.selectionSets ++ [[], []] }

@[simp]
theorem withTwoSets_moves (d : Document) : d.withTwoSets.moves = d.moves := rfl

theorem grows_withTwoSets (d : Document) : Grows d d.withTwoSets fun _ => False := by
  have e : (d.addSelectionSet.1.addSelectionSet).1 = d.withTwoSets := by
    simp [addSelectionSet, addSelectionSetToDocument, withTwoSets]
  exact e ▸ (grows_addSelectionSet d).trans (grows_addSelectionSet _)

/-- **`ExpandInterfaceSelectionSet` step by step.** With `toAdd` and `staging` the two new sets:
without a field to move, the document only gains them; otherwise the set keeps what does not
move, followed by the selections `addTypeFragments` adds to `toAdd`, and `staging` holds the
moved fields as the second loop leaves them. -/
theorem expandInterfaceSelectionSet_eq (d : Document) (fuel set : Nat) (names : List String)
    (hset : set < d.selectionSets.length) :
    d.expandInterfaceSelectionSet fuel set names =
      if (d.selectionRefs set).filter d.moves = [] then d.withTwoSets
      else
        (((d.withTwoSets.setSelectionRefs set ((d.selectionRefs set).filter (!d.moves ·))
          ).setSelectionRefs (d.selectionSets.length + 1)
            (reverseRefs ((d.selectionRefs set).filter d.moves).reverse)
          ).addTypeFragments fuel (d.selectionSets.length + 1) d.selectionSets.length names
        ).appendSelectionSet set d.selectionSets.length := by
  have e1 : d.addSelectionSet =
      ({ d with selectionSets := d.selectionSets ++ [[]] }, d.selectionSets.length) := rfl
  have e2 : ({ d with selectionSets := d.selectionSets ++ [[]] } : Document).addSelectionSet =
      (d.withTwoSets, d.selectionSets.length + 1) := by
    simp [addSelectionSet, addSelectionSetToDocument, withTwoSets]
  have hR : d.withTwoSets.selectionRefs set = d.selectionRefs set := by
    simp [withTwoSets, selectionRefs, List.getElem?_append_left hset]
  have hS : d.withTwoSets.selectionRefs (d.selectionSets.length + 1) = [] := by
    simp only [withTwoSets, selectionRefs]
    rw [List.getElem?_append_right (by omega)]
    simp
  have hlen : d.withTwoSets.selectionSets.length = d.selectionSets.length + 2 := by
    simp [withTwoSets]
  have hmv := moveFields_eq (by omega : set ≠ d.selectionSets.length + 1) (d.selectionRefs set)
    (d.selectionRefs set).length d.withTwoSets [] [] le_rfl (by omega) (by simp [hR]) hS
  simp only [expandInterfaceSelectionSet, e1, e2, hR, hmv, List.take_length, List.append_nil,
    List.nil_append, selectionRefs_setSelectionRefs (by simp [hlen] : d.selectionSets.length + 1 <
      (d.withTwoSets.setSelectionRefs set _).selectionSets.length), List.reverse_eq_nil_iff,
    setSelectionRefs_setSelectionRefs_self, withTwoSets_moves]
  by_cases h : (d.selectionRefs set).filter d.moves = []
  · have hkeep : (d.selectionRefs set).filter (!d.moves ·) = d.selectionRefs set :=
      List.filter_eq_self.mpr fun a ha => by simpa using List.filter_eq_nil_iff.mp h a ha
    rw [if_pos h, if_pos h, hkeep, h, List.reverse_nil, ← hR, setSelectionRefs_selectionRefs,
      ← hS, setSelectionRefs_selectionRefs]
  · rw [if_neg h, if_neg h]

end Document

/-! ## The second loop permutes -/

namespace Document

theorem lt_of_mem_range_half {n i : Nat} (h : i ∈ List.range (n / 2)) : i < n := by
  have := List.mem_range.mp h
  omega

section Reversal

variable {α β : Type} [Inhabited α] [Inhabited β]

@[simp]
theorem length_swapWithLast (l : List α) (i : Nat) : (swapWithLast l i).length = l.length := by
  simp [swapWithLast]

/-- One turn of the second loop swaps two elements. -/
theorem swapWithLast_perm {l : List α} {i : Nat} (hi : i < l.length) :
    (swapWithLast l i).Perm l := by
  have hn : l.length - 1 < l.length := by omega
  have e : swapWithLast l i =
      List.ofFn ((fun k : Fin l.length => l[(k : Nat)]) ∘
        Equiv.swap ⟨i, hi⟩ ⟨l.length - 1, hn⟩) := by
    refine List.ext_getElem (by simp [swapWithLast]) fun k _ hk => ?_
    simp only [List.length_ofFn] at hk
    simp only [swapWithLast, List.getElem_set, List.getD_eq_getElem?_getD,
      List.getElem?_eq_getElem hi, List.getElem?_eq_getElem hn, Option.getD_some,
      List.getElem_ofFn, Function.comp]
    by_cases hkn : k = l.length - 1
    · subst hkn; rw [Equiv.swap_apply_right]; simp
    · by_cases hki : k = i
      · subst hki; rw [Equiv.swap_apply_left]; simp [Ne.symm hkn]
      · rw [Equiv.swap_apply_of_ne_of_ne (by simpa [Fin.ext_iff] using hki)
          (by simpa [Fin.ext_iff] using hkn)]
        simp [Ne.symm hkn, Ne.symm hki]
  rw [e]
  exact (Equiv.Perm.ofFn_comp_perm _ _).trans (by rw [List.ofFn_getElem])

theorem swapWithLast_map (f : α → β) {l : List α} {i : Nat} (hi : i < l.length) :
    (swapWithLast l i).map f = swapWithLast (l.map f) i := by
  have hn : l.length - 1 < l.length := by omega
  simp [swapWithLast, List.map_set, List.getD_eq_getElem?_getD, List.getElem?_eq_getElem hi,
    List.getElem?_eq_getElem hn]

theorem foldl_swapWithLast_perm : ∀ (idxs : List Nat) (l : List α),
    (∀ i ∈ idxs, i < l.length) → (idxs.foldl swapWithLast l).Perm l
  | [], _, _ => List.Perm.refl _
  | i :: idxs, l, h => by
    have hi := h i (List.mem_cons_self _ _)
    exact (foldl_swapWithLast_perm idxs _ fun j hj => by
      simpa using h j (List.mem_cons_of_mem _ hj)).trans (swapWithLast_perm hi)

theorem foldl_swapWithLast_map (f : α → β) : ∀ (idxs : List Nat) (l : List α),
    (∀ i ∈ idxs, i < l.length) →
      (idxs.foldl swapWithLast l).map f = idxs.foldl swapWithLast (l.map f)
  | [], _, _ => rfl
  | i :: idxs, l, h => by
    have hi := h i (List.mem_cons_self _ _)
    rw [List.foldl_cons, List.foldl_cons, ← swapWithLast_map f hi]
    exact foldl_swapWithLast_map f idxs _ fun j hj => by
      simpa using h j (List.mem_cons_of_mem _ hj)


/-- The second loop of `ExpandInterfaceSelectionSet` permutes the references. -/
theorem reverseRefs_perm (l : List α) : (reverseRefs l).Perm l :=
  foldl_swapWithLast_perm _ l fun _ => lt_of_mem_range_half

theorem reverseRefs_map (f : α → β) (l : List α) :
    (reverseRefs l).map f = reverseRefs (l.map f) := by
  rw [reverseRefs, foldl_swapWithLast_map f _ l fun _ => lt_of_mem_range_half, reverseRefs,
    List.length_map]

/-- Up to three references, the second loop does undo the reversal of the first. -/
theorem reverseRefs_reverse_of_length_le : ∀ (l : List α), l.length ≤ 3 → reverseRefs l.reverse = l
  | [], _ | [_], _ | [_, _], _ | [_, _, _], _ => by simp [reverseRefs, swapWithLast, List.range_succ]
  | _ :: _ :: _ :: _ :: _, h => by simp at h

/-- A turn of the second loop leaves every place but its own two as it was. -/
theorem getD_swapWithLast_of_ne {l : List α} {i j : Nat} (hi : j ≠ i) (hl : j ≠ l.length - 1) :
    (swapWithLast l i).getD j default = l.getD j default := by
  simp [swapWithLast, List.getD_eq_getElem?_getD, List.getElem?_set, Ne.symm hi, Ne.symm hl]

theorem getD_swapWithLast_self {l : List α} {i : Nat} (hi : i < l.length - 1) :
    (swapWithLast l i).getD i default = l.getD (l.length - 1) default := by
  simp [swapWithLast, List.getD_eq_getElem?_getD, List.getElem?_set, hi.ne, List.getElem_set,
    show l.length - 1 ≠ i by omega, show i < l.length by omega]

theorem getD_swapWithLast_last {l : List α} {i : Nat} (hl : 0 < l.length) :
    (swapWithLast l i).getD (l.length - 1) default = l.getD i default := by
  simp [swapWithLast, List.getD_eq_getElem?_getD, List.getElem?_set, show l.length - 1 < l.length by omega]

theorem foldl_swapWithLast_getD : ∀ (idxs : List Nat) (l : List α) (j : Nat),
    j ∉ idxs → j ≠ l.length - 1 → (idxs.foldl swapWithLast l).getD j default = l.getD j default
  | [], _, _, _, _ => rfl
  | i :: idxs, l, j, hj, hl => by
    rw [List.foldl_cons, foldl_swapWithLast_getD idxs _ j (fun h => hj (.tail _ h)) (by simpa using hl),
      getD_swapWithLast_of_ne (fun h => hj (by subst h; exact List.mem_cons_self _ _)) hl]

/-- From four references on, the second loop puts the first reference in the second place. -/
theorem reverseRefs_getD_one {l : List α} (h : 4 ≤ l.length) :
    (reverseRefs l).getD 1 default = l.getD 0 default := by
  obtain ⟨k, hk⟩ : ∃ k, l.length / 2 = k + 2 := ⟨l.length / 2 - 2, by omega⟩
  rw [reverseRefs, hk, List.range_succ_eq_map, List.range_succ_eq_map, List.map_cons,
    List.map_map, List.foldl_cons, List.foldl_cons, foldl_swapWithLast_getD _ _ 1 (by simp) (by simp; omega)]
  rw [getD_swapWithLast_self (by simp; omega), length_swapWithLast, getD_swapWithLast_last (by omega)]

theorem reverseRefs_reverse_ne {l : List α} (hl : l.Nodup) (h : 4 ≤ l.length) :
    reverseRefs l.reverse ≠ l := fun e => by
  have h1 := reverseRefs_getD_one (show 4 ≤ l.reverse.length by simpa using h)
  rw [e] at h1
  simp [List.getD_eq_getElem?_getD, List.getElem?_eq_getElem, show 1 < l.length by omega,
    List.getElem?_reverse, show 0 < l.length by omega] at h1
  have := hl.getElem_inj_iff.mp h1
  omega

/-- **The second loop undoes the reversal exactly up to three references.** -/
theorem reverseRefs_reverse_eq_iff {l : List α} (hl : l.Nodup) :
    reverseRefs l.reverse = l ↔ l.length ≤ 3 :=
  ⟨fun e => by by_contra h; exact reverseRefs_reverse_ne hl (by omega) e,
    reverseRefs_reverse_of_length_le l⟩

theorem reverseRefs_reverse_abcd : (["a", "b", "c", "d"] : List String).Nodup ∧
    (reverseRefs ["a", "b", "c", "d"].reverse = ["a", "b", "c", "d"] ↔ 4 ≤ 3) :=
  ⟨by decide, reverseRefs_reverse_eq_iff (by decide)⟩

end Reversal

end Document

/-! ## Views of the expansion -/

namespace View

/-- A view `ExpandInterfaceSelectionSet` moves: a field other than `__typename`. -/
def Moves {ι : Type} : View ι → Bool
  | .field name .. => name != typenameField
  | _ => false

@[simp]
theorem moves_forget (v : View Nat) : v.forget.Moves = v.Moves := by
  cases v <;> first | rfl | simp [Moves]

/-- The fragments `ExpandInterfaceSelectionSet` appends, one per type name, over the moved
views as the second loop leaves them; none when nothing moves. -/
def typeFragments (names : List String) (moved : List (View Unit)) : List (View Unit) :=
  if moved.isEmpty then []
  else names.map fun t =>
    .inlineFragment (some t) none (some ((), Document.reverseRefs moved.reverse))

/-- `ExpandInterfaceSelectionSet` on the views of a set: what does not move stays, in order,
and the fragments over what moves follow. -/
def expandLevel (names : List String) (vs : List (View Unit)) : List (View Unit) :=
  vs.filter (!·.Moves) ++ typeFragments names (vs.filter Moves)

end View

namespace Document

/-- A selection moves exactly when its view does. -/
theorem moves_of_viewSelectionWith {d : Document} {viewSet : Nat → Option (List (View Nat))}
    {j : Nat} {v : View Nat}
    (h : d.viewSelectionWith viewSet j = some v) : v.Moves = d.moves j := by
  obtain ⟨⟨kind, sref⟩, hs, hv⟩ := Option.bind_eq_some.mp h
  have hsel : d.selection j = ⟨kind, sref⟩ := by simp [selection, hs]
  cases kind with
  | field =>
    simp only [viewNode, Option.bind_eq_bind, Option.bind_eq_some, pure, Option.some.injEq] at hv
    obtain ⟨f, hf, _, _, _, _, rfl⟩ := hv
    simp [moves, hsel, field, hf, View.Moves]
  | inlineFragment =>
    simp only [viewNode, Option.bind_eq_bind, Option.bind_eq_some, pure, Option.some.injEq] at hv
    obtain ⟨_, _, _, _, _, _, _, _, rfl⟩ := hv
    simp [moves, hsel, View.Moves]
  | fragmentSpread =>
    simp only [viewNode, Option.bind_eq_bind, Option.bind_eq_some, pure, Option.some.injEq] at hv
    obtain ⟨_, _, _, _, rfl⟩ := hv
    simp [moves, hsel, View.Moves]
  | unknown =>
    simp only [viewNode, pure, Option.some.injEq] at hv
    subst hv
    simp [moves, hsel, View.Moves]

/-- The inline fragment the third loop adds: on the named type `namedType`, without
directives, over the set `selectionSet`. -/
def typeFragment (namedType selectionSet : Nat) : InlineFragment :=
  { typeCondition := some namedType
    hasDirectives := false
    directives := []
    selectionSet := selectionSet
    hasSelections := true }

/-- **The third loop of `ExpandInterfaceSelectionSet`.** For each type name, one selection is
appended to the set `toAdd`: an inline fragment on that type, without directives, over a copy
of the staging set, which enters only sets added after `D`. -/
theorem addTypeFragments_views {fuel staging toAdd m : Nat} {ss : List (View Nat)}
    (hm : m ≤ fuel) (hne : toAdd ≠ staging) (hss : toAdd ∉ View.setsList ss) :
    ∀ (names : List String) (D : Document), toAdd < D.selectionSets.length →
      D.viewSelectionSet m staging = some ss →
      ∃ new ws, (D.addTypeFragments fuel staging toAdd names).selectionRefs toAdd =
          D.selectionRefs toAdd ++ new ∧
        (D.addTypeFragments fuel staging toAdd names).viewSelections
          ((D.addTypeFragments fuel staging toAdd names).viewSelectionSet m) new = some ws ∧
        View.forgetList ws =
          names.map (fun t => .inlineFragment (some t) none (some ((), View.forgetList ss))) ∧
        ∀ s ∈ View.setsList ws, D.selectionSets.length ≤ s
  | [], D, _, _ => ⟨[], [], by simp [addTypeFragments], rfl, rfl, by simp [View.setsList]⟩
  | t :: names, D, hlt, hv => by
    rcases h1 : D.addNamedType t with ⟨D1, nt⟩
    have g1 : Grows D D1 _ := h1 ▸ grows_addNamedType D t
    obtain ⟨cs, hcs, hc, hcf, hcsets⟩ := copiesViews_copySelectionSet fuel m hm D1 staging ss
      (g1.viewSelectionSet_eq m staging ss hv id fun _ _ => id)
    rcases h2 : D1.copySelectionSet fuel staging with ⟨D2, c⟩
    rw [h2] at hcs hc
    have g2 : Grows D1 D2 _ := h2 ▸ copyGrows_copySelectionSet fuel D1 staging
    rcases h3 : D2.addInlineFragment (typeFragment nt c) with ⟨D3, fr⟩
    have g3 : Grows D2 D3 _ := h3 ▸ grows_addInlineFragment D2 _
    have g13 := (g1.trans g2).trans g3
    have hlt3 : toAdd < D3.selectionSets.length := lt_of_lt_of_le hlt g13.selectionSets
    have g4 := grows_addSelection D3 toAdd ⟨.inlineFragment, fr⟩
    have g14 : Grows D (D3.addSelection toAdd ⟨.inlineFragment, fr⟩) (· = toAdd) :=
      (g13.mono fun _ _ h => h.elim).trans g4
    obtain ⟨new, ws, hrefs, hws, hf, hsets⟩ := addTypeFragments_views hm hne hss names _
      (lt_of_lt_of_le hlt g14.selectionSets)
      (g14.viewSelectionSet_eq m staging ss hv hne.symm fun s hs e => hss (e ▸ hs))
    have e : D.addTypeFragments fuel staging toAdd (t :: names) =
        (D3.addSelection toAdd ⟨.inlineFragment, fr⟩).addTypeFragments fuel staging toAdd
          names := by
      simp only [addTypeFragments, h1, h2]
      exact congrArg (fun p : Document × Nat => addTypeFragments fuel staging toAdd
        (p.1.addSelection toAdd ⟨.inlineFragment, p.2⟩) names) h3
    rw [e]
    have g' := grows_addTypeFragments fuel staging toAdd
      (D3.addSelection toAdd ⟨.inlineFragment, fr⟩) names
    have hlen1 : D.selectionSets.length ≤ D1.selectionSets.length := g1.selectionSets
    have hfresh : ∀ s ∈ c :: View.setsList cs, D.selectionSets.length ≤ s := by
      simp only [List.mem_cons]
      rintro s (rfl | hs)
      · exact le_trans hlen1 hc
      · exact le_trans hlen1 (hcsets s hs)
    have hv4 : (D3.addSelection toAdd ⟨.inlineFragment, fr⟩).viewSelectionWith
        ((D3.addSelection toAdd ⟨.inlineFragment, fr⟩).viewSelectionSet m)
          D3.selections.length =
          some (.inlineFragment (some t) none (some (c, cs))) := by
      have g24 : Grows D2 (D3.addSelection toAdd ⟨.inlineFragment, fr⟩) (· = toAdd) :=
        (g3.mono fun _ _ h => h.elim).trans g4
      have hfr : D3.inlineFragments[fr]? = some (typeFragment nt c) := by
        simpa [h3] using getElem?_addInlineFragment D2 (typeFragment nt c)
      have hnt : D1.types[nt]? = some t := by
        simpa [h1] using (show (D.addNamedType t).1.types[(D.addNamedType t).2]? = some t by
          simp [addNamedType])
      simp only [viewSelectionWith, getElem?_addSelection, Option.some_bind, viewNode,
        Option.bind_eq_bind, Option.bind_eq_some, pure, Option.some.injEq]
      refine ⟨_, List.getElem?_of_prefix_some g4.inlineFragments hfr, some t, ?_, none, rfl,
        some (c, cs), ?_, rfl⟩
      · simp [viewTypeCondition, typeFragment,
          List.getElem?_of_prefix_some ((g2.trans g3).types.trans g4.types) hnt]
      · simp only [viewBelow, typeFragment, if_true]
        rw [g24.viewSelectionSet_eq m c cs hcs (fun e => by
          have := hfresh c (List.mem_cons_self _ _); omega) fun s hs e => by
          have := hfresh s (List.mem_cons_of_mem _ hs); omega]
        rfl
    refine ⟨D3.selections.length :: new, .inlineFragment (some t) none (some (c, cs)) :: ws,
      ?_, ?_, ?_, ?_⟩
    · rw [hrefs, selectionRefs_addSelection D3 _ hlt3, g13.keeps toAdd hlt id]
      simp
    · simp only [viewSelections, Option.bind_eq_bind, Option.bind_eq_some, pure, Option.some.injEq]
      refine ⟨_, g'.viewSelectionWith_eq
        (fun r vs h hr hs => g'.viewSelectionSet_eq m r vs h hr hs) hv4 fun s hs e => ?_, ws, hws,
        rfl⟩
      have := hfresh s (by simpa [View.setsBelow] using hs)
      omega
    · simp [View.forgetBelow, hcf, hf]
    · simp only [View.setsList_cons, List.mem_append]
      rintro s (hs | hs)
      · exact hfresh s (by simpa [View.setsBelow] using hs)
      · exact le_trans g14.selectionSets (hsets s hs)

/-- **`ExpandInterfaceSelectionSet` on views.** When the selections of the set have views `vs`
that do not enter the set itself, and the copies have fuel for one more level, the set keeps
the selections that do not move and gains selections whose views are the fragments of
`View.typeFragments` over the moved views; those enter only sets added by the rewrite. -/
theorem expandInterfaceSelectionSet_views {D : Document} {fuel set m : Nat} (names : List String)
    (hm : m + 1 ≤ fuel) (hset : set < D.selectionSets.length) {vs : List (View Nat)}
    (hv : D.viewSelections (D.viewSelectionSet m) (D.selectionRefs set) = some vs)
    (hlt : ∀ s ∈ View.setsList vs, s < D.selectionSets.length)
    (hself : set ∉ View.setsList vs) :
    ∃ new ws, (D.expandInterfaceSelectionSet fuel set names).selectionRefs set =
        (D.selectionRefs set).filter (!D.moves ·) ++ new ∧
      (D.expandInterfaceSelectionSet fuel set names).viewSelections
        ((D.expandInterfaceSelectionSet fuel set names).viewSelectionSet (m + 1)) new = some ws ∧
      View.forgetList ws = View.typeFragments names (View.forgetList (vs.filter View.Moves)) ∧
      ∀ s ∈ View.setsList ws, D.selectionSets.length ≤ s := by
  obtain ⟨hsome, rfl⟩ := viewSelections_eq_some_iff.mp hv
  set R := D.selectionRefs set
  set g := fun j => (D.viewSelectionWith (D.viewSelectionSet m) j).getD default
  have hg : ∀ j ∈ R, D.viewSelectionWith (D.viewSelectionSet m) j = some (g j) := fun j hj => by
    obtain ⟨v, hv⟩ := Option.isSome_iff_exists.mp (hsome j hj)
    simp [g, hv]
  have hmoved : (R.map g).filter View.Moves = (R.filter D.moves).map g := by
    rw [List.filter_map]
    exact congrArg _ (List.filter_congr fun j hj => by
      simpa [Function.comp] using moves_of_viewSelectionWith (hg j hj))
  rw [expandInterfaceSelectionSet_eq D fuel set names hset]
  by_cases h : R.filter D.moves = []
  · rw [if_pos h]
    refine ⟨[], [], ?_, rfl, ?_, by simp [View.setsList]⟩
    · have hkeep : R.filter (!D.moves ·) = R :=
        List.filter_eq_self.mpr fun a ha => by simpa using List.filter_eq_nil_iff.mp h a ha
      rw [hkeep, List.append_nil]
      simp [R, withTwoSets, selectionRefs, List.getElem?_append_left hset]
    · simp [hmoved, h, View.typeFragments, View.forgetList]
  · rw [if_neg h]
    have hWlen : D.withTwoSets.selectionSets.length = D.selectionSets.length + 2 := by
      simp [withTwoSets]
    have g4 : Grows D ((D.withTwoSets.setSelectionRefs set (R.filter (!D.moves ·))
        ).setSelectionRefs (D.selectionSets.length + 1) (reverseRefs (R.filter D.moves).reverse))
        fun s => s = set ∨ s = D.selectionSets.length + 1 :=
      (((grows_withTwoSets D).mono fun _ _ h => h.elim).trans
        ((grows_setSelectionRefs _ set _).mono fun _ _ => .inl)).trans
        ((grows_setSelectionRefs _ _ _).mono fun _ _ => .inr)
    set D4 := (D.withTwoSets.setSelectionRefs set (R.filter (!D.moves ·))).setSelectionRefs
      (D.selectionSets.length + 1) (reverseRefs (R.filter D.moves).reverse) with hD4
    have hD4len : D4.selectionSets.length = D.selectionSets.length + 2 := by simp [D4, hWlen]
    have hmemR : ∀ j ∈ reverseRefs (R.filter D.moves).reverse, j ∈ R := fun j hj => by
      rw [(reverseRefs_perm _).mem_iff, List.mem_reverse] at hj
      exact List.mem_of_mem_filter hj
    have hstaging : D4.viewSelectionSet (m + 1) (D.selectionSets.length + 1) =
        some ((reverseRefs (R.filter D.moves).reverse).map g) := by
      have hS : D4.selectionSets[D.selectionSets.length + 1]? =
          some (reverseRefs (R.filter D.moves).reverse) := by
        simp [D4, setSelectionRefs, List.getElem?_set_self, hWlen]
      simp only [viewSelectionSet, hS, Option.some_bind]
      refine viewSelections_of_forall g fun j hj => g4.viewSelectionWith_eq
        (fun r ws h hr hs => g4.viewSelectionSet_eq m r ws h hr hs) (hg j (hmemR j hj)) ?_
      rintro s hs (rfl | rfl)
      · exact hself (View.mem_setsList.mpr ⟨g j, List.mem_map_of_mem g (hmemR j hj), hs⟩)
      · have := hlt _ (View.mem_setsList.mpr ⟨g j, List.mem_map_of_mem g (hmemR j hj), hs⟩)
        omega
    have hss_sets : ∀ s ∈ View.setsList ((reverseRefs (R.filter D.moves).reverse).map g),
        s < D.selectionSets.length := fun s hs => by
      obtain ⟨v, hv, hsv⟩ := View.mem_setsList.mp hs
      obtain ⟨j, hj, rfl⟩ := List.mem_map.mp hv
      exact hlt s (View.mem_setsList.mpr ⟨g j, List.mem_map_of_mem g (hmemR j hj), hsv⟩)
    obtain ⟨new, ws, hrefs, hws, hf, hsets⟩ := @addTypeFragments_views _ _
      D.selectionSets.length _ _ hm (by omega) (fun hin => by have := hss_sets _ hin; omega) names D4
      (by omega) hstaging
    have g5 := grows_addTypeFragments fuel (D.selectionSets.length + 1) D.selectionSets.length D4
      names
    set D5 := D4.addTypeFragments fuel (D.selectionSets.length + 1) D.selectionSets.length names
    have hset5 : set < D5.selectionSets.length := by
      have := g5.selectionSets; omega
    have g6 := grows_setSelectionRefs D5 set (D5.selectionRefs set ++
      D5.selectionRefs D.selectionSets.length)
    refine ⟨new, ws, ?_, ?_, ?_, ?_⟩
    · have hW : D.withTwoSets.selectionRefs D.selectionSets.length = [] := by
        simp only [withTwoSets, selectionRefs]
        rw [List.getElem?_append_right (le_refl _)]
        simp
      have h4set : D4.selectionRefs set = R.filter (!D.moves ·) := by
        rw [hD4, selectionRefs_setSelectionRefs_ne _ (by omega),
          selectionRefs_setSelectionRefs (by omega)]
      have h4len : D4.selectionRefs D.selectionSets.length = [] := by
        rw [hD4, selectionRefs_setSelectionRefs_ne _ (by omega),
          selectionRefs_setSelectionRefs_ne _ (by omega), hW]
      rw [appendSelectionSet, selectionRefs_setSelectionRefs hset5,
        g5.keeps set (by omega) (by omega), hrefs, h4set, h4len, List.nil_append]
    · exact g6.viewSelections_eq (fun r ws h hr hs => g6.viewSelectionSet_eq (m + 1) r ws h hr hs)
        new ws hws fun s hs e => by have := hsets s hs; omega
    · have hne : View.forgetList ((R.map g).filter View.Moves) ≠ [] := by
        simpa [hmoved, View.forgetList_eq_map] using h
      rw [hf, View.typeFragments, if_neg (by simpa using hne), hmoved, View.forgetList_eq_map,
        View.forgetList_eq_map, ← List.map_reverse, reverseRefs_map, ← List.map_reverse,
        reverseRefs_map, List.map_map]
    · exact fun s hs => by have := hsets s hs; omega

/-! ## Four moved fields come out of order -/

/-- A selection set of four fields `a`, `b`, `c` and `d`, none with a selection set. -/
def fourFields : Document where
  selectionSets := [[0, 1, 2, 3]]
  selections := [⟨.field, 0⟩, ⟨.field, 1⟩, ⟨.field, 2⟩, ⟨.field, 3⟩]
  fields := ["a", "b", "c", "d"].map fun name =>
    { name, «alias» := none, arguments := [], directives := [], hasSelections := false,
      selectionSet := 0 }
  inlineFragments := []
  fragmentSpreads := []
  directives := []
  types := []
  operationDefinitions := []
  fragmentDefinitions := []
  rootNodes := []

/-- Expanded for one type `T`, the set holds one fragment on `T`, whose copy selects the fields
in the order `a`, `d`, `b`, `c`. -/
theorem fourFields_expansion_misorders :
    (fourFields.expandInterfaceSelectionSet 1 0 ["T"]).selectionRefs 0 = [8] ∧
      let D := fourFields.expandInterfaceSelectionSet 1 0 ["T"]
      let fragment := D.inlineFragment (D.selection 8).ref
      fragment.typeCondition.map D.typeName = some "T" ∧
        (D.selectionRefs fragment.selectionSet).map (fun j => (D.field (D.selection j).ref).name) =
          ["a", "d", "b", "c"] := by
  decide

end Document

end Ast

end GraphQLTools
