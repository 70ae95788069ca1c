import GraphQLTools.Completion

/-!
# The resolver writes what the completion says

`resolveNode` against `complete`, for every plan tree, every data and every behaviour of the
collaborators (jsonparser, the data sources, the error channels of parallel arrays):

* it returns exactly the error of the completion, from any buffer (`resolveNode_err`);
* from a pair with no data, a node that completes to a value writes exactly the bytes of
  that value (`resolveNode_data`), as long as the tree is `cleanSkips`: every array whose
  items are all written drops only skips that no field of the item raised. A field that
  raises the skip has had its name written already, and those bytes stay in the item's
  pair: the serial loop hands the pair on to the next item, the parallel one merges it into
  the array.

Both are proved together with the loops of `resolveObject`, field set by field set and field
by field, against the walk of the completion. The loops over array items have lemmas of
their own, for any item resolver that agrees with the items' completion.
-/

namespace GraphQLTools

open Literal

/-! ## Buffers -/

theorem utf8ByteSize_ne_zero {s : String} (h : s ≠ "") : s.utf8ByteSize ≠ 0 := by
  rcases s with ⟨_ | ⟨c, cs⟩⟩
  · exact absurd rfl h
  · simp only [String.utf8ByteSize, String.utf8ByteSize.go]
    have := c.utf8Size_pos
    omega

theorem mergeBufPairData_src_data (src dst : BufPair) (hp : Bool) :
    (mergeBufPairData src dst hp).2.1.data = "" := by
  unfold mergeBufPairData; split_ifs with h <;> first | exact h | rfl

theorem mergeBufPairData_dst_data (src dst : BufPair) (hp : Bool) :
    (mergeBufPairData src dst hp).2.2.data =
      if src.data = "" then dst.data else dst.data ++ (if hp then comma else "") ++ src.data := by
  unfold mergeBufPairData comma; split_ifs <;> rfl

theorem mergeBufPairErrors_src_data (src dst : BufPair) :
    (mergeBufPairErrors src dst).2.1.data = src.data := by
  unfold mergeBufPairErrors; split_ifs <;> rfl

theorem mergeBufPairErrors_dst_data (src dst : BufPair) :
    (mergeBufPairErrors src dst).2.2.data = dst.data := by
  unfold mergeBufPairErrors; split_ifs <;> rfl

@[simp] theorem mergeBufPairs_src_data (src dst : BufPair) (hp : Bool) :
    (mergeBufPairs src dst hp).2.2.1.data = "" := by
  show (mergeBufPairErrors (mergeBufPairData src dst hp).2.1 (mergeBufPairData src dst hp).2.2).2.1.data = ""
  rw [mergeBufPairErrors_src_data, mergeBufPairData_src_data]

theorem mergeBufPairs_data (src dst : BufPair) (hp : Bool) :
    (mergeBufPairs src dst hp).2.2.2.data =
      if src.data = "" then dst.data else dst.data ++ (if hp then comma else "") ++ src.data := by
  show (mergeBufPairErrors (mergeBufPairData src dst hp).2.1 (mergeBufPairData src dst hp).2.2).2.2.data = _
  rw [mergeBufPairErrors_dst_data, mergeBufPairData_dst_data]

/-- `MergeBufPairs` reports data written exactly when the source had some. -/
theorem mergeBufPairs_written (src dst : BufPair) (hp : Bool) :
    (mergeBufPairs src dst hp).1 = 0 ↔ src.data = "" := by
  show (mergeBufPairData src dst hp).1 = 0 ↔ _
  unfold mergeBufPairData
  by_cases h : src.data = ""
  · simp [h]
  · have := utf8ByteSize_ne_zero h
    simp only [h, if_false, iff_false]
    omega

theorem mergeResultSetErrors_data : ∀ (bs : List (Int × BufPair)) (objectBuf : BufPair),
    (mergeResultSetErrors bs objectBuf).2.data = objectBuf.data
  | [], _ => rfl
  | (_, b) :: rest, objectBuf => by
    simp only [mergeResultSetErrors]
    rw [mergeResultSetErrors_data rest, mergeBufPairErrors_dst_data]

theorem mergeResultSetErrors_get?_data : ∀ (bs : List (Int × BufPair)) (objectBuf : BufPair)
    (id : Int), ((⟨(mergeResultSetErrors bs objectBuf).1⟩ : ResultSet).get? id).map BufPair.data
      = ((⟨bs⟩ : ResultSet).get? id).map BufPair.data
  | [], _, _ => rfl
  | (i, b) :: rest, objectBuf, id => by
    have ih := mergeResultSetErrors_get?_data rest (mergeBufPairErrors b objectBuf).2.2 id
    simp only [ResultSet.get?] at ih ⊢
    by_cases h : i = id
    · simp [mergeResultSetErrors, List.find?_cons, h, mergeBufPairErrors_src_data]
    · simpa [mergeResultSetErrors, List.find?_cons, h] using ih

/-- Merging a field's pair into the object's: the field's bytes follow, with no comma. -/
theorem mergeBufPairs_field (src dst : BufPair) :
    (mergeBufPairs src dst false).2.2.2.data = dst.data ++ src.data := by
  rw [mergeBufPairs_data]; by_cases h : src.data = "" <;> simp [h]

/-- Moving the errors of the fetches' pairs leaves every field set the same data to read. -/
theorem fieldSetData_mergeResultSetErrors (bs : List (Int × BufPair)) (objectBuf : BufPair)
    (fs : FieldSet) (data : String) :
    fieldSetData (some ⟨(mergeResultSetErrors bs objectBuf).1⟩) fs data
      = fieldSetData (some ⟨bs⟩) fs data := by
  simp only [fieldSetData, mergeResultSetErrors_get?_data]

/-! ## Objects -/

/-- `resolveObject` once its fetch is through: the field sets, read from pairs that hold the
data the completion reads, into the caller's pair with its data untouched. -/
theorem resolveNode_object_ok (E : Env) (nullable : Bool) (path : List String)
    (fieldSets : List FieldSet) (fetch : Option Fetch) (data : String) (buf : BufPair)
    {set : Option ResultSet} (h : fetchResults E (objectData E.json path data) fetch = .ok set) :
    ∃ set₀ objectBuf, (∀ fs d, fieldSetData set₀ fs d = fieldSetData set fs d) ∧
      objectBuf.data = buf.data ∧
      resolveNode E (.object nullable path fieldSets fetch) data buf =
        resolveFieldSets E nullable set₀ (objectData E.json path data) fieldSets
          ⟨objectBuf, .empty, false, true⟩ := by
  cases fetch with
  | none => cases h; exact ⟨none, buf, fun _ _ => rfl, rfl, rfl⟩
  | some f =>
    simp only [fetchResults] at h
    rcases hf : resolveFetch E f (objectData E.json path data) ResultSet.empty with
      ⟨_ | e, set'⟩ <;> rw [hf] at h <;> cases h
    exact ⟨some ⟨(mergeResultSetErrors set'.buffers buf).1⟩,
      (mergeResultSetErrors set'.buffers buf).2,
      fun fs d => fieldSetData_mergeResultSetErrors _ _ fs d, mergeResultSetErrors_data _ _,
      by simp only [resolveNode, hf]⟩

/-- `resolveObject` when its fetch fails: the fetch's error, and nothing written. -/
theorem resolveNode_object_error (E : Env) (nullable : Bool) (path : List String)
    (fieldSets : List FieldSet) (fetch : Option Fetch) (data : String) (buf : BufPair)
    {e : FetchError} (h : fetchResults E (objectData E.json path data) fetch = .error e) :
    resolveNode E (.object nullable path fieldSets fetch) data buf = (some (.fetch e), buf) := by
  cases fetch with
  | none => cases h
  | some f =>
    simp only [fetchResults] at h
    rcases hf : resolveFetch E f (objectData E.json path data) ResultSet.empty with
      ⟨_ | e', set'⟩ <;> rw [hf] at h <;> cases h
    simp only [resolveNode, hf]

/-- The error `resolveObject` ends with once its loops are through, from its two flags. -/
def finishErr (nullable first typeNameSkip : Bool) : Option ResolveError :=
  if first then
    if nullable then none
    else if typeNameSkip then some .typeNameSkipped else some .nonNullableFieldValueIsNull
  else none

/-- The data `resolveObject` ends with once its loops are through. -/
def finishData (nullable first : Bool) (data : String) : String :=
  if first then (if nullable then data ++ null else data) else data ++ rBrace

theorem finishObject_fst (nullable : Bool) (st : ObjectState) :
    (finishObject nullable st).1 = finishErr nullable st.first st.typeNameSkip := by
  unfold finishObject finishErr; split_ifs <;> rfl

theorem finishObject_data (nullable : Bool) (st : ObjectState) :
    (finishObject nullable st).2.data = finishData nullable st.first st.objectBuf.data := by
  unfold finishObject finishData resolveNull; split_ifs <;> rfl

/-- The error an object's field-set loop ends with, from the flags it starts with and the
walk of the completion. -/
def objectErr (nullable first typeNameSkip : Bool) :
    Except Outcome (List (String × Value) × Bool) → Option ResolveError
  | .error o => (fieldFailure nullable o).err
  | .ok (members, skip) => finishErr nullable (first && members.isEmpty) (typeNameSkip || skip)

theorem completeObject_err (nullable : Bool) (w : Except Outcome (List (String × Value) × Bool)) :
    (completeObject nullable w).err = objectErr nullable true false w := by
  rcases w with o | ⟨_ | ⟨m, ms⟩, skip⟩
  · rfl
  · cases nullable <;> cases skip <;> rfl
  · rfl

/-- How the field loop of `resolveObject` and the walk of the completion over the same
fields end: with the same failure, the loop's pair then `null` if the object swallowed a
missing value; or both through, the loop having written a field iff the walk found one. -/
def FieldsAgree (nullable : Bool) (st : ObjectState) :
    Except (Option ResolveError × BufPair) ObjectState →
      Except Outcome (List (String × Value)) → Prop
  | .error r, .error o => r.1 = (fieldFailure nullable o).err ∧ (r.1 = none → r.2.data = null)
  | .ok st', .ok members =>
    st'.first = (st.first && members.isEmpty) ∧ st'.typeNameSkip = st.typeNameSkip
  | _, _ => False

theorem fieldFailure_err (nullable : Bool) {o : Outcome} {e : ResolveError}
    (h : o.err = some e) :
    (fieldFailure nullable o).err =
      if e = .nonNullableFieldValueIsNull ∧ nullable = true then none else some e := by
  cases o <;> simp [Outcome.err] at h <;> subst h <;> cases nullable <;> rfl

/-! ## Scalars -/

@[simp] theorem nullOrError_fst (nullable : Bool) (buf : BufPair) :
    (nullOrError nullable buf).1 = (Outcome.orNull nullable).err := by
  cases nullable <;> rfl

theorem resolveScalar_err (P : JsonParser) (t : ValueType) (path : List String)
    (nullable : Bool) (data : String) (buf : BufPair) :
    (resolveScalar P t path nullable data buf).1 = (completeScalar P t path nullable data).err := by
  unfold resolveScalar completeScalar
  rcases P.get data path with _ | ⟨value, dataType⟩
  · simp
  · by_cases h : dataType = t <;> simp [h]

theorem resolveString_err (P : JsonParser) (path : List String) (nullable : Bool)
    (data : String) (buf : BufPair) :
    (resolveString P path nullable data buf).1 = (completeString P path nullable data).err := by
  unfold resolveString completeString
  rcases P.get data path with _ | ⟨value, _ | _ | _ | _ | _ | _ | _ | _⟩ <;> try simp
  by_cases h : data = "" ∧ nullable = false <;> simp [h]

/-! ## Arrays -/

/-- The error an array ends with, from the error that decides it. -/
def arrayErr (nullable : Bool) : Option ResolveError → Option ResolveError
  | some e => if e = .nonNullableFieldValueIsNull ∧ nullable = true then none else some e
  | none => none

theorem completeItems_err (errCh : ErrChan) (nullable async : Bool) (outcomes : List Outcome) :
    (completeItems errCh nullable async outcomes).err =
      arrayErr nullable (if async then errCh.first (itemErrors outcomes)
        else (itemErrors outcomes).head?) := by
  unfold completeItems arrayErr
  cases (if async then errCh.first (itemErrors outcomes) else (itemErrors outcomes).head?) with
  | none => rfl
  | some e => by_cases h : e = .nonNullableFieldValueIsNull ∧ nullable = true <;> simp [h]

theorem mergeItemBufs_err : ∀ (bufs : List BufPair) (arrayBuf : BufPair) (hp : Bool),
    (mergeItemBufs bufs arrayBuf hp).1 = none
  | [], _, _ => rfl
  | _ :: rest, _, _ => mergeItemBufs_err rest _ _

theorem sentError_eq_none {r : Option ResolveError} :
    sentError r = none ↔ r = none ∨ r = some .typeNameSkipped := by
  cases r with
  | none => simp [sentError]
  | some e => by_cases h : e = .typeNameSkipped <;> simp [sentError, h]

/-- The bytes an item leaves in its pair: its value's, and none for a skip. -/
def itemBytes (o : Outcome) : String := (o.value?.map Value.serialize).getD ""

/-- Merging the pair of an item that left its bytes: the item's value, if any, joins the
array, after a comma if something was written before it. -/
theorem mergeBufPairs_itemBytes (o : Outcome) (os : List Outcome) (src dst : BufPair)
    (hp : Bool) (hsrc : src.data = itemBytes o) (hne : ∀ v, o = .value v → v.serialize ≠ "") :
    (mergeBufPairs src dst hp).2.2.2.data ++
        Value.serialize.itemsBytes (!(hp || (mergeBufPairs src dst hp).1 != 0))
          (os.filterMap Outcome.value?) =
      dst.data ++ Value.serialize.itemsBytes (!hp) ((o :: os).filterMap Outcome.value?) := by
  rw [mergeBufPairs_data]
  cases o with
  | value v =>
    have hv : src.data ≠ "" := by rw [hsrc]; exact hne v rfl
    have hw : ((mergeBufPairs src dst hp).1 != 0) = true := by
      simpa [mergeBufPairs_written] using hv
    rw [hw, if_neg hv, hsrc]
    cases hp <;> simp [itemBytes, Outcome.value?, Value.serialize.itemsBytes, String.append_assoc]
  | _ =>
    have hv : src.data = "" := hsrc
    have hw : ((mergeBufPairs src dst hp).1 != 0) = false := by
      simpa [mergeBufPairs_written] using hv
    rw [hw, if_pos hv]
    simp [Outcome.value?]

section Items

variable (nullable : Bool) (resolveItem : String → BufPair → Option ResolveError × BufPair)
  (completeItem : String → Outcome)
  (hitem : ∀ d buf, (resolveItem d buf).1 = (completeItem d).err)
include hitem

theorem synchronousItems_err : ∀ (items : List String) (itemBuf arrayBuf : BufPair) (hp : Bool),
    (synchronousItems nullable resolveItem items itemBuf arrayBuf hp).1 =
      arrayErr nullable (itemErrors (items.map completeItem)).head?
  | [], _, _, _ => rfl
  | d :: rest, itemBuf, arrayBuf, hp => by
    have ih := synchronousItems_err rest
    have hd := hitem d itemBuf
    simp only [synchronousItems, List.map_cons, itemErrors, List.filterMap_cons]
    rcases hr : resolveItem d itemBuf with ⟨_ | e, itemBuf'⟩ <;> rw [hr] at hd <;>
      simp only [← hd, sentError]
    · exact ih _ _ _
    · by_cases hs : e = .typeNameSkipped
      · subst hs
        simpa only [reduceCtorEq, false_and, if_false, if_true] using ih itemBuf' arrayBuf hp
      · by_cases hn : e = .nonNullableFieldValueIsNull ∧ nullable = true <;>
          simp [hn, hs, arrayErr]

/-- A missing item of a nullable array makes the serial loop write `null`. -/
theorem synchronousItems_null : ∀ (items : List String) (itemBuf arrayBuf : BufPair) (hp : Bool),
    (itemErrors (items.map completeItem)).head? = some .nonNullableFieldValueIsNull →
    nullable = true → (synchronousItems nullable resolveItem items itemBuf arrayBuf hp).2.data = null
  | [], _, _, _, h, _ => by simp [itemErrors] at h
  | d :: rest, itemBuf, arrayBuf, hp, h, hn => by
    have hd := hitem d itemBuf
    simp only [List.map_cons, itemErrors, List.filterMap_cons] at h
    simp only [synchronousItems]
    rcases hr : resolveItem d itemBuf with ⟨_ | e, itemBuf'⟩ <;> rw [hr] at hd <;>
      simp only [← hd, sentError] at h
    · exact synchronousItems_null rest _ _ _ h hn
    · by_cases hs : e = .typeNameSkipped
      · subst hs
        simp only [eq_self_iff_true, if_true, reduceCtorEq, false_and, if_false] at h ⊢
        exact synchronousItems_null rest itemBuf' arrayBuf hp h hn
      · simp only [hs, if_false, List.head?_cons, Option.some.injEq] at h
        simp [h, hn]

/-- The errors the items send are those of their completions. -/
theorem sentErrors_eq (items : List String) :
    (items.map (fun item => resolveItem item BufPair.empty)).filterMap (fun r => sentError r.1) =
      itemErrors (items.map completeItem) := by
  simp only [itemErrors, List.filterMap_map]
  exact List.filterMap_congr (fun d _ => by simp [hitem])

theorem resolveArrayAsynchronous_err (errCh : ErrChan) (items : List String) (arrayBuf : BufPair) :
    (resolveArrayAsynchronous errCh nullable resolveItem items arrayBuf).1 =
      arrayErr nullable (errCh.first (itemErrors (items.map completeItem))) := by
  unfold resolveArrayAsynchronous
  dsimp only
  rw [sentErrors_eq resolveItem completeItem hitem]
  cases errCh.first (itemErrors (items.map completeItem)) with
  | none => exact mergeItemBufs_err _ _ _
  | some e => by_cases h : e = .nonNullableFieldValueIsNull ∧ nullable = true <;> simp [h, arrayErr]

variable (hne : ∀ d v, completeItem d = .value v → v.serialize ≠ "")
include hne

/-- The serial loop over items that all complete to a value or a skip, each leaving its
bytes in an empty pair: the values, in order, between commas, and the closing bracket. -/
theorem synchronousItems_data (itemOk : String → Bool)
    (hbytes : ∀ d buf, buf.data = "" → itemOk d = true → sentError (completeItem d).err = none →
      (resolveItem d buf).2.data = itemBytes (completeItem d)) :
    ∀ (items : List String) (itemBuf arrayBuf : BufPair) (hp : Bool), itemBuf.data = "" →
    (∀ d ∈ items, sentError (completeItem d).err = none ∧ itemOk d = true) →
    (synchronousItems nullable resolveItem items itemBuf arrayBuf hp).2.data =
      arrayBuf.data ++
        Value.serialize.itemsBytes (!hp) ((items.map completeItem).filterMap Outcome.value?) ++
          rBrack
  | [], _, arrayBuf, hp, _, _ => by simp [synchronousItems, Value.serialize.itemsBytes]
  | d :: rest, itemBuf, arrayBuf, hp, hib, hok => by
    obtain ⟨hs, hd⟩ := hok d (List.mem_cons_self _ _)
    have hrest := fun d' h' => hok d' (List.mem_cons_of_mem d h')
    have hb := hbytes d itemBuf hib hd hs
    have he := hitem d itemBuf
    simp only [synchronousItems, List.map_cons]
    rcases hr : resolveItem d itemBuf with ⟨_ | e, itemBuf'⟩ <;> rw [hr] at hb he <;>
      dsimp only at hb he ⊢
    · rw [synchronousItems_data itemOk hbytes rest _ _ _ (mergeBufPairs_src_data _ _ _) hrest,
        ← mergeBufPairs_itemBytes (completeItem d) _ itemBuf' arrayBuf hp hb
          (fun v hv => hne d v hv), String.append_assoc]
    · obtain rfl : e = .typeNameSkipped := by
        rw [← he] at hs; simpa [sentError_eq_none] using hs
      have hskip : completeItem d = .typeNameSkip := Outcome.err_eq_typeNameSkipped.mp he.symm
      rw [hskip] at hb
      simp only [reduceCtorEq, false_and, if_false, if_true, hskip, List.filterMap_cons,
        Outcome.value?]
      exact synchronousItems_data itemOk hbytes rest itemBuf' arrayBuf hp hb hrest

end Items

/-- The final merge of a parallel array, over pairs that each hold their item's bytes. -/
theorem mergeItemBufs_data (completeItem : String → Outcome) (itemBuf : String → BufPair)
    (hne : ∀ d v, completeItem d = .value v → v.serialize ≠ "") :
    ∀ (items : List String) (arrayBuf : BufPair) (hp : Bool),
    (∀ d ∈ items, (itemBuf d).data = itemBytes (completeItem d)) →
    (mergeItemBufs (items.map itemBuf) arrayBuf hp).2.data =
      arrayBuf.data ++
        Value.serialize.itemsBytes (!hp) ((items.map completeItem).filterMap Outcome.value?) ++
          rBrack
  | [], arrayBuf, hp, _ => by simp [mergeItemBufs, Value.serialize.itemsBytes]
  | d :: rest, arrayBuf, hp, hb => by
    simp only [List.map_cons, mergeItemBufs]
    rw [mergeItemBufs_data completeItem itemBuf hne rest _ _
        (fun d' h' => hb d' (List.mem_cons_of_mem d h')),
      ← mergeBufPairs_itemBytes (completeItem d) _ (itemBuf d) arrayBuf hp
        (hb d (List.mem_cons_self _ _)) (fun v hv => hne d v hv),
      String.append_assoc]

theorem resolveArray_err (E : Env) (path : List String) (nullable async : Bool)
    (resolveItem : String → BufPair → Option ResolveError × BufPair)
    (completeItem : String → Outcome)
    (hitem : ∀ d buf, (resolveItem d buf).1 = (completeItem d).err) (data : String)
    (arrayBuf : BufPair) :
    (resolveArray E path nullable async resolveItem data arrayBuf).1 =
      (if E.json.arrayEach data path = [] then Outcome.orNull nullable
        else completeItems E.errCh nullable async
          ((E.json.arrayEach data path).map completeItem)).err := by
  simp only [resolveArray]
  split_ifs with hempty hasync
  · simp
  · rw [resolveArrayAsynchronous_err nullable resolveItem completeItem hitem, completeItems_err,
      if_pos hasync]
  · rw [resolveArraySynchronous, synchronousItems_err nullable resolveItem completeItem hitem,
      completeItems_err, if_neg hasync]

/-- An array that completes to a value, from a pair with no data: `null`, or its items'
values, when every item that is written leaves exactly its bytes. -/
theorem resolveArray_data (E : Env) (path : List String) (nullable async : Bool)
    (resolveItem : String → BufPair → Option ResolveError × BufPair)
    (completeItem : String → Outcome) (itemOk : String → Bool)
    (hitem : ∀ d buf, (resolveItem d buf).1 = (completeItem d).err)
    (hne : ∀ d v, completeItem d = .value v → v.serialize ≠ "")
    (hbytes : ∀ d buf, buf.data = "" → itemOk d = true → sentError (completeItem d).err = none →
      (resolveItem d buf).2.data = itemBytes (completeItem d))
    (data : String) (arrayBuf : BufPair) (hbuf : arrayBuf.data = "") {v : Value}
    (hok : itemErrors ((E.json.arrayEach data path).map completeItem) = [] →
      ∀ d ∈ E.json.arrayEach data path, itemOk d = true)
    (hv : (if E.json.arrayEach data path = [] then Outcome.orNull nullable
        else completeItems E.errCh nullable async
          ((E.json.arrayEach data path).map completeItem)) = .value v) :
    (resolveArray E path nullable async resolveItem data arrayBuf).2.data = v.serialize := by
  have hitems : itemErrors ((E.json.arrayEach data path).map completeItem) = [] →
      ∀ d ∈ E.json.arrayEach data path, sentError (completeItem d).err = none ∧ itemOk d = true :=
    fun h d hd => by
      have := List.filterMap_eq_nil_iff.mp h _ (List.mem_map_of_mem completeItem hd)
      exact ⟨this, hok h d hd⟩
  simp only [resolveArray]
  split_ifs at hv ⊢ with hempty hasync
  · cases nullable <;> simp [Outcome.orNull] at hv
    subst hv
    simp [nullOrError, resolveNull, hbuf, Value.serialize]
  · unfold resolveArrayAsynchronous completeItems at *
    dsimp only at hv ⊢
    rw [sentErrors_eq resolveItem completeItem hitem]
    rw [if_pos hasync] at hv
    cases hfirst : E.errCh.first (itemErrors ((E.json.arrayEach data path).map completeItem)) with
    | none =>
      rw [hfirst] at hv
      cases hv
      have herr := (E.errCh.first_eq_none _).mp hfirst
      dsimp only
      rw [List.map_map]
      refine (mergeItemBufs_data completeItem (fun d => (resolveItem d BufPair.empty).2) hne _ _ _
        (fun d hd => hbytes d BufPair.empty rfl (hitems herr d hd).2 (hitems herr d hd).1)).trans ?_
      simp [hbuf, Value.serialize]
    | some e =>
      rw [hfirst] at hv
      dsimp only at hv ⊢
      split_ifs at hv ⊢ with hn
      · cases hv; rfl
      · cases e <;> simp [Outcome.ofError] at hv
  · unfold completeItems at hv
    rw [if_neg hasync] at hv
    cases hhead : (itemErrors ((E.json.arrayEach data path).map completeItem)).head? with
    | none =>
      rw [hhead] at hv
      cases hv
      have herr := List.head?_eq_none_iff.mp hhead
      rw [resolveArraySynchronous, synchronousItems_data nullable resolveItem completeItem hitem
        hne itemOk hbytes _ _ _ _ rfl (hitems herr)]
      simp [hbuf, Value.serialize]
    | some e =>
      rw [hhead] at hv
      dsimp only at hv
      split_ifs at hv with hn
      · cases hv
        obtain ⟨rfl, hn⟩ := hn
        exact synchronousItems_null nullable resolveItem completeItem hitem _ _ _ _ hhead hn
      · cases e <;> simp [Outcome.ofError] at hv


/-! ## The error of a resolution -/

mutual

/-- `resolveNode` returns the error of the completion, whatever the pair it writes into. -/
theorem resolveNode_err (E : Env) : ∀ (n : Node) (data : String) (buf : BufPair),
    (resolveNode E n data buf).1 = (complete E n data).err
  | .object nullable path fieldSets fetch, data, buf => by
    rw [complete_object, completeObject_err, objectWalk]
    rcases hf : fetchResults E (objectData E.json path data) fetch with e | set
    · rw [resolveNode_object_error E nullable path fieldSets fetch data buf hf]; rfl
    · obtain ⟨set₀, ob, hset, -, hcode⟩ :=
        resolveNode_object_ok E nullable path fieldSets fetch data buf hf
      rw [hcode, resolveFieldSets_err E nullable set₀ set _ fieldSets _ (fun fs => hset fs _)]
  | .emptyObject, _, _ => rfl
  | .array path nullable async item, data, buf => by
    simp only [resolveNode, complete]
    exact resolveArray_err E path nullable async _ _ (resolveNode_err E item) data buf
  | .emptyArray, _, _ => rfl
  | .null, _, _ => rfl
  | .string path nullable, data, buf => resolveString_err E.json path nullable data buf
  | .boolean path nullable, data, buf => resolveScalar_err E.json _ path nullable data buf
  | .integer path nullable, data, buf => resolveScalar_err E.json _ path nullable data buf
  | .float path nullable, data, buf => resolveScalar_err E.json _ path nullable data buf

theorem resolveFieldSets_err (E : Env) (nullable : Bool) (set set' : Option ResultSet)
    (data : String) : ∀ (fieldSets : List FieldSet) (st : ObjectState),
    (∀ fs, fieldSetData set fs data = fieldSetData set' fs data) →
      (resolveFieldSets E nullable set data fieldSets st).1 =
        objectErr nullable st.first st.typeNameSkip (completeFieldSets E set' data fieldSets)
  | [], st, _ => by
    simp [resolveFieldSets, completeFieldSets, objectErr, finishObject_fst]
  | fs :: rest, st, hset => by
    simp only [resolveFieldSets, completeFieldSets, hset fs]
    split_ifs with hg
    · have hf := resolveFields_err E nullable (fieldSetData set' fs data) fs.fields st
      revert hf
      rcases resolveFields E nullable (fieldSetData set' fs data) fs.fields st with r | st'
        <;> rcases completeFields E (fieldSetData set' fs data) fs.fields with o | members
        <;> simp only [FieldsAgree, false_imp_iff]
      · exact fun h => h.1
      · rintro ⟨hfirst, hskip⟩
        rw [resolveFieldSets_err E nullable set set' data rest st' hset, hfirst, hskip]
        rcases completeFieldSets E set' data rest with o | ⟨ms, skip⟩
        · rfl
        · cases members <;> simp [objectErr]
    · rw [resolveFieldSets_err E nullable set set' data rest _ hset]
      rcases completeFieldSets E set' data rest with o | ⟨ms, skip⟩
      · rfl
      · simp [objectErr]

theorem resolveFields_err (E : Env) (nullable : Bool) (source : String) :
    ∀ (fields : List Field) (st : ObjectState),
    FieldsAgree nullable st (resolveFields E nullable source fields st)
      (completeFields E source fields)
  | [], st => by simp [resolveFields, completeFields, FieldsAgree]
  | f :: rest, st => by
    have hn := resolveNode_err E f.value source st.fieldBuf
    simp only [resolveFields, completeFields]
    rcases hr : resolveNode E f.value source st.fieldBuf with ⟨_ | e, fieldBuf⟩ <;> rw [hr] at hn
    · obtain ⟨v, hv⟩ := Outcome.err_eq_none_iff.mp hn.symm
      simp only [hv]
      generalize hm : mergeBufPairs fieldBuf _ false = m
      have ih := resolveFields_err E nullable source rest ⟨m.2.2.2, m.2.2.1, st.typeNameSkip, false⟩
      revert ih
      rcases resolveFields E nullable source rest _ with r | st'
        <;> rcases completeFields E source rest with o | members
        <;> simp [FieldsAgree]
    · cases ho : complete E f.value source with
      | value v => simp [ho] at hn
      | _ =>
        rw [ho] at hn
        have hf := fieldFailure_err nullable hn.symm
        dsimp only
        by_cases hc : e = .nonNullableFieldValueIsNull ∧ nullable = true
        · rw [if_pos hc] at hf ⊢; exact ⟨hf.symm, fun _ => rfl⟩
        · rw [if_neg hc] at hf ⊢; exact ⟨hf.symm, fun h => by cases h⟩

end

/-- A field-set loop that ends with no error on a failing walk has swallowed a missing
value: its pair is `null`. -/
theorem resolveFieldSets_null (E : Env) (nullable : Bool) (set set' : Option ResultSet)
    (data : String) (hset : ∀ fs, fieldSetData set fs data = fieldSetData set' fs data) :
    ∀ (fieldSets : List FieldSet) (st : ObjectState) {o : Outcome},
    completeFieldSets E set' data fieldSets = .error o →
    (resolveFieldSets E nullable set data fieldSets st).1 = none →
    (resolveFieldSets E nullable set data fieldSets st).2.data = null
  | [], _, _, h, _ => by cases h
  | fs :: rest, st, o, h, hnone => by
    simp only [resolveFieldSets, completeFieldSets, hset fs] at h hnone ⊢
    split_ifs at h hnone ⊢ with hg
    · have hf := resolveFields_err E nullable (fieldSetData set' fs data) fs.fields st
      revert hf h hnone
      rcases resolveFields E nullable (fieldSetData set' fs data) fs.fields st with r | st'
        <;> rcases completeFields E (fieldSetData set' fs data) fs.fields with o' | members
        <;> simp only [FieldsAgree, false_imp_iff, implies_true]
      · exact fun _ hnone hf => hf.2 hnone
      · exact fun h hnone _ =>
          resolveFieldSets_null E nullable set set' data hset rest st' (Except.map_eq_error h) hnone
    · exact resolveFieldSets_null E nullable set set' data hset rest _ (Except.map_eq_error h) hnone

/-! ## The bytes of a resolution -/

theorem resolveScalar_data (P : JsonParser) (t : ValueType) (path : List String)
    (nullable : Bool) (data : String) (buf : BufPair) {v : Value}
    (h : completeScalar P t path nullable data = .value v) :
    (resolveScalar P t path nullable data buf).2.data = buf.data ++ v.serialize := by
  revert h
  unfold resolveScalar completeScalar
  rcases P.get data path with _ | ⟨value, dataType⟩
  · intro h; obtain ⟨rfl, rfl⟩ := Outcome.orNull_eq_value.mp h; rfl
  · by_cases ht : dataType = t
    · simp only [ht, if_true]; rintro ⟨⟩; rfl
    · simp only [ht, if_false]; intro h; obtain ⟨rfl, rfl⟩ := Outcome.orNull_eq_value.mp h; rfl

theorem resolveString_data (P : JsonParser) (path : List String) (nullable : Bool)
    (data : String) (buf : BufPair) {v : Value}
    (h : completeString P path nullable data = .value v) :
    (resolveString P path nullable data buf).2.data = buf.data ++ v.serialize := by
  revert h
  unfold resolveString completeString
  rcases P.get data path with _ | ⟨value, _ | _ | _ | _ | _ | _ | _ | _⟩ <;>
    try (intro h; obtain ⟨rfl, rfl⟩ := Outcome.orNull_eq_value.mp h; rfl)
  split_ifs
  · rintro ⟨⟩
  · rintro ⟨⟩; simp [Value.serialize, String.append_assoc]

theorem membersBytes_append : ∀ (first : Bool) (ms ms' : List (String × Value)),
    Value.serialize.membersBytes first (ms ++ ms') =
      Value.serialize.membersBytes first ms ++
        Value.serialize.membersBytes (first && ms.isEmpty) ms'
  | first, [], ms' => by simp [Value.serialize.membersBytes]
  | first, (name, v) :: ms, ms' => by
    simp [Value.serialize.membersBytes, membersBytes_append false ms ms', String.append_assoc]

/-- A field-set loop over a walk that finds no member writes no field, only the end of the
object. -/
theorem resolveFieldSets_nil_data (E : Env) (nullable : Bool) (set set' : Option ResultSet)
    (data : String) (hset : ∀ fs, fieldSetData set fs data = fieldSetData set' fs data) :
    ∀ (fieldSets : List FieldSet) (st : ObjectState) {skip : Bool},
    completeFieldSets E set' data fieldSets = .ok ([], skip) →
    (resolveFieldSets E nullable set data fieldSets st).2.data =
      finishData nullable st.first st.objectBuf.data
  | [], st, _, _ => finishObject_data nullable st
  | fs :: rest, st, skip, h => by
    simp only [resolveFieldSets, completeFieldSets, hset fs] at h ⊢
    split_ifs at h ⊢ with hg
    · rcases hc : completeFields E (fieldSetData set' fs data) fs.fields with o | ms <;>
        rw [hc] at h
      · cases h
      · obtain ⟨⟨ms', skip'⟩, hrest, heq⟩ := Except.map_eq_ok h
        simp only [Prod.mk.injEq, List.append_eq_nil] at heq
        obtain ⟨⟨rfl, rfl⟩, -⟩ := heq
        have hnil : fs.fields = [] :=
          List.length_eq_zero.mp (completeFields_length E _ fs.fields hc).symm
        rw [hnil]
        exact resolveFieldSets_nil_data E nullable set set' data hset rest st hrest
    · obtain ⟨⟨ms', skip'⟩, hrest, heq⟩ := Except.map_eq_ok h
      simp only [Prod.mk.injEq] at heq
      obtain ⟨rfl, -⟩ := heq
      exact resolveFieldSets_nil_data E nullable set set' data hset rest _ hrest

/-- A node that completes to a skip no field raised leaves the data of its pair as it was. -/
theorem resolveNode_skip (E : Env) (n : Node) (data : String) (buf : BufPair)
    (h : complete E n data = .typeNameSkip) (hf : fieldSkip E n data = false) :
    (resolveNode E n data buf).2.data = buf.data := by
  obtain ⟨nullable, path, fieldSets, fetch, rfl⟩ := complete_eq_typeNameSkip h
  rw [complete_object] at h
  simp only [fieldSkip] at hf
  rcases hw : objectWalk E path fieldSets fetch data with o | ⟨_ | ⟨m, ms⟩, skip⟩ <;>
    rw [hw] at h hf
  · cases o <;> simp_all [completeObject, fieldFailure]
  · simp only [objectWalk] at hw
    rcases hfr : fetchResults E (objectData E.json path data) fetch with e | set <;>
      rw [hfr] at hw
    · cases hw
    · obtain ⟨set₀, ob, hset, hob, hcode⟩ :=
        resolveNode_object_ok E nullable path fieldSets fetch data buf hfr
      rw [hcode, resolveFieldSets_nil_data E nullable set₀ set _ (fun fs => hset fs _) fieldSets
        _ hw]
      cases nullable <;> simp_all [completeObject, finishData]
  · simp [completeObject] at h

/-- Whether an item is written as its completion says, from its outcome, whether its own
arrays are clean and whether its skip came up from a field. A failing item is not written. -/
def itemClean (o : Outcome) (clean skipFromField : Bool) : Bool :=
  match o with
  | .value _ => clean
  | .typeNameSkip => !skipFromField
  | _ => true

mutual

/-- Whether every array that a resolution of the node writes item by item drops only skips
that no field raised. An object or an array that fails is not written and needs nothing. -/
def cleanSkips (E : Env) : Node → String → Bool
  | .object _ path fieldSets fetch, data =>
    let data := objectData E.json path data
    match fetchResults E data fetch with
    | .error _ => true
    | .ok set =>
      match completeFieldSets E set data fieldSets with
      | .error _ => true
      | .ok _ => fieldSetsClean E set data fieldSets
  | .array path _ _ item, data =>
    let arrayItems := E.json.arrayEach data path
    !(itemErrors (arrayItems.map (complete E item))).isEmpty ||
      arrayItems.all fun d =>
        itemClean (complete E item d) (cleanSkips E item d) (fieldSkip E item d)
  | _, _ => true

/-- `cleanSkips` for the fields of every field set that passes its gate. -/
def fieldSetsClean (E : Env) (set : Option ResultSet) (data : String) : List FieldSet → Bool
  | [] => true
  | fs :: rest =>
    (!typeNameMatches E.json fs (fieldSetData set fs data) ||
      fieldsClean E (fieldSetData set fs data) fs.fields) && fieldSetsClean E set data rest

/-- `cleanSkips` for every field of a field set. -/
def fieldsClean (E : Env) (source : String) : List Field → Bool
  | [] => true
  | f :: rest => cleanSkips E f.value source && fieldsClean E source rest

end

mutual

/-- From a pair with no data, a node that completes to a value writes exactly the bytes of
that value, when it drops no skip a field raised. -/
theorem resolveNode_data (E : Env) : ∀ (n : Node) (data : String) (buf : BufPair) {v : Value},
    buf.data = "" → cleanSkips E n data = true → complete E n data = .value v →
      (resolveNode E n data buf).2.data = v.serialize
  | .object nullable path fieldSets fetch, data, buf, v, hbuf, hclean, hv => by
    rw [complete_object, objectWalk] at hv
    rcases hf : fetchResults E (objectData E.json path data) fetch with e | set <;>
      rw [hf] at hv <;> dsimp only at hv
    · cases hv
    obtain ⟨set₀, ob, hset, hob, hcode⟩ :=
      resolveNode_object_ok E nullable path fieldSets fetch data buf hf
    rw [hcode]
    rcases hw : completeFieldSets E set (objectData E.json path data) fieldSets with
      o | ⟨members, skip⟩ <;> rw [hw] at hv
    · obtain ⟨rfl, rfl, rfl⟩ :=
        fieldFailure_eq_value hv (completeFieldSets_error E set _ fieldSets hw)
      apply resolveFieldSets_null E true set₀ set _ (fun fs => hset fs _) fieldSets _ hw
      rw [resolveFieldSets_err E true set₀ set _ fieldSets _ (fun fs => hset fs _), hw]
      rfl
    · have hclean' : fieldSetsClean E set (objectData E.json path data) fieldSets = true := by
        simpa [cleanSkips, hf, hw] using hclean
      rw [resolveFieldSets_data E nullable set₀ set _ (fun fs => hset fs _) fieldSets _ _ _ rfl
        hclean' hw, hob, hbuf]
      rcases members with _ | ⟨m, ms⟩
      · cases nullable <;> cases skip <;> simp [completeObject] at hv
        all_goals (subst hv; simp [finishData, Value.serialize, Value.serialize.membersBytes])
      · cases hv
        simp [finishData, Value.serialize]
  | .emptyObject, _, buf, v, hbuf, _, hv => by
    cases hv; simp [resolveNode, resolveEmptyObject, hbuf, Value.serialize]
  | .array path nullable async item, data, buf, v, hbuf, hclean, hv => by
    simp only [resolveNode]
    simp only [complete] at hv
    refine resolveArray_data E path nullable async (resolveNode E item) (complete E item)
      (fun d => itemClean (complete E item d) (cleanSkips E item d) (fieldSkip E item d))
      (resolveNode_err E item) (fun d _ hw => complete_serialize_ne_empty E item d hw) ?_ data buf
      hbuf ?_ hv
    · intro d b hb hok hs
      cases ho : complete E item d with
      | value w =>
        simp only [ho, itemClean] at hok
        exact resolveNode_data E item d b hb hok ho
      | typeNameSkip =>
        simp only [ho, itemClean, Bool.not_eq_true'] at hok
        exact (resolveNode_skip E item d b ho hok).trans hb
      | _ => simp [ho, sentError] at hs
    · intro herr d hd
      simp only [cleanSkips, herr, List.isEmpty_nil, Bool.not_true, Bool.false_or,
        List.all_eq_true] at hclean
      exact hclean d hd
  | .emptyArray, _, buf, v, hbuf, _, hv => by
    cases hv; simp [resolveNode, resolveEmptyArray, hbuf, Value.serialize, Value.serialize.itemsBytes]
  | .null, _, buf, v, hbuf, _, hv => by
    cases hv; simp [resolveNode, resolveNull, hbuf, Value.serialize]
  | .string path nullable, data, buf, v, hbuf, _, hv => by
    rw [resolveNode, resolveString_data E.json path nullable data buf hv, hbuf, String.empty_append]
  | .boolean path nullable, data, buf, v, hbuf, _, hv => by
    rw [resolveNode, resolveBoolean, resolveScalar_data E.json _ path nullable data buf hv, hbuf,
      String.empty_append]
  | .integer path nullable, data, buf, v, hbuf, _, hv => by
    rw [resolveNode, resolveInteger, resolveScalar_data E.json _ path nullable data buf hv, hbuf,
      String.empty_append]
  | .float path nullable, data, buf, v, hbuf, _, hv => by
    rw [resolveNode, resolveFloat, resolveScalar_data E.json _ path nullable data buf hv, hbuf,
      String.empty_append]

/-- The field-set loop over a walk that goes through: the members, then the end of the
object. -/
theorem resolveFieldSets_data (E : Env) (nullable : Bool) (set set' : Option ResultSet)
    (data : String) (hset : ∀ fs, fieldSetData set fs data = fieldSetData set' fs data) :
    ∀ (fieldSets : List FieldSet) (st : ObjectState) (members : List (String × Value))
      (skip : Bool), st.fieldBuf.data = "" → fieldSetsClean E set' data fieldSets = true →
    completeFieldSets E set' data fieldSets = .ok (members, skip) →
    (resolveFieldSets E nullable set data fieldSets st).2.data =
      finishData nullable (st.first && members.isEmpty)
        (st.objectBuf.data ++ Value.serialize.membersBytes st.first members)
  | [], st, members, skip, _, _, h => by
    cases h
    simp [resolveFieldSets, finishObject_data, Value.serialize.membersBytes]
  | fs :: rest, st, members, skip, hfb, hclean, h => by
    simp only [resolveFieldSets, completeFieldSets, fieldSetsClean, hset fs, Bool.and_eq_true,
      Bool.or_eq_true, Bool.not_eq_true'] at h hclean ⊢
    split_ifs at h ⊢ with hg
    · rcases hc : completeFields E (fieldSetData set' fs data) fs.fields with o | ms <;>
        rw [hc] at h
      · cases h
      obtain ⟨⟨ms', skip'⟩, hrest, heq⟩ := Except.map_eq_ok h
      simp only [Prod.mk.injEq] at heq
      obtain ⟨rfl, rfl⟩ := heq
      have hfields := hclean.1.resolve_left (by simp [hg])
      obtain ⟨st', hcode, hob, hfb', hfirst, -⟩ :=
        resolveFields_data E nullable _ fs.fields st ms hfb hfields hc
      rw [hcode]
      dsimp only
      rw [resolveFieldSets_data E nullable set set' data hset rest st' ms' skip' hfb' hclean.2 hrest,
        hfirst, hob, membersBytes_append, String.append_assoc, Bool.and_assoc]
      cases ms <;> rfl
    · obtain ⟨⟨ms', skip'⟩, hrest, heq⟩ := Except.map_eq_ok h
      simp only [Prod.mk.injEq] at heq
      obtain ⟨rfl, rfl⟩ := heq
      exact resolveFieldSets_data E nullable set set' data hset rest _ ms' skip' hfb hclean.2 hrest

/-- The field loop over fields that all complete to a value: the members, written in order,
with the field pair drained after each. -/
theorem resolveFields_data (E : Env) (nullable : Bool) (source : String) :
    ∀ (fields : List Field) (st : ObjectState) (members : List (String × Value)),
    st.fieldBuf.data = "" → fieldsClean E source fields = true →
    completeFields E source fields = .ok members →
    ∃ st', resolveFields E nullable source fields st = .ok st' ∧
      st'.objectBuf.data = st.objectBuf.data ++ Value.serialize.membersBytes st.first members ∧
      st'.fieldBuf.data = "" ∧ st'.first = (st.first && members.isEmpty) ∧
      st'.typeNameSkip = st.typeNameSkip
  | [], st, members, hfb, _, h => by
    cases h
    exact ⟨st, rfl, by simp [Value.serialize.membersBytes], hfb, by simp, rfl⟩
  | f :: rest, st, members, hfb, hclean, h => by
    simp only [completeFields, fieldsClean, Bool.and_eq_true] at h hclean
    rcases hv : complete E f.value source with w | _ | _ | e <;> rw [hv] at h <;> try cases h
    obtain ⟨ms, hrest, rfl⟩ := Except.map_eq_ok h
    have hd := resolveNode_data E f.value source st.fieldBuf hfb hclean.1 hv
    have he := resolveNode_err E f.value source st.fieldBuf
    rw [hv] at he
    simp only [resolveFields]
    rcases hr : resolveNode E f.value source st.fieldBuf with ⟨_ | e, fieldBuf⟩ <;> rw [hr] at hd he
    · dsimp only at hd ⊢
      generalize hm : mergeBufPairs fieldBuf _ false = m
      obtain ⟨dw, ew, fieldBuf', objectBuf'⟩ := m
      have hsrc : fieldBuf'.data = "" := by
        simpa using (congrArg (fun r => r.2.2.1.data) hm).symm
      have hdst := congrArg (fun r => r.2.2.2.data) hm
      simp only [mergeBufPairs_field] at hdst
      obtain ⟨st', hcode, hob, hfb', hfirst, hskip⟩ :=
        resolveFields_data E nullable source rest ⟨objectBuf', fieldBuf', st.typeNameSkip, false⟩
          ms hsrc hclean.2 hrest
      refine ⟨st', hcode, ?_, hfb', by simp [hfirst], hskip⟩
      rw [hob, ← hdst, hd]
      simp [Value.serialize.membersBytes, String.append_assoc]
    · cases he

end

/-! ## Resolution and completion -/

/-- A reader of nil data: jsonparser finds nothing in it. -/
def nilEnv : Env := ⟨JsonParser.ofTable [] [], false, "", ErrChan.inOrder⟩

end GraphQLTools
