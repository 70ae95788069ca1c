import GraphQLTools.Agreement

/-!
# The response

`ResolveGraphQLResponse` wraps the root's bytes in the response object: an `Errors` member
when the root's pair holds errors, then a `data` member when it holds data. When the root
fails it writes nothing and returns the root's error as it is, and that error is the error
of the root's completion (`resolveGraphQLResponse_err`): a missing value that reaches a
non-nullable root, or a skip raised there, leaves the resolver as a sentinel.

Errors only move forward: no resolution drops an error that is already in the pair it is
given (`resolveNode_errorsExtend`). What a resolution can drop are the errors of scratch
pairs not merged yet: a nullable object that swallows a missing value frees its field pair,
with the errors of the failing field's fetches in it.
-/

namespace GraphQLTools

open Literal

/-! ## The sentinels at the root -/

/-- `ResolveGraphQLResponse` returns the error of the root's completion, and writes a
response exactly when that is nil. -/
theorem resolveGraphQLResponse_err (E : Env) (response : GraphQLResponse) (data : String) :
    (resolveGraphQLResponse E response data).1 = (complete E response.data data).err ∧
      ((resolveGraphQLResponse E response data).2 = "" ↔
        (complete E response.data data).err ≠ none) := by
  rw [← resolveNode_err E response.data data BufPair.empty]
  unfold resolveGraphQLResponse
  rcases resolveNode E response.data data BufPair.empty with ⟨_ | e, buf⟩
  · refine ⟨rfl, ?_⟩
    simp only [ne_eq, not_true_eq_false, iff_false]
    exact append_ne_empty (by decide)
  · simp

/-- The plan of spec scenario S1: a non-nullable root with a non-nullable string `name`. -/
def scalarNullPlan : GraphQLResponse :=
  ⟨.object false [] [⟨none, 0, false, [⟨"name", .string ["name"] false⟩]⟩] none⟩

/-- The upstream data of S1, and a reader that finds its `name` as JSON `null`. -/
def scalarNullData : String := "\x7b\"name\":null\x7d"

def scalarNullEnv : Env :=
  ⟨JsonParser.ofTable [((scalarNullData, ["name"]), ("null", .null))] [], false, "",
    ErrChan.inOrder⟩

/-- On S1 the missing value reaches the root: the resolver returns the sentinel and writes
no response at all, where the spec expects `{"data":null}`. -/
theorem scalarNull_sentinel_escapes :
    complete scalarNullEnv scalarNullPlan.data scalarNullData = .nullError ∧
      resolveGraphQLResponse scalarNullEnv scalarNullPlan scalarNullData =
        (some .nonNullableFieldValueIsNull, "") :=
  ⟨rfl, by decide⟩

/-! ## Errors move forward -/

/-- The errors of `b'` extend those of `b`. -/
def ErrorsExtend (b b' : BufPair) : Prop := ∃ s, b'.errors = b.errors ++ s

theorem ErrorsExtend.refl (b : BufPair) : ErrorsExtend b b := ⟨"", (String.append_empty _).symm⟩

theorem ErrorsExtend.trans {b b' b'' : BufPair} (h : ErrorsExtend b b')
    (h' : ErrorsExtend b' b'') : ErrorsExtend b b'' := by
  obtain ⟨s, hs⟩ := h
  obtain ⟨s', hs'⟩ := h'
  exact ⟨s ++ s', by rw [hs', hs, String.append_assoc]⟩

theorem ErrorsExtend.of_errors_eq {b b' : BufPair} (h : b'.errors = b.errors) :
    ErrorsExtend b b' := ⟨"", by rw [h, String.append_empty]⟩

theorem mergeBufPairErrors_extends (src dst : BufPair) :
    ErrorsExtend dst (mergeBufPairErrors src dst).2.2 := by
  unfold mergeBufPairErrors
  split_ifs <;> first | exact .refl _ | exact ⟨_, String.append_assoc _ _ _⟩

theorem mergeBufPairData_errors (src dst : BufPair) (hp : Bool) :
    (mergeBufPairData src dst hp).2.2.errors = dst.errors ∧
      (mergeBufPairData src dst hp).2.1.errors = src.errors := by
  unfold mergeBufPairData; split_ifs <;> exact ⟨rfl, rfl⟩

theorem mergeBufPairs_extends (src dst : BufPair) (hp : Bool) :
    ErrorsExtend dst (mergeBufPairs src dst hp).2.2.2 :=
  (ErrorsExtend.of_errors_eq (mergeBufPairData_errors src dst hp).1).trans
    (mergeBufPairErrors_extends _ _)

theorem ErrorsExtend.of_mergeBufPairs {src dst : BufPair} {hp : Bool}
    {r : Nat × Nat × BufPair × BufPair} (h : mergeBufPairs src dst hp = r) :
    ErrorsExtend dst r.2.2.2 :=
  h ▸ mergeBufPairs_extends src dst hp

theorem mergeResultSetErrors_extends : ∀ (bs : List (Int × BufPair)) (objectBuf : BufPair),
    ErrorsExtend objectBuf (mergeResultSetErrors bs objectBuf).2
  | [], _ => .refl _
  | (_, b) :: rest, objectBuf =>
    (mergeBufPairErrors_extends b objectBuf).trans (mergeResultSetErrors_extends rest _)

theorem nullOrError_extends (nullable : Bool) (buf : BufPair) :
    ErrorsExtend buf (nullOrError nullable buf).2 := by
  cases nullable <;> exact .refl _

theorem synchronousItems_extends (nullable : Bool)
    (resolveItem : String → BufPair → Option ResolveError × BufPair) :
    ∀ (items : List String) (itemBuf arrayBuf : BufPair) (hp : Bool),
    ErrorsExtend arrayBuf (synchronousItems nullable resolveItem items itemBuf arrayBuf hp).2
  | [], _, _, _ => .refl _
  | d :: rest, itemBuf, arrayBuf, hp => by
    simp only [synchronousItems]
    rcases resolveItem d itemBuf with ⟨_ | e, itemBuf'⟩
    · exact (mergeBufPairs_extends _ _ _).trans (synchronousItems_extends nullable resolveItem
        rest _ _ _)
    · dsimp only
      split_ifs
      · exact .refl _
      · exact synchronousItems_extends nullable resolveItem rest _ _ _
      · exact .refl _

theorem mergeItemBufs_extends : ∀ (bufs : List BufPair) (arrayBuf : BufPair) (hp : Bool),
    ErrorsExtend arrayBuf (mergeItemBufs bufs arrayBuf hp).2
  | [], _, _ => .refl _
  | itemBuf :: rest, arrayBuf, hp =>
    (mergeBufPairs_extends itemBuf arrayBuf hp).trans (mergeItemBufs_extends rest _ _)

theorem resolveArray_extends (E : Env) (path : List String) (nullable async : Bool)
    (resolveItem : String → BufPair → Option ResolveError × BufPair) (data : String)
    (arrayBuf : BufPair) :
    ErrorsExtend arrayBuf (resolveArray E path nullable async resolveItem data arrayBuf).2 := by
  simp only [resolveArray]
  split_ifs
  · exact nullOrError_extends _ _
  · unfold resolveArrayAsynchronous
    dsimp only
    split
    · split_ifs <;> exact .refl _
    · exact mergeItemBufs_extends _ _ _
  · exact synchronousItems_extends nullable resolveItem _ _ _ _

theorem resolveFields_extends (E : Env) (nullable : Bool) (source : String) :
    ∀ (fields : List Field) (st : ObjectState),
    match resolveFields E nullable source fields st with
    | .ok st' => ErrorsExtend st.objectBuf st'.objectBuf
    | .error r => ErrorsExtend st.objectBuf r.2
  | [], st => .refl _
  | f :: rest, st => by
    simp only [resolveFields]
    rcases resolveNode E f.value source st.fieldBuf with ⟨_ | e, fieldBuf⟩
    · dsimp only
      generalize hm : mergeBufPairs fieldBuf _ false = m
      obtain ⟨dw, ew, fb, ob⟩ := m
      have hob := (ErrorsExtend.of_errors_eq rfl).trans (ErrorsExtend.of_mergeBufPairs hm)
      have ih := resolveFields_extends E nullable source rest ⟨ob, fb, st.typeNameSkip, false⟩
      revert ih
      rcases resolveFields E nullable source rest _ with r | st' <;> exact hob.trans
    · dsimp only
      split_ifs <;> exact .refl _

theorem resolveFieldSets_extends (E : Env) (nullable : Bool) (set : Option ResultSet)
    (data : String) : ∀ (fieldSets : List FieldSet) (st : ObjectState),
    ErrorsExtend st.objectBuf (resolveFieldSets E nullable set data fieldSets st).2
  | [], st => by
    unfold resolveFieldSets finishObject resolveNull
    split_ifs <;> exact .refl _
  | fs :: rest, st => by
    simp only [resolveFieldSets]
    split_ifs
    · have h := resolveFields_extends E nullable (fieldSetData set fs data) fs.fields st
      revert h
      rcases resolveFields E nullable (fieldSetData set fs data) fs.fields st with r | st'
      · exact id
      · exact fun h => h.trans (resolveFieldSets_extends E nullable set data rest st')
    · exact resolveFieldSets_extends E nullable set data rest _

/-- No resolution drops an error already in the pair it writes into. -/
theorem resolveNode_errorsExtend (E : Env) (n : Node) (data : String) (buf : BufPair) :
    ErrorsExtend buf (resolveNode E n data buf).2 := by
  cases n with
  | object nullable path fieldSets fetch =>
    rcases hf : fetchResults E (objectData E.json path data) fetch with e | set
    · rw [resolveNode_object_error E nullable path fieldSets fetch data buf hf]; exact .refl _
    · cases fetch with
      | none => exact resolveFieldSets_extends E nullable none _ fieldSets _
      | some f =>
        simp only [fetchResults] at hf
        simp only [resolveNode]
        rcases resolveFetch E f (objectData E.json path data) ResultSet.empty with
          ⟨_ | e, set'⟩
        · exact (mergeResultSetErrors_extends _ _).trans (resolveFieldSets_extends E nullable _ _
            fieldSets _)
        · exact .refl _
  | array path nullable async item => exact resolveArray_extends E path nullable async _ data buf
  | emptyObject | emptyArray | null => exact .refl _
  | string path nullable =>
    simp only [resolveNode, resolveString]
    split
    · split_ifs <;> exact .refl _
    · exact nullOrError_extends _ _
  | boolean path nullable | integer path nullable | float path nullable =>
    simp only [resolveNode, resolveBoolean, resolveInteger, resolveFloat, resolveScalar]
    split
    · split_ifs
      · exact .refl _
      · exact nullOrError_extends _ _
    · exact nullOrError_extends _ _

/-- A data source that writes one error object and no data. -/
def erroringSource : DataSource := ⟨fun _ => ⟨"", "\x7b\"message\":\"e\"\x7d", none⟩, "erroring"⟩

/-- A nullable root whose one field `child` is a non-nullable object that fetches from
`erroringSource` and reads a non-nullable `x` from the fetched data. -/
def lostErrorsPlan : GraphQLResponse :=
  ⟨.object true [] [⟨none, 0, false, [⟨"child",
    .object false [] [⟨none, 0, true, [⟨"x", .integer ["x"] false⟩]⟩]
      (some (.single ⟨0, erroringSource, false, ⟨[]⟩⟩))⟩]⟩] none⟩

/-- The fetch of `child` places its error object in its pair; `x` is missing, `child` cannot
be `null`, the root swallows the missing value, and the response holds no error. -/
theorem lostErrors_response :
    (resolveFetch nilEnv (.single ⟨0, erroringSource, false, ⟨[]⟩⟩) "" ResultSet.empty).2.get? 0 =
        some ⟨"", "\x7b\"message\":\"e\"\x7d"⟩ ∧
      resolveGraphQLResponse nilEnv lostErrorsPlan "" = (none, "\x7b\"data\":null\x7d") := by
  decide

end GraphQLTools
