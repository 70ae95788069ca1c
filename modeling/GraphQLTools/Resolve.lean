import GraphQLTools.Plan

/-!
# The resolver

`resolveNode` and the functions it dispatches to, as `resolve.go` writes them: each takes
the buffer pair it writes into and returns the pair as it leaves it, with the error it
returns. Scratch pairs (`fieldBuf`, `itemBuf`, the result set's pairs) come out of the pools
empty, which is what `BufPair.empty` stands for.

Two things are concurrent in the source. The fetches of a `ParallelFetch` each write into a
pair of their own, so the model runs them one after the other. The items of an array that
resolves asynchronously each write into a pair of their own too, and the only thing the
schedule decides is which failing item's error lands first in the one-slot error channel:
that choice is a parameter, `ErrChan`, and every result below holds for each choice.

A singleflight fetch is modelled here as the call that finds no identical fetch in flight,
the leader; `GraphQLTools.Singleflight` models the concurrent calls.
-/

namespace GraphQLTools

/-- Which error reaches the one-slot channel of `resolveArrayAsynchronous` first, among
those the failing items send (a send to a full channel is dropped). -/
structure ErrChan where
  /-- The error the channel holds once every item is done, given the errors sent, in item
  order. -/
  first : List ResolveError → Option ResolveError
  /-- The channel is empty exactly when nothing was sent. -/
  first_eq_none : ∀ es, first es = none ↔ es = []
  /-- What the channel holds is one of the errors sent. -/
  mem_of_first : ∀ es e, first es = some e → e ∈ es

/-- The schedule in which the failing items finish in item order. -/
def ErrChan.inOrder : ErrChan where
  first := List.head?
  first_eq_none _ := List.head?_eq_none_iff
  mem_of_first _ _ h := List.mem_of_mem_head? h

/-- Everything a resolution reads besides the plan and the data: jsonparser, the
resolver's `EnableSingleFlightLoader`, the request's `Variables` and the schedule of the
error channels. -/
structure Env where
  json : JsonParser
  enableSingleFlightLoader : Bool
  contextVariables : String
  errCh : ErrChan

/-! The byte literals the resolver writes, under the names the source gives them. -/
namespace Literal

def lBrace : String := "\x7b"
def rBrace : String := "\x7d"
def lBrack : String := "["
def rBrack : String := "]"
def comma : String := ","
def colon : String := ":"
def quote : String := "\""
def null : String := "null"
def literalData : String := "data"
def literalErrors : String := "Errors"
def literalMessage : String := "message"
def literalLocations : String := "locations"
def literalPath : String := "path"

end Literal

open Literal

/-! ## Leaves -/

/-- `resolveNull`. -/
def resolveNull (buf : BufPair) : BufPair := { buf with data := buf.data ++ null }

/-- `resolveEmptyObject`. -/
def resolveEmptyObject (buf : BufPair) : BufPair :=
  { buf with data := buf.data ++ lBrace ++ rBrace }

/-- `resolveEmptyArray`. -/
def resolveEmptyArray (buf : BufPair) : BufPair :=
  { buf with data := buf.data ++ lBrack ++ rBrack }

/-- What a node does when it finds no value: `errNonNullableFieldValueIsNull` unless it is
nullable, in which case it writes `null`. -/
def nullOrError (nullable : Bool) (buf : BufPair) : Option ResolveError × BufPair :=
  if nullable then (none, resolveNull buf) else (some .nonNullableFieldValueIsNull, buf)

/-- The body `resolveInteger`, `resolveFloat` and `resolveBoolean` share: the value at the
path when jsonparser finds one of the expected type, its bytes copied as they are. -/
def resolveScalar (P : JsonParser) (expected : ValueType) (path : List String)
    (nullable : Bool) (data : String) (buf : BufPair) : Option ResolveError × BufPair :=
  match P.get data path with
  | some (value, dataType) =>
    if dataType = expected then (none, { buf with data := buf.data ++ value })
    else nullOrError nullable buf
  | none => nullOrError nullable buf

/-- `resolveInteger`. -/
def resolveInteger (P : JsonParser) (path : List String) (nullable : Bool) (data : String)
    (buf : BufPair) : Option ResolveError × BufPair :=
  resolveScalar P .number path nullable data buf

/-- `resolveFloat`. -/
def resolveFloat (P : JsonParser) (path : List String) (nullable : Bool) (data : String)
    (buf : BufPair) : Option ResolveError × BufPair :=
  resolveScalar P .number path nullable data buf

/-- `resolveBoolean`. -/
def resolveBoolean (P : JsonParser) (path : List String) (nullable : Bool) (data : String)
    (buf : BufPair) : Option ResolveError × BufPair :=
  resolveScalar P .boolean path nullable data buf

/-- `resolveString`: like the other scalars, but the value goes between quotes, and a
non-nullable string read from nil data fails even when jsonparser found something. -/
def resolveString (P : JsonParser) (path : List String) (nullable : Bool) (data : String)
    (buf : BufPair) : Option ResolveError × BufPair :=
  match P.get data path with
  | some (value, .string) =>
    if data = "" ∧ nullable = false then (some .nonNullableFieldValueIsNull, buf)
    else (none, { buf with data := buf.data ++ quote ++ value ++ quote })
  | _ => nullOrError nullable buf

/-! ## Fetches -/

/-- `resolveSingleFetch` into `buf`. With singleflight off, or disallowed for the fetch,
`Load` writes into `buf` and its error is returned. Otherwise this is the leader's path:
`Load` writes into the in-flight record's pair, which starts empty, the bytes are copied to
`buf`, and the error returned is that of the last copy made, nil, whenever one is made. -/
def resolveSingleFetch (enableSingleFlightLoader : Bool) (fetch : SingleFetch)
    (preparedInput : String) (buf : BufPair) : Option FetchError × BufPair :=
  let r := fetch.dataSource.load preparedInput
  let buf := { data := buf.data ++ r.data, errors := buf.errors ++ r.errors }
  if !enableSingleFlightLoader || fetch.disallowSingleFlight then (r.err.map .load, buf)
  else if r.data = "" ∧ r.errors = "" then (r.err.map .load, buf)
  else (none, buf)

/-- `prepareSingleFetch`: renders the input and puts a fresh pair in the result set under
the fetch's buffer id, whether the rendering failed or not. -/
def prepareSingleFetch (E : Env) (fetch : SingleFetch) (data : String) (set : ResultSet) :
    Except FetchError String × ResultSet :=
  (fetch.inputTemplate.render E.json E.contextVariables data,
    set.set fetch.bufferId BufPair.empty)

/-- The preparation loop of a `ParallelFetch`, which stops at the first failed rendering. -/
def prepareParallelFetch (E : Env) (data : String) :
    List SingleFetch → ResultSet → Except FetchError (List String) × ResultSet
  | [], set => (.ok [], set)
  | f :: rest, set =>
    match prepareSingleFetch E f data set with
    | (.error e, set) => (.error e, set)
    | (.ok preparedInput, set) =>
      match prepareParallelFetch E data rest set with
      | (.error e, set) => (.error e, set)
      | (.ok preparedInputs, set) => (.ok (preparedInput :: preparedInputs), set)

/-- One `resolveSingleFetch` into the result set's pair of the fetch's buffer id. -/
def loadIntoSet (enableSingleFlightLoader : Bool) (fetch : SingleFetch)
    (preparedInput : String) (set : ResultSet) : Option FetchError × ResultSet :=
  let (err, buf) := resolveSingleFetch enableSingleFlightLoader fetch preparedInput
    ((set.get? fetch.bufferId).getD BufPair.empty)
  (err, set.set fetch.bufferId buf)

/-- The loads of a `ParallelFetch`, whose errors are dropped. -/
def loadParallelFetch (enableSingleFlightLoader : Bool) :
    List (SingleFetch × String) → ResultSet → ResultSet
  | [], set => set
  | (f, preparedInput) :: rest, set =>
    loadParallelFetch enableSingleFlightLoader rest
      (loadIntoSet enableSingleFlightLoader f preparedInput set).2

/-- `resolveFetch`. -/
def resolveFetch (E : Env) (fetch : Fetch) (data : String) (set : ResultSet) :
    Option FetchError × ResultSet :=
  match fetch with
  | .single f =>
    match prepareSingleFetch E f data set with
    | (.error e, set) => (some e, set)
    | (.ok preparedInput, set) => loadIntoSet E.enableSingleFlightLoader f preparedInput set
  | .parallel fetches =>
    match prepareParallelFetch E data fetches set with
    | (.error e, set) => (some e, set)
    | (.ok preparedInputs, set) =>
      (none, loadParallelFetch E.enableSingleFlightLoader (fetches.zip preparedInputs) set)

/-- The loop of `resolveObject` that moves the errors of every pair of the result set into
the object's pair. -/
def mergeResultSetErrors : List (Int × BufPair) → BufPair → List (Int × BufPair) × BufPair
  | [], objectBuf => ([], objectBuf)
  | (id, buf) :: rest, objectBuf =>
    let (_, buf, objectBuf) := mergeBufPairErrors buf objectBuf
    let (rest, objectBuf) := mergeResultSetErrors rest objectBuf
    ((id, buf) :: rest, objectBuf)

/-- The source of a field set's values: the data of its buffer in the result set when the
object fetched and the set has a buffer (nil when the id is missing), the object's data
otherwise. -/
def fieldSetData (set : Option ResultSet) (fs : FieldSet) (data : String) : String :=
  match set with
  | some s => if fs.hasBuffer then ((s.get? fs.bufferID).map BufPair.data).getD "" else data
  | none => data

/-- Whether a field set's `__typename` gate lets it through. -/
def typeNameMatches (P : JsonParser) (fs : FieldSet) (source : String) : Bool :=
  match fs.onTypeName with
  | some t => P.getValue source ["__typename"] = t
  | none => true

/-! ## Arrays -/

/-- The item loop of `resolveArraySynchronous`, with one reused `itemBuf`. A skipped item is
passed over without touching `itemBuf`; `hasPreviousItem` becomes true once a merge wrote
data. -/
def synchronousItems (nullable : Bool)
    (resolveItem : String → BufPair → Option ResolveError × BufPair) :
    List String → BufPair → BufPair → Bool → Option ResolveError × BufPair
  | [], _, arrayBuf, _ => (none, { arrayBuf with data := arrayBuf.data ++ rBrack })
  | item :: rest, itemBuf, arrayBuf, hasPreviousItem =>
    match resolveItem item itemBuf with
    | (some e, itemBuf) =>
      if e = .nonNullableFieldValueIsNull ∧ nullable = true then
        (none, { arrayBuf with data := null })
      else if e = .typeNameSkipped then
        synchronousItems nullable resolveItem rest itemBuf arrayBuf hasPreviousItem
      else (some e, arrayBuf)
    | (none, itemBuf) =>
      let (dataWritten, _, itemBuf, arrayBuf) := mergeBufPairs itemBuf arrayBuf hasPreviousItem
      synchronousItems nullable resolveItem rest itemBuf arrayBuf
        (hasPreviousItem || dataWritten != 0)

/-- `resolveArraySynchronous`. -/
def resolveArraySynchronous (nullable : Bool)
    (resolveItem : String → BufPair → Option ResolveError × BufPair)
    (arrayItems : List String) (arrayBuf : BufPair) : Option ResolveError × BufPair :=
  synchronousItems nullable resolveItem arrayItems BufPair.empty
    { arrayBuf with data := arrayBuf.data ++ lBrack } false

/-- The final merge loop of `resolveArrayAsynchronous`, over every item's pair in order. -/
def mergeItemBufs : List BufPair → BufPair → Bool → Option ResolveError × BufPair
  | [], arrayBuf, _ => (none, { arrayBuf with data := arrayBuf.data ++ rBrack })
  | itemBuf :: rest, arrayBuf, hasPreviousItem =>
    let (dataWritten, _, _, arrayBuf) := mergeBufPairs itemBuf arrayBuf hasPreviousItem
    mergeItemBufs rest arrayBuf (hasPreviousItem || dataWritten != 0)

/-- The error an item sends to the channel: any but `errTypeNameSkipped`. -/
def sentError : Option ResolveError → Option ResolveError
  | some e => if e = .typeNameSkipped then none else some e
  | none => none

/-- `resolveArrayAsynchronous`: every item into a pair of its own, then either the error
the channel holds or the merge of all the pairs, in item order. -/
def resolveArrayAsynchronous (errCh : ErrChan) (nullable : Bool)
    (resolveItem : String → BufPair → Option ResolveError × BufPair)
    (arrayItems : List String) (arrayBuf : BufPair) : Option ResolveError × BufPair :=
  let arrayBuf := { arrayBuf with data := arrayBuf.data ++ lBrack }
  let results := arrayItems.map (fun item => resolveItem item BufPair.empty)
  match errCh.first (results.filterMap (fun r => sentError r.1)) with
  | some e =>
    if e = .nonNullableFieldValueIsNull ∧ nullable = true then
      (none, { arrayBuf with data := null })
    else (some e, arrayBuf)
  | none => mergeItemBufs (results.map Prod.snd) arrayBuf false

/-- `resolveArray`: no item is a missing value. -/
def resolveArray (E : Env) (path : List String) (nullable resolveAsynchronous : Bool)
    (resolveItem : String → BufPair → Option ResolveError × BufPair) (data : String)
    (arrayBuf : BufPair) : Option ResolveError × BufPair :=
  let arrayItems := E.json.arrayEach data path
  if arrayItems = [] then nullOrError nullable arrayBuf
  else if resolveAsynchronous then
    resolveArrayAsynchronous E.errCh nullable resolveItem arrayItems arrayBuf
  else resolveArraySynchronous nullable resolveItem arrayItems arrayBuf

/-! ## Objects and the dispatch -/

/-- The variables of `resolveObject`'s loop over its field sets. -/
structure ObjectState where
  objectBuf : BufPair
  fieldBuf : BufPair
  typeNameSkip : Bool
  first : Bool

/-- The end of `resolveObject`: an object that wrote no field is a skip or a missing value,
unless it is nullable. -/
def finishObject (nullable : Bool) (st : ObjectState) : Option ResolveError × BufPair :=
  if st.first then
    if nullable then (none, resolveNull st.objectBuf)
    else if st.typeNameSkip then (some .typeNameSkipped, st.objectBuf)
    else (some .nonNullableFieldValueIsNull, st.objectBuf)
  else (none, { st.objectBuf with data := st.objectBuf.data ++ rBrace })

/-- The data `resolveObject` reads its fields from: the value at its path, nil when there
is none. -/
def objectData (P : JsonParser) (path : List String) (data : String) : String :=
  if path = [] then data else P.getValue data path

mutual

/-- `resolveNode`, with `resolveObject` inline in its object case: the data re-scoped to
the object's path, the fetch run and the errors of its pairs merged, then the field sets. -/
def resolveNode (E : Env) : Node → String → BufPair → Option ResolveError × BufPair
  | .object nullable path fieldSets fetch, data, objectBuf =>
    let data := objectData E.json path data
    match fetch with
    | none => resolveFieldSets E nullable none data fieldSets ⟨objectBuf, .empty, false, true⟩
    | some f =>
      match resolveFetch E f data ResultSet.empty with
      | (some e, _) => (some (.fetch e), objectBuf)
      | (none, set) =>
        let (buffers, objectBuf) := mergeResultSetErrors set.buffers objectBuf
        resolveFieldSets E nullable (some ⟨buffers⟩) data fieldSets
          ⟨objectBuf, .empty, false, true⟩
  | .emptyObject, _, buf => (none, resolveEmptyObject buf)
  | .array path nullable resolveAsynchronous item, data, arrayBuf =>
    resolveArray E path nullable resolveAsynchronous (resolveNode E item) data arrayBuf
  | .emptyArray, _, buf => (none, resolveEmptyArray buf)
  | .null, _, buf => (none, resolveNull buf)
  | .string path nullable, data, buf => resolveString E.json path nullable data buf
  | .boolean path nullable, data, buf => resolveBoolean E.json path nullable data buf
  | .integer path nullable, data, buf => resolveInteger E.json path nullable data buf
  | .float path nullable, data, buf => resolveFloat E.json path nullable data buf

/-- The loop of `resolveObject` over its field sets. -/
def resolveFieldSets (E : Env) (nullable : Bool) (set : Option ResultSet) (data : String) :
    List FieldSet → ObjectState → Option ResolveError × BufPair
  | [], st => finishObject nullable st
  | fs :: rest, st =>
    let source := fieldSetData set fs data
    if typeNameMatches E.json fs source then
      match resolveFields E nullable source fs.fields st with
      | .error r => r
      | .ok st => resolveFieldSets E nullable set data rest st
    else resolveFieldSets E nullable set data rest { st with typeNameSkip := true }

/-- The loop of `resolveObject` over the fields of one field set: the name, then the value
resolved into `fieldBuf` and merged. A failing value ends the object (`.error`), as `null`
when the failure is a missing value and the object is nullable. -/
def resolveFields (E : Env) (nullable : Bool) (source : String) :
    List Field → ObjectState → Except (Option ResolveError × BufPair) ObjectState
  | [], st => .ok st
  | f :: rest, st =>
    let objectBuf := { st.objectBuf with
      data := st.objectBuf.data ++ (if st.first then lBrace else comma) ++ quote ++ f.name ++
        quote ++ colon }
    match resolveNode E f.value source st.fieldBuf with
    | (some e, _) =>
      if e = .nonNullableFieldValueIsNull ∧ nullable = true then
        .error (none, { objectBuf with data := null })
      else .error (some e, objectBuf)
    | (none, fieldBuf) =>
      let (_, _, fieldBuf, objectBuf) := mergeBufPairs fieldBuf objectBuf false
      resolveFields E nullable source rest ⟨objectBuf, fieldBuf, st.typeNameSkip, false⟩

end

/-- `ResolveGraphQLResponse`: the error it returns and the bytes it writes. A failed root
writes nothing. -/
def resolveGraphQLResponse (E : Env) (response : GraphQLResponse) (data : String) :
    Option ResolveError × String :=
  match resolveNode E response.data data BufPair.empty with
  | (some e, _) => (some e, "")
  | (none, buf) =>
    let hasErrors := buf.errors != ""
    let hasData := buf.data != ""
    (none, lBrace ++
      (if hasErrors then quote ++ literalErrors ++ quote ++ colon ++ lBrack ++ buf.errors ++ rBrack
        else "") ++
      (if hasData then
        (if hasErrors then comma else "") ++ quote ++ literalData ++ quote ++ colon ++ buf.data
        else "") ++ rBrace)

end GraphQLTools
