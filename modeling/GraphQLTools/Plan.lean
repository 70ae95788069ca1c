import Mathlib.Data.List.Basic

/-!
# The resolver's plan tree, its buffers and its fetches

The engine answers a GraphQL request by walking a *plan tree* that the planner built
beforehand: objects with their field sets and fetches, arrays, scalars and the three
constant nodes. It reads the upstream data with jsonparser, which it treats as a
collaborator, and writes JSON bytes into pairs of buffers, one for the data and one for
the comma-separated list of error objects.

This module holds the data the resolver reads and the small operations on buffers that
every resolution step is made of (`src/pkg/engine/resolve/resolve.go`). Byte slices are
`String`s; a nil slice and an empty one are both `""`, which is how every function below
treats them (a nil `[]byte` has length zero, and `bytes.Equal` equates the two). Writes into
a `bytes.Buffer` cannot fail, so the `writeSafe` error chains of the source are always nil
and are not modelled.

jsonparser stays abstract (`JsonParser`): the resolver only ever asks it for the value at a
key path and for the items of an array, and the results below hold for any reader.
-/

namespace GraphQLTools

/-! ## The JSON reader -/

/-- The type jsonparser reports for the value it found. -/
inductive ValueType where
  | notExist
  | string
  | number
  | object
  | array
  | boolean
  | null
  | unknown
  deriving DecidableEq, Repr

/-- The two jsonparser entry points the resolver calls, on byte slices. -/
structure JsonParser where
  /-- `jsonparser.Get(data, keys...)`: the bytes and type of the value at the key path,
  a string's bytes without their quotes; `none` where `Get` returns an error. -/
  get : String → List String → Option (String × ValueType)
  /-- The values `jsonparser.ArrayEach(data, cb, keys...)` hands to its callback, in order
  (the resolver ignores the error it returns). -/
  arrayEach : String → List String → List String
  /-- A value found is at least one byte long, unless it is a string, whose quotes are cut
  off: a number, a literal, an object or an array is never empty text. -/
  get_ne_empty : ∀ data keys value t, get data keys = some (value, t) → t ≠ .string →
    value ≠ ""

/-- A reader that answers from finite tables: the value and type at a key path of a given
document, and the items of an array. A value with no bytes is reported only as a string, as
jsonparser does, so every table gives a reader. -/
def JsonParser.ofTable (values : List ((String × List String) × (String × ValueType)))
    (arrays : List ((String × List String) × List String)) : JsonParser where
  get data keys := (values.lookup (data, keys)).filter fun r => r.2 == .string || r.1 != ""
  arrayEach data keys := (arrays.lookup (data, keys)).getD []
  get_ne_empty data keys value t h ht := by
    obtain ⟨-, hp⟩ := Option.filter_eq_some.mp h
    simpa [ht] using hp

/-- The bytes `jsonparser.Get` returns as its value: `nil` when it fails, which is how
`resolveObject` re-scopes its data and how the typename gate reads `__typename`. -/
def JsonParser.getValue (P : JsonParser) (data : String) (keys : List String) : String :=
  match P.get data keys with
  | some (value, _) => value
  | none => ""

/-! ## Errors -/

/-- The errors a fetch can end with: those of rendering its input and those its data
source returns. -/
inductive FetchError where
  /-- `InputTemplate.Render: cannot resolve variable of kind: %d`. -/
  | cannotResolveVariable (kind : Int)
  /-- The error `jsonparser.Get` returned while rendering a variable. -/
  | variableNotFound
  /-- The error a data source's `Load` returned. -/
  | load (message : String)
  deriving DecidableEq, Repr

/-- The errors a resolution can return: the two sentinels, and the error of a fetch, which
no node turns into anything else. -/
inductive ResolveError where
  /-- `errNonNullableFieldValueIsNull`, "non Nullable field value is null". -/
  | nonNullableFieldValueIsNull
  /-- `errTypeNameSkipped`, "skipped because of __typename condition". -/
  | typeNameSkipped
  /-- An error of a fetch, returned as it is. -/
  | fetch (e : FetchError)
  deriving DecidableEq, Repr

/-! ## Input templates -/

/-- `SegmentType`; Go's enum is an `int`, and `other` stands for any value besides the two
named constants. -/
inductive SegmentType where
  | staticSegmentType
  | variableSegmentType
  | other (n : Int)
  deriving DecidableEq, Repr

/-- `VariableSource`, with `other` for a value besides the two named constants. -/
inductive VariableSource where
  | variableSourceObject
  | variableSourceContext
  | other (n : Int)
  deriving DecidableEq, Repr

/-- One segment of an input template. -/
structure TemplateSegment where
  segmentType : SegmentType
  data : String
  variableSource : VariableSource
  variableSourcePath : List String
  deriving DecidableEq, Repr

/-- The template a fetch's input is rendered from. -/
structure InputTemplate where
  segments : List TemplateSegment
  deriving DecidableEq, Repr

/-- `InputTemplate.Render`, appending to `preparedInput`: static bytes are copied, a variable
is looked up in the object's data or in the request's variables, and an unknown source or a
failed lookup ends the rendering with an error. A segment of another type writes nothing. -/
def renderSegments (P : JsonParser) (contextVariables data : String) :
    List TemplateSegment → String → Except FetchError String
  | [], preparedInput => .ok preparedInput
  | s :: rest, preparedInput =>
    match s.segmentType with
    | .staticSegmentType => renderSegments P contextVariables data rest (preparedInput ++ s.data)
    | .variableSegmentType =>
      let variableSource : Except FetchError String :=
        match s.variableSource with
        | .variableSourceObject => .ok data
        | .variableSourceContext => .ok contextVariables
        | .other n => .error (.cannotResolveVariable n)
      match variableSource with
      | .error e => .error e
      | .ok source =>
        match P.get source s.variableSourcePath with
        | none => .error .variableNotFound
        | some (value, _) => renderSegments P contextVariables data rest (preparedInput ++ value)
    | .other _ => renderSegments P contextVariables data rest preparedInput

/-- `InputTemplate.Render` into an empty buffer. -/
def InputTemplate.render (P : JsonParser) (contextVariables : String) (t : InputTemplate)
    (data : String) : Except FetchError String :=
  renderSegments P contextVariables data t.segments ""

/-! ## Buffers -/

/-- `BufPair`: the data buffer and the errors buffer. -/
structure BufPair where
  data : String
  errors : String
  deriving DecidableEq, Repr

namespace BufPair

/-- A pair as the pool hands it out: `freeBufPair` resets both buffers before returning a
pair to the pool, and a new pair starts empty. -/
def empty : BufPair := ⟨"", ""⟩

/-- `HasData`: the data buffer's length is not zero. -/
def hasData (b : BufPair) : Bool := b.data != ""

/-- `HasErrors`. -/
def hasErrors (b : BufPair) : Bool := b.errors != ""

end BufPair

/-- `MergeBufPairData(from, to, prefixDataWithComma)`: moves `from`'s data to the end of
`to`'s, after a comma when asked, and returns the bytes written; `WriteTo` drains `from`.
An empty `from` writes nothing, not even the comma. -/
def mergeBufPairData (src dst : BufPair) (prefixDataWithComma : Bool) :
    Nat × BufPair × BufPair :=
  if src.data = "" then (0, src, dst)
  else
    let sep := if prefixDataWithComma then "," else ""
    (sep.utf8ByteSize + src.data.utf8ByteSize, { src with data := "" },
      { dst with data := dst.data ++ sep ++ src.data })

/-- `MergeBufPairErrors(from, to)`: moves `from`'s errors to the end of `to`'s, after a comma
when `to` already holds some. -/
def mergeBufPairErrors (src dst : BufPair) : Nat × BufPair × BufPair :=
  if src.errors = "" then (0, src, dst)
  else
    let sep := if dst.errors = "" then "" else ","
    (sep.utf8ByteSize + src.errors.utf8ByteSize, { src with errors := "" },
      { dst with errors := dst.errors ++ sep ++ src.errors })

/-- `MergeBufPairs(from, to, prefixDataWithComma)`: the data, then the errors; it returns
the bytes of data written and the bytes of errors written. -/
def mergeBufPairs (src dst : BufPair) (prefixDataWithComma : Bool) :
    Nat × Nat × BufPair × BufPair :=
  let (dataWritten, src, dst) := mergeBufPairData src dst prefixDataWithComma
  let (errorsWritten, src, dst) := mergeBufPairErrors src dst
  (dataWritten, errorsWritten, src, dst)

/-! ## Data sources and fetches -/

/-- What one `Load` call does: the bytes it writes into the target pair's two buffers and
the error it returns. -/
structure LoadResult where
  data : String
  errors : String
  err : Option String
  deriving DecidableEq, Repr

/-- A `DataSource`. Its `Load` is modelled as a function of the rendered input. -/
structure DataSource where
  load : String → LoadResult
  uniqueIdentifier : String

/-- A `SingleFetch`, with the fields the resolver reads. -/
structure SingleFetch where
  bufferId : Int
  dataSource : DataSource
  disallowSingleFlight : Bool
  inputTemplate : InputTemplate

/-- A `Fetch`: one fetch, or a `ParallelFetch` of several. -/
inductive Fetch where
  | single (f : SingleFetch)
  | parallel (fetches : List SingleFetch)

/-- `resultSet`: the pairs of an object's fetches by buffer id. Go ranges over the map in
an unspecified order; the model keeps insertion order. -/
structure ResultSet where
  buffers : List (Int × BufPair)

namespace ResultSet

/-- A result set as the pool hands it out. -/
def empty : ResultSet := ⟨[]⟩

/-- `set.buffers[id]`, with `ok`. -/
def get? (s : ResultSet) (id : Int) : Option BufPair :=
  (s.buffers.find? (fun p => decide (p.1 = id))).map Prod.snd

/-- `set.buffers[id] = buf`. -/
def set (s : ResultSet) (id : Int) (buf : BufPair) : ResultSet :=
  if s.buffers.any (fun p => decide (p.1 = id)) then
    ⟨s.buffers.map (fun p => if p.1 = id then (id, buf) else p)⟩
  else ⟨s.buffers ++ [(id, buf)]⟩

end ResultSet

/-! ## The plan tree -/

/-- A `Field`: the name written before the value, and the node of the value. -/
structure FieldOf (α : Type) where
  name : String
  value : α

/-- A `FieldSet`: fields read from one buffer of the object's fetches (or from the object's
own data), written only when the source's `__typename` is `onTypeName` when one is set. -/
structure FieldSetOf (α : Type) where
  onTypeName : Option String
  bufferID : Int
  hasBuffer : Bool
  fields : List (FieldOf α)

/-- The nodes of a plan tree. -/
inductive Node where
  | object (nullable : Bool) (path : List String) (fieldSets : List (FieldSetOf Node))
      (fetch : Option Fetch)
  | emptyObject
  | array (path : List String) (nullable : Bool) (resolveAsynchronous : Bool) (item : Node)
  | emptyArray
  | null
  | string (path : List String) (nullable : Bool)
  | boolean (path : List String) (nullable : Bool)
  | integer (path : List String) (nullable : Bool)
  | float (path : List String) (nullable : Bool)

/-- A field of an object node. -/
abbrev Field := FieldOf Node

/-- A field set of an object node. -/
abbrev FieldSet := FieldSetOf Node

/-- `GraphQLResponse`: the plan of a synchronous response. -/
structure GraphQLResponse where
  data : Node

end GraphQLTools
