import GraphQLTools.Resolve

/-!
# What a node completes to

`complete` says what a plan node makes of its data, with no buffers: a JSON value, a
missing value that a non-nullable node reports (`nullError`), the typename skip, or the
error of a fetch. It is the reading of the spec's null propagation for this plan language:

* a scalar is the value at its path when jsonparser finds one of the node's type, and
  otherwise `null` if the node is nullable and a missing value if not;
* an object reads its field sets from the value at its path, or from the pairs its fetch
  filled, in plan order; a field set whose `__typename` gate fails is passed over; the first
  field that fails ends the object, which becomes `null` if that failure is a missing value
  and the object is nullable; an object with no field at all is `null` if nullable, and
  otherwise a skip when some gate failed and a missing value when none did;
* an array with no item is `null` or missing; otherwise its first failing item in order
  decides (a parallel array: the failure whose error reaches the channel first), a skipped
  item is dropped, and a missing item turns a nullable array into `null`.

There is no rule for an object whose path finds nothing or finds `null`: `resolveObject`
reads its fields from nil data or from the bytes `null`, and fields that find nothing there
are missing values like any other.

The main results are that `resolveNode` returns exactly the error of the completion
(`resolveNode_err`), for any buffer, and that it writes exactly the completion's bytes
(`resolveNode_data`) from an empty data buffer, as long as no array drops an item whose skip
came up from one of the item's fields after the item had written part of itself.
-/

namespace GraphQLTools

open Literal

/-! ## Values and outcomes -/

/-- A JSON value as the resolver writes it. -/
inductive Value where
  | null
  /-- A number or a boolean, as the bytes jsonparser found. -/
  | raw (bytes : String)
  /-- A string, whose bytes go between quotes. -/
  | string (body : String)
  | object (members : List (String × Value))
  | array (items : List Value)

theorem append_ne_empty {a b : String} (h : b ≠ "") : a ++ b ≠ "" := by
  intro h'
  have : a.data ++ b.data = [] := congrArg String.data h'
  exact h (String.ext (List.append_eq_nil.mp this).2)

/-- The bytes of a value. An object's members are written with `{` before the first and a
comma before every other, as `resolveObject` writes them. -/
def Value.serialize : Value → String
  | .null => Literal.null
  | .raw bytes => bytes
  | .string body => quote ++ body ++ quote
  | .object [] => lBrace ++ rBrace
  | .object (m :: ms) => membersBytes true (m :: ms) ++ rBrace
  | .array items => lBrack ++ itemsBytes true items ++ rBrack
where
  /-- The members of an object, the first one opening the braces. -/
  membersBytes : Bool → List (String × Value) → String
    | _, [] => ""
    | first, (name, v) :: rest =>
      (if first then lBrace else comma) ++ quote ++ name ++ quote ++ colon ++ v.serialize ++
        membersBytes false rest
  /-- The items of an array, separated by commas. -/
  itemsBytes : Bool → List Value → String
    | _, [] => ""
    | first, v :: rest => (if first then "" else comma) ++ v.serialize ++ itemsBytes false rest

/-- Only a number or a literal with no bytes serializes to no bytes: every other value ends
with a quote, a bracket or a brace. -/
theorem Value.serialize_eq_empty {v : Value} (h : v.serialize = "") : v = .raw "" := by
  have hne : ∀ {a b : String}, b ≠ "" → a ++ b = "" → False := fun hb hab => append_ne_empty hb hab
  cases v with
  | null => exact absurd h (by decide)
  | raw bytes => rw [show bytes = "" from h]
  | string body => exact (hne (by decide) h).elim
  | object members => cases members <;> exact (hne (by decide) h).elim
  | array items => exact (hne (by decide) h).elim

/-- What a node completes to. -/
inductive Outcome where
  | value (v : Value)
  /-- A missing value in a non-nullable node: `errNonNullableFieldValueIsNull`. -/
  | nullError
  /-- `errTypeNameSkipped`. -/
  | typeNameSkip
  /-- A failed fetch. -/
  | failed (e : FetchError)

namespace Outcome

/-- The error `resolveNode` returns for the outcome. -/
def err : Outcome → Option ResolveError
  | .value _ => none
  | .nullError => some .nonNullableFieldValueIsNull
  | .typeNameSkip => some .typeNameSkipped
  | .failed e => some (.fetch e)

/-- The outcome an error stands for. -/
def ofError : ResolveError → Outcome
  | .nonNullableFieldValueIsNull => .nullError
  | .typeNameSkipped => .typeNameSkip
  | .fetch e => .failed e

/-- The value of an outcome that is one. -/
def value? : Outcome → Option Value
  | .value v => some v
  | _ => none

/-- A missing value: `null` in a nullable node. -/
def orNull (nullable : Bool) : Outcome := if nullable then .value .null else .nullError

@[simp] theorem err_value (v : Value) : (value v).err = none := rfl
@[simp] theorem err_nullError : nullError.err = some .nonNullableFieldValueIsNull := rfl
@[simp] theorem err_typeNameSkip : typeNameSkip.err = some .typeNameSkipped := rfl
@[simp] theorem err_failed (e : FetchError) : (failed e).err = some (.fetch e) := rfl

@[simp] theorem err_ofError (e : ResolveError) : (ofError e).err = some e := by
  cases e <;> rfl

@[simp] theorem err_orNull (nullable : Bool) :
    (orNull nullable).err = if nullable then none else some .nonNullableFieldValueIsNull := by
  cases nullable <;> rfl

theorem err_eq_none_iff {o : Outcome} : o.err = none ↔ ∃ v, o = .value v := by
  cases o <;> simp

@[simp] theorem orNull_eq_value {nullable : Bool} {v : Value} :
    orNull nullable = .value v ↔ nullable = true ∧ v = .null := by
  cases nullable <;> simp [orNull, eq_comm]

@[simp] theorem orNull_ne_typeNameSkip (nullable : Bool) : orNull nullable ≠ .typeNameSkip := by
  cases nullable <;> simp [orNull]

theorem err_eq_typeNameSkipped {o : Outcome} : o.err = some .typeNameSkipped ↔ o = .typeNameSkip := by
  cases o <;> simp

end Outcome

@[simp] theorem Except.map_ok {ε α β : Type} (f : α → β) (a : α) :
    (Except.ok a : Except ε α).map f = .ok (f a) := rfl

@[simp] theorem Except.map_error {ε α β : Type} (f : α → β) (e : ε) :
    (Except.error e : Except ε α).map f = .error e := rfl

theorem Except.map_eq_ok {ε α β : Type} {f : α → β} {x : Except ε α} {b : β}
    (h : x.map f = .ok b) : ∃ a, x = .ok a ∧ f a = b := by
  cases x with
  | error e => cases h
  | ok a => exact ⟨a, rfl, Except.ok.inj h⟩

theorem Except.map_eq_error {ε α β : Type} {f : α → β} {x : Except ε α} {e : ε}
    (h : x.map f = .error e) : x = .error e := by
  cases x with
  | error e' => simpa using h
  | ok a => cases h

/-! ## The completion -/

/-- A scalar: the bytes of the value at the path when it has the expected type. -/
def completeScalar (P : JsonParser) (expected : ValueType) (path : List String)
    (nullable : Bool) (data : String) : Outcome :=
  match P.get data path with
  | some (value, dataType) => if dataType = expected then .value (.raw value) else .orNull nullable
  | none => .orNull nullable

/-- A string, with the check on nil data `resolveString` makes. -/
def completeString (P : JsonParser) (path : List String) (nullable : Bool) (data : String) :
    Outcome :=
  match P.get data path with
  | some (value, .string) =>
    if data = "" ∧ nullable = false then .nullError else .value (.string value)
  | _ => .orNull nullable

/-- The errors the items of an array report, skips left out, in item order. -/
def itemErrors (outcomes : List Outcome) : List ResolveError :=
  outcomes.filterMap (fun o => sentError o.err)

/-- An array of at least one item, from the items' outcomes. -/
def completeItems (errCh : ErrChan) (nullable resolveAsynchronous : Bool)
    (outcomes : List Outcome) : Outcome :=
  match (if resolveAsynchronous then errCh.first (itemErrors outcomes)
      else (itemErrors outcomes).head?) with
  | some e =>
    if e = .nonNullableFieldValueIsNull ∧ nullable = true then .value .null else .ofError e
  | none => .value (.array (outcomes.filterMap Outcome.value?))

/-- The failure of a field, as the object it ends: a missing value is `null` in a nullable
object. -/
def fieldFailure (nullable : Bool) : Outcome → Outcome
  | .nullError => .orNull nullable
  | o => o

/-- An object, from the walk over its field sets: the first failure, or the members and
whether some gate failed. -/
def completeObject (nullable : Bool) :
    Except Outcome (List (String × Value) × Bool) → Outcome
  | .error o => fieldFailure nullable o
  | .ok ([], typeNameSkip) =>
    if nullable then .value .null else if typeNameSkip then .typeNameSkip else .nullError
  | .ok (m :: ms, _) => .value (.object (m :: ms))

/-- The result set an object's fields read from: none when the object has no fetch, the
pairs its fetch filled otherwise, or the fetch's error. -/
def fetchResults (E : Env) (data : String) : Option Fetch → Except FetchError (Option ResultSet)
  | none => .ok none
  | some f =>
    match resolveFetch E f data ResultSet.empty with
    | (some e, _) => .error e
    | (none, set) => .ok (some set)

mutual

/-- The completion of a node on its data. -/
def complete (E : Env) : Node → String → Outcome
  | .object nullable path fieldSets fetch, data =>
    let data := objectData E.json path data
    completeObject nullable <|
      match fetchResults E data fetch with
      | .error e => .error (.failed e)
      | .ok set => completeFieldSets E set data fieldSets
  | .emptyObject, _ => .value (.object [])
  | .array path nullable resolveAsynchronous item, data =>
    let arrayItems := E.json.arrayEach data path
    if arrayItems = [] then .orNull nullable
    else completeItems E.errCh nullable resolveAsynchronous (arrayItems.map (complete E item))
  | .emptyArray, _ => .value (.array [])
  | .null, _ => .value .null
  | .string path nullable, data => completeString E.json path nullable data
  | .boolean path nullable, data => completeScalar E.json .boolean path nullable data
  | .integer path nullable, data => completeScalar E.json .number path nullable data
  | .float path nullable, data => completeScalar E.json .number path nullable data

/-- The walk over an object's field sets. -/
def completeFieldSets (E : Env) (set : Option ResultSet) (data : String) :
    List FieldSet → Except Outcome (List (String × Value) × Bool)
  | [] => .ok ([], false)
  | fs :: rest =>
    let source := fieldSetData set fs data
    if typeNameMatches E.json fs source then
      match completeFields E source fs.fields with
      | .error o => .error o
      | .ok members => (completeFieldSets E set data rest).map (fun r => (members ++ r.1, r.2))
    else (completeFieldSets E set data rest).map (fun r => (r.1, true))

/-- The fields of one field set, up to the first that fails. -/
def completeFields (E : Env) (source : String) :
    List Field → Except Outcome (List (String × Value))
  | [] => .ok []
  | f :: rest =>
    match complete E f.value source with
    | .value v => (completeFields E source rest).map ((f.name, v) :: ·)
    | o => .error o

end

/-- The walk over an object node's field sets, from the data at its path. -/
def objectWalk (E : Env) (path : List String) (fieldSets : List FieldSet)
    (fetch : Option Fetch) (data : String) : Except Outcome (List (String × Value) × Bool) :=
  let data := objectData E.json path data
  match fetchResults E data fetch with
  | .error e => .error (.failed e)
  | .ok set => completeFieldSets E set data fieldSets

theorem complete_object (E : Env) (nullable : Bool) (path : List String)
    (fieldSets : List FieldSet) (fetch : Option Fetch) (data : String) :
    complete E (.object nullable path fieldSets fetch) data =
      completeObject nullable (objectWalk E path fieldSets fetch data) := by
  simp only [complete, objectWalk]

/-- Whether an object's skip came up from one of its fields. `resolveObject` writes a
field's name before it resolves the value, so such a skip always leaves bytes behind. -/
def fieldSkip (E : Env) : Node → String → Bool
  | .object _ path fieldSets fetch, data =>
    match objectWalk E path fieldSets fetch data with
    | .error .typeNameSkip => true
    | _ => false
  | _, _ => false

/-! ## Facts of the completion -/

theorem completeFields_length (E : Env) (source : String) :
    ∀ (fields : List Field) {members : List (String × Value)},
      completeFields E source fields = .ok members → members.length = fields.length
  | [], _, h => by cases h; rfl
  | f :: rest, members, h => by
    simp only [completeFields] at h
    rcases hc : complete E f.value source with w | _ | _ | e <;> simp only [hc] at h
    · obtain ⟨ms, hrest, rfl⟩ := Except.map_eq_ok h
      simp [completeFields_length E source rest hrest]
    all_goals cases h

/-- The walk over fields never fails with a value. -/
theorem completeFields_error (E : Env) (source : String) :
    ∀ (fields : List Field) {o : Outcome}, completeFields E source fields = .error o →
      o.value? = none
  | [], _, h => by cases h
  | f :: rest, o, h => by
    simp only [completeFields] at h
    rcases hc : complete E f.value source with w | _ | _ | e <;> simp only [hc] at h <;>
      first | exact completeFields_error E source rest (Except.map_eq_error h) | (cases h; rfl)

theorem completeFieldSets_error (E : Env) (set : Option ResultSet) (data : String) :
    ∀ (fieldSets : List FieldSet) {o : Outcome}, completeFieldSets E set data fieldSets = .error o →
      o.value? = none
  | [], _, h => by cases h
  | fs :: rest, o, h => by
    simp only [completeFieldSets] at h
    split_ifs at h
    · rcases hc : completeFields E (fieldSetData set fs data) fs.fields with o' | ms <;>
        simp only [hc] at h
      · cases h; exact completeFields_error E _ fs.fields hc
      · exact completeFieldSets_error E set data rest (Except.map_eq_error h)
    · exact completeFieldSets_error E set data rest (Except.map_eq_error h)

theorem objectWalk_error (E : Env) (path : List String) (fieldSets : List FieldSet)
    (fetch : Option Fetch) (data : String) {o : Outcome}
    (h : objectWalk E path fieldSets fetch data = .error o) : o.value? = none := by
  simp only [objectWalk] at h
  rcases hf : fetchResults E (objectData E.json path data) fetch with e | set <;> simp only [hf] at h
  · cases h; rfl
  · exact completeFieldSets_error E set _ fieldSets h

/-- A failure that ends a field as a value is a missing value in a nullable object. -/
theorem fieldFailure_eq_value {nullable : Bool} {o : Outcome} {v : Value}
    (h : fieldFailure nullable o = .value v) (ho : o.value? = none) :
    o = .nullError ∧ nullable = true ∧ v = .null := by
  cases o with
  | nullError => simp_all [fieldFailure]
  | _ => simp_all [fieldFailure, Outcome.value?]

/-- An object is a value only as `null` or with at least one member. -/
theorem completeObject_eq_value {nullable : Bool} {w : Except Outcome (List (String × Value) × Bool)}
    {v : Value} (h : completeObject nullable w = .value v)
    (hw : ∀ o, w = .error o → o.value? = none) :
    v = .null ∨ ∃ m ms, v = .object (m :: ms) := by
  rcases w with o | ⟨_ | ⟨m, ms⟩, skip⟩
  · exact .inl (fieldFailure_eq_value h (hw o rfl)).2.2
  · cases nullable <;> cases skip <;> simp_all [completeObject]
  · exact .inr ⟨m, ms, (Outcome.value.inj h).symm⟩

/-- The items' errors never include the skip. -/
theorem ne_typeNameSkipped_of_mem_itemErrors {outcomes : List Outcome} {e : ResolveError}
    (h : e ∈ itemErrors outcomes) : e ≠ .typeNameSkipped := by
  obtain ⟨o, -, ho⟩ := List.mem_filterMap.mp h
  cases hr : o.err with
  | none => simp [hr, sentError] at ho
  | some e' => by_cases hs : e' = .typeNameSkipped <;> simp_all [sentError]

/-- An array is never a skip. -/
theorem completeItems_ne_typeNameSkip (errCh : ErrChan) (nullable async : Bool)
    (outcomes : List Outcome) : completeItems errCh nullable async outcomes ≠ .typeNameSkip := by
  unfold completeItems
  rcases hd : (if async then errCh.first (itemErrors outcomes) else (itemErrors outcomes).head?)
    with _ | e
  · simp
  · have hmem : e ∈ itemErrors outcomes := by
      split_ifs at hd
      · exact errCh.mem_of_first _ _ hd
      · exact List.mem_of_mem_head? hd
    have := ne_typeNameSkipped_of_mem_itemErrors hmem
    dsimp only
    split_ifs <;> cases e <;> simp_all [Outcome.ofError]

/-- An array is a value only as `null` or as an array. -/
theorem completeItems_eq_value {errCh : ErrChan} {nullable async : Bool}
    {outcomes : List Outcome} {v : Value} (h : completeItems errCh nullable async outcomes = .value v) :
    v = .null ∨ ∃ items, v = .array items := by
  revert h
  unfold completeItems
  cases (if async then errCh.first (itemErrors outcomes) else (itemErrors outcomes).head?) with
  | none => exact fun h => .inr ⟨_, (Outcome.value.inj h).symm⟩
  | some e =>
    dsimp only
    split_ifs
    · exact fun h => .inl (Outcome.value.inj h).symm
    · cases e <;> simp [Outcome.ofError]

/-- A scalar is the bytes jsonparser found with the expected type, or a missing value. -/
theorem completeScalar_cases (P : JsonParser) (expected : ValueType) (path : List String)
    (nullable : Bool) (data : String) :
    completeScalar P expected path nullable data = .orNull nullable ∨
      ∃ value, P.get data path = some (value, expected) ∧
        completeScalar P expected path nullable data = .value (.raw value) := by
  unfold completeScalar
  rcases P.get data path with _ | ⟨value, t⟩
  · exact .inl rfl
  · by_cases ht : t = expected
    · subst ht; exact .inr ⟨value, rfl, by simp⟩
    · exact .inl (by simp [ht])

/-- A string is a string value, a missing value, or the failure on nil data. -/
theorem completeString_cases (P : JsonParser) (path : List String) (nullable : Bool)
    (data : String) :
    completeString P path nullable data = .orNull nullable ∨
      completeString P path nullable data = .nullError ∨
        ∃ value, completeString P path nullable data = .value (.string value) := by
  unfold completeString
  rcases P.get data path with _ | ⟨value, _ | _ | _ | _ | _ | _ | _ | _⟩ <;> try exact .inl rfl
  split_ifs
  · exact .inr (.inl rfl)
  · exact .inr (.inr ⟨value, rfl⟩)

/-- Only an object completes to a skip. -/
theorem complete_eq_typeNameSkip {E : Env} {n : Node} {data : String}
    (h : complete E n data = .typeNameSkip) :
    ∃ nullable path fieldSets fetch, n = .object nullable path fieldSets fetch := by
  cases n with
  | object nullable path fieldSets fetch => exact ⟨_, _, _, _, rfl⟩
  | array path nullable async item =>
    simp only [complete] at h
    split_ifs at h
    · exact absurd h (Outcome.orNull_ne_typeNameSkip _)
    · exact absurd h (completeItems_ne_typeNameSkip _ _ _ _)
  | string path nullable =>
    rcases completeString_cases E.json path nullable data with h' | h' | ⟨_, h'⟩ <;>
      simp [complete, h'] at h
  | boolean path nullable | integer path nullable | float path nullable =>
    simp only [complete] at h
    rcases completeScalar_cases E.json _ path nullable data with h' | ⟨_, -, h'⟩ <;>
      rw [h'] at h <;> simp at h
  | emptyObject | emptyArray | null => simp [complete] at h

/-- What a node completes to as a value is never without bytes: jsonparser finds no empty
number or literal. This is what lets `hasPreviousItem` follow the items written. -/
theorem complete_serialize_ne_empty (E : Env) (n : Node) (data : String) {v : Value}
    (h : complete E n data = .value v) : v.serialize ≠ "" := by
  intro hs
  have hv := Value.serialize_eq_empty hs
  subst hv
  cases n with
  | object nullable path fieldSets fetch =>
    rw [complete_object] at h
    rcases completeObject_eq_value h (fun o => objectWalk_error E path fieldSets fetch data)
      with h' | ⟨_, _, h'⟩ <;> cases h'
  | array path nullable async item =>
    simp only [complete] at h
    split_ifs at h
    · simp at h
    · rcases completeItems_eq_value h with h' | ⟨_, h'⟩ <;> cases h'
  | string path nullable =>
    rcases completeString_cases E.json path nullable data with h' | h' | ⟨_, h'⟩ <;>
      simp [complete, h'] at h
  | boolean path nullable | integer path nullable | float path nullable =>
    simp only [complete] at h
    rcases completeScalar_cases E.json _ path nullable data with h' | ⟨value, hget, h'⟩ <;>
      rw [h'] at h
    · simp at h
    · cases h
      exact E.json.get_ne_empty _ _ _ _ hget (by decide) rfl
  | emptyObject | emptyArray | null => simp [complete] at h

end GraphQLTools
