import GraphQLTools.Response

/-!
# Serial and parallel arrays

An array resolves its items one after the other into one reused pair
(`resolveArraySynchronous`), or each into a pair of its own, merged in item order once all
are done (`resolveArrayAsynchronous`). When every item completes to a value or to a skip
that no field raised, both write the items' values and return the same error
(`array_modes_agree`).

They part when an item is dropped after writing part of itself. A field that raises the
skip has had its name written into the item's pair: the serial loop keeps that pair for the
next item, which writes after the leftover bytes, and the parallel loop merges it into the
array like any other, comma included (`dirtySkip_modes_differ`).
-/

namespace GraphQLTools

open Literal

/-- When no item fails, the array completes to the same value whichever loop runs it. -/
theorem complete_array_modes (E : Env) (path : List String) (nullable : Bool) (item : Node)
    (data : String) (hok : itemErrors ((E.json.arrayEach data path).map (complete E item)) = []) :
    complete E (.array path nullable true item) data =
      complete E (.array path nullable false item) data := by
  simp only [complete, completeItems, if_true, hok, (E.errCh.first_eq_none []).mpr rfl,
    List.head?_nil, Bool.false_eq_true, if_false]

/-- **Serial and parallel arrays agree** on items that each complete to a value or to a
skip no field raised: from a pair with no data they return the same error and write the
same bytes. -/
theorem array_modes_agree (E : Env) (path : List String) (nullable : Bool) (item : Node)
    (data : String) (buf : BufPair) (hbuf : buf.data = "")
    (hok : itemErrors ((E.json.arrayEach data path).map (complete E item)) = [])
    (hclean : cleanSkips E (.array path nullable false item) data = true) :
    (resolveNode E (.array path nullable true item) data buf).1 =
        (resolveNode E (.array path nullable false item) data buf).1 ∧
      (resolveNode E (.array path nullable true item) data buf).2.data =
        (resolveNode E (.array path nullable false item) data buf).2.data := by
  have hmodes := complete_array_modes E path nullable item data hok
  refine ⟨by rw [resolveNode_err, resolveNode_err, hmodes], ?_⟩
  by_cases hempty : E.json.arrayEach data path = []
  · simp only [resolveNode, resolveArray, hempty, if_true]
  · have hv : complete E (.array path nullable false item) data =
        .value (.array (((E.json.arrayEach data path).map (complete E item)).filterMap
          Outcome.value?)) := by
      simp only [complete, completeItems, hempty, if_false, Bool.false_eq_true, hok,
        List.head?_nil]
    rw [resolveNode_data E (.array path nullable true item) data buf hbuf hclean
      (hmodes.trans hv), resolveNode_data E (.array path nullable false item) data buf hbuf hclean hv]

/-- Items with a non-nullable `name`, and a document `R` whose array `items` holds `I1`, named
`a`, and `I2`, whose `name` is missing. -/
def namedItem : Node := .object true [] [⟨none, 0, false, [⟨"name", .string ["name"] false⟩]⟩] none

def namesEnv : Env :=
  ⟨JsonParser.ofTable [(("I1", ["name"]), ("a", .string))] [(("R", ["items"]), ["I1", "I2"])],
    false, "", ErrChan.inOrder⟩

/-- Both loops write `[{"name":"a"},null]` for these items: the second is a nullable item whose
missing name makes it `null`. -/
theorem array_modes_agree_names :
    (resolveNode namesEnv (.array ["items"] false true namedItem) "R" BufPair.empty).1 =
        (resolveNode namesEnv (.array ["items"] false false namedItem) "R" BufPair.empty).1 ∧
      (resolveNode namesEnv (.array ["items"] false true namedItem) "R" BufPair.empty).2.data =
        (resolveNode namesEnv (.array ["items"] false false namedItem) "R" BufPair.empty).2.data :=
  array_modes_agree namesEnv ["items"] false namedItem "R" BufPair.empty rfl rfl rfl

/-- An item that is a skip on data without `a`: its non-nullable field `a` is an object whose
only field set is gated on `__typename` `X`. On data whose `a` has that type it is
`{"a":{"b":…}}`. -/
def dirtySkipItem : Node :=
  .object false [] [⟨none, 0, false, [⟨"a",
    .object false ["a"] [⟨some "X", 0, false, [⟨"b", .integer ["b"] false⟩]⟩] none⟩]⟩] none

/-- A document `R` whose array `items` holds `I1`, with no `a`, then `I2`, whose `a` is of
type `X` with `b` equal to `7`. -/
def dirtySkipEnv : Env :=
  ⟨JsonParser.ofTable
    [(("I2", ["a"]), ("A2", .object)), (("A2", ["__typename"]), ("X", .string)),
      (("A2", ["b"]), ("7", .number))]
    [(("R", ["items"]), ["I1", "I2"])], false, "", ErrChan.inOrder⟩

/-- The first item is dropped after writing `{"a":`: the completion is `[{"a":{"b":7}}]`,
the serial loop writes the leftover before the second item, the parallel one merges it as
an item of its own. -/
theorem dirtySkip_modes_differ :
    (complete dirtySkipEnv (.array ["items"] false true dirtySkipItem) "R").value?.map
        Value.serialize = some "[\x7b\"a\":\x7b\"b\":7\x7d\x7d]" ∧
      resolveNode dirtySkipEnv (.array ["items"] false false dirtySkipItem) "R" BufPair.empty =
        (none, ⟨"[\x7b\"a\":\x7b\"a\":\x7b\"b\":7\x7d\x7d]", ""⟩) ∧
      resolveNode dirtySkipEnv (.array ["items"] false true dirtySkipItem) "R" BufPair.empty =
        (none, ⟨"[\x7b\"a\":,\x7b\"a\":\x7b\"b\":7\x7d\x7d]", ""⟩) := by
  decide

end GraphQLTools
