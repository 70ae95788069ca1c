import GraphQLTools.Response
import GraphQLTools.Singleflight
import GraphQLTools.JsonText

/-!
# The errors buffer

Every pair's errors buffer is meant to hold a comma-separated list of complete JSON error
objects (`Json.ErrorList`). Three operations write it (`resolve.go`): `WriteErr` appends one
error object, after a comma when the buffer holds errors already; `MergeBufPairErrors` moves
one pair's errors to the end of another's, after a comma when that one holds errors; `Reset`
and `freeBufPair` empty it.

Merging keeps the shape, whatever the two lists: the lists are joined, and the source is
left empty (`mergeBufPairErrors_lists`). Writing keeps it when the message needs no escape and
the locations and path are nil or complete values: the buffer's list gains one complete
object (`writeErr_errors`, `errorObject_complete`). Over the lists of objects the buffers stand
for (`HoldsLists`), every operation is one step that says what it does to them (`ListsStep`),
so every run of such writes, merges, resets and loads into empty buffers keeps every buffer a
list of objects, reached by those steps (`errorLists_run`). A message
that needs an escape breaks it: `WriteErr` copies the message bytes between two quotes as
they are, so a quote in the message closes the string early, and the buffer it leaves is no
list of objects (`writeErr_quote_breaks`).
-/

namespace GraphQLTools

open Literal

namespace BufPair

/-- The error object `WriteErr` writes: the message member, then the locations and path
members when these are given (not nil), each with the bytes it was handed. -/
def errorObject (message : String) (locations path : Option String) : String :=
  lBrace ++ quote ++ literalMessage ++ quote ++ colon ++ quote ++ message ++ quote ++
    (match locations with
      | some locations => comma ++ quote ++ literalLocations ++ quote ++ colon ++ locations
      | none => "") ++
    (match path with
      | some path => comma ++ quote ++ literalPath ++ quote ++ colon ++ path
      | none => "") ++
    rBrace

/-- `WriteErr(message, locations, path)`: a comma when the buffer holds errors, then the
error object. -/
def writeErr (b : BufPair) (message : String) (locations path : Option String) : BufPair :=
  { b with errors := b.errors ++ (if b.hasErrors then comma else "") ++
    errorObject message locations path }

/-- `Reset`, and `freeBufPair`, which resets a pair before it goes back to the pool. -/
def reset (_ : BufPair) : BufPair := empty

end BufPair

/-! ## Merging -/

/-- **Merging joins the two lists.** When both errors buffers hold lists of complete objects,
`MergeBufPairErrors` leaves the destination holding its own list followed by the source's,
and the source empty. -/
theorem mergeBufPairErrors_lists {src dst : BufPair} {A B : List (List Char)}
    (hA : ∀ o ∈ A, Json.CompleteObject o) (hB : ∀ o ∈ B, Json.CompleteObject o)
    (hsrc : src.errors.toList = [','].intercalate A)
    (hdst : dst.errors.toList = [','].intercalate B) :
    (mergeBufPairErrors src dst).2.2.errors.toList = [','].intercalate (B ++ A) ∧
      (mergeBufPairErrors src dst).2.1.errors = "" := by
  simp only [String.toList] at hsrc hdst
  unfold mergeBufPairErrors
  split_ifs with hs hd
  · have : A = [] := (Json.intercalate_eq_nil_iff hA).mp (by simp [← hsrc, hs])
    simp [this, hdst, hs]
  · have : B = [] := (Json.intercalate_eq_nil_iff hB).mp (by simp [← hdst, hd])
    simp [this, hsrc, hd]
  · have hA' : A ≠ [] := fun h => hs (by simpa [h, String.ext_iff] using hsrc)
    have hB' : B ≠ [] := fun h => hd (by simpa [h, String.ext_iff] using hdst)
    simp [Json.intercalate_append _ _ _ hB' hA', hsrc, hdst]

/-! ## A quote in the message -/

/-- A message holding a quote, written into an empty pair, leaves an errors buffer that is
not a list of error objects: the message string ends at the quote, and the object with it. -/
theorem writeErr_quote_breaks :
    (BufPair.empty.writeErr "a\"b" none none).errors = "\x7b\"message\":\"a\"b\"\x7d" ∧
      ¬ Json.ErrorList (BufPair.empty.writeErr "a\"b" none none).errors := by
  refine ⟨rfl, ?_⟩
  rw [Json.errorList_of_not_mem (by decide)]
  decide

/-! ## Writing an error -/

namespace BufPair

/-- The members of the object `WriteErr` writes: the message as a JSON string, then the
locations and the path when they are given. -/
def errorMembers (message : String) (locations path : Option String) :
    List (List Char × List Char) :=
  ("message".toList, '"' :: message.toList ++ ['"']) ::
    (locations.toList.map fun l => ("locations".toList, l.toList)) ++
    path.toList.map fun p => ("path".toList, p.toList)

theorem errorObject_toList (message : String) (locations path : Option String) :
    (errorObject message locations path).toList =
      Json.objectText (errorMembers message locations path) := by
  rcases locations with _ | l <;> rcases path with _ | p <;>
    simp [errorObject, errorMembers, Json.objectText, Json.memberText, Json.intercalate_cons_cons,
      lBrace, rBrace, quote, colon, comma, literalMessage, literalLocations, literalPath]

/-- The object `WriteErr` writes is complete when the message needs no escape and the
locations and path are nil or complete values. -/
theorem errorObject_complete {message : String} {locations path : Option String}
    (hm : ∀ c ∈ message.toList, Json.isUnescaped c)
    (hl : ∀ l ∈ locations, Json.CompleteValue l.toList)
    (hp : ∀ p ∈ path, Json.CompleteValue p.toList) :
    Json.CompleteObject (errorObject message locations path).toList := by
  rw [errorObject_toList]
  refine Json.completeObject_objectText (List.cons_ne_nil _ _) ?_ ?_ <;>
    simp only [errorMembers, List.mem_cons, List.mem_append, List.mem_map, Option.mem_toList]
  · rintro m ((rfl | ⟨l, -, rfl⟩) | ⟨p, -, rfl⟩) <;> dsimp only <;> decide
  · rintro m ((rfl | ⟨l, hl', rfl⟩) | ⟨p, hp', rfl⟩)
    · exact Json.completeValue_string hm
    · exact hl l hl'
    · exact hp p hp'

/-- `WriteErr` adds its object at the end of the buffer's list. -/
theorem writeErr_errors {b : BufPair} {objs : List (List Char)}
    (hobjs : ∀ o ∈ objs, Json.CompleteObject o) (hb : b.errors.toList = [','].intercalate objs)
    (message : String) (locations path : Option String) :
    (b.writeErr message locations path).errors.toList =
      [','].intercalate (objs ++ [(errorObject message locations path).toList]) := by
  simp only [String.toList] at hb
  by_cases h : objs = []
  · subst h
    have : b.errors = "" := by simpa [String.ext_iff] using hb
    simp [writeErr, hasErrors, this]
  · have : b.errors ≠ "" := fun he =>
      h ((Json.intercalate_eq_nil_iff hobjs).mp (by simpa [he] using hb.symm))
    rw [Json.intercalate_append _ _ _ h (List.cons_ne_nil _ _)]
    simp [writeErr, hasErrors, this, hb, comma]

end BufPair

/-! ## Every run keeps the shape -/

/-- The operations that write the errors buffers of a family of pairs. -/
inductive ErrorsOp where
  | writeErr (pair : Nat) (message : String) (locations path : Option String)
  | mergeBufPairErrors (src dst : Nat)
  | mergeBufPairs (src dst : Nat) (prefixDataWithComma : Bool)
  | reset (pair : Nat)
  /-- A data source's `Load` writing into a pair. -/
  | load (pair : Nat) (result : LoadResult)

namespace ErrorsOp

/-- One operation on the family of pairs. -/
def apply (pairs : Nat → BufPair) : ErrorsOp → Nat → BufPair
  | writeErr p message locations path =>
    Function.update pairs p ((pairs p).writeErr message locations path)
  | mergeBufPairErrors src dst =>
    let r := GraphQLTools.mergeBufPairErrors (pairs src) (pairs dst)
    Function.update (Function.update pairs src r.2.1) dst r.2.2
  | mergeBufPairs src dst prefixDataWithComma =>
    let r := GraphQLTools.mergeBufPairs (pairs src) (pairs dst) prefixDataWithComma
    Function.update (Function.update pairs src r.2.2.1) dst r.2.2.2
  | reset p => Function.update pairs p (pairs p).reset
  | load p result => Function.update pairs p (Singleflight.loadInto result (pairs p))

/-- What keeping the shape asks of an operation: a message that needs no escape and
locations and path that are nil or complete values; two different pairs to merge; a list of
objects loaded into an empty errors buffer. -/
def Admissible (pairs : Nat → BufPair) : ErrorsOp → Prop
  | writeErr _ message locations path => (∀ c ∈ message.toList, Json.isUnescaped c) ∧
    (∀ l ∈ locations, Json.CompleteValue l.toList) ∧ ∀ p ∈ path, Json.CompleteValue p.toList
  | mergeBufPairErrors src dst | mergeBufPairs src dst _ => src ≠ dst
  | reset _ => True
  | load p result => (pairs p).errors = "" ∧ Json.ErrorList result.errors

/-- A run of operations. -/
def run (pairs : Nat → BufPair) : List ErrorsOp → Nat → BufPair
  | [] => pairs
  | op :: ops => run (op.apply pairs) ops

/-- Every operation of the run is admissible in the state it is applied to. -/
def RunAdmissible (pairs : Nat → BufPair) : List ErrorsOp → Prop
  | [] => True
  | op :: ops => op.Admissible pairs ∧ RunAdmissible (op.apply pairs) ops

theorem errorList_empty : Json.ErrorList "" := ⟨[], by simp, rfl⟩

/-- Merging two error lists leaves two error lists. -/
theorem mergeBufPairErrors_errorList {src dst : BufPair} (hs : Json.ErrorList src.errors)
    (hd : Json.ErrorList dst.errors) :
    Json.ErrorList (GraphQLTools.mergeBufPairErrors src dst).2.1.errors ∧
      Json.ErrorList (GraphQLTools.mergeBufPairErrors src dst).2.2.errors := by
  obtain ⟨A, hA, hsrc⟩ := hs
  obtain ⟨B, hB, hdst⟩ := hd
  obtain ⟨h₁, h₂⟩ := mergeBufPairErrors_lists hA hB hsrc hdst
  exact ⟨h₂ ▸ errorList_empty, B ++ A, fun o ho => (List.mem_append.mp ho).elim (hB o) (hA o), h₁⟩

/-! ## The lists the buffers stand for -/

/-- The buffers hold the lists `lists`: each pair's errors buffer is its list of complete
objects, joined by commas. -/
def HoldsLists (pairs : Nat → BufPair) (lists : Nat → List (List Char)) : Prop :=
  ∀ p, (∀ o ∈ lists p, Json.CompleteObject o) ∧
    (pairs p).errors.toList = [','].intercalate (lists p)

/-- What an operation does to the lists: `WriteErr` appends its one object, a merge moves the
source's list to the end of the destination's and empties the source, `Reset` empties the
pair's list, and a load gives the pair the objects its data source wrote. -/
def ListsStep (lists : Nat → List (List Char)) : ErrorsOp → (Nat → List (List Char)) → Prop
  | writeErr p message locations path, lists' => lists' =
    Function.update lists p (lists p ++ [(BufPair.errorObject message locations path).toList])
  | mergeBufPairErrors src dst, lists' | mergeBufPairs src dst _, lists' =>
    lists' = Function.update (Function.update lists src []) dst (lists dst ++ lists src)
  | reset p, lists' => lists' = Function.update lists p []
  | load p result, lists' => ∃ objs, (∀ o ∈ objs, Json.CompleteObject o) ∧
    result.errors.toList = [','].intercalate objs ∧ lists' = Function.update lists p objs

/-- The lists after a run of steps. -/
def ListsRun : (Nat → List (List Char)) → List ErrorsOp → (Nat → List (List Char)) → Prop
  | lists, [], lists' => lists' = lists
  | lists, op :: ops, lists'' => ∃ lists', ListsStep lists op lists' ∧ ListsRun lists' ops lists''

theorem holdsLists_empty : HoldsLists (fun _ => BufPair.empty) fun _ => [] :=
  fun _ => ⟨by simp, rfl⟩

/-- Writing one pair, whose new buffer holds the list `l`, keeps the other pairs' lists. -/
theorem HoldsLists.update {pairs : Nat → BufPair} {lists : Nat → List (List Char)}
    (h : HoldsLists pairs lists) {q : Nat} {b : BufPair} {l : List (List Char)}
    (hl : ∀ o ∈ l, Json.CompleteObject o) (hb : b.errors.toList = [','].intercalate l) :
    HoldsLists (Function.update pairs q b) (Function.update lists q l) := fun p => by
  by_cases hp : p = q
  · subst hp; simpa using ⟨hl, hb⟩
  · simpa [hp] using h p

/-- A merge of the errors of two pairs, as one step of the lists; the merge may be handed the
pairs after a data merge, which leaves their errors as they were. -/
theorem HoldsLists.merge {pairs : Nat → BufPair} {lists : Nat → List (List Char)}
    (h : HoldsLists pairs lists) {src dst : Nat} {s t : BufPair}
    (hs : s.errors = (pairs src).errors) (ht : t.errors = (pairs dst).errors) :
    HoldsLists (Function.update (Function.update pairs src (GraphQLTools.mergeBufPairErrors s t).2.1)
        dst (GraphQLTools.mergeBufPairErrors s t).2.2)
      (Function.update (Function.update lists src []) dst (lists dst ++ lists src)) := by
  obtain ⟨h₁, h₂⟩ := mergeBufPairErrors_lists (h src).1 (h dst).1 (hs ▸ (h src).2)
    (ht ▸ (h dst).2)
  exact (h.update (by simp) (by rw [h₂]; rfl)).update
    (fun o ho => (List.mem_append.mp ho).elim ((h dst).1 o) ((h src).1 o)) h₁

/-- **One admissible operation is one step of the lists.** -/
theorem apply_holdsLists {pairs : Nat → BufPair} {lists : Nat → List (List Char)}
    (h : HoldsLists pairs lists) :
    ∀ {op : ErrorsOp}, op.Admissible pairs →
      ∃ lists', HoldsLists (op.apply pairs) lists' ∧ ListsStep lists op lists'
  | writeErr q message locations path, ⟨hm, hl, hp⟩ =>
    ⟨_, h.update (fun o ho => (List.mem_append.mp ho).elim ((h q).1 o)
        fun e => (List.mem_singleton.mp e) ▸ BufPair.errorObject_complete hm hl hp)
      (BufPair.writeErr_errors (h q).1 (h q).2 message locations path), rfl⟩
  | mergeBufPairErrors src dst, _ => ⟨_, h.merge rfl rfl, rfl⟩
  | mergeBufPairs src dst prefixDataWithComma, _ =>
    have hdata := mergeBufPairData_errors (pairs src) (pairs dst) prefixDataWithComma
    ⟨_, h.merge hdata.2 hdata.1, rfl⟩
  | reset q, _ => ⟨_, h.update (l := []) (by simp) rfl, rfl⟩
  | load q result, ⟨hq, objs, hobjs, hr⟩ =>
    ⟨_, h.update hobjs (by simpa [Singleflight.loadInto, hq] using hr), objs, hobjs, hr, rfl⟩

/-- **Every errors buffer stays a list of complete error objects, and every operation does
to the lists what it should.** Over every run of admissible writes, merges, resets and loads,
from pairs whose buffers hold lists of complete objects (as the empty pairs of the pool do),
the buffers keep holding lists of complete objects, reached from the first lists by one step
per operation: each `WriteErr` appends exactly its one object, each merge joins the two lists
and empties the source, each reset empties its pair. -/
theorem errorLists_run : ∀ (ops : List ErrorsOp) (pairs : Nat → BufPair)
    (lists : Nat → List (List Char)), HoldsLists pairs lists → RunAdmissible pairs ops →
      ∃ lists', HoldsLists (run pairs ops) lists' ∧ ListsRun lists ops lists'
  | [], _, lists, h, _ => ⟨lists, h, rfl⟩
  | _ :: ops, _, _, h, ⟨hop, hops⟩ => by
    obtain ⟨lists₁, h₁, hstep⟩ := apply_holdsLists h hop
    obtain ⟨lists₂, h₂, hrun⟩ := errorLists_run ops _ lists₁ h₁ hops
    exact ⟨lists₂, h₂, lists₁, hstep, hrun⟩

/-- Two errors written into two empty pairs, one with a path, merged into the first, and the
second pair freed. -/
def writeMergeFree : List ErrorsOp :=
  [.writeErr 0 "e" none (some "[\"a\",0]"), .writeErr 1 "f" none none, .mergeBufPairErrors 1 0,
    .reset 1]

theorem errorLists_run_writeMergeFree :
    HoldsLists (fun _ => BufPair.empty) (fun _ => []) ∧
      RunAdmissible (fun _ => BufPair.empty) writeMergeFree ∧
      ∃ lists', HoldsLists (run (fun _ => BufPair.empty) writeMergeFree) lists' ∧
        ListsRun (fun _ => []) writeMergeFree lists' :=
  have hrun : RunAdmissible (fun _ => BufPair.empty) writeMergeFree := by
    simp only [writeMergeFree, RunAdmissible, Admissible]
    decide
  ⟨holdsLists_empty, hrun, errorLists_run writeMergeFree _ _ holdsLists_empty hrun⟩

end ErrorsOp

end GraphQLTools
