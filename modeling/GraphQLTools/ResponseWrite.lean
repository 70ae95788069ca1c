import GraphQLTools.ResponseText

/-!
# The response on a writer that can fail

`resolveGraphQLResponse` takes every `Write` to succeed. The writer `ResolveGraphQLResponse`
is given is any `io.Writer`, and the function threads the error of its writes through
`writeSafe`, which writes nothing once an error is set. Two of its writes are not guarded so:
the root's `Errors` and `Data` buffers go out by `bytes.Buffer.WriteTo`, in
`_, err = buf.Errors.WriteTo(writer)`, which sets `err` to the result of that write, whatever
`err` held before.

So the error returned is that of the writes from the last `WriteTo` on. On a writer that never
fails the function writes what `resolveGraphQLResponse` describes
(`resolveGraphQLResponseTo_reliable`). On a writer that keeps failing once it has failed, it
returns nil exactly when no write failed, and then the whole response went out
(`resolveGraphQLResponseTo_permanent`). A write that fails once, though, is forgotten by the
next `WriteTo`: a writer that fails only its first `Write` is handed the response without its
head, and the function returns nil (`resolveGraphQLResponseTo_firstFailure`).
-/

namespace GraphQLTools

open Literal

/-! ## Writers -/

/-- An `io.Writer`, seen through the calls of `Write` it is handed: the `i`-th call (from `0`)
fails when `fails i`, after taking the first `kept i` bytes it was given. -/
structure Writer where
  fails : Nat → Bool
  kept : Nat → Nat

/-- The writer that never fails. -/
def Writer.reliable : Writer := ⟨fun _ => false, fun _ => 0⟩

/-- The writer whose calls fail from the `k`-th on, each taking one byte. -/
def Writer.failsFrom (k : Nat) : Writer := ⟨fun i => decide (k ≤ i), fun _ => 1⟩

/-- The writer whose first call fails, taking nothing, and no other. -/
def Writer.firstFails : Writer := ⟨fun i => i == 0, fun _ => 0⟩

/-- What a writer has taken: the number of calls of `Write`, and the bytes. -/
structure Written where
  calls : Nat
  bytes : String

/-- A writer before its first call. -/
def Written.init : Written := ⟨0, ""⟩

/-- One call of `Write`. Its error names the call. -/
def Writer.write (w : Writer) (p : String) (o : Written) : Option Nat × Written :=
  if w.fails o.calls then (some o.calls, ⟨o.calls + 1, o.bytes ++ p.take (w.kept o.calls)⟩)
  else (none, ⟨o.calls + 1, o.bytes ++ p⟩)

/-- `writeSafe`: nothing once an error is set, else one `Write`. -/
def writeSafe (w : Writer) (err : Option Nat) (data : String) (o : Written) :
    Option Nat × Written :=
  match err with
  | some e => (some e, o)
  | none => w.write data o

/-- `bytes.Buffer.WriteTo`: one `Write` of the whole buffer, none when it is empty. -/
def writeTo (w : Writer) (buf : String) (o : Written) : Option Nat × Written :=
  if buf = "" then (none, o) else w.write buf o

/-- A statement of `ResolveGraphQLResponse` that writes: `err = r.writeSafe(err, writer, p)`,
or `_, err = buf.WriteTo(writer)`. -/
inductive Out where
  | safe (p : String)
  | buffer (buf : String)

/-- The bytes a statement writes when its write succeeds. -/
def Out.text : Out → String
  | .safe p => p
  | .buffer buf => buf

/-- One statement, on the error so far and what the writer has taken. -/
def Out.run (w : Writer) : Out → Option Nat × Written → Option Nat × Written
  | .safe p, (err, o) => writeSafe w err p o
  | .buffer buf, (_, o) => writeTo w buf o

/-- A sequence of statements. -/
def runWrites (w : Writer) (ops : List Out) (s : Option Nat × Written) : Option Nat × Written :=
  ops.foldl (fun s op => op.run w s) s

@[simp] theorem runWrites_nil (w : Writer) (s : Option Nat × Written) : runWrites w [] s = s := rfl

@[simp] theorem runWrites_cons (w : Writer) (op : Out) (ops : List Out)
    (s : Option Nat × Written) : runWrites w (op :: ops) s = runWrites w ops (op.run w s) := rfl

/-! ## The response -/

/-- The statements `ResolveGraphQLResponse` runs once the root resolved into `buf`, in the
source's order. -/
def responseWrites (buf : BufPair) : List Out :=
  let hasErrors := buf.errors != ""
  let hasData := buf.data != ""
  [.safe lBrace] ++
    (if hasErrors then
      [.safe quote, .safe literalErrors, .safe quote, .safe colon, .safe lBrack,
        .buffer buf.errors, .safe rBrack]
    else []) ++
    (if hasData then
      (if hasErrors then [.safe comma] else []) ++
        [.safe quote, .safe literalData, .safe quote, .safe colon, .buffer buf.data]
    else []) ++
    [.safe rBrace]

/-- The error `ResolveGraphQLResponse` returns: the root's, or that of the `call`-th `Write`. -/
inductive ResponseError where
  | resolve (e : ResolveError)
  | write (call : Nat)
  deriving DecidableEq, Repr

/-- `ResolveGraphQLResponse` on the writer `w`: the error it returns, and what `w` took. -/
def resolveGraphQLResponseTo (E : Env) (w : Writer) (response : GraphQLResponse) (data : String) :
    Option ResponseError × Written :=
  match resolveNode E response.data data BufPair.empty with
  | (some e, _) => (some (.resolve e), .init)
  | (none, buf) =>
    let r := runWrites w (responseWrites buf) (none, .init)
    (r.1.map .write, r.2)

/-- The text of the response is what `resolveGraphQLResponse` writes. -/
theorem responseWrites_text (buf : BufPair) :
    (responseWrites buf).foldl (fun b op => b ++ op.text) "" =
      lBrace ++
        (if buf.errors != "" then
          quote ++ literalErrors ++ quote ++ colon ++ lBrack ++ buf.errors ++ rBrack else "") ++
        (if buf.data != "" then
          (if buf.errors != "" then comma else "") ++ quote ++ literalData ++ quote ++ colon ++
            buf.data
        else "") ++ rBrace := by
  unfold responseWrites
  by_cases hE : buf.errors = "" <;> by_cases hD : buf.data = "" <;>
    simp [hE, hD, Out.text, String.append_assoc]

/-! ## A writer that never fails -/

section Reliable

variable {w : Writer}

theorem Out.run_reliable (hw : ∀ i, w.fails i = false) (op : Out) (o : Written) :
    (op.run w (none, o)).1 = none ∧ (op.run w (none, o)).2.bytes = o.bytes ++ op.text := by
  cases op <;> simp only [Out.run, writeSafe, writeTo, Writer.write, hw, Out.text] <;>
    split_ifs <;> simp_all

theorem runWrites_reliable (hw : ∀ i, w.fails i = false) :
    ∀ (ops : List Out) (o : Written),
      (runWrites w ops (none, o)).1 = none ∧
        (runWrites w ops (none, o)).2.bytes = ops.foldl (fun b op => b ++ op.text) o.bytes
  | [], _ => ⟨rfl, rfl⟩
  | op :: ops, o => by
    obtain ⟨h₁, h₂⟩ := Out.run_reliable hw op o
    have hs : op.run w (none, o) = (none, (op.run w (none, o)).2) := Prod.ext h₁ rfl
    rw [runWrites_cons, hs, List.foldl_cons, ← h₂]
    exact runWrites_reliable hw ops _

/-- **On a writer that never fails**, `ResolveGraphQLResponse` returns the root's error and
writes what `resolveGraphQLResponse` describes. -/
theorem resolveGraphQLResponseTo_reliable (E : Env) (hw : ∀ i, w.fails i = false)
    (response : GraphQLResponse) (data : String) :
    (resolveGraphQLResponseTo E w response data).1 =
        (resolveGraphQLResponse E response data).1.map .resolve ∧
      (resolveGraphQLResponseTo E w response data).2.bytes =
        (resolveGraphQLResponse E response data).2 := by
  unfold resolveGraphQLResponseTo resolveGraphQLResponse
  rcases resolveNode E response.data data BufPair.empty with ⟨_ | e, buf⟩
  · obtain ⟨h₁, h₂⟩ := runWrites_reliable hw (responseWrites buf) .init
    exact ⟨by simp [h₁], h₂.trans (responseWrites_text buf)⟩
  · exact ⟨rfl, rfl⟩

theorem resolveGraphQLResponseTo_reliable_fetchedUser :
    (resolveGraphQLResponseTo userEnv Writer.reliable ⟨fetchedUser⟩ "").1 =
        (resolveGraphQLResponse userEnv ⟨fetchedUser⟩ "").1.map .resolve ∧
      (resolveGraphQLResponseTo userEnv Writer.reliable ⟨fetchedUser⟩ "").2.bytes =
        (resolveGraphQLResponse userEnv ⟨fetchedUser⟩ "").2 :=
  resolveGraphQLResponseTo_reliable userEnv (fun _ => rfl) ⟨fetchedUser⟩ ""

end Reliable

/-! ## A writer that keeps failing -/

/-- Once a call of `Write` fails, every later call fails. -/
def Writer.Permanent (w : Writer) : Prop := ∀ i j, i ≤ j → w.fails i → w.fails j

theorem Writer.failsFrom_permanent (k : Nat) : (Writer.failsFrom k).Permanent :=
  fun i j hij hi => by simp only [failsFrom, decide_eq_true_eq] at hi ⊢; omega

/-- Every `WriteTo` of the statements writes a buffer that is not empty. -/
def Out.Calls : Out → Prop
  | .safe _ => True
  | .buffer buf => buf ≠ ""

/-- The error is set exactly when some call so far failed. -/
def Tracks (w : Writer) (s : Option Nat × Written) : Prop :=
  s.1.isSome ↔ ∃ i < s.2.calls, w.fails i

section Permanent

variable {w : Writer}

theorem Out.calls_le (op : Out) (s : Option Nat × Written) :
    s.2.calls ≤ (op.run w s).2.calls := by
  obtain ⟨err, o⟩ := s
  cases op <;> cases err <;> simp only [Out.run, writeSafe, writeTo, Writer.write] <;>
    (try split_ifs) <;> simp

theorem runWrites_calls_le : ∀ (ops : List Out) (s : Option Nat × Written),
    s.2.calls ≤ (runWrites w ops s).2.calls
  | [], _ => le_rfl
  | op :: ops, s => (Out.calls_le op s).trans (runWrites_calls_le ops (op.run w s))

/-- A call of `Write` keeps the error tracking the failures, when a failure before it would
have made it fail too. -/
theorem Tracks.write {p : String} {o : Written}
    (h : ∀ i < o.calls, w.fails i → w.fails o.calls) : Tracks w (w.write p o) := by
  unfold Tracks Writer.write
  split_ifs with hf
  · exact iff_of_true rfl ⟨o.calls, Nat.lt_succ_self _, hf⟩
  · refine iff_of_false (by simp) ?_
    rintro ⟨i, hi, hfi⟩
    rcases Nat.lt_succ_iff_lt_or_eq.1 hi with hi | rfl
    · exact hf (h i hi hfi)
    · exact hf hfi

/-- One statement keeps the error tracking the failures, on a writer that keeps failing. -/
theorem Tracks.run (hw : w.Permanent) {op : Out} (hop : op.Calls) {s : Option Nat × Written}
    (h : Tracks w s) : Tracks w (op.run w s) := by
  obtain ⟨err, o⟩ := s
  cases op with
  | safe p =>
    cases err with
    | some e => exact h
    | none => exact Tracks.write fun i hi hfi => absurd (h.2 ⟨i, hi, hfi⟩) (by simp)
  | buffer buf =>
    simp only [Out.run, writeTo, if_neg (show buf ≠ "" from hop)]
    exact Tracks.write fun i hi => hw i o.calls hi.le

theorem Tracks.runWrites (hw : w.Permanent) :
    ∀ {ops : List Out}, (∀ op ∈ ops, op.Calls) → ∀ {s}, Tracks w s → Tracks w (runWrites w ops s)
  | [], _, _, h => h
  | op :: _, hops, _, h =>
    Tracks.runWrites hw (fun o ho => hops o (.tail _ ho))
      (h.run hw (hops op (.head _)))

/-- A statement that makes no call, or whose call succeeds, runs as on the writer that never
fails. -/
theorem Out.run_eq_reliable (op : Out) (s : Option Nat × Written)
    (h : (op.run w s).2.calls = s.2.calls ∨ w.fails s.2.calls = false) :
    op.run w s = op.run Writer.reliable s := by
  obtain ⟨err, o⟩ := s
  cases op <;> cases err <;>
    simp only [Out.run, writeSafe, writeTo, Writer.write, Writer.reliable] at h ⊢ <;>
    split_ifs at h ⊢ <;> simp_all

/-- A run in which no call fails is the run on the writer that never fails. -/
theorem runWrites_of_no_failure : ∀ (ops : List Out) (s : Option Nat × Written),
    (∀ i < (runWrites w ops s).2.calls, s.2.calls ≤ i → w.fails i = false) →
      runWrites w ops s = runWrites Writer.reliable ops s
  | [], _, _ => rfl
  | op :: ops, s, h => by
    have hle := runWrites_calls_le (w := w) ops (op.run w s)
    have hop : op.run w s = op.run Writer.reliable s := by
      rcases (Out.calls_le (w := w) op s).eq_or_lt with heq | hlt
      · exact op.run_eq_reliable s (.inl heq.symm)
      · exact op.run_eq_reliable s (.inr (h _ (lt_of_lt_of_le hlt hle) le_rfl))
    have ih := runWrites_of_no_failure ops (op.run w s) fun i hi hi' =>
      h i hi ((Out.calls_le op s).trans hi')
    simp only [runWrites, List.foldl_cons] at ih ⊢
    rw [ih, hop]

/-- `ResolveGraphQLResponse` hands `WriteTo` only buffers that are not empty. -/
theorem responseWrites_calls (buf : BufPair) : ∀ op ∈ responseWrites buf, op.Calls := by
  unfold responseWrites
  by_cases hE : buf.errors = "" <;> by_cases hD : buf.data = "" <;> simp [hE, hD, Out.Calls]

/-- **On a writer that keeps failing once it has failed**, `ResolveGraphQLResponse` returns nil
exactly when the root resolved and no call of `Write` failed, and then the writer holds the
whole response. -/
theorem resolveGraphQLResponseTo_permanent (E : Env) (hw : w.Permanent)
    (response : GraphQLResponse) (data : String) :
    ((resolveGraphQLResponseTo E w response data).1 = none ↔
        (resolveGraphQLResponse E response data).1 = none ∧
          ∀ i < (resolveGraphQLResponseTo E w response data).2.calls, w.fails i = false) ∧
      ((resolveGraphQLResponseTo E w response data).1 = none →
        (resolveGraphQLResponseTo E w response data).2.bytes =
          (resolveGraphQLResponse E response data).2) := by
  unfold resolveGraphQLResponseTo resolveGraphQLResponse
  rcases resolveNode E response.data data BufPair.empty with ⟨_ | e, buf⟩
  · dsimp only
    have ht : Tracks w (runWrites w (responseWrites buf) (none, .init)) :=
      Tracks.runWrites hw (responseWrites_calls buf) (by simp [Tracks, Written.init])
    have hnone : (runWrites w (responseWrites buf) (none, .init)).1 = none ↔
        ∀ i < (runWrites w (responseWrites buf) (none, .init)).2.calls, w.fails i = false := by
      rw [← Option.not_isSome_iff_eq_none, show _ ↔ _ from ht]
      simp
    simp only [Option.map_eq_none', hnone, true_and]
    intro h
    rw [runWrites_of_no_failure _ _ fun i hi _ => h i hi]
    exact (runWrites_reliable (fun _ => rfl) _ _).2.trans (responseWrites_text buf)
  · simp

/-- The writer fails from the fourth call on, the closing quote of `"Errors"`; the last error,
that of the `WriteTo` of the data, is returned. -/
theorem resolveGraphQLResponseTo_permanent_fetchedUser :
    (resolveGraphQLResponseTo userEnv (Writer.failsFrom 3) ⟨fetchedUser⟩ "").1 =
        some (.write 5) ∧
      (((resolveGraphQLResponseTo userEnv (Writer.failsFrom 3) ⟨fetchedUser⟩ "").1 = none ↔
          (resolveGraphQLResponse userEnv ⟨fetchedUser⟩ "").1 = none ∧
            ∀ i < (resolveGraphQLResponseTo userEnv (Writer.failsFrom 3) ⟨fetchedUser⟩ "").2.calls,
              (Writer.failsFrom 3).fails i = false) ∧
        ((resolveGraphQLResponseTo userEnv (Writer.failsFrom 3) ⟨fetchedUser⟩ "").1 = none →
          (resolveGraphQLResponseTo userEnv (Writer.failsFrom 3) ⟨fetchedUser⟩ "").2.bytes =
            (resolveGraphQLResponse userEnv ⟨fetchedUser⟩ "").2)) :=
  ⟨by decide, resolveGraphQLResponseTo_permanent userEnv (Writer.failsFrom_permanent 3)
    ⟨fetchedUser⟩ ""⟩

end Permanent

/-! ## A write that fails once -/

/-- **A failed write is forgotten.** When the root resolved into a pair that holds errors or
data, a writer that fails only its first `Write`, the opening brace, is handed the response
without its head (the brace and the first member's name), and `ResolveGraphQLResponse` returns
nil: the `WriteTo` that follows resets the error. -/
theorem resolveGraphQLResponseTo_firstFailure (E : Env) (response : GraphQLResponse)
    (data : String) (hroot : (resolveNode E response.data data BufPair.empty).1 = none)
    (hbuf : (resolveNode E response.data data BufPair.empty).2.errors ≠ "" ∨
      (resolveNode E response.data data BufPair.empty).2.data ≠ "") :
    (resolveGraphQLResponseTo E Writer.firstFails response data).1 = none ∧
      ∃ head, head ≠ "" ∧ (resolveGraphQLResponse E response data).2 =
        head ++ (resolveGraphQLResponseTo E Writer.firstFails response data).2.bytes := by
  unfold resolveGraphQLResponseTo resolveGraphQLResponse
  generalize resolveNode E response.data data BufPair.empty = r at hroot hbuf ⊢
  obtain ⟨_ | e, buf⟩ := r
  · dsimp only at hbuf ⊢
    have h0 : lBrace.take 0 = "" := rfl
    by_cases hE : buf.errors = ""
    · have hD : buf.data ≠ "" := by simpa [hE] using hbuf
      refine ⟨?_, lBrace ++ quote ++ literalData ++ quote ++ colon, by decide, ?_⟩ <;>
        simp [hE, hD, responseWrites, Out.run, writeSafe, writeTo, Writer.write,
          Writer.firstFails, Written.init, h0, String.append_assoc]
    · refine ⟨?_, lBrace ++ quote ++ literalErrors ++ quote ++ colon ++ lBrack, by decide, ?_⟩ <;>
        by_cases hD : buf.data = "" <;>
        simp [hE, hD, responseWrites, Out.run, writeSafe, writeTo, Writer.write,
          Writer.firstFails, Written.init, h0, String.append_assoc]
  · cases hroot

theorem resolveGraphQLResponseTo_firstFailure_fetchedUser :
    (resolveGraphQLResponseTo userEnv Writer.firstFails ⟨fetchedUser⟩ "").2.bytes =
        "\x7b\"message\":\"e\"\x7d],\"data\":\x7b\"name\":\"Ada\"\x7d\x7d" ∧
      (resolveGraphQLResponseTo userEnv Writer.firstFails ⟨fetchedUser⟩ "").1 = none ∧
        ∃ head, head ≠ "" ∧ (resolveGraphQLResponse userEnv ⟨fetchedUser⟩ "").2 =
          head ++ (resolveGraphQLResponseTo userEnv Writer.firstFails ⟨fetchedUser⟩ "").2.bytes :=
  ⟨by decide, resolveGraphQLResponseTo_firstFailure userEnv ⟨fetchedUser⟩ "" (by decide)
    (by decide)⟩

end GraphQLTools
