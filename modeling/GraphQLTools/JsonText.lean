import Mathlib.Data.List.Basic

/-!
# JSON text

The grammar of JSON text (RFC 8259) as a recognizer over the characters of a text: each
function reads one production from the front of its input and returns what is left after
it, or `none` when the input does not start with that production. This is the meaning of
"a complete JSON value" and "a comma-separated list of complete JSON objects" that the
buffers of the resolver are held to; none of it is translated from the sources.

A value may hold values, so `value` takes a fuel argument, one unit per level of nesting;
the loops over the members of an object and the elements of an array take the recognizer
of the values inside them and a fuel of their own, one unit per member. `CompleteValue`
gives both as much fuel as the text has characters, which is always enough.
-/

namespace GraphQLTools

namespace Json

/-! ## Leaves -/

/-- The four whitespace characters. -/
def isWs (c : Char) : Bool := c = ' ' || c = '\t' || c = '\n' || c = '\r'

/-- Skips whitespace. -/
def ws : List Char → List Char
  | c :: cs => if isWs c then ws cs else c :: cs
  | [] => []

def isHex (c : Char) : Bool := c.isDigit || ('a' ≤ c && c ≤ 'f') || ('A' ≤ c && c ≤ 'F')

/-- The characters that may stand unescaped in a string: anything but the quote, the
backslash and the control characters. -/
def isUnescaped (c : Char) : Bool := c ≠ '"' && c ≠ '\\' && 0x20 ≤ c.toNat

/-- The rest of a string after its opening quote: unescaped characters and escapes, up to
the closing quote. -/
def stringRest : List Char → Option (List Char)
  | '"' :: cs => some cs
  | '\\' :: 'u' :: a :: b :: c :: d :: cs =>
    if isHex a && isHex b && isHex c && isHex d then stringRest cs else none
  | '\\' :: c :: cs => if c ∈ ['"', '\\', '/', 'b', 'f', 'n', 'r', 't'] then stringRest cs else none
  | c :: cs => if isUnescaped c then stringRest cs else none
  | [] => none

/-- Skips digits. -/
def digits : List Char → List Char
  | c :: cs => if c.isDigit then digits cs else c :: cs
  | [] => []

/-- One digit or more. -/
def digits1 : List Char → Option (List Char)
  | c :: cs => if c.isDigit then some (digits cs) else none
  | [] => none

/-- The integer part of a number: `0`, or a digit other than `0` and the digits after it. -/
def intDigits : List Char → Option (List Char)
  | '0' :: cs => some cs
  | cs => digits1 cs

/-- The integer part of a number, after its optional minus sign. -/
def intPart : List Char → Option (List Char)
  | '-' :: cs => intDigits cs
  | cs => intDigits cs

/-- The optional fraction of a number. -/
def fraction : List Char → Option (List Char)
  | '.' :: cs => digits1 cs
  | cs => some cs

/-- The digits of an exponent, after their optional sign. -/
def exponentDigits : List Char → Option (List Char)
  | '+' :: cs | '-' :: cs => digits1 cs
  | cs => digits1 cs

/-- The optional exponent of a number. -/
def exponent : List Char → Option (List Char)
  | 'e' :: cs | 'E' :: cs => exponentDigits cs
  | cs => some cs

/-- A number: a minus sign, an integer part, a fraction, an exponent. -/
def number (cs : List Char) : Option (List Char) :=
  (intPart cs).bind fraction |>.bind exponent

/-- The rest of a literal (`true`, `false`, `null`) after its first character. -/
def literal : List Char → List Char → Option (List Char)
  | [], cs => some cs
  | c :: lit, d :: cs => if c = d then literal lit cs else none
  | _ :: _, [] => none

/-! ## Values -/

/-- The members of an object after its `{`, up to and including the closing `}`, given the
recognizer of the member values. -/
def members (value : List Char → Option (List Char)) : Nat → List Char → Option (List Char)
  | 0, _ => none
  | n + 1, cs => match ws cs with
    | '"' :: cs => match (stringRest cs).map ws with
      | some (':' :: cs) => match value cs with
        | some (',' :: cs) => members value n cs
        | some ('}' :: cs) => some cs
        | _ => none
      | _ => none
    | _ => none

/-- The elements of an array after its `[`, up to and including the closing `]`, given the
recognizer of the elements. -/
def elements (value : List Char → Option (List Char)) : Nat → List Char → Option (List Char)
  | 0, _ => none
  | n + 1, cs => match value cs with
    | some (',' :: cs) => elements value n cs
    | some (']' :: cs) => some cs
    | _ => none

/-- A value without the whitespace around it, given the recognizer of the values inside it. -/
def bare (value : List Char → Option (List Char)) : List Char → Option (List Char)
  | '{' :: cs => match ws cs with
    | '}' :: cs => some cs
    | _ => members value cs.length cs
  | '[' :: cs => match ws cs with
    | ']' :: cs => some cs
    | _ => elements value cs.length cs
  | '"' :: cs => stringRest cs
  | 't' :: cs => literal ['r', 'u', 'e'] cs
  | 'f' :: cs => literal ['a', 'l', 's', 'e'] cs
  | 'n' :: cs => literal ['u', 'l', 'l'] cs
  | cs => number cs

/-- A value with the whitespace around it, nested at most `fuel - 1` levels deep. -/
def value : Nat → List Char → Option (List Char)
  | 0, _ => none
  | n + 1, cs => (bare (value n) (ws cs)).map ws

/-- A text that is one JSON value. -/
def CompleteValue (cs : List Char) : Prop := value (cs.length + 1) cs = some []

instance (cs : List Char) : Decidable (CompleteValue cs) := inferInstanceAs (Decidable (_ = _))

/-- A text that is one JSON object. -/
def CompleteObject (cs : List Char) : Prop := (ws cs).head? = some '{' ∧ CompleteValue cs

instance (cs : List Char) : Decidable (CompleteObject cs) := inferInstanceAs (Decidable (_ ∧ _))

/-- What an `Errors` buffer must hold: `e1,…,ek` with every `ei` one complete JSON object,
the empty text when `k = 0`. -/
def ErrorList (s : String) : Prop :=
  ∃ objs : List (List Char), (∀ o ∈ objs, CompleteObject o) ∧ s.toList = [','].intercalate objs

example : CompleteObject "\x7b\"message\":\"e\",\"path\":[\"a\",1]\x7d".toList := by decide

/-! ## Lists joined by a separator -/

section Intercalate

variable {α : Type} (sep : List α)

@[simp] theorem intercalate_nil : sep.intercalate [] = [] := rfl

@[simp] theorem intercalate_singleton (a : List α) : sep.intercalate [a] = a := by
  simp [List.intercalate]

theorem intercalate_cons_cons (a b : List α) (l : List (List α)) :
    sep.intercalate (a :: b :: l) = a ++ sep ++ sep.intercalate (b :: l) := by
  simp [List.intercalate, List.intersperse_cons_cons]

/-- Joining two lists that are not empty puts one separator between their joins. -/
theorem intercalate_append : ∀ (A B : List (List α)), A ≠ [] → B ≠ [] →
    sep.intercalate (A ++ B) = sep.intercalate A ++ sep ++ sep.intercalate B
  | [a], b :: B, _, _ => by simp [intercalate_cons_cons]
  | a :: a' :: A, B, _, hB => by
    rw [List.cons_append, List.cons_append, intercalate_cons_cons, ← List.cons_append,
      intercalate_append _ B (List.cons_ne_nil _ _) hB, intercalate_cons_cons]
    simp

end Intercalate

theorem ne_nil_of_completeObject {o : List Char} (h : CompleteObject o) : o ≠ [] := by
  rintro rfl
  simp [CompleteObject, ws] at h

/-- A list of objects joins to the empty text only when it is empty. -/
theorem intercalate_eq_nil_iff {objs : List (List Char)} (h : ∀ o ∈ objs, CompleteObject o) :
    [','].intercalate objs = [] ↔ objs = [] := by
  refine ⟨fun he => ?_, fun he => he ▸ rfl⟩
  match objs, h with
  | [], _ => rfl
  | [o], h => exact (ne_nil_of_completeObject (h o (by simp)) (by simpa using he)).elim
  | o :: o' :: r, _ => simp [intercalate_cons_cons] at he

/-- A text without a comma is an error list only as the empty list or a single object. -/
theorem errorList_of_not_mem {s : String} (h : ',' ∉ s.toList) :
    ErrorList s ↔ s.toList = [] ∨ CompleteObject s.toList := by
  constructor
  · rintro ⟨objs, hall, hs⟩
    match objs, hall, hs with
    | [], _, hs => exact .inl hs
    | [o], hall, hs =>
      rw [intercalate_singleton] at hs
      exact .inr (hs ▸ hall o (List.mem_singleton_self o))
    | o :: o' :: r, _, hs => exact (h (by rw [hs, intercalate_cons_cons]; simp)).elim
  · rintro (hs | ho)
    · exact ⟨[], by simp, hs⟩
    · exact ⟨[s.toList], by simpa using ho, by simp⟩

/-! ## Reading a value that a delimiter follows -/

/-- What may follow a value inside an object or an array: nothing, or a comma or a closing
bracket. -/
def Delimits (rest : List Char) : Prop := ∀ c ∈ rest.head?, c = ',' ∨ c = '}' ∨ c = ']'

/-- Reading with `r` off a text followed by `rest` reads it as off the text alone, with `rest`
after what was left, when what was left is not empty or `rest` starts with a delimiter. -/
def Extends (r : List Char → Option (List Char)) : Prop :=
  ∀ cs out rest, r cs = some out → (out ≠ [] ∨ Delimits rest) → r (cs ++ rest) = some (out ++ rest)

section Delimits

variable {rest : List Char}

theorem Delimits.cons_iff {c : Char} {cs : List Char} : Delimits (c :: cs) ↔ c = ',' ∨ c = '}' ∨ c = ']' := by
  simp [Delimits]

theorem Delimits.ws_eq (h : Delimits rest) : ws rest = rest := by
  rcases rest with _ | ⟨c, cs⟩
  · rfl
  · rcases Delimits.cons_iff.mp h with rfl | rfl | rfl <;> rfl

theorem Delimits.digits_eq (h : Delimits rest) : digits rest = rest := by
  rcases rest with _ | ⟨c, cs⟩
  · rfl
  · rcases Delimits.cons_iff.mp h with rfl | rfl | rfl <;> rfl

theorem Delimits.fraction_eq (h : Delimits rest) : fraction rest = some rest := by
  rcases rest with _ | ⟨c, cs⟩
  · rfl
  · rcases Delimits.cons_iff.mp h with rfl | rfl | rfl <;> rfl

theorem Delimits.exponent_eq (h : Delimits rest) : exponent rest = some rest := by
  rcases rest with _ | ⟨c, cs⟩
  · rfl
  · rcases Delimits.cons_iff.mp h with rfl | rfl | rfl <;> rfl

end Delimits

theorem ws_append {rest : List Char} : ∀ cs : List Char, (ws cs ≠ [] ∨ Delimits rest) →
    ws (cs ++ rest) = ws cs ++ rest
  | [], h => by simpa using (h.resolve_left (by simp [ws])).ws_eq
  | c :: cs, h => by
    by_cases hc : isWs c
    · simp only [ws, hc, if_true, List.cons_append] at h ⊢
      exact ws_append cs h
    · simp [ws, hc]

theorem digits_append {rest : List Char} : ∀ cs : List Char, (digits cs ≠ [] ∨ Delimits rest) →
    digits (cs ++ rest) = digits cs ++ rest
  | [], h => by simpa using (h.resolve_left (by simp [digits])).digits_eq
  | c :: cs, h => by
    by_cases hc : c.isDigit
    · simp only [digits, hc, if_true, List.cons_append] at h ⊢
      exact digits_append cs h
    · simp [digits, hc]

theorem digits1_extends : Extends digits1 := by
  rintro (_ | ⟨c, cs⟩) out rest h hr
  · cases h
  · by_cases hc : c.isDigit
    · simp only [digits1, hc, if_true, Option.some.injEq, List.cons_append] at h ⊢
      subst h
      rw [digits_append cs hr]
    · simp [digits1, hc] at h

theorem intDigits_extends : Extends intDigits := by
  rintro (_ | ⟨c, cs⟩) out rest h hr
  · cases h
  · by_cases hc : c = '0'
    · subst hc; simp_all [intDigits]
    · have e : ∀ l, intDigits (c :: l) = digits1 (c :: l) := fun l => by
        simp [intDigits, hc]
      rw [e] at h
      rw [List.cons_append, e, ← List.cons_append]
      exact digits1_extends _ _ _ h hr

theorem intPart_extends : Extends intPart := by
  rintro (_ | ⟨c, cs⟩) out rest h hr
  · cases h
  · by_cases hc : c = '-'
    · subst hc; exact intDigits_extends _ _ _ h hr
    · have e : ∀ l, intPart (c :: l) = intDigits (c :: l) := fun l => by simp [intPart, hc]
      rw [e] at h
      rw [List.cons_append, e, ← List.cons_append]
      exact intDigits_extends _ _ _ h hr

theorem fraction_extends : Extends fraction := by
  rintro (_ | ⟨c, cs⟩) out rest h hr
  · cases h
    simpa using (hr.resolve_left (by simp)).fraction_eq
  · by_cases hc : c = '.'
    · subst hc; exact digits1_extends _ _ _ h hr
    · have e : ∀ l, fraction (c :: l) = some (c :: l) := fun l => by simp [fraction, hc]
      rw [e] at h
      cases h
      rw [List.cons_append, e]

theorem exponentDigits_extends : Extends exponentDigits := by
  rintro (_ | ⟨c, cs⟩) out rest h hr
  · cases h
  · by_cases hc : c = '+' ∨ c = '-'
    · rcases hc with rfl | rfl <;> exact digits1_extends _ _ _ h hr
    · have e : ∀ l, exponentDigits (c :: l) = digits1 (c :: l) := fun l => by
        simp only [not_or] at hc; simp [exponentDigits, hc.1, hc.2]
      rw [e] at h
      rw [List.cons_append, e, ← List.cons_append]
      exact digits1_extends _ _ _ h hr

theorem exponent_extends : Extends exponent := by
  rintro (_ | ⟨c, cs⟩) out rest h hr
  · cases h
    simpa using (hr.resolve_left (by simp)).exponent_eq
  · by_cases hc : c = 'e' ∨ c = 'E'
    · rcases hc with rfl | rfl <;> exact exponentDigits_extends _ _ _ h hr
    · have e : ∀ l, exponent (c :: l) = some (c :: l) := fun l => by
        simp only [not_or] at hc; simp [exponent, hc.1, hc.2]
      rw [e] at h
      cases h
      rw [List.cons_append, e]

theorem fraction_nil : fraction [] = some [] := rfl

theorem exponent_nil : exponent [] = some [] := rfl

theorem number_extends : Extends number := by
  intro cs out rest h hr
  simp only [number, Option.bind_eq_some] at h ⊢
  obtain ⟨o₂, ⟨o₁, h₁, h₂⟩, h₃⟩ := h
  have hr₂ : o₂ ≠ [] ∨ Delimits rest := hr.imp_left fun hne he => by
    subst he; cases h₃; exact hne rfl
  have hr₁ : o₁ ≠ [] ∨ Delimits rest := hr₂.imp_left fun hne he => by
    subst he; cases h₂; exact hne rfl
  exact ⟨o₂ ++ rest, ⟨o₁ ++ rest, intPart_extends _ _ _ h₁ hr₁, fraction_extends _ _ _ h₂ hr₂⟩,
    exponent_extends _ _ _ h₃ hr⟩

theorem stringRest_escape {c : Char} (hc : c ≠ 'u') (l : List Char) :
    stringRest ('\\' :: c :: l) =
      if c ∈ ['"', '\\', '/', 'b', 'f', 'n', 'r', 't'] then stringRest l else none :=
  stringRest.eq_3 c l fun _ _ _ _ _ h _ => hc h

theorem stringRest_char {c : Char} (hq : c ≠ '"') (hb : c ≠ '\\') (l : List Char) :
    stringRest (c :: l) = if isUnescaped c then stringRest l else none :=
  stringRest.eq_4 c l hq (fun _ _ _ _ _ h _ => hb h) fun _ _ h _ => hb h

/-- A string's rest never looks past its closing quote. -/
theorem stringRest_append (rest : List Char) : ∀ cs {out : List Char},
    stringRest cs = some out → stringRest (cs ++ rest) = some (out ++ rest) := by
  intro cs
  induction cs using stringRest.induct with
  | case1 cs => intro out h; simp_all [stringRest]
  | case2 a b c d cs hhex ih => intro out h; simp_all [stringRest]
  | case3 a b c d cs hhex => intro out h; simp_all [stringRest]
  | case4 c cs _ hc ih =>
    have hcu : c ≠ 'u' := by rintro rfl; simp at hc
    intro out h
    rw [stringRest_escape hcu, if_pos hc] at h
    rw [List.cons_append, List.cons_append, stringRest_escape hcu, if_pos hc]
    exact ih h
  | case5 c cs hu hc =>
    intro out h
    by_cases hcu : c = 'u'
    · subst hcu
      rcases cs with _ | ⟨a, _ | ⟨b, _ | ⟨c', _ | ⟨d, cs⟩⟩⟩⟩
      all_goals first | exact (hu _ _ _ _ _ rfl rfl).elim | simp [stringRest] at h
    · rw [stringRest_escape hcu, if_neg hc] at h
      cases h
  | case6 c cs _ _ _ hc ih =>
    have hqb : c ≠ '"' ∧ c ≠ '\\' := by simp [isUnescaped] at hc; exact hc.1
    intro out h
    rw [stringRest_char hqb.1 hqb.2, if_pos hc] at h
    rw [List.cons_append, stringRest_char hqb.1 hqb.2, if_pos hc]
    exact ih h
  | case7 c cs hq _ hb hc =>
    intro out h
    by_cases hcb : c = '\\'
    · subst hcb
      rcases cs with _ | ⟨c', cs⟩
      · simp [stringRest] at h
      · exact (hb c' cs rfl rfl).elim
    · rw [stringRest_char hq hcb, if_neg hc] at h
      cases h
  | case8 => intro out h; cases h

theorem literal_append (rest : List Char) : ∀ (lit cs : List Char) {out : List Char},
    literal lit cs = some out → literal lit (cs ++ rest) = some (out ++ rest)
  | [], cs, out, h => by cases h; rfl
  | c :: lit, d :: cs, out, h => by
    by_cases hcd : c = d
    · simp only [literal, hcd, if_true] at h ⊢
      exact literal_append rest lit cs h
    · simp [literal, hcd] at h
  | _ :: _, [], _, h => by cases h

/-- One member: its key, then its value, which a comma or the closing brace follows. -/
theorem members_eq_some {value : List Char → Option (List Char)} {n : Nat} {cs out : List Char}
    (h : members value (n + 1) cs = some out) :
    ∃ x y₀ y z, ws cs = '"' :: x ∧ stringRest x = some y₀ ∧ ws y₀ = ':' :: y ∧
      ((value y = some (',' :: z) ∧ members value n z = some out) ∨
        (value y = some ('}' :: z) ∧ out = z)) := by
  simp only [members] at h
  split at h
  · rename_i x hx
    split at h
    · rename_i y hy
      obtain ⟨y₀, hy₀, hwy⟩ := Option.map_eq_some'.mp hy
      split at h
      · rename_i z hz; exact ⟨x, y₀, y, z, hx, hy₀, hwy, .inl ⟨hz, h⟩⟩
      · rename_i z hz; exact ⟨x, y₀, y, z, hx, hy₀, hwy, .inr ⟨hz, (Option.some.inj h).symm⟩⟩
      · cases h
    · cases h
  · cases h

/-- The members of an object never look past its closing brace. -/
theorem members_append {value : List Char → Option (List Char)} (hv : Extends value)
    (rest : List Char) : ∀ (n : Nat) (cs : List Char) {out : List Char},
    members value n cs = some out → members value n (cs ++ rest) = some (out ++ rest)
  | 0, _, _, h => by cases h
  | n + 1, cs, out, h => by
    obtain ⟨x, y₀, y, z, hx, hy₀, hwy, hz⟩ := members_eq_some h
    have hx' : ws (cs ++ rest) = '"' :: (x ++ rest) := by rw [ws_append cs (.inl (by simp [hx])), hx]; rfl
    have hy' : ws (y₀ ++ rest) = ':' :: (y ++ rest) := by
      rw [ws_append y₀ (.inl (by simp [hwy])), hwy]; rfl
    simp only [members, hx', stringRest_append rest x hy₀, Option.map_some', hy']
    rcases hz with ⟨hz, hm⟩ | ⟨hz, rfl⟩
    · rw [hv _ _ _ hz (.inl (by simp))]
      exact members_append hv rest n z hm
    · rw [hv _ _ _ hz (.inl (by simp))]
      rfl

theorem elements_eq_some {value : List Char → Option (List Char)} {n : Nat} {cs out : List Char}
    (h : elements value (n + 1) cs = some out) :
    ∃ z, (value cs = some (',' :: z) ∧ elements value n z = some out) ∨
      (value cs = some (']' :: z) ∧ out = z) := by
  simp only [elements] at h
  split at h
  · rename_i z hz; exact ⟨z, .inl ⟨hz, h⟩⟩
  · rename_i z hz; exact ⟨z, .inr ⟨hz, (Option.some.inj h).symm⟩⟩
  · cases h

/-- The elements of an array never look past its closing bracket. -/
theorem elements_append {value : List Char → Option (List Char)} (hv : Extends value)
    (rest : List Char) : ∀ (n : Nat) (cs : List Char) {out : List Char},
    elements value n cs = some out → elements value n (cs ++ rest) = some (out ++ rest)
  | 0, _, _, h => by cases h
  | n + 1, cs, out, h => by
    obtain ⟨z, ⟨hz, he⟩ | ⟨hz, rfl⟩⟩ := elements_eq_some h
    · simp only [elements, hv _ _ _ hz (.inl (by simp))]
      exact elements_append hv rest n z he
    · simp only [elements, hv _ _ _ hz (.inl (by simp))]
      rfl

section Mono

variable {v v' : List Char → Option (List Char)} (hvv : ∀ cs out, v cs = some out → v' cs = some out)
include hvv

theorem members_mono : ∀ {n m : Nat} {cs out : List Char}, n ≤ m →
    members v n cs = some out → members v' m cs = some out
  | 0, _, _, _, _, h => by cases h
  | n + 1, m + 1, cs, out, hnm, h => by
    obtain ⟨x, y₀, y, z, hx, hy₀, hwy, hz⟩ := members_eq_some h
    simp only [members, hx, hy₀, Option.map_some', hwy]
    rcases hz with ⟨hz, hm⟩ | ⟨hz, rfl⟩
    · rw [hvv _ _ hz]; exact members_mono (by omega) hm
    · rw [hvv _ _ hz]; rfl

theorem elements_mono : ∀ {n m : Nat} {cs out : List Char}, n ≤ m →
    elements v n cs = some out → elements v' m cs = some out
  | 0, _, _, _, _, h => by cases h
  | n + 1, m + 1, cs, out, hnm, h => by
    obtain ⟨z, ⟨hz, he⟩ | ⟨hz, rfl⟩⟩ := elements_eq_some h
    · simp only [elements, hvv _ _ hz]; exact elements_mono (by omega) he
    · simp only [elements, hvv _ _ hz]

end Mono

theorem bare_nil (v : List Char → Option (List Char)) : bare v [] = none := rfl

theorem bare_eq_number {c : Char} (hc : c ∉ ['{', '[', '"', 't', 'f', 'n'])
    (v : List Char → Option (List Char)) (l : List Char) : bare v (c :: l) = number (c :: l) :=
  have h : ∀ d ∈ ['{', '[', '"', 't', 'f', 'n'], ∀ cs, c :: l = d :: cs → False :=
    fun _ hd _ e => hc ((List.cons.inj e).1 ▸ hd)
  bare.eq_7 v _ (h _ (by decide)) (h _ (by decide)) (h _ (by decide)) (h _ (by decide))
    (h _ (by decide)) (h _ (by decide))

theorem bare_mono {v v' : List Char → Option (List Char)}
    (hvv : ∀ cs out, v cs = some out → v' cs = some out) {cs out : List Char}
    (h : bare v cs = some out) : bare v' cs = some out := by
  rcases cs with _ | ⟨c, l⟩
  · cases h
  · by_cases hc : c ∈ ['{', '[', '"', 't', 'f', 'n']
    · simp only [List.mem_cons, List.mem_singleton, List.not_mem_nil, or_false] at hc
      rcases hc with rfl | rfl | rfl | rfl | rfl | rfl
      · simp only [bare] at h ⊢
        split at h
        · exact h
        · exact members_mono hvv le_rfl h
      · simp only [bare] at h ⊢
        split at h
        · exact h
        · exact elements_mono hvv le_rfl h
      all_goals exact h
    · rw [bare_eq_number hc] at h ⊢; exact h

/-- A value never looks past its end, but for the digits of a number and the whitespace
after it, which a delimiter stops. -/
theorem bare_extends {v : List Char → Option (List Char)} (hv : Extends v)
    (hne : ∀ cs out, v cs = some out → ws cs ≠ []) : Extends (bare v) := by
  rintro (_ | ⟨c, x⟩) out rest h hr
  · cases h
  by_cases hc : c ∈ ['{', '[', '"', 't', 'f', 'n']
  · simp only [List.mem_cons, List.mem_singleton, List.not_mem_nil, or_false] at hc
    rcases hc with rfl | rfl | rfl | rfl | rfl | rfl
    · simp only [bare, List.cons_append] at h ⊢
      split at h
      · rename_i y hx
        cases h
        rw [ws_append x (.inl (by simp [hx])), hx]
        rfl
      · rename_i hx
        cases hlen : x.length with
        | zero => rw [hlen] at h; cases h
        | succ k =>
          rw [hlen] at h
          obtain ⟨x', -, -, -, hx', -⟩ := members_eq_some h
          rw [ws_append x (.inl (by simp [hx'])), hx']
          exact members_mono (fun _ _ e => e) (by simp [hlen])
            (members_append hv rest _ x (hlen ▸ h))
    · simp only [bare, List.cons_append] at h ⊢
      split at h
      · rename_i y hx
        cases h
        rw [ws_append x (.inl (by simp [hx])), hx]
        rfl
      · rename_i hx
        cases hlen : x.length with
        | zero => rw [hlen] at h; cases h
        | succ k =>
          rw [hlen] at h
          obtain ⟨z, ⟨hz, -⟩ | ⟨hz, -⟩⟩ := elements_eq_some h <;>
          · have hw := hne _ _ hz
            rw [ws_append x (.inl hw)]
            split
            · rename_i y hy
              obtain ⟨a, l, hl⟩ := List.exists_cons_of_ne_nil hw
              rw [hl, List.cons_append, List.cons.injEq] at hy
              exact (hx l (hy.1 ▸ hl)).elim
            · exact elements_mono (fun _ _ e => e) (by simp [hlen])
                (elements_append hv rest _ x (hlen ▸ h))
    · exact stringRest_append rest x h
    all_goals exact literal_append rest _ x h
  · rw [bare_eq_number hc] at h
    rw [List.cons_append, bare_eq_number hc, ← List.cons_append]
    exact number_extends _ _ _ h hr

theorem value_ws_ne_nil {n : Nat} {cs out : List Char} (h : value n cs = some out) : ws cs ≠ [] := by
  intro hw
  cases n with
  | zero => cases h
  | succ n => simp [value, hw, bare_nil] at h

theorem value_eq_some {n : Nat} {cs out : List Char} (h : value (n + 1) cs = some out) :
    ∃ o, bare (value n) (ws cs) = some o ∧ ws o = out :=
  Option.map_eq_some'.mp h

/-- **A value never looks past its end**, but for the digits of a number and the whitespace
after it, which a delimiter stops. -/
theorem value_extends : ∀ n, Extends (value n)
  | 0 => fun _ _ _ h => by cases h
  | n + 1 => fun cs out rest h hr => by
    obtain ⟨o, ho, rfl⟩ := value_eq_some h
    have hw : ws (cs ++ rest) = ws cs ++ rest := ws_append cs (.inl (value_ws_ne_nil h))
    have hr' : o ≠ [] ∨ Delimits rest := hr.imp_left fun hne he => by simp [he, ws] at hne
    simp only [value, hw,
      bare_extends (value_extends n) (fun _ _ e => value_ws_ne_nil e) _ _ _ ho hr',
      Option.map_some', ws_append o hr]

theorem value_succ {n : Nat} : ∀ {cs out : List Char}, value n cs = some out → value (n + 1) cs = some out := by
  induction n with
  | zero => intro cs out h; cases h
  | succ n ih =>
    intro cs out h
    obtain ⟨o, ho, rfl⟩ := value_eq_some h
    show (bare (value (n + 1)) (ws cs)).map ws = _
    rw [bare_mono (fun _ _ e => ih e) ho, Option.map_some']

theorem value_mono {n m : Nat} {cs out : List Char} (hnm : n ≤ m) (h : value n cs = some out) :
    value m cs = some out := by
  induction hnm with
  | refl => exact h
  | step _ ih => exact value_succ ih

/-- A complete value, followed by a delimiter, is read up to the delimiter by every
recognizer with more fuel than it has characters. -/
theorem CompleteValue.value_append {v : List Char} (h : CompleteValue v) {n : Nat}
    (hn : v.length < n) {rest : List Char} (hr : Delimits rest) : value n (v ++ rest) = some rest :=
  value_extends n v [] rest (value_mono hn h) (.inr hr)

/-! ## Objects built from members -/

/-- A member's text: its key in quotes, a colon, its value's text. -/
def memberText (key value : List Char) : List Char := '"' :: key ++ '"' :: ':' :: value

/-- An object's text, from its members' keys and value texts. -/
def objectText (ms : List (List Char × List Char)) : List Char :=
  '{' :: [','].intercalate (ms.map fun m => memberText m.1 m.2) ++ ['}']

theorem stringRest_unescaped (rest : List Char) : ∀ s : List Char, (∀ c ∈ s, isUnescaped c) →
    stringRest (s ++ '"' :: rest) = some rest
  | [], _ => rfl
  | c :: s, h => by
    have hc := h c (List.mem_cons_self c s)
    have hqb : c ≠ '"' ∧ c ≠ '\\' := by simp [isUnescaped] at hc; exact hc.1
    rw [List.cons_append, stringRest_char hqb.1 hqb.2, if_pos hc]
    exact stringRest_unescaped rest s fun c' hc' => h c' (List.mem_cons_of_mem c hc')

/-- A string whose characters need no escape is a complete value. -/
theorem completeValue_string {s : List Char} (h : ∀ c ∈ s, isUnescaped c) :
    CompleteValue ('"' :: s ++ ['"']) := by
  show (bare (value _) (ws ('"' :: s ++ ['"']))).map ws = some []
  rw [show ws ('"' :: s ++ ['"']) = '"' :: s ++ ['"'] from rfl]
  simp only [bare, List.cons_append]
  rw [stringRest_unescaped [] s h]
  rfl

theorem memberText_append (key v more : List Char) :
    memberText key v ++ more = memberText key (v ++ more) := by
  simp [memberText]

/-- Reading a member whose key needs no escape comes down to reading its value. -/
theorem members_key {value : List Char → Option (List Char)} {key : List Char}
    (hk : ∀ c ∈ key, isUnescaped c) (k : Nat) (x : List Char) :
    members value (k + 1) (memberText key x) =
      match value x with
      | some (',' :: cs) => members value k cs
      | some ('}' :: cs) => some cs
      | _ => none := by
  have hws : ws ('"' :: (key ++ '"' :: ':' :: x)) = '"' :: (key ++ '"' :: ':' :: x) := rfl
  simp [members, memberText, hws, stringRest_unescaped _ key hk]
  rfl

variable {N : Nat} {ms : List (List Char × List Char)}

/-- The members of an object, each a key that needs no escape and a complete value, are read
up to the closing brace. -/
theorem members_text (hk : ∀ m ∈ ms, ∀ c ∈ m.1, isUnescaped c)
    (hv : ∀ m ∈ ms, CompleteValue m.2 ∧ m.2.length < N) (tail : List Char) :
    ∀ {k : Nat}, ms ≠ [] → ms.length ≤ k →
      members (value N) k ([','].intercalate (ms.map fun m => memberText m.1 m.2) ++ '}' :: tail) =
        some tail := by
  induction ms with
  | nil => intro _ h; exact (h rfl).elim
  | cons m ms ih =>
    intro k _ hk'
    obtain ⟨k, rfl⟩ : ∃ k', k = k' + 1 := ⟨k - 1, by simp at hk'; omega⟩
    have hm := hv m (List.mem_cons_self m ms)
    have hkm := hk m (List.mem_cons_self m ms)
    rcases ms with _ | ⟨m', ms⟩
    · rw [List.map_singleton, intercalate_singleton, memberText_append, members_key hkm,
        hm.1.value_append hm.2 (by simp [Delimits])]
      rfl
    · have hrest := ih (fun m hm => hk m (List.mem_cons_of_mem _ hm))
        (fun m hm => hv m (List.mem_cons_of_mem _ hm)) (List.cons_ne_nil m' ms) (k := k)
        (by simp at hk' ⊢; omega)
      rw [List.map_cons, List.map_cons, intercalate_cons_cons, List.append_assoc, List.append_assoc,
        memberText_append, members_key hkm, List.singleton_append,
        hm.1.value_append hm.2 (by simp [Delimits])]
      simpa only [List.map_cons] using hrest

theorem length_le_intercalate {α : Type} (sep : List α) {x : List α} :
    ∀ {l : List (List α)}, x ∈ l → x.length ≤ (sep.intercalate l).length
  | [_], h => by simp_all
  | a :: b :: l, h => by
    rw [intercalate_cons_cons]
    rcases List.mem_cons.mp h with rfl | h
    · simp
    · have := length_le_intercalate sep h; simp; omega

theorem length_le_length_intercalate {α : Type} (sep : List α) :
    ∀ {l : List (List α)}, (∀ x ∈ l, x ≠ []) → l.length ≤ (sep.intercalate l).length
  | [], _ => by simp
  | [a], h => by simpa using List.length_pos.mpr (h a (by simp))
  | a :: b :: l, h => by
    have ha := List.length_pos.mpr (h a (by simp))
    have := length_le_length_intercalate sep (l := b :: l) fun x hx => h x (List.mem_cons_of_mem _ hx)
    rw [intercalate_cons_cons]; simp at this ⊢; omega

/-- **An object whose keys need no escape and whose values are complete is complete.** -/
theorem completeObject_objectText (hne : ms ≠ []) (hk : ∀ m ∈ ms, ∀ c ∈ m.1, isUnescaped c)
    (hv : ∀ m ∈ ms, CompleteValue m.2) : CompleteObject (objectText ms) := by
  obtain ⟨m, ms', rfl⟩ := List.exists_cons_of_ne_nil hne
  have hlen : ∀ x ∈ m :: ms', x.2.length < (objectText (m :: ms')).length := fun x hx => by
    have := length_le_intercalate [','] (List.mem_map_of_mem (fun m => memberText m.1 m.2) hx)
    simp [objectText, memberText] at this ⊢; omega
  obtain ⟨t, ht⟩ : ∃ t, [','].intercalate ((m :: ms').map fun m => memberText m.1 m.2) ++ ['}'] =
      '"' :: t := by
    rcases ms' with _ | ⟨m', ms'⟩
    · exact ⟨_, by simp [memberText]; exact rfl⟩
    · exact ⟨_, by simp [intercalate_cons_cons, memberText]; exact rfl⟩
  have hcount : (m :: ms').length ≤ ('"' :: t).length := by
    have := length_le_length_intercalate [','] (l := (m :: ms').map fun m => memberText m.1 m.2)
      fun x hx => by obtain ⟨y, -, rfl⟩ := List.mem_map.mp hx; simp [memberText]
    rw [← ht]; simp at this ⊢; omega
  have hmem := members_text hk (fun x hx => ⟨hv x hx, hlen x hx⟩) [] (List.cons_ne_nil m ms') hcount
  rw [ht] at hmem
  have htext : objectText (m :: ms') = '{' :: '"' :: t := by rw [objectText, List.cons_append, ht]
  refine ⟨by rw [htext]; rfl, ?_⟩
  rw [CompleteValue]
  rw [htext] at hmem ⊢
  show (bare (value _) (ws ('{' :: '"' :: t))).map ws = some []
  simp only [show ws ('{' :: '"' :: t) = '{' :: '"' :: t from rfl, bare,
    show ws ('"' :: t) = '"' :: t from rfl]
  rw [hmem]
  rfl

end Json

end GraphQLTools
