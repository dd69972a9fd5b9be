import Mathlib.Tactic

/-!
# The parser of quapify

`kissat_parse_dimacs`: the DIMACS parser that quapify reads its formula with, extended to
quantifier blocks. It looks at one character at a time, in three degrees of strictness, and
calls `add_quantifier` and `add_lit` on its way.

A byte is a character; the end of the file is the end of the list, also when the parser asks
again. Every loop of the source is a recursion on the characters that are left, and a jump to
the head of another loop is a call of its function, so that the parser ends by construction.
What is left out is the line number, which nobody reads.

The result (`QuAPI.Quapify.Outcome`) is what has been called so far, and the message that is
returned: there is none if the parser succeeds.
-/

namespace QuAPI

namespace Quapify

/-! ### Characters and numbers -/

/-- `strictness`. -/
inductive Strictness where
  | relaxedParsing
  | normalParsing
  | pedanticParsing
deriving DecidableEq

/-- `MAX_VARS`. -/
def maxVars : ℕ := 2147483647

/-- `UINT64_MAX`. -/
def uint64Max : ℕ := 18446744073709551615

/-- The two functions that the parser parses into. -/
inductive Callback where
  | addQuantifier (lit : ℤ)
  | addLit (lit : ℤ)
deriving DecidableEq

/-- The calls in order, and the message of an error. -/
abbrev Outcome := List Callback × Option String

/-- The value of a digit. -/
def digit (ch : Char) : ℕ := ch.toNat - '0'.toNat

/-- A number grows by a digit, unless it exceeds the bound. -/
def pushDigit (bound number : ℕ) (ch : Char) : Option ℕ :=
  if bound / 10 < number then none
  else if bound - digit ch < number * 10 then none
  else some (number * 10 + digit ch)

/-- The digits behind the first one of a number of the header. -/
def headerDigits (bound : ℕ) (message : String) : ℕ → List Char → Except String (ℕ × List Char)
  | number, [] => .ok (number, [])
  | number, ch :: rest =>
    if ch.isDigit then
      match pushDigit bound number ch with
      | none => .error message
      | some number => headerDigits bound message number rest
    else .ok (number, ch :: rest)

/-- A number of the header. -/
def headerNumber (bound : ℕ) (missing message : String) :
    List Char → Except String (ℕ × List Char)
  | [] => .error missing
  | ch :: rest =>
    if ch.isDigit then headerDigits bound message (digit ch) rest else .error missing

/-- A character that must come next. -/
def expect (ch : Char) (message : String) : List Char → Except String (List Char)
  | [] => .error message
  | c :: rest => if c = ch then .ok rest else .error message

/-- Blanks are skipped, but for the strictest mode. -/
def skipBlanks (strict : Strictness) (input : List Char) : List Char :=
  if strict = .pedanticParsing then input
  else input.dropWhile fun ch => ch = ' ' || ch = '\t'

/-- A carriage return comes in front of a new-line. -/
def carriageReturn : List Char → Except String (List Char)
  | '\r' :: '\n' :: rest => .ok ('\n' :: rest)
  | '\r' :: _ => .error "expected new-line after carriage-return"
  | input => .ok input

/-! ### The header -/

mutual

/-- The lines in front of the `p`. -/
def commentLines (strict : Strictness) (first : Bool) : List Char → Except String (List Char)
  | [] => .error (if first then "empty file" else "end-of-file before header")
  | ch :: rest =>
    if ch = 'p' then .ok rest
    else if ch = '\r' then
      match rest with
      | '\n' :: rest =>
        if strict = .pedanticParsing then .error "unexpected empty line"
        else commentLines strict false rest
      | _ => .error "expected new-line after carriage-return"
    else if ch = '\n' then
      if strict = .pedanticParsing then .error "unexpected empty line"
      else commentLines strict false rest
    else if ch = 'c' then commentStart strict rest
    else .error "expected 'c' or 'p' at start of line"

/-- The blanks behind the `c` of a comment: `START`. -/
def commentStart (strict : Strictness) : List Char → Except String (List Char)
  | [] => .error "end-of-file in header comment"
  | ch :: rest =>
    if ch = '\n' then commentLines strict false rest
    else if ch = '\r' then
      match rest with
      | '\n' :: rest => commentLines strict false rest
      | _ => .error "expected new-line after carriage-return"
    else if ch = ' ' ∨ ch = '\t' then commentStart strict rest
    else commentText strict rest

/-- The rest of a comment. -/
def commentText (strict : Strictness) : List Char → Except String (List Char)
  | [] => .error "end-of-file in header comment"
  | ch :: rest =>
    if ch = '\n' then commentLines strict false rest
    else if ch = '\r' then
      match rest with
      | '\n' :: rest => commentLines strict false rest
      | _ => .error "expected new-line after carriage-return"
    else commentText strict rest

end

/-- What the header announces, and the body behind it. -/
structure Header where
  vars : ℕ
  clauses : ℕ
  body : List Char
deriving DecidableEq

/-- The header line, behind its `p`. -/
def problemLine (strict : Strictness) (input : List Char) : Except String Header := do
  let input ← expect ' ' "expected space after 'p'" input
  let input ← expect 'c' "expected 'c' after 'p '" (skipBlanks strict input)
  let input ← expect 'n' "expected 'n' after 'p c'" input
  let input ← expect 'f' "expected 'n' after 'p cn'" input
  let input ← expect ' ' "expected space after 'p cnf'" input
  let (vars, input) ← headerNumber maxVars "expected digit after 'p cnf '"
    "maximum variable too large" (skipBlanks strict input)
  if input = [] then throw "unexpected end-of-file while parsing maximum variable"
  let input ← carriageReturn input
  if input.head? = some '\n' then throw "unexpected new-line after maximum variable"
  let input ← expect ' ' "expected space after maximum variable" input
  let (clauses, input) ← headerNumber uint64Max
    "expected number of clauses after maximum variable" "number of clauses too large"
    (skipBlanks strict input)
  if input = [] then throw "unexpected end-of-file while parsing number of clauses"
  let input ← carriageReturn (skipBlanks strict input)
  if input = [] then throw "unexpected end-of-file after parsing number of clauses"
  let body ← expect '\n' "expected new-line after parsing number of clauses" input
  return ⟨vars, clauses, body⟩

/-- Everything in front of the body. -/
def parseHeader (strict : Strictness) (input : List Char) : Except String Header := do
  problemLine strict (← commentLines strict true input)

/-! ### The body -/

/-- The variables of the body loop. -/
structure BodyState where
  blockExists : Bool
  blockForall : Bool
  parsed : ℕ
  lit : ℤ
deriving DecidableEq

/-- The variables when the loop starts. -/
def BodyState.init : BodyState := ⟨false, false, 0, 0⟩

/-- One of the two blocks is open. -/
def BodyState.inBlock (s : BodyState) : Bool := s.blockExists || s.blockForall

/-- An error: nothing is called. -/
def fail (message : String) : Outcome := ([], some message)

/-- Behind the body loop. -/
def endOfBody (strict : Strictness) (clauses : ℕ) (s : BodyState) : Outcome :=
  if s.lit ≠ 0 then fail "trailing zero missing"
  else if strict ≠ .relaxedParsing ∧ s.parsed < clauses then
    if s.parsed + 1 = clauses then fail "one clause missing (try '--relaxed' parsing)"
    else fail "more than one clause missing (try '--relaxed' parsing)"
  else ([], none)

/-- A number has been read: the checks, and the call. -/
def useNumber (strict : Strictness) (vars clauses : ℕ) (s : BodyState) (sign : ℤ)
    (idx : ℕ) : Except String (BodyState × List Callback) :=
  if strict ≠ .relaxedParsing ∧ vars < idx then
    .error "maximum variable index exceeded (try '--relaxed' parsing)"
  else if idx ≠ 0 then
    if s.inBlock then
      .ok ({ s with lit := sign * idx },
        [.addQuantifier (if s.blockForall then -|sign * idx| else |sign * idx|)])
    else .ok ({ s with lit := sign * idx }, [.addLit (sign * idx)])
  else if strict ≠ .relaxedParsing ∧ s.parsed = clauses then
    .error "too many clauses (try '--relaxed' parsing)"
  else if s.inBlock then .ok ({ s with blockExists := false, blockForall := false, lit := 0 }, [])
  else .ok ({ s with parsed := s.parsed + 1, lit := 0 }, [.addLit 0])

/-- Going on behind a number. -/
def andThen (x : Except String (BodyState × List Callback)) (k : BodyState → Outcome) : Outcome :=
  match x with
  | .error message => fail message
  | .ok (s, calls) => (calls ++ (k s).1, (k s).2)

section

variable (strict : Strictness) (vars clauses : ℕ)

mutual

/-- The head of the body loop. The character behind the letter of a block is consumed
unseen. -/
def parseBody (s : BodyState) : List Char → Outcome
  | [] => endOfBody strict clauses s
  | ch :: rest =>
    if ch = ' ' ∨ ch = '\t' ∨ ch = '\n' then parseBody s rest
    else if ch = '\r' then
      match rest with
      | '\n' :: rest => parseBody s rest
      | _ => fail "expected new-line after carriage-return"
    else if ch = 'c' then bodyComment s rest
    else if ch = '-' then
      match rest with
      | [] => fail "unexpected end-of-file after '-'"
      | ch :: rest =>
        if ch = '\n' then fail "unexpected new-line after '-'"
        else if ¬ch.isDigit then fail "expected digit after '-'"
        else if ch = '0' then fail "expected non-zero digit after '-'"
        else number s (-1) (digit ch) rest
    else if ch = 'e' ∨ ch = 'a' then
      if s.inBlock then fail "previous quantifier block not closed!"
      else
        let s := if ch = 'e' then { s with blockExists := true }
          else { s with blockForall := true }
        match rest with
        | [] => endOfBody strict clauses s
        | _ :: rest => parseBody s rest
    else if ¬ch.isDigit then fail "expected digit or '-'"
    else number s 1 (digit ch) rest

/-- A comment of the body. -/
def bodyComment (s : BodyState) : List Char → Outcome
  | [] =>
    if strict ≠ .pedanticParsing then endOfBody strict clauses s
    else fail "unexpected end-of-file in comment after header"
  | ch :: rest => if ch = '\n' then parseBody s rest else bodyComment s rest

/-- The digits of a number behind the first one, and what may follow it. -/
def number (s : BodyState) (sign : ℤ) (idx : ℕ) : List Char → Outcome
  | [] =>
    if strict = .pedanticParsing then
      if idx ≠ 0 then fail "unexpected end-of-file after literal"
      else fail "unexpected end-of-file after trailing zero"
    else andThen (useNumber strict vars clauses s sign idx) (endOfBody strict clauses)
  | ch :: rest =>
    if ch.isDigit then
      match pushDigit maxVars idx ch with
      | none => fail "variable index too large"
      | some idx => number s sign idx rest
    else if ch = '\r' then
      match rest with
      | '\n' :: rest =>
        andThen (useNumber strict vars clauses s sign idx) fun s => parseBody s rest
      | _ => fail "expected new-line after carriage-return"
    else if ch = 'c' then numberComment s sign idx rest
    else if ch ≠ ' ' ∧ ch ≠ '\t' ∧ ch ≠ '\n' then fail "expected white space after literal"
    else andThen (useNumber strict vars clauses s sign idx) fun s => parseBody s rest

/-- A comment directly behind a number. -/
def numberComment (s : BodyState) (sign : ℤ) (idx : ℕ) : List Char → Outcome
  | [] =>
    if strict ≠ .pedanticParsing then
      andThen (useNumber strict vars clauses s sign idx) (endOfBody strict clauses)
    else fail "unexpected end-of-file in comment after literal"
  | ch :: rest =>
    if ch = '\n' then
      andThen (useNumber strict vars clauses s sign idx) fun s => parseBody s rest
    else numberComment s sign idx rest

end

end

/-- `kissat_parse_dimacs`. -/
def kissatParseDimacs (strict : Strictness) (input : List Char) : Outcome :=
  match parseHeader strict input with
  | .error message => fail message
  | .ok h => parseBody strict h.vars h.clauses .init h.body

example : kissatParseDimacs .normalParsing "p cnf 2 2\n1 0\ne 2 0\n-1 0\n".toList =
    ([.addLit 1, .addLit 0, .addQuantifier 2, .addLit (-1), .addLit 0], none) := by decide +kernel

end Quapify

end QuAPI
