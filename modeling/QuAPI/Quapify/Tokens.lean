import QuAPI.Quapify.Parse

/-!
# Prefix, then matrix

What the body of a formula file says, and what the parser makes of it. The tokens of a body
(`QuAPI.Quapify.tokens`) are the letters of its quantifier blocks and its integers; a letter
stands alone, with white space behind it.

A body should be a sequence of quantifier blocks, each closed by a 0, and then a sequence of
clauses, each closed by a 0 (`QuAPI.Quapify.PrefixThenMatrix`). The parser keeps two flags for
the blocks, and tests at the end of the file that the last number was a 0. That accepts more: a
block in the middle of a clause or behind the clauses, a block without its 0, and a letter that
swallows the first character of what is glued to it. `QuAPI.Quapify.parse_accepts_iff` says that
there is nothing else.
-/

namespace QuAPI

namespace Quapify

/-! ### Tokens -/

/-- A token of a body. -/
inductive Token where
  /-- The letter of a quantifier block. -/
  | block (universal : Bool)
  | int (i : ℤ)
  /-- Something else, where the tokens end. -/
  | other (ch : Char)
deriving DecidableEq

/-- White space. -/
def isBlank (ch : Char) : Bool := ch = ' ' || ch = '\t' || ch = '\n' || ch = '\r'

mutual

/-- The tokens of a body. A comment begins at a `c` and ends with its line. -/
def tokens : List Char → List Token
  | [] => []
  | ch :: rest =>
    if isBlank ch then tokens rest
    else if ch = 'c' then commentTokens rest
    else if ch = 'e' ∨ ch = 'a' then
      match rest with
      | [] => [.block (ch = 'a')]
      | sep :: rest => if isBlank sep then .block (ch = 'a') :: tokens rest else [.other ch]
    else if ch = '-' then
      match rest with
      | [] => [.other ch]
      | ch :: rest => if ch.isDigit then numberTokens (-1) (digit ch) rest else [.other ch]
    else if ch.isDigit then numberTokens 1 (digit ch) rest
    else [.other ch]

/-- The tokens behind a comment. -/
def commentTokens : List Char → List Token
  | [] => []
  | ch :: rest => if ch = '\n' then tokens rest else commentTokens rest

/-- The tokens from the second digit of an integer on. -/
def numberTokens (sign : ℤ) (idx : ℕ) : List Char → List Token
  | [] => [.int (sign * idx)]
  | ch :: rest =>
    if ch.isDigit then numberTokens sign (idx * 10 + digit ch) rest
    else if isBlank ch then .int (sign * idx) :: tokens rest
    else if ch = 'c' then .int (sign * idx) :: commentTokens rest
    else [.int (sign * idx), .other ch]

end

/-- The tokens are complete. -/
def Complete (toks : List Token) : Prop := ∀ ch, Token.other ch ∉ toks

/-- **What should be called**: `add_quantifier` for the integers of a block, with the sign of
the block, and `add_lit` for all others. The 0 that closes a block ends it. -/
def reports : Option Bool → List Token → List Callback
  | _, [] => []
  | _, .block universal :: toks => reports (some universal) toks
  | none, .int i :: toks => .addLit i :: reports none toks
  | some universal, .int i :: toks =>
    if i = 0 then reports none toks
    else .addQuantifier (if universal then -|i| else |i|) :: reports (some universal) toks
  | block, .other _ :: toks => reports block toks

/-- The last integer. -/
def lastInt : ℤ → List Token → ℤ
  | i, [] => i
  | _, .int i :: toks => lastInt i toks
  | i, _ :: toks => lastInt i toks

/-! ### The parser along the tokens -/

/-- The block of the two flags. -/
def BodyState.block (s : BodyState) : Option Bool :=
  if s.blockForall then some true else if s.blockExists then some false else none

/-- **A success reads the tokens**: it calls what should be called, and the last number is a
0. -/
def Reads (s : BodyState) (toks : List Token) (x : Outcome) : Prop :=
  x.2 = none → Complete toks → x.1 = reports s.block toks ∧ lastInt s.lit toks = 0

section

variable {strict : Strictness} {vars clauses : ℕ} {s s' : BodyState} {sign : ℤ} {idx : ℕ}
  {toks : List Token} {calls : List Callback} {x : Outcome}

theorem BodyState.block_of_inBlock (h : s.inBlock = true) : s.block = some s.blockForall := by
  obtain ⟨e, a, n, l⟩ := s
  cases a with
  | true => rfl
  | false =>
    cases e with
    | true => rfl
    | false => exact absurd h Bool.false_ne_true

theorem BodyState.block_of_not (h : ¬s.inBlock = true) : s.block = none := by
  obtain ⟨e, a, n, l⟩ := s
  cases a with
  | true => exact absurd (Bool.or_true e) h
  | false =>
    cases e with
    | true => exact absurd rfl h
    | false => rfl

theorem fail_ne (message : String) : (fail message).2 ≠ none := Option.some_ne_none message

theorem reads_fail (message : String) : Reads s toks (fail message) := fun h =>
  absurd h (fail_ne message)

/-- Without tokens, the last number must be a 0. -/
theorem reads_endOfBody : Reads s [] (endOfBody strict clauses s) := by
  intro h _
  rw [endOfBody] at h ⊢
  split at h
  case isTrue => exact absurd h (fail_ne _)
  case isFalse hlit =>
    rw [if_neg hlit]
    refine ⟨?_, not_not.mp hlit⟩
    split
    case isTrue hfew =>
      rw [if_pos hfew] at h
      split at h <;> exact absurd h (fail_ne _)
    case isFalse => rfl

/-- **A number that is used** is reported, and opens or closes nothing else. -/
theorem useNumber_spec (hsign : sign ≠ 0)
    (h : useNumber strict vars clauses s sign idx = .ok (s', calls)) :
    s'.lit = sign * idx ∧
      reports s.block (.int (sign * idx) :: toks) = calls ++ reports s'.block toks := by
  rw [useNumber] at h
  split at h
  case isTrue => exact absurd h (by simp)
  split at h
  case isTrue hidx =>
    have hne : sign * (idx : ℤ) ≠ 0 := mul_ne_zero hsign (Nat.cast_ne_zero.mpr hidx)
    split at h
    case isTrue hblock =>
      -- a variable of a block
      obtain ⟨rfl, rfl⟩ := Prod.mk.inj (Except.ok.inj h)
      refine ⟨rfl, ?_⟩
      change _ = _ ++ reports s.block toks
      rw [s.block_of_inBlock hblock, reports, if_neg hne]
      rfl
    case isFalse hblock =>
      -- a literal
      obtain ⟨rfl, rfl⟩ := Prod.mk.inj (Except.ok.inj h)
      refine ⟨rfl, ?_⟩
      change _ = _ ++ reports s.block toks
      rw [s.block_of_not hblock]
      rfl
  case isFalse hidx =>
    have hzero : sign * (idx : ℤ) = 0 := by rw [not_not.mp hidx, Nat.cast_zero, mul_zero]
    split at h
    case isTrue => exact absurd h (by simp)
    split at h
    case isTrue hblock =>
      -- the end of a block
      obtain ⟨rfl, rfl⟩ := Prod.mk.inj (Except.ok.inj h)
      refine ⟨hzero.symm, ?_⟩
      rw [s.block_of_inBlock hblock, reports, if_pos hzero]
      rfl
    case isFalse hblock =>
      -- the end of a clause
      obtain ⟨rfl, rfl⟩ := Prod.mk.inj (Except.ok.inj h)
      refine ⟨hzero.symm, ?_⟩
      change _ = _ ++ reports s.block toks
      rw [s.block_of_not hblock, hzero]
      rfl

/-- Behind a number, the parser reads on. -/
theorem reads_andThen {k : BodyState → Outcome} (hsign : sign ≠ 0)
    (hk : ∀ s', Reads s' toks (k s')) :
    Reads s (.int (sign * idx) :: toks) (andThen (useNumber strict vars clauses s sign idx) k) := by
  intro h hc
  cases hu : useNumber strict vars clauses s sign idx with
  | error message =>
    rw [hu] at h
    exact absurd h (fail_ne message)
  | ok r =>
    obtain ⟨s', calls⟩ := r
    rw [hu] at h
    obtain ⟨hlit, hreports⟩ : _ ∧ reports s.block (.int (sign * idx) :: toks) =
        calls ++ reports s'.block toks := useNumber_spec hsign hu
    obtain ⟨hcalls, hlast⟩ := hk s' h fun ch hm => hc ch (List.mem_cons_of_mem _ hm)
    constructor
    · rw [hreports, ← hcalls]
      rfl
    · rw [lastInt, ← hlit]
      exact hlast

/-- The parser goes along the tokens from the head of each of its loops. -/
structure Loops (strict : Strictness) (vars clauses : ℕ) (cs : List Char) : Prop where
  body : ∀ s, Reads s (tokens cs) (parseBody strict vars clauses s cs)
  comment : ∀ s, Reads s (commentTokens cs) (bodyComment strict vars clauses s cs)
  number : ∀ s (sign : ℤ) (idx : ℕ), sign ≠ 0 →
    Reads s (numberTokens sign idx cs) (number strict vars clauses s sign idx cs)
  numberComment : ∀ s (sign : ℤ) (idx : ℕ), sign ≠ 0 →
    Reads s (.int (sign * idx) :: commentTokens cs)
      (numberComment strict vars clauses s sign idx cs)

/-- There are no tokens behind something else. -/
theorem reads_other {ch : Char} (h : .other ch ∈ toks) : Reads s toks x :=
  fun _ hc => absurd h (hc ch)

/-- The letter of a block opens it. -/
theorem Reads.letter {universal : Bool} (h : Reads s' toks x) (hb : s'.block = some universal)
    (hl : s'.lit = s.lit) : Reads s (.block universal :: toks) x := by
  intro hx hc
  obtain ⟨hcalls, hlast⟩ := h hx fun ch hm => hc ch (List.mem_cons_of_mem _ hm)
  rw [hb] at hcalls
  rw [hl] at hlast
  refine ⟨?_, hlast⟩
  rw [hcalls]
  cases s.block <;> rfl

theorem pushDigit_some {bound number n : ℕ} {ch : Char} (h : pushDigit bound number ch = some n) :
    n = number * 10 + digit ch := by
  rw [pushDigit] at h
  split_ifs at h
  exact (Option.some.inj h).symm

/-- White space is skipped. -/
theorem tokens_blank {ch : Char} {rest : List Char} (h : isBlank ch = true) :
    tokens (ch :: rest) = tokens rest := by
  rw [tokens.eq_def]
  simp only [if_pos h]

/-- The two letters. -/
theorem reads_letter {ch : Char} {rest : List Char} (hch : ch = 'e' ∨ ch = 'a')
    (hrest : ∀ cs, cs.length < rest.length + 1 → Loops strict vars clauses cs) (s : BodyState) :
    Reads s (tokens (ch :: rest)) (parseBody strict vars clauses s (ch :: rest)) := by
  have hblank : ¬isBlank ch = true := by rcases hch with rfl | rfl <;> decide
  have hwhite : ¬(ch = ' ' ∨ ch = '\t' ∨ ch = '\n') := by rcases hch with rfl | rfl <;> decide
  have hreturn : ¬ch = '\r' := by rcases hch with rfl | rfl <;> decide
  have hcomment : ¬ch = 'c' := by rcases hch with rfl | rfl <;> decide
  have hminus : ¬ch = '-' := by rcases hch with rfl | rfl <;> decide
  rw [tokens.eq_def, parseBody.eq_def]
  simp only [if_neg hblank, if_neg hwhite, if_neg hreturn, if_neg hcomment, if_neg hminus,
    if_pos hch]
  by_cases hopen : s.inBlock = true
  -- a letter within a block
  · rw [if_pos hopen]
    exact reads_fail _
  · rw [if_neg hopen]
    have hstate : ∃ s' : BodyState, (if ch = 'e' then { s with blockExists := true }
        else { s with blockForall := true }) = s' ∧ s'.block = some (decide (ch = 'a')) ∧
          s'.lit = s.lit := by
      obtain ⟨e, a, n, l⟩ := s
      cases a with
      | true => exact absurd (Bool.or_true e) hopen
      | false => rcases hch with rfl | rfl <;> exact ⟨_, rfl, rfl, rfl⟩
    obtain ⟨s', hs', hblock, hlit⟩ := hstate
    rw [hs']
    cases rest with
    | nil => exact Reads.letter reads_endOfBody hblock hlit
    | cons sep rest =>
      -- something must stand between the letter and the first variable
      by_cases hsep : isBlank sep = true
      · simp only [if_pos hsep]
        exact ((hrest rest (by simp)).body s').letter hblock hlit
      · simp only [if_neg hsep]
        exact reads_other List.mem_cons_self

/-- A sign, and the digit that must come behind it. -/
theorem reads_minus {rest : List Char} (hrest : ∀ cs, cs.length < rest.length + 1 →
      Loops strict vars clauses cs) (s : BodyState) :
    Reads s (tokens ('-' :: rest)) (parseBody strict vars clauses s ('-' :: rest)) := by
  have hblank : ¬isBlank '-' = true := by decide
  have hwhite : ¬('-' = ' ' ∨ '-' = '\t' ∨ '-' = '\n') := by decide
  have hreturn : ¬('-' = '\r') := by decide
  have hcomment : ¬('-' = 'c') := by decide
  have hletter : ¬('-' = 'e' ∨ '-' = 'a') := by decide
  rw [tokens.eq_def, parseBody.eq_def]
  simp only [if_neg hblank, if_neg hwhite, if_neg hreturn, if_neg hcomment, if_neg hletter,
    if_true]
  cases rest with
  | nil => exact reads_fail _
  | cons ch rest =>
    by_cases hdigit : ch.isDigit = true
    · simp only [hdigit, not_true, if_false, if_true]
      -- no digit has come yet, and a zero must not have a sign
      by_cases hline : ch = '\n'
      · rw [if_pos hline]
        exact reads_fail _
      by_cases hzero : ch = '0'
      · rw [if_neg hline, if_pos hzero]
        exact reads_fail _
      rw [if_neg hline, if_neg hzero]
      exact (hrest rest (by simp)).number s (-1) (digit ch) (by decide)
    · simp only [if_neg hdigit, if_pos hdigit]
      split <;> exact reads_fail _

/-- The other characters. -/
theorem reads_plain {ch : Char} {rest : List Char} (hletter : ¬(ch = 'e' ∨ ch = 'a'))
    (hminus : ¬ch = '-') (hrest : ∀ cs, cs.length < rest.length + 1 → Loops strict vars clauses cs)
    (s : BodyState) :
    Reads s (tokens (ch :: rest)) (parseBody strict vars clauses s (ch :: rest)) := by
  have hself := hrest rest (Nat.lt_succ_self _)
  rw [parseBody.eq_def]
  simp only [if_neg hletter, if_neg hminus]
  by_cases hwhite : ch = ' ' ∨ ch = '\t' ∨ ch = '\n'
  · rw [if_pos hwhite, tokens_blank (by rcases hwhite with rfl | rfl | rfl <;> rfl)]
    exact hself.body s
  rw [if_neg hwhite]
  by_cases hreturn : ch = '\r'
  · rw [if_pos hreturn, tokens_blank (by rw [hreturn]; rfl)]
    split
    case h_1 rest =>
      rw [tokens_blank (by decide)]
      exact (hrest rest (by simp)).body s
    case h_2 => exact reads_fail _
  have hblank : ¬isBlank ch = true := by
    simp only [isBlank, Bool.or_eq_true, decide_eq_true_eq]
    tauto
  rw [if_neg hreturn, tokens.eq_def]
  simp only [if_neg hblank, if_neg hletter, if_neg hminus]
  by_cases hcomment : ch = 'c'
  · rw [if_pos hcomment, if_pos hcomment]
    exact hself.comment s
  rw [if_neg hcomment, if_neg hcomment]
  by_cases hdigit : ch.isDigit = true
  · rw [if_neg (not_not.mpr hdigit), if_pos hdigit]
    exact hself.number s 1 (digit ch) one_ne_zero
  · rw [if_pos hdigit]
    exact reads_fail _

/-- Another character of a number, or the first behind it. -/
theorem reads_digits {ch : Char} {rest : List Char} (hsign : sign ≠ 0)
    (hrest : ∀ cs, cs.length < rest.length + 1 → Loops strict vars clauses cs) (s : BodyState) :
    Reads s (numberTokens sign idx (ch :: rest))
      (number strict vars clauses s sign idx (ch :: rest)) := by
  have hself := hrest rest (Nat.lt_succ_self _)
  rw [numberTokens, number.eq_def]
  simp only []
  by_cases hdigit : ch.isDigit = true
  · rw [if_pos hdigit, if_pos hdigit]
    cases hpush : pushDigit maxVars idx ch with
    | none => exact reads_fail _
    | some next => exact pushDigit_some hpush ▸ hself.number s sign next hsign
  rw [if_neg hdigit, if_neg hdigit]
  by_cases hreturn : ch = '\r'
  · rw [if_pos hreturn, if_pos (by rw [hreturn]; rfl)]
    split
    case h_1 rest =>
      rw [tokens_blank (by decide)]
      exact reads_andThen hsign (hrest rest (by simp)).body
    case h_2 => exact reads_fail _
  rw [if_neg hreturn]
  by_cases hcomment : ch = 'c'
  · rw [if_pos hcomment, if_neg (by rw [hcomment]; decide), if_pos hcomment]
    exact hself.numberComment s sign idx hsign
  rw [if_neg hcomment, if_neg hcomment]
  by_cases hwhite : ch ≠ ' ' ∧ ch ≠ '\t' ∧ ch ≠ '\n'
  · rw [if_pos hwhite]
    exact reads_fail _
  · have hblank : isBlank ch = true := by
      simp only [isBlank, Bool.or_eq_true, decide_eq_true_eq]
      tauto
    rw [if_neg hwhite, if_pos hblank]
    exact reads_andThen hsign hself.body

/-- **The parser along the tokens.** -/
theorem loops (cs : List Char) : Loops strict vars clauses cs := by
  -- on the number of characters that are left
  induction hn : cs.length using Nat.strong_induction_on generalizing cs with
  | _ n ih =>
    subst hn
    cases cs with
    | nil =>
      refine ⟨fun s => reads_endOfBody, ?_, ?_, ?_⟩
      · intro s
        rw [bodyComment]
        split
        · exact reads_endOfBody
        · exact reads_fail _
      -- in a number, and behind it in a comment
      · intro s sign idx hsign
        rw [number]
        split
        · split <;> exact reads_fail _
        · exact reads_andThen hsign fun s' => reads_endOfBody
      · intro s sign idx hsign
        rw [numberComment]
        split
        · exact reads_andThen hsign fun s' => reads_endOfBody
        · exact reads_fail _
    | cons ch rest =>
      have hrest : ∀ cs, cs.length < rest.length + 1 → Loops strict vars clauses cs :=
        fun cs hlen => ih cs.length hlen cs rfl
      have hself : Loops strict vars clauses rest := hrest rest (Nat.lt_succ_self _)
      refine ⟨?_, ?_, fun s sign idx hsign => reads_digits hsign hrest s, ?_⟩
      · intro s
        by_cases hletter : ch = 'e' ∨ ch = 'a'
        · exact reads_letter hletter hrest s
        by_cases hminus : ch = '-'
        · exact hminus ▸ reads_minus hrest s
        exact reads_plain hletter hminus hrest s
      · intro s
        rw [commentTokens, bodyComment]
        split
        · exact hself.body s
        · exact hself.comment s
      · intro s sign idx hsign
        rw [commentTokens, numberComment]
        split
        · exact reads_andThen hsign hself.body
        · exact hself.numberComment s sign idx hsign

end

/-! ### Blocks, then clauses -/

/-- An integer that is not zero. -/
abbrev NzInt := {i : ℤ // i ≠ 0}

/-- A block: its letter, its variables, and a 0. -/
def blockTokens (block : Bool × List NzInt) : List Token :=
  .block block.1 :: (block.2.map fun v => .int v.1) ++ [.int 0]

/-- A clause: its literals, and a 0. -/
def clauseTokens (ls : List NzInt) : List Token := (ls.map fun l => .int l.1) ++ [.int 0]

/-- A sequence of blocks, and then a sequence of clauses. -/
def bodyTokens (blocks : List (Bool × List NzInt)) (clauses : List (List NzInt)) : List Token :=
  blocks.flatMap blockTokens ++ clauses.flatMap clauseTokens

/-- **A prefix, then a matrix**: the body is a sequence of blocks and then a sequence of clauses,
its integers are reported by what they stand in, and all quantifiers are reported before all
literals. -/
structure PrefixThenMatrix (toks : List Token) (calls : List Callback) : Prop where
  form : ∃ blocks clauses, toks = bodyTokens blocks clauses
  reported : calls = reports none toks
  ordered : ∃ qs ls : List ℤ, calls = qs.map .addQuantifier ++ ls.map .addLit

/-- **The letters are in place**: each has white space behind it, none comes in a block or
behind a number of the matrix, and the last block has its 0. The flag says whether a block is
open. -/
def lettersInPlace : Bool → List Token → Bool
  | inBlock, [] => !inBlock
  | _, .other _ :: _ => false
  | false, .block _ :: toks => lettersInPlace true toks
  | true, .block _ :: _ => false
  | true, .int i :: toks => lettersInPlace (decide (i ≠ 0)) toks
  | false, .int _ :: toks => toks.all fun tok => match tok with
    | .int _ => true
    | _ => false

section

variable {toks : List Token} {calls : List Callback} {i : ℤ}

/-- The tokens of a matrix are integers. -/
theorem exists_ints (h : (toks.all fun tok => match tok with
    | .int _ => true
    | _ => false) = true) : ∃ is : List ℤ, toks = is.map .int := by
  induction toks with
  | nil => exact ⟨[], rfl⟩
  | cons tok toks ih =>
    rw [List.all_cons, Bool.and_eq_true] at h
    obtain ⟨is, rfl⟩ := ih h.2
    cases tok with
    | int i => exact ⟨i :: is, rfl⟩
    | block universal => exact absurd h.1 Bool.false_ne_true
    | other ch => exact absurd h.1 Bool.false_ne_true

theorem complete_of_lettersInPlace {inBlock : Bool} (h : lettersInPlace inBlock toks = true) :
    Complete toks := by
  induction toks generalizing inBlock with
  | nil => exact fun ch hm => absurd hm List.not_mem_nil
  | cons tok toks ih =>
    intro ch hm
    cases tok with
    | other ch => cases inBlock <;> exact absurd h Bool.false_ne_true
    | block universal =>
      cases inBlock with
      | true => exact absurd h Bool.false_ne_true
      | false => exact ih h ch ((List.mem_cons.mp hm).resolve_left Token.noConfusion)
    | int i =>
      have hm' := (List.mem_cons.mp hm).resolve_left Token.noConfusion
      cases inBlock with
      | true => exact ih h ch hm'
      | false =>
        obtain ⟨is, rfl⟩ := exists_ints h
        obtain ⟨j, -, hj⟩ := List.mem_map.mp hm'
        exact Token.noConfusion hj

/-- **Integers with a 0 at their end** are clauses. -/
theorem clauses_of_ints (is : List ℤ) (h : lastInt i (is.map .int) = 0) :
    ∃ (ls : List NzInt) (clauses : List (List NzInt)),
      (i :: is).map Token.int = clauseTokens ls ++ clauses.flatMap clauseTokens := by
  -- from the end, where the last zero is
  induction is generalizing i with
  | nil =>
    obtain rfl : i = 0 := h
    exact ⟨[], [], rfl⟩
  | cons j is ih =>
    obtain ⟨ls, clauses, hls⟩ := ih h
    by_cases h0 : i = 0
    · refine ⟨[], ls :: clauses, ?_⟩
      rw [List.map_cons, hls, h0]
      rfl
    · refine ⟨⟨i, h0⟩ :: ls, clauses, ?_⟩
      rw [List.map_cons, hls]
      rfl

/-- What an accepted body looks like, inside of a block and outside. -/
theorem form_of_lettersInPlace (toks : List Token) :
    (∀ i, lettersInPlace true toks = true → lastInt i toks = 0 →
      ∃ (vs : List NzInt) (blocks : List (Bool × List NzInt)) (clauses : List (List NzInt)),
        toks = (vs.map fun v => .int v.1) ++ .int 0 :: bodyTokens blocks clauses) ∧
    (lettersInPlace false toks = true → lastInt 0 toks = 0 →
      ∃ blocks clauses, toks = bodyTokens blocks clauses) := by
  induction toks with
  | nil => exact ⟨fun i h => absurd h Bool.false_ne_true, fun _ _ => ⟨[], [], rfl⟩⟩
  | cons tok toks ih =>
    obtain ⟨ihopen, ihclosed⟩ := ih
    cases tok with
    | other ch =>
      exact ⟨fun i h => absurd h Bool.false_ne_true, fun h => absurd h Bool.false_ne_true⟩
    | block universal =>
      refine ⟨fun i h => absurd h Bool.false_ne_true, ?_⟩
      intro h hlast
      obtain ⟨vs, blocks, clauses, htoks⟩ := ihopen 0 h hlast
      refine ⟨(universal, vs) :: blocks, clauses, ?_⟩
      rw [htoks]
      simp only [bodyTokens, List.flatMap_cons, blockTokens, List.cons_append, List.append_assoc,
        List.nil_append]
    | int i =>
      constructor
      · intro j h hlast
        change lettersInPlace (decide (i ≠ 0)) toks = true at h
        -- a zero closes the block, and any other integer is a variable of it
        by_cases h0 : i = 0
        · subst h0
          obtain ⟨blocks, clauses, htoks⟩ := ihclosed h hlast
          exact ⟨[], blocks, clauses, congrArg _ htoks⟩
        · rw [decide_eq_true h0] at h
          obtain ⟨vs, blocks, clauses, htoks⟩ := ihopen i h hlast
          exact ⟨⟨i, h0⟩ :: vs, blocks, clauses, congrArg _ htoks⟩
      · intro h hlast
        obtain ⟨is, rfl⟩ := exists_ints h
        obtain ⟨ls, clauses, htoks⟩ := clauses_of_ints is hlast
        exact ⟨[], ls :: clauses, htoks⟩

/-- The letters of such a body are in place. -/
theorem lettersInPlace_of_form (blocks : List (Bool × List NzInt)) (clauses : List (List NzInt)) :
    lettersInPlace false (bodyTokens blocks clauses) = true := by
  have hmatrix : lettersInPlace false (clauses.flatMap clauseTokens) = true := by
    have hint : ∀ tok ∈ clauses.flatMap clauseTokens, ∃ i, tok = .int i := by
      intro tok hm
      obtain ⟨ls, -, htok⟩ := List.mem_flatMap.mp hm
      rcases List.mem_append.mp htok with htok | htok
      · obtain ⟨l, -, rfl⟩ := List.mem_map.mp htok
        exact ⟨_, rfl⟩
      · exact ⟨0, List.mem_singleton.mp htok⟩
    cases hc : clauses.flatMap clauseTokens with
    | nil => rfl
    | cons tok toks =>
      rw [hc] at hint
      obtain ⟨i, rfl⟩ := hint tok List.mem_cons_self
      refine List.all_eq_true.mpr ?_
      intro tok hm
      obtain ⟨j, rfl⟩ := hint tok (List.mem_cons_of_mem _ hm)
      rfl
  induction blocks with
  | nil => exact hmatrix
  | cons block blocks ih =>
    obtain ⟨universal, vs⟩ := block
    rw [bodyTokens, List.flatMap_cons, blockTokens, List.append_assoc, List.append_assoc]
    change lettersInPlace true _ = true
    induction vs with
    | nil => exact ih
    | cons v vs ihvs =>
      change lettersInPlace (decide (v.1 ≠ 0)) _ = true
      rw [decide_eq_true v.2]
      exact ihvs

/-- What should be called for such a body. -/
theorem reports_of_form (blocks : List (Bool × List NzInt)) (clauses : List (List NzInt)) :
    ∃ qs ls : List ℤ, reports none (bodyTokens blocks clauses) =
      qs.map .addQuantifier ++ ls.map .addLit := by
  have hmatrix : ∀ toks : List Token, (∀ tok ∈ toks, ∃ i, tok = .int i) →
      ∃ ls : List ℤ, reports none toks = ls.map .addLit := by
    intro toks hint
    induction toks with
    | nil => exact ⟨[], rfl⟩
    | cons tok toks ih =>
      obtain ⟨i, rfl⟩ := hint tok List.mem_cons_self
      obtain ⟨ls, hls⟩ := ih fun tok hm => hint tok (List.mem_cons_of_mem _ hm)
      exact ⟨i :: ls, congrArg _ hls⟩
  induction blocks with
  | nil =>
    obtain ⟨ls, hls⟩ := hmatrix (clauses.flatMap clauseTokens) fun tok hm => by
      obtain ⟨ls, -, htok⟩ := List.mem_flatMap.mp hm
      rcases List.mem_append.mp htok with htok | htok
      · obtain ⟨l, -, rfl⟩ := List.mem_map.mp htok
        exact ⟨_, rfl⟩
      · exact ⟨0, List.mem_singleton.mp htok⟩
    exact ⟨[], ls, hls⟩
  | cons block blocks ih =>
    obtain ⟨universal, vs⟩ := block
    rw [bodyTokens, List.flatMap_cons, blockTokens, List.append_assoc, List.append_assoc]
    change ∃ qs ls : List ℤ, reports (some universal) _ = _
    induction vs with
    | nil => exact ih
    | cons v vs ihvs =>
      obtain ⟨qs, ls, hqs⟩ := ihvs
      refine ⟨(if universal then -|v.1| else |v.1|) :: qs, ls, ?_⟩
      change (if v.1 = 0 then _ else _) = _
      rw [if_neg v.2, hqs]
      rfl

end

/-- A success has a header and a body. -/
theorem header_of_parse {strict : Strictness} {input : List Char} {calls : List Callback}
    (h : kissatParseDimacs strict input = (calls, none)) :
    ∃ hd, parseHeader strict input = .ok hd ∧
      parseBody strict hd.vars hd.clauses .init hd.body = (calls, none) := by
  rw [kissatParseDimacs] at h
  split at h
  case h_1 => exact absurd (congrArg Prod.snd h) (fail_ne _)
  case h_2 hd hhd => exact ⟨hd, hhd, h⟩

/-- **The parser accepts a prefix and then a matrix if and only if the letters are in place.**
For every input and every strictness with which the parser succeeds: the body is a sequence of
closed blocks and then a sequence of closed clauses, every integer of it – but for the zeros that
close the blocks – is passed once to `add_quantifier` inside of a block and to `add_lit` outside,
and all quantifiers come first, if and only if every letter of a block has white space behind it,
none comes behind a number of the matrix, and the last block is closed. -/
theorem parse_accepts_iff {strict : Strictness} {input : List Char} {calls : List Callback}
    (h : kissatParseDimacs strict input = (calls, none)) :
    ∃ hd, parseHeader strict input = .ok hd ∧
      (PrefixThenMatrix (tokens hd.body) calls ↔
        lettersInPlace false (tokens hd.body) = true) := by
  obtain ⟨hd, hhd, hbody⟩ := header_of_parse h
  refine ⟨hd, hhd, ?_⟩
  constructor
  · rintro ⟨⟨blocks, clauses, htoks⟩, -, -⟩
    rw [htoks]
    exact lettersInPlace_of_form blocks clauses
  · intro hplace
    have hreads : Reads .init (tokens hd.body) (calls, none) :=
      hbody ▸ (loops hd.body).body .init
    obtain ⟨hcalls, hlast⟩ := hreads rfl (complete_of_lettersInPlace hplace)
    obtain ⟨blocks, clauses, htoks⟩ := (form_of_lettersInPlace (tokens hd.body)).2 hplace hlast
    refine ⟨⟨blocks, clauses, htoks⟩, hcalls, ?_⟩
    obtain ⟨qs, ls, hordered⟩ := reports_of_form blocks clauses
    change calls = reports none (tokens hd.body) at hcalls
    exact ⟨qs, ls, by rw [hcalls, ← hordered, htoks]⟩

/-- **A body in order**: the prefix `∀x₁∃x₂` and one clause. -/
theorem accepted_in_order : ∃ hd,
    parseHeader .pedanticParsing "p cnf 2 1\na 1 0\ne 2 0\n1 -2 0\n".toList = .ok hd ∧
      PrefixThenMatrix (tokens hd.body) [.addQuantifier (-1), .addQuantifier 2, .addLit 1,
        .addLit (-2), .addLit 0] := by
  have hparse : kissatParseDimacs .pedanticParsing
      "p cnf 2 1\na 1 0\ne 2 0\n1 -2 0\n".toList = ([.addQuantifier (-1), .addQuantifier 2,
        .addLit 1, .addLit (-2), .addLit 0], none) := by decide +kernel
  have hhd : parseHeader .pedanticParsing "p cnf 2 1\na 1 0\ne 2 0\n1 -2 0\n".toList =
      .ok ⟨2, 1, "a 1 0\ne 2 0\n1 -2 0\n".toList⟩ := by decide +kernel
  obtain ⟨hd, hhd', hiff⟩ := parse_accepts_iff hparse
  obtain rfl := Except.ok.inj (hhd.symm.trans hhd')
  exact ⟨_, hhd, hiff.mpr (by decide +kernel)⟩

/-- **A body that is not in order**, and is accepted all the same: a block behind the first
clause. Its variable is reported behind a literal. -/
theorem accepted_out_of_order : ∃ calls hd,
    kissatParseDimacs .normalParsing "p cnf 2 2\n1 0\ne 2 0\n-1 0\n".toList = (calls, none) ∧
      parseHeader .normalParsing "p cnf 2 2\n1 0\ne 2 0\n-1 0\n".toList = .ok hd ∧
      calls = [.addLit 1, .addLit 0, .addQuantifier 2, .addLit (-1), .addLit 0] ∧
      ¬PrefixThenMatrix (tokens hd.body) calls := by
  refine ⟨_, ⟨2, 2, "1 0\ne 2 0\n-1 0\n".toList⟩, by decide +kernel, by decide +kernel,
    rfl, ?_⟩
  rintro ⟨-, -, qs, ls, hcalls⟩
  cases qs with
  | cons q qs => exact Callback.noConfusion (List.cons.inj hcalls).1
  | nil =>
    have hmem : Callback.addQuantifier 2 ∈ ls.map Callback.addLit := by
      rw [List.map_nil, List.nil_append] at hcalls
      rw [← hcalls]
      simp
    obtain ⟨l, -, hl⟩ := List.mem_map.mp hmem
    exact Callback.noConfusion hl

end Quapify

end QuAPI
