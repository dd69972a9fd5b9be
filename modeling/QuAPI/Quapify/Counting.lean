import QuAPI.Machine
import QuAPI.Quapify.RoundTrip
import QuAPI.Quapify.Tokens

/-!
# The number of clauses

How the parser checks the number of clauses that the header announces. Which texts are in order
but for that number is said by a grammar (`QuAPI.Quapify.Lexes`): white space, comments, letters
and numerals, each with what may stand behind it. On such a text the parser is a machine on
tokens (`QuAPI.Quapify.parseBody_lexes`), which are those of the text
(`QuAPI.Quapify.Lexes.tokens_eq`), and only the numbers are left to look at.

One branch handles each zero, whether it ends a clause or closes a block. It looks whether there
is room for a clause first, and then whether a block is open. So the zero of a block is turned
down where no clause is announced, and nowhere else: `QuAPI.Quapify.clause_count_iff`.
-/

namespace QuAPI

namespace Quapify

/-! ### Texts that are in order -/

/-- **The text of a number**: digits, behind a sign if need be, and then none of them is a zero in
front. -/
inductive Numeral : ℤ → List Char → Prop where
  | plain {d : Char} {ds : List Char} (hd : d.isDigit = true)
      (hds : ∀ e ∈ ds, e.isDigit = true) (hmax : Nat.ofDigitChars 10 ds (digit d) ≤ maxVars) :
      Numeral (Nat.ofDigitChars 10 ds (digit d)) (d :: ds)
  | minus {d : Char} {ds : List Char} (hd : d.isDigit = true) (h0 : d ≠ '0')
      (hds : ∀ e ∈ ds, e.isDigit = true) (hmax : Nat.ofDigitChars 10 ds (digit d) ≤ maxVars) :
      Numeral (-(Nat.ofDigitChars 10 ds (digit d) : ℤ)) ('-' :: d :: ds)

/-- White space, or a comment. -/
inductive Separator : List Char → Prop where
  | white {ch : Char} (h : ch = ' ' ∨ ch = '\t' ∨ ch = '\n') : Separator [ch]
  | newline : Separator ['\r', '\n']
  | comment {text : List Char} (h : '\n' ∉ text) : Separator ('c' :: text ++ ['\n'])

/-- What may stand at the end of a file whose last line has no end: nothing, or a comment. -/
inductive Trailer : List Char → Prop where
  | nothing : Trailer []
  | comment {text : List Char} (h : '\n' ∉ text) : Trailer ('c' :: text)

/-- The letter of a block. -/
def blockLetter (universal : Bool) : Char := if universal then 'a' else 'e'

/-- **A body in order**, with its tokens: nothing is said about the number of its clauses. -/
inductive Lexes (strict : Strictness) (vars : ℕ) : List Char → List Token → Prop where
  | nil : Lexes strict vars [] []
  | trailer {text : List Char} (hstrict : strict ≠ .pedanticParsing) (ht : Trailer text) :
      Lexes strict vars text []
  | separator {sep cs : List Char} {toks : List Token} (hsep : Separator sep)
      (hcs : Lexes strict vars cs toks) : Lexes strict vars (sep ++ cs) toks
  | block (universal : Bool) {sep : Char} {cs : List Char} {toks : List Token}
      (hsep : sep = ' ' ∨ sep = '\t' ∨ sep = '\n') (hcs : Lexes strict vars cs toks) :
      Lexes strict vars (blockLetter universal :: sep :: cs) (.block universal :: toks)
  | number {i : ℤ} {text sep cs : List Char} {toks : List Token} (hi : Numeral i text)
      (hvars : i.natAbs ≤ vars) (hsep : Separator sep) (hcs : Lexes strict vars cs toks) :
      Lexes strict vars (text ++ (sep ++ cs)) (.int i :: toks)
  | lastNumber {i : ℤ} {text tail : List Char} (hstrict : strict ≠ .pedanticParsing)
      (hi : Numeral i text) (hvars : i.natAbs ≤ vars) (ht : Trailer tail) :
      Lexes strict vars (text ++ tail) [.int i]

/-! ### A machine on tokens -/

section

variable (strict : Strictness) (vars clauses : ℕ)

/-- What the parser does with a token. -/
def useToken (s : BodyState) : Token → Except String (BodyState × List Callback)
  | .block universal =>
    if s.inBlock then .error "previous quantifier block not closed!"
    else .ok (if universal then { s with blockForall := true }
      else { s with blockExists := true }, [])
  | .int i => useNumber strict vars clauses s (signOf i) i.natAbs
  | .other _ => .error "expected digit or '-'"

/-- The parser, on the tokens of a body. -/
def parseTokens (s : BodyState) : List Token → Outcome
  | [] => endOfBody strict clauses s
  | tok :: toks => andThen (useToken strict vars clauses s tok) fun s => parseTokens s toks

/-- The state behind a token. -/
def tokenStep (s : BodyState) (tok : Token) : Option BodyState :=
  match useToken strict vars clauses s tok with
  | .ok (s, _) => some s
  | .error _ => none

end

/-! ### The parser is this machine -/

section

variable {strict : Strictness} {vars clauses : ℕ} {s : BodyState} {i : ℤ} {sign : ℤ} {idx : ℕ}
  {text sep cs : List Char} {toks : List Token}

theorem bodyComment_append (h : '\n' ∉ text) (rest : List Char) :
    bodyComment strict vars clauses s (text ++ '\n' :: rest) =
      parseBody strict vars clauses s rest := by
  induction text with
  | nil => rw [List.nil_append, bodyComment, if_pos rfl]
  | cons ch text ih =>
    rw [List.cons_append, bodyComment, if_neg (List.ne_of_not_mem_cons h).symm,
      ih (List.not_mem_of_not_mem_cons h)]

theorem bodyComment_end (hstrict : strict ≠ .pedanticParsing) (h : '\n' ∉ text) :
    bodyComment strict vars clauses s text = endOfBody strict clauses s := by
  induction text with
  | nil => rw [bodyComment, if_pos hstrict]
  | cons ch text ih =>
    rw [bodyComment, if_neg (List.ne_of_not_mem_cons h).symm, ih (List.not_mem_of_not_mem_cons h)]

theorem numberComment_append (h : '\n' ∉ text) (rest : List Char) :
    numberComment strict vars clauses s sign idx (text ++ '\n' :: rest) =
      andThen (useNumber strict vars clauses s sign idx)
        fun s => parseBody strict vars clauses s rest := by
  induction text with
  | nil => rw [List.nil_append, numberComment, if_pos rfl]
  | cons ch text ih =>
    rw [List.cons_append, numberComment, if_neg (List.ne_of_not_mem_cons h).symm,
      ih (List.not_mem_of_not_mem_cons h)]

theorem numberComment_end (hstrict : strict ≠ .pedanticParsing) (h : '\n' ∉ text) :
    numberComment strict vars clauses s sign idx text =
      andThen (useNumber strict vars clauses s sign idx) (endOfBody strict clauses) := by
  induction text with
  | nil => rw [numberComment, if_pos hstrict]
  | cons ch text ih =>
    rw [numberComment, if_neg (List.ne_of_not_mem_cons h).symm,
      ih (List.not_mem_of_not_mem_cons h)]

theorem parseBody_comment (rest : List Char) :
    parseBody strict vars clauses s ('c' :: rest) = bodyComment strict vars clauses s rest := by
  have hwhite : ¬('c' = ' ' ∨ 'c' = '\t' ∨ 'c' = '\n') := by decide
  have hreturn : ¬('c' = '\r') := by decide
  rw [parseBody.eq_def]
  simp only [if_neg hwhite, if_neg hreturn, if_true]

/-- White space and comments are skipped. -/
theorem parseBody_separator (h : Separator sep) (cs : List Char) :
    parseBody strict vars clauses s (sep ++ cs) = parseBody strict vars clauses s cs := by
  rcases h with ⟨hch⟩ | - | ⟨htext⟩
  · rw [List.singleton_append, parseBody.eq_def]
    simp only [if_pos hch]
  · have hwhite : ¬('\r' = ' ' ∨ '\r' = '\t' ∨ '\r' = '\n') := by decide
    change parseBody strict vars clauses s ('\r' :: '\n' :: cs) = _
    rw [parseBody.eq_def]
    simp only [if_neg hwhite, if_true]
  · rw [List.cons_append, List.cons_append, List.append_assoc, List.singleton_append,
      parseBody_comment]
    exact bodyComment_append htext cs

theorem parseBody_trailer (hstrict : strict ≠ .pedanticParsing) (h : Trailer text) :
    parseBody strict vars clauses s text = endOfBody strict clauses s := by
  rcases h with - | ⟨htext⟩
  · rw [parseBody.eq_def]
  · rw [parseBody_comment, bodyComment_end hstrict htext]

/-- **A number is used** where white space or a comment comes behind it. -/
theorem number_separator (h : Separator sep) (cs : List Char) :
    number strict vars clauses s sign idx (sep ++ cs) =
      andThen (useNumber strict vars clauses s sign idx)
        fun s => parseBody strict vars clauses s cs := by
  rcases h with ⟨hch⟩ | - | ⟨htext⟩
  · rename_i ch
    have hdigit : ¬ch.isDigit = true := by rcases hch with rfl | rfl | rfl <;> decide
    have hreturn : ¬ch = '\r' := by rcases hch with rfl | rfl | rfl <;> decide
    have hcomment : ¬ch = 'c' := by rcases hch with rfl | rfl | rfl <;> decide
    have hwhite : ¬(ch ≠ ' ' ∧ ch ≠ '\t' ∧ ch ≠ '\n') := by tauto
    rw [List.singleton_append, number.eq_def]
    simp only [if_neg hdigit, if_neg hreturn, if_neg hcomment, if_neg hwhite]
  · have hdigit : ¬('\r'.isDigit = true) := by decide
    change number strict vars clauses s sign idx ('\r' :: '\n' :: cs) = _
    rw [number.eq_def]
    simp only [if_neg hdigit, if_true]
  · have hdigit : ¬('c'.isDigit = true) := by decide
    have hreturn : ¬('c' = '\r') := by decide
    rw [List.cons_append, List.cons_append, List.append_assoc, List.singleton_append,
      number.eq_def]
    simp only [if_neg hdigit, if_neg hreturn, if_true]
    exact numberComment_append htext cs

theorem number_trailer (hstrict : strict ≠ .pedanticParsing) (h : Trailer text) :
    number strict vars clauses s sign idx text =
      andThen (useNumber strict vars clauses s sign idx) (endOfBody strict clauses) := by
  rcases h with - | ⟨htext⟩
  · rw [number.eq_def]
    simp only [if_neg hstrict]
  · have hdigit : ¬('c'.isDigit = true) := by decide
    have hreturn : ¬('c' = '\r') := by decide
    rw [number.eq_def]
    simp only [if_neg hdigit, if_neg hreturn, if_true]
    exact numberComment_end hstrict htext

/-- **A numeral is read**, with the sign of its number unless that is zero. -/
theorem parseBody_numeral (h : Numeral i text) (rest : List Char) :
    parseBody strict vars clauses s (text ++ rest) =
      number strict vars clauses s (signOf i) i.natAbs rest := by
  rcases h with ⟨hd, hds, hmax⟩ | ⟨hd, h0, hds, hmax⟩
  · rename_i d ds
    have hsign : signOf (Nat.ofDigitChars 10 ds (digit d)) = 1 :=
      if_neg (not_lt.mpr (Int.natCast_nonneg _))
    rw [List.cons_append, parseBody_digit hd, number_digits hds hmax, hsign, Int.natAbs_natCast]
  · rename_i d ds
    have hpos : 0 < Nat.ofDigitChars 10 ds (digit d) := by
      refine lt_of_lt_of_le ?_ (le_ofDigitChars ds (digit d))
      have hge : '0'.toNat ≤ d.toNat := by
        rw [Char.isDigit, Bool.and_eq_true] at hd
        exact of_decide_eq_true hd.1
      have hne : d.toNat ≠ '0'.toNat := fun heq => h0 (Char.toNat_inj.mp heq)
      rw [digit]
      omega
    have hsign : signOf (-(Nat.ofDigitChars 10 ds (digit d) : ℤ)) = -1 :=
      if_pos (by omega)
    rw [List.cons_append, List.cons_append, parseBody_minus hd h0, number_digits hds hmax, hsign,
      Int.natAbs_neg, Int.natAbs_natCast]

/-- **On a body in order the parser is the machine on its tokens**, whatever number of clauses is
announced. -/
theorem parseBody_lexes (h : Lexes strict vars cs toks) (s : BodyState) :
    parseBody strict vars clauses s cs = parseTokens strict vars clauses s toks := by
  -- on how the body is put together: each piece is one turn of the parser's loop
  induction h generalizing s with
  | nil => rw [parseBody.eq_def, parseTokens]
  | trailer hstrict ht => rw [parseBody_trailer hstrict ht, parseTokens]
  | separator hsep hcs ih => rw [parseBody_separator hsep, ih]
  | block universal hsep hcs ih =>
    rw [parseTokens, useToken]
    have hch : blockLetter universal = 'e' ∨ blockLetter universal = 'a' := by
      cases universal
      · exact Or.inl rfl
      · exact Or.inr rfl
    -- a letter inside of a block is an error for both
    by_cases hopen : s.inBlock = true
    · rw [if_pos hopen]
      have hwhite : ¬(blockLetter universal = ' ' ∨ blockLetter universal = '\t' ∨
          blockLetter universal = '\n') := by cases universal <;> decide
      have hreturn : ¬blockLetter universal = '\r' := by cases universal <;> decide
      have hcomment : ¬blockLetter universal = 'c' := by cases universal <;> decide
      have hminus : ¬blockLetter universal = '-' := by cases universal <;> decide
      rw [parseBody.eq_def]
      simp only [if_neg hwhite, if_neg hreturn, if_neg hcomment, if_neg hminus, if_pos hch,
        if_pos hopen]
      rfl
    · rw [if_neg hopen, parseBody_letter hch (Bool.eq_false_iff.mpr hopen), ih]
      cases universal <;> rfl
  | number hi hvars hsep hcs ih =>
    rw [parseBody_numeral hi, number_separator hsep, parseTokens, useToken]
    exact congrArg _ (funext ih)
  | lastNumber hstrict hi hvars ht =>
    rw [parseBody_numeral hi, number_trailer hstrict ht, parseTokens, useToken]
    rfl

/-- The numbers of a body in order are in bounds. -/
theorem Lexes.natAbs_le (h : Lexes strict vars cs toks) : ∀ i, .int i ∈ toks → i.natAbs ≤ vars := by
  induction h with
  | nil => exact fun i hi => absurd hi List.not_mem_nil
  | trailer => exact fun i hi => absurd hi List.not_mem_nil
  | separator hsep hcs ih => exact ih
  | block universal hsep hcs ih =>
    intro i hi
    exact ih i ((List.mem_cons.mp hi).resolve_left Token.noConfusion)
  | number hi hvars hsep hcs ih =>
    intro j hj
    rcases List.mem_cons.mp hj with heq | hj
    · rw [Token.int.inj heq]
      exact hvars
    · exact ih j hj
  | lastNumber hstrict hi hvars ht =>
    intro j hj
    rw [Token.int.inj (List.mem_singleton.mp hj)]
    exact hvars

/-! ### The grammar and the tokens of a text -/

theorem commentTokens_append (h : '\n' ∉ text) (rest : List Char) :
    commentTokens (text ++ '\n' :: rest) = tokens rest := by
  induction text with
  | nil => rw [List.nil_append, commentTokens, if_pos rfl]
  | cons ch text ih =>
    rw [List.cons_append, commentTokens, if_neg (List.ne_of_not_mem_cons h).symm,
      ih (List.not_mem_of_not_mem_cons h)]

theorem commentTokens_end (h : '\n' ∉ text) : commentTokens text = [] := by
  induction text with
  | nil => rw [commentTokens]
  | cons ch text ih =>
    rw [commentTokens, if_neg (List.ne_of_not_mem_cons h).symm, ih (List.not_mem_of_not_mem_cons h)]

theorem tokens_comment (rest : List Char) : tokens ('c' :: rest) = commentTokens rest := by
  have hblank : ¬isBlank 'c' = true := by decide
  rw [tokens.eq_def]
  simp only [if_neg hblank, if_true]

theorem isBlank_of_white {ch : Char} (h : ch = ' ' ∨ ch = '\t' ∨ ch = '\n') :
    isBlank ch = true := by
  rcases h with rfl | rfl | rfl <;> rfl

theorem tokens_separator (h : Separator sep) (cs : List Char) :
    tokens (sep ++ cs) = tokens cs := by
  rcases h with ⟨hch⟩ | - | ⟨htext⟩
  · exact tokens_blank (isBlank_of_white hch)
  · exact (tokens_blank rfl).trans (tokens_blank rfl)
  · rw [List.cons_append, List.cons_append, List.append_assoc, List.singleton_append,
      tokens_comment]
    exact commentTokens_append htext cs

theorem numberTokens_separator (h : Separator sep) (cs : List Char) :
    numberTokens sign idx (sep ++ cs) = .int (sign * idx) :: tokens cs := by
  rcases h with ⟨hch⟩ | - | ⟨htext⟩
  · rename_i ch
    have hdigit : ¬ch.isDigit = true := by rcases hch with rfl | rfl | rfl <;> decide
    rw [List.singleton_append, numberTokens, if_neg hdigit, if_pos (isBlank_of_white hch)]
  · have hdigit : ¬('\r'.isDigit = true) := by decide
    have hblank : isBlank '\r' = true := rfl
    change numberTokens sign idx ('\r' :: '\n' :: cs) = _
    rw [numberTokens, if_neg hdigit, if_pos hblank, tokens_blank rfl]
  · have hdigit : ¬('c'.isDigit = true) := by decide
    have hblank : ¬isBlank 'c' = true := by decide
    rw [List.cons_append, List.cons_append, List.append_assoc, List.singleton_append,
      numberTokens, if_neg hdigit, if_neg hblank, if_pos rfl, commentTokens_append htext]

theorem numberTokens_digits {ds : List Char} (hds : ∀ d ∈ ds, d.isDigit = true)
    (rest : List Char) : numberTokens sign idx (ds ++ rest) =
      numberTokens sign (Nat.ofDigitChars 10 ds idx) rest := by
  -- a digit at a time, as the parser reads them
  induction ds generalizing idx with
  | nil => rw [List.nil_append, Nat.ofDigitChars_nil]
  | cons d ds ih =>
    rw [List.cons_append, numberTokens, if_pos (hds d List.mem_cons_self), Nat.ofDigitChars_cons,
      Nat.mul_comm 10, ← digit]
    exact ih fun e he => hds e (List.mem_cons_of_mem _ he)

theorem isBlank_of_isDigit {d : Char} (h : d.isDigit = true) : ¬isBlank d = true := by
  intro hblank
  simp only [isBlank, Bool.or_eq_true, decide_eq_true_eq] at hblank
  rcases hblank with ((rfl | rfl) | rfl) | rfl <;> exact absurd h (by decide)

/-- The token of a numeral. -/
theorem tokens_numeral (h : Numeral i text) (rest : List Char) :
    ∃ (sign : ℤ) (idx : ℕ), tokens (text ++ rest) = numberTokens sign idx rest ∧
      sign * idx = i := by
  rcases h with ⟨hd, hds, -⟩ | ⟨hd, -, hds, -⟩
  · rename_i d ds
    have hletter : ¬(d = 'e' ∨ d = 'a') := by
      rintro (rfl | rfl) <;> exact absurd hd (by decide)
    refine ⟨1, _, ?_, one_mul _⟩
    rw [List.cons_append, tokens.eq_def]
    simp only [if_neg (isBlank_of_isDigit hd), if_neg (isDigit_ne (c := 'c') hd (by decide)),
      if_neg (isDigit_ne (c := '-') hd (by decide)), if_neg hletter, hd, if_true]
    exact numberTokens_digits hds rest
  · have hletter : ¬('-' = 'e' ∨ '-' = 'a') := by decide
    have hblank : ¬isBlank '-' = true := by decide
    have hcomment : ¬('-' = 'c') := by decide
    refine ⟨-1, _, ?_, neg_one_mul _⟩
    rw [List.cons_append, List.cons_append, tokens.eq_def]
    simp only [if_neg hblank, if_neg hcomment, if_neg hletter, hd, if_true]
    exact numberTokens_digits hds rest

/-- **The tokens of a body in order** are those of its text. -/
theorem Lexes.tokens_eq (h : Lexes strict vars cs toks) : tokens cs = toks := by
  induction h with
  | nil => rw [tokens]
  | trailer hstrict ht =>
    rcases ht with - | ⟨htext⟩
    · rw [tokens]
    · rw [tokens_comment, commentTokens_end htext]
  | separator hsep hcs ih => rw [tokens_separator hsep, ih]
  | block universal hsep hcs ih =>
    have hblank : ¬isBlank (blockLetter universal) = true := by cases universal <;> decide
    have hcomment : ¬blockLetter universal = 'c' := by cases universal <;> decide
    have hletter : blockLetter universal = 'e' ∨ blockLetter universal = 'a' := by
      cases universal <;> decide
    have huniversal : decide (blockLetter universal = 'a') = universal := by
      cases universal <;> decide
    rw [tokens.eq_def]
    simp only [if_neg hblank, if_neg hcomment, if_pos hletter, isBlank_of_white hsep, if_true,
      huniversal, ih]
  | number hi hvars hsep hcs ih =>
    obtain ⟨sign, idx, htoks, rfl⟩ := tokens_numeral hi _
    rw [htoks, numberTokens_separator hsep, ih]
  | lastNumber hstrict hi hvars ht =>
    obtain ⟨sign, idx, htoks, rfl⟩ := tokens_numeral hi _
    rw [htoks]
    rcases ht with - | ⟨htext⟩
    · rw [numberTokens]
    · have hdigit : ¬('c'.isDigit = true) := by decide
      have hblank : ¬isBlank 'c' = true := by decide
      rw [numberTokens, if_neg hdigit, if_neg hblank, if_pos rfl, commentTokens_end htext]

/-! ### One token -/

/-- What is returned where there is no room for a clause. -/
def tooManyClauses : String := "too many clauses (try '--relaxed' parsing)"

/-- **The zero of a block is free**: it is accepted, and not counted. -/
def ClosesFreely (strict : Strictness) (vars clauses : ℕ) (s : BodyState) (tok : Token) : Prop :=
  tok = .int 0 → s.inBlock = true →
    ∃ s', tokenStep strict vars clauses s tok = some s' ∧ s'.parsed = s.parsed

variable {tok : Token} {s' : BodyState} {calls : List Callback} {message : String}

theorem parseTokens_ok (h : useToken strict vars clauses s tok = .ok (s', calls))
    (toks : List Token) : (parseTokens strict vars clauses s (tok :: toks)).2 =
      (parseTokens strict vars clauses s' toks).2 := by
  rw [parseTokens, h, andThen]

theorem parseTokens_error (h : useToken strict vars clauses s tok = .error message)
    (toks : List Token) : (parseTokens strict vars clauses s (tok :: toks)).2 = some message := by
  rw [parseTokens, h, andThen, fail]

theorem tokenStep_ok (h : useToken strict vars clauses s tok = .ok (s', calls)) :
    tokenStep strict vars clauses s tok = some s' := by
  rw [tokenStep, h]

/-- A number that is not zero only changes `lit`. -/
theorem useToken_nonzero (h0 : i ≠ 0) (hi : i.natAbs ≤ vars) (s : BodyState) :
    ∃ calls, useToken strict vars clauses s (.int i) = .ok ({ s with lit := i }, calls) := by
  have hbig : ¬(strict ≠ .relaxedParsing ∧ vars < i.natAbs) := fun h => absurd h.2 (not_lt.mpr hi)
  rw [useToken, useNumber, if_neg hbig, if_pos (Int.natAbs_ne_zero.mpr h0), signOf_mul]
  split
  · exact ⟨_, rfl⟩
  · exact ⟨_, rfl⟩

/-- **A zero where there is no room** for a clause: it makes no difference whether a block is
open. -/
theorem useToken_full (hstrict : strict ≠ .relaxedParsing) (hfull : s.parsed = clauses) :
    useToken strict vars clauses s (.int 0) = .error tooManyClauses := by
  have hbig : ¬(strict ≠ .relaxedParsing ∧ vars < 0) := fun h => absurd h.2 (Nat.not_lt_zero _)
  change useNumber strict vars clauses s 1 0 = _
  rw [useNumber, if_neg hbig, if_neg (not_not.mpr rfl), if_pos ⟨hstrict, hfull⟩]
  rfl

/-! ### Tokens that pass -/

/-- **Some tokens pass**, and lead from one state to another: no block is closed that is not free
to be. -/
structure Passes (strict : Strictness) (vars clauses : ℕ) (s : BodyState) (toks : List Token)
    (s' : BodyState) : Prop where
  parse : ∀ more, (parseTokens strict vars clauses s (toks ++ more)).2 =
    (parseTokens strict vars clauses s' more).2
  run : Machine.run (tokenStep strict vars clauses) s toks = some s'
  closes : Machine.Meets (tokenStep strict vars clauses) (ClosesFreely strict vars clauses) s toks

theorem Passes.nil (s : BodyState) : Passes strict vars clauses s [] s :=
  ⟨fun _ => rfl, rfl, trivial⟩

theorem Passes.append {t u : BodyState} {more : List Token}
    (h : Passes strict vars clauses s toks t) (h' : Passes strict vars clauses t more u) :
    Passes strict vars clauses s (toks ++ more) u := by
  constructor
  · intro rest
    rw [List.append_assoc, h.parse, h'.parse]
  · exact Machine.run_append_some.mpr ⟨t, h.run, h'.run⟩
  · refine Machine.meets_append.mpr ⟨h.closes, ?_⟩
    intro v hv
    obtain rfl : t = v := Option.some.inj (h.run.symm.trans hv)
    exact h'.closes

theorem Passes.token (h : useToken strict vars clauses s tok = .ok (s', calls))
    (hclose : tok = .int 0 → s.inBlock = true → s'.parsed = s.parsed) :
    Passes strict vars clauses s [tok] s' := by
  constructor
  · intro more
    exact parseTokens_ok h more
  · exact Machine.run_cons.mpr ⟨s', tokenStep_ok h, rfl⟩
  · exact ⟨fun htok hblock => ⟨s', tokenStep_ok h, hclose htok hblock⟩, fun _ _ => trivial⟩

/-- Numbers that are not zero. -/
theorem passes_nonzeros {vs : List NzInt} (hvs : ∀ v ∈ vs, v.1.natAbs ≤ vars) (s : BodyState) :
    ∃ l, Passes strict vars clauses s (vs.map fun v => .int v.1) { s with lit := l } := by
  -- only the last literal changes
  induction vs generalizing s with
  | nil => exact ⟨s.lit, Passes.nil s⟩
  | cons v vs ih =>
    obtain ⟨calls, hcalls⟩ : ∃ calls, useToken strict vars clauses s (.int v.1) =
        .ok ({ s with lit := v.1 }, calls) := useToken_nonzero v.2 (hvs v List.mem_cons_self) s
    obtain ⟨l, hl⟩ := ih (fun w hw => hvs w (List.mem_cons_of_mem _ hw)) { s with lit := v.1 }
    exact ⟨l, (Passes.token hcalls fun htok => absurd (Token.int.inj htok) v.2).append hl⟩

/-- A block, in front of its zero. -/
theorem passes_open {vs : List NzInt} (hvs : ∀ v ∈ vs, v.1.natAbs ≤ vars) (universal : Bool)
    (hs : s.inBlock = false) :
    ∃ t, Passes strict vars clauses s (.block universal :: vs.map fun v => .int v.1) t ∧
      t.inBlock = true ∧ t.parsed = s.parsed := by
  have hclosed : ¬s.inBlock = true := by rw [hs]; exact Bool.false_ne_true
  have hopen : ∃ t : BodyState, useToken strict vars clauses s (.block universal) = .ok (t, []) ∧
      t.inBlock = true ∧ t.parsed = s.parsed := by
    -- for both letters
    rw [useToken, if_neg hclosed]
    cases universal
    · exact ⟨_, rfl, rfl, rfl⟩
    · exact ⟨_, rfl, Bool.or_true _, rfl⟩
  obtain ⟨t, ht, hin, hparsed⟩ := hopen
  obtain ⟨l, hl⟩ : ∃ l, Passes strict vars clauses t (vs.map fun v => .int v.1)
      { t with lit := l } := passes_nonzeros hvs t
  exact ⟨{ t with lit := l }, (Passes.token ht fun htok => Token.noConfusion htok).append hl, hin,
    hparsed⟩

/-- A state between blocks and clauses. -/
def between (n : ℕ) : BodyState := ⟨false, false, n, 0⟩

/-- **A block passes** as long as there is room for a clause. -/
theorem passes_block {b : Bool × List NzInt} (hvs : ∀ v ∈ b.2, v.1.natAbs ≤ vars) {n : ℕ}
    (hn : n < clauses) :
    Passes strict vars clauses (between n) (blockTokens b) (between n) := by
  obtain ⟨t, hopen, hin, hparsed⟩ : ∃ t, Passes strict vars clauses (between n)
      (.block b.1 :: b.2.map fun v => .int v.1) t ∧ t.inBlock = true ∧ t.parsed = n :=
    passes_open hvs b.1 rfl
  have hroom : t.parsed < clauses := hparsed.symm ▸ hn
  -- the zero that closes the block meets the limit, and is not counted
  have hclose : useToken strict vars clauses t (.int 0) = .ok (between n, []) := by
    change useNumber strict vars clauses t 1 0 = _
    rw [useNumber_close hin hroom, hparsed.symm]
    rfl
  exact hopen.append (Passes.token hclose fun _ _ => hparsed.symm)

theorem passes_blocks {blocks : List (Bool × List NzInt)}
    (hvs : ∀ b ∈ blocks, ∀ v ∈ b.2, v.1.natAbs ≤ vars) {n : ℕ} (hn : n < clauses) :
    Passes strict vars clauses (between n) (blocks.flatMap blockTokens) (between n) := by
  induction blocks with
  | nil => exact Passes.nil _
  | cons b blocks ih =>
    rw [List.flatMap_cons]
    exact (passes_block (hvs b List.mem_cons_self) hn).append
      (ih fun c hc => hvs c (List.mem_cons_of_mem _ hc))

/-- **A clause passes** where there is room for it, and is counted. -/
theorem passes_clause {ls : List NzInt} (hls : ∀ l ∈ ls, l.1.natAbs ≤ vars) {n : ℕ}
    (hn : n < clauses) :
    Passes strict vars clauses (between n) (clauseTokens ls) (between (n + 1)) := by
  obtain ⟨l, hl⟩ : ∃ l, Passes strict vars clauses (between n) (ls.map fun l => .int l.1)
      { between n with lit := l } := passes_nonzeros hls (between n)
  have hroom : ({ between n with lit := l } : BodyState).parsed < clauses := hn
  -- the zero that closes the clause is
  have hzero : useToken strict vars clauses { between n with lit := l } (.int 0) =
      .ok (between (n + 1), [.addLit 0]) := useNumber_clause rfl hroom
  exact hl.append (Passes.token hzero fun _ hin => absurd hin Bool.false_ne_true)

/-! ### Blocks and clauses -/

/-- The integers of a matrix close no block. -/
theorem meets_ints (hints : ∀ tok ∈ toks, ∃ i, tok = .int i) (hs : s.inBlock = false) :
    Machine.Meets (tokenStep strict vars clauses) (ClosesFreely strict vars clauses) s toks := by
  -- no block is open, and none is opened
  induction toks generalizing s with
  | nil => trivial
  | cons tok toks ih =>
    have hclosed : ¬s.inBlock = true := by rw [hs]; exact Bool.false_ne_true
    refine ⟨fun _ hin => absurd hin hclosed, ?_⟩
    intro t ht
    refine ih (fun tok htok => hints tok (List.mem_cons_of_mem _ htok)) ?_
    obtain ⟨i, rfl⟩ := hints tok List.mem_cons_self
    rw [tokenStep, useToken, useNumber, if_neg hclosed] at ht
    -- whatever the number is, the two flags stay
    split_ifs at ht
    all_goals
      obtain rfl := Option.some.inj ht
      exact hs

/-- **What the parser says about a matrix**, when some clauses have come already. -/
theorem parseTokens_matrix (hstrict : strict ≠ .relaxedParsing) {matrix : List (List NzInt)}
    (hls : ∀ ls ∈ matrix, ∀ l ∈ ls, l.1.natAbs ≤ vars) {n : ℕ} (hn : n ≤ clauses) :
    (parseTokens strict vars clauses (between n) (matrix.flatMap clauseTokens)).2 =
      if clauses < n + matrix.length then some tooManyClauses
      else (endOfBody strict clauses (between (n + matrix.length))).2 := by
  -- on the clauses that are left, until there is no room for one
  induction matrix generalizing n with
  | nil => rw [List.length_nil, Nat.add_zero, if_neg (not_lt.mpr hn), List.flatMap_nil, parseTokens]
  | cons ls matrix ih =>
    have hls' : ∀ l ∈ ls, l.1.natAbs ≤ vars := hls ls List.mem_cons_self
    rw [List.flatMap_cons, List.length_cons]
    rcases hn.lt_or_eq with hlt | rfl
    -- there is room, and the next clause finds one less
    · have hclause : Passes strict vars clauses (between n) (clauseTokens ls) (between (n + 1)) :=
        passes_clause hls' hlt
      rw [hclause.parse, ih (fun ms hms => hls ms (List.mem_cons_of_mem _ hms)) hlt,
        Nat.add_right_comm n 1, Nat.add_assoc]
    · -- the zero of this clause finds no room
      obtain ⟨l, hl⟩ : ∃ l, Passes strict vars n (between n) (ls.map fun l => .int l.1)
          { between n with lit := l } := passes_nonzeros hls' (between n)
      have hfull : ({ between n with lit := l } : BodyState).parsed = n := rfl
      rw [clauseTokens, List.append_assoc, hl.parse, List.singleton_append,
        parseTokens_error (useToken_full hstrict hfull), if_pos (by omega)]

/-- **What the parser says about a body**: it compares the numbers of clauses, unless none is
announced and there is a block. -/
theorem parseTokens_body (hstrict : strict ≠ .relaxedParsing) {blocks : List (Bool × List NzInt)}
    {matrix : List (List NzInt)} (hvs : ∀ b ∈ blocks, ∀ v ∈ b.2, v.1.natAbs ≤ vars)
    (hls : ∀ ls ∈ matrix, ∀ l ∈ ls, l.1.natAbs ≤ vars) (h : clauses ≠ 0 ∨ blocks = []) :
    (parseTokens strict vars clauses .init (bodyTokens blocks matrix)).2 =
        (if clauses < matrix.length then some tooManyClauses
          else (endOfBody strict clauses (between matrix.length)).2) ∧
      Machine.Meets (tokenStep strict vars clauses) (ClosesFreely strict vars clauses) .init
        (bodyTokens blocks matrix) := by
  have hpass : Passes strict vars clauses .init (blocks.flatMap blockTokens) (between 0) := by
    rcases h with hne | rfl
    · exact passes_blocks hvs (Nat.pos_of_ne_zero hne)
    · exact Passes.nil _
  have hmatrix := parseTokens_matrix hstrict hls (Nat.zero_le clauses)
  rw [Nat.zero_add] at hmatrix
  constructor
  · rw [bodyTokens, hpass.parse, hmatrix]
  · refine Machine.meets_append.mpr ⟨hpass.closes, ?_⟩
    intro t ht
    obtain rfl : between 0 = t := Option.some.inj (hpass.run.symm.trans ht)
    refine meets_ints ?_ rfl
    intro tok htok
    obtain ⟨ls, -, htok⟩ := List.mem_flatMap.mp htok
    rcases List.mem_append.mp htok with htok | htok
    · obtain ⟨l, -, rfl⟩ := List.mem_map.mp htok
      exact ⟨l.1, rfl⟩
    · exact ⟨0, List.mem_singleton.mp htok⟩

/-- **Where no clause is announced, the zero of a block is not free.** -/
theorem not_closesFreely (hstrict : strict ≠ .relaxedParsing) {b : Bool × List NzInt}
    {blocks : List (Bool × List NzInt)} {matrix : List (List NzInt)}
    (hvs : ∀ v ∈ b.2, v.1.natAbs ≤ vars) :
    ¬Machine.Meets (tokenStep strict vars 0) (ClosesFreely strict vars 0) .init
      (bodyTokens (b :: blocks) matrix) := by
  intro h
  obtain ⟨t, hopen, hin, hparsed⟩ : ∃ t, Passes strict vars 0 .init
      (.block b.1 :: b.2.map fun v => .int v.1) t ∧ t.inBlock = true ∧ t.parsed = 0 :=
    passes_open hvs b.1 rfl
  rw [bodyTokens, List.flatMap_cons, blockTokens, List.append_assoc, List.append_assoc] at h
  obtain ⟨hfree, -⟩ := (Machine.meets_append.mp h).2 t hopen.run
  obtain ⟨s', hstep, -⟩ := hfree rfl hin
  rw [tokenStep, useToken_full hstrict hparsed] at hstep
  exact absurd hstep (Option.some_ne_none s').symm

end

/-- What is said at the end of the body. -/
theorem endOfBody_between {strict : Strictness} (hstrict : strict ≠ .relaxedParsing)
    (clauses n : ℕ) : ((endOfBody strict clauses (between n)).2 = none ↔ clauses ≤ n) ∧
      (endOfBody strict clauses (between n)).2 ≠ some tooManyClauses := by
  have hlit : (between n).lit = 0 := rfl
  rw [endOfBody, if_neg (not_not.mpr hlit)]
  rcases Nat.lt_or_ge n clauses with hlt | hge
  · rw [if_pos ⟨hstrict, hlt⟩]
    constructor
    · refine ⟨?_, fun h => absurd h (not_le.mpr hlt)⟩
      intro h
      split at h <;> exact absurd h (fail_ne _)
    · split <;> decide
  · rw [if_neg fun h => absurd h.2 (not_lt.mpr hge)]
    exact ⟨⟨fun _ => hge, fun _ => rfl⟩, (Option.some_ne_none _).symm⟩

/-- The numbers of blocks and clauses are numbers of the body. -/
theorem natAbs_le_of_bodyTokens {vars : ℕ} {blocks : List (Bool × List NzInt)}
    {matrix : List (List NzInt)}
    (h : ∀ i, Token.int i ∈ bodyTokens blocks matrix → i.natAbs ≤ vars) :
    (∀ b ∈ blocks, ∀ v ∈ b.2, v.1.natAbs ≤ vars) ∧
      ∀ ls ∈ matrix, ∀ l ∈ ls, l.1.natAbs ≤ vars := by
  constructor
  · intro b hb v hv
    refine h v.1 (List.mem_append_left _ (List.mem_flatMap.mpr ⟨b, hb, ?_⟩))
    exact List.mem_append_left _ (List.mem_cons_of_mem _ (List.mem_map.mpr ⟨v, hv, rfl⟩))
  · intro ls hls l hl
    refine h l.1 (List.mem_append_right _ (List.mem_flatMap.mpr ⟨ls, hls, ?_⟩))
    exact List.mem_append_left _ (List.mem_map.mpr ⟨l, hl, rfl⟩)

/-- **The parser counts clauses only, unless it has room for none.** For every text with a header
and a body in order, of any blocks and then any clauses, and with a strictness that looks at the
number of clauses: the parser succeeds if and only if there are as many clauses as the header
announces, it complains of too many clauses only if there are more, and no zero that closes a
block is turned down or counted; this holds if and only if a clause is announced, or there is no
block. -/
theorem clause_count_iff {strict : Strictness} {input : List Char} {hd : Header}
    {blocks : List (Bool × List NzInt)} {matrix : List (List NzInt)}
    (hstrict : strict ≠ .relaxedParsing) (hhd : parseHeader strict input = .ok hd)
    (hbody : Lexes strict hd.vars hd.body (bodyTokens blocks matrix)) :
    (((kissatParseDimacs strict input).2 = none ↔ matrix.length = hd.clauses) ∧
      ((kissatParseDimacs strict input).2 = some tooManyClauses → hd.clauses < matrix.length) ∧
      Machine.Meets (tokenStep strict hd.vars hd.clauses)
        (ClosesFreely strict hd.vars hd.clauses) .init (bodyTokens blocks matrix)) ↔
    (hd.clauses ≠ 0 ∨ blocks = []) := by
  obtain ⟨hvs, hls⟩ := natAbs_le_of_bodyTokens hbody.natAbs_le
  have hparse : kissatParseDimacs strict input =
      parseTokens strict hd.vars hd.clauses .init (bodyTokens blocks matrix) := by
    rw [kissatParseDimacs, hhd]
    exact parseBody_lexes hbody .init
  constructor
  · rintro ⟨-, -, hcloses⟩
    by_contra hneither
    rw [not_or, not_not] at hneither
    obtain ⟨hzero, hblocks⟩ := hneither
    obtain ⟨b, bs, rfl⟩ := List.exists_cons_of_ne_nil hblocks
    rw [hzero] at hcloses
    exact not_closesFreely hstrict (hvs b List.mem_cons_self) hcloses
  · intro h
    obtain ⟨hresult, hcloses⟩ := parseTokens_body hstrict hvs hls h
    obtain ⟨hend, hother⟩ := endOfBody_between hstrict hd.clauses matrix.length
    rw [hparse, hresult]
    refine ⟨?_, ?_, hcloses⟩
    · split
      case isTrue hlt =>
        exact ⟨fun hnone => absurd hnone (Option.some_ne_none _), fun heq => by omega⟩
      case isFalse hle =>
        rw [hend]
        omega
    · split
      case isTrue hlt => exact fun _ => hlt
      case isFalse hle => exact fun hmany => absurd hmany hother

/-- A digit is a numeral. -/
theorem numeral_digit {d : Char} (hd : d.isDigit = true) (hmax : digit d ≤ maxVars) :
    Numeral (digit d) [d] :=
  Numeral.plain hd (fun _ he => absurd he List.not_mem_nil) hmax

/-- Two blocks and one clause, in the strictest mode. -/
theorem one_clause_counted :
    let input := "p cnf 2 1\na 1 0\ne 2 0\n1 -2 0\n".toList
    let blocks : List (Bool × List NzInt) := [(true, [⟨1, by decide⟩]), (false, [⟨2, by decide⟩])]
    let matrix : List (List NzInt) := [[⟨1, by decide⟩, ⟨-2, by decide⟩]]
    ((kissatParseDimacs .pedanticParsing input).2 = none ↔ matrix.length = 1) ∧
      ((kissatParseDimacs .pedanticParsing input).2 = some tooManyClauses → 1 < matrix.length) ∧
      Machine.Meets (tokenStep .pedanticParsing 2 1) (ClosesFreely .pedanticParsing 2 1) .init
        (bodyTokens blocks matrix) := by
  intro input blocks matrix
  have hhd : parseHeader .pedanticParsing input =
      .ok ⟨2, 1, ['a', ' ', '1', ' ', '0', '\n', 'e', ' ', '2', ' ', '0', '\n', '1', ' ', '-',
        '2', ' ', '0', '\n']⟩ := by decide +kernel
  have h0 : Numeral 0 ['0'] := numeral_digit (d := '0') rfl (by decide)
  have h1 : Numeral 1 ['1'] := numeral_digit (d := '1') rfl (by decide)
  have h2 : Numeral 2 ['2'] := numeral_digit (d := '2') rfl (by decide)
  have hneg : Numeral (-2) ['-', '2'] :=
    Numeral.minus (d := '2') rfl (by decide) (fun _ he => absurd he List.not_mem_nil) (by decide)
  have hspace : Separator [' '] := Separator.white (Or.inl rfl)
  have hline : Separator ['\n'] := Separator.white (Or.inr (Or.inr rfl))
  have hmatrix : Lexes .pedanticParsing 2 ['1', ' ', '-', '2', ' ', '0', '\n']
      [.int 1, .int (-2), .int 0] :=
    .number h1 (by decide) hspace (.number hneg (by decide) hspace
      (.number h0 (by decide) hline .nil))
  have hsecond : Lexes .pedanticParsing 2
      ['e', ' ', '2', ' ', '0', '\n', '1', ' ', '-', '2', ' ', '0', '\n']
      [.block false, .int 2, .int 0, .int 1, .int (-2), .int 0] :=
    .block false (Or.inl rfl) (.number h2 (by decide) hspace
      (.number h0 (by decide) hline hmatrix))
  have hbody : Lexes .pedanticParsing 2
      ['a', ' ', '1', ' ', '0', '\n', 'e', ' ', '2', ' ', '0', '\n', '1', ' ', '-', '2', ' ',
        '0', '\n'] (bodyTokens blocks matrix) :=
    .block true (Or.inl rfl) (.number h1 (by decide) hspace
      (.number h0 (by decide) hline hsecond))
  exact (clause_count_iff (by decide) hhd hbody).mpr (Or.inl (by decide))

/-- **A prefix alone is turned down**: no clause is announced and none comes, and the zero of the
only block is said to be one clause too many. -/
theorem prefix_turned_down :
    ∃ hd, parseHeader .normalParsing "p cnf 1 0\ne 1 0\n".toList = .ok hd ∧
      Lexes .normalParsing hd.vars hd.body (bodyTokens [(false, [⟨1, by decide⟩])] []) ∧
      hd.clauses = 0 ∧
      (kissatParseDimacs .normalParsing "p cnf 1 0\ne 1 0\n".toList).2 = some tooManyClauses := by
  have hhd : parseHeader .normalParsing "p cnf 1 0\ne 1 0\n".toList =
      .ok ⟨1, 0, ['e', ' ', '1', ' ', '0', '\n']⟩ := by decide +kernel
  have h0 : Numeral 0 ['0'] := numeral_digit (d := '0') rfl (by decide)
  have h1 : Numeral 1 ['1'] := numeral_digit (d := '1') rfl (by decide)
  have hbody : Lexes .normalParsing 1 ['e', ' ', '1', ' ', '0', '\n']
      [.block false, .int 1, .int 0] :=
    .block false (Or.inl rfl) (.number h1 (by decide) (.white (Or.inl rfl))
      (.number h0 (by decide) (.white (Or.inr (Or.inr rfl))) .nil))
  exact ⟨_, hhd, hbody, rfl, by decide +kernel⟩

end Quapify

end QuAPI
