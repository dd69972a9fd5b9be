import Mathlib.Data.List.TakeWhile
import QuAPI.Memory
import QuAPI.Verdict

/-!
# The buffer of lines

What `S_HANDLE_SOLVERCHILD` does to its buffer, character by character. The output of the
child is appended as it comes, and its newlines are counted
(`read_all_available_into_buffer`); then as many lines are searched for in the buffer again,
cut with a zero byte, ruled on, and overwritten by what is behind them. The terminator does
not move with the text, so that behind `datalen` there is whatever an earlier line has left.

The invariant is `QuAPI.LineBuf.Holding`: the buffer holds a text, there is room behind it,
and nothing is said about what is there. That each counted newline is found again only needs
the text, which is why the stale bytes never matter. `QuAPI.SData.handleSolverchild_spec` says
that the handler does to its buffer what `QuAPI.QuapiSolver.serveLines` does to the text,
`QuAPI.SData.lines_reassembled` that a callback hears the lines of the output, and
`QuAPI.SData.verdict_on_text_iff` when the verdict is that of the lines alone: the regular
expressions see the zero byte as well.
-/

namespace QuAPI

/-! ### Memory -/

/-- `malloc`, for fresh memory that contains `junk`. -/
def malloc (junk : ℕ → Char) (n : ℕ) : List Char := (List.range n).map junk

/-- `realloc`, to a size that is not smaller. -/
def realloc (junk : ℕ → Char) (b : List Char) (n : ℕ) : List Char :=
  b ++ (List.range (n - b.length)).map fun i => junk (b.length + i)

/-- `b[i] = c`, inside of the buffer. -/
def put (b : List Char) (i : ℕ) (c : Char) : Option (List Char) :=
  if i < b.length then some (b.set i c) else none

/-- `strchr`: where the character is, if it is in front of the terminator, and `none` for a
search that leaves the buffer. -/
def strchr (c : Char) : List Char → Option (Option ℕ)
  | [] => none
  | x :: b =>
    if x = c then some (some 0)
    else if x = '\x00' then some none
    else (strchr c b).map fun i => i.map (· + 1)

/-- The string at the front of a buffer, up to its terminator. -/
def cString : List Char → Option (List Char)
  | [] => none
  | x :: b => if x = '\x00' then some [] else (cString b).map (x :: ·)

section Memory

variable {text stale rest line b : List Char} {c x : Char}

theorem length_malloc (junk : ℕ → Char) (n : ℕ) : (malloc junk n).length = n := by
  rw [malloc, List.length_map, List.length_range]

theorem length_realloc (junk : ℕ → Char) {n : ℕ} (h : b.length ≤ n) :
    (realloc junk b n).length = n := by
  rw [realloc, List.length_append, List.length_map, List.length_range]
  omega

theorem put_append (text stale : List Char) (x c : Char) :
    put (text ++ x :: stale) text.length c = some (text ++ c :: stale) := by
  have hlt : text.length < (text ++ x :: stale).length := by
    rw [List.length_append, List.length_cons]
    omega
  rw [put, if_pos hlt, List.set_append_right _ _ le_rfl, Nat.sub_self, List.set_cons_zero]

/-- **A newline in front of the terminator is found**, whatever is behind it. -/
theorem strchr_append (hline : c ∉ line) (hnul : '\x00' ∉ line) (rest : List Char) :
    strchr c (line ++ c :: rest) = some (some line.length) := by
  induction line with
  | nil => exact if_pos rfl
  | cons x line ih =>
    have hx : x ≠ c := (List.ne_of_not_mem_cons hline).symm
    have hx0 : x ≠ '\x00' := (List.ne_of_not_mem_cons hnul).symm
    rw [List.cons_append, strchr, if_neg hx, if_neg hx0,
      ih (List.not_mem_of_not_mem_cons hline) (List.not_mem_of_not_mem_cons hnul)]
    rfl

theorem cString_append (hnul : '\x00' ∉ line) (rest : List Char) :
    cString (line ++ '\x00' :: rest) = some line := by
  induction line with
  | nil => exact if_pos rfl
  | cons x line ih =>
    rw [List.cons_append, cString, if_neg (List.ne_of_not_mem_cons hnul).symm,
      ih (List.not_mem_of_not_mem_cons hnul)]
    rfl

end Memory

/-! ### The buffer -/

/-- The buffer of `S_data`, `buf` being NULL at first. -/
structure LineBuf where
  buf : Option (List Char)
  datalen : ℕ
  buflen : ℕ
deriving DecidableEq

namespace LineBuf

/-- The buffer of a new `S_data`. -/
def empty : LineBuf := ⟨none, 0, 0⟩

section Code

variable (junk : ℕ → Char) (l : LineBuf)

/-- The buffer is allocated when it is used first. -/
def allocate : LineBuf :=
  match l.buf with
  | none => { l with buf := some (malloc junk 1024), buflen := 1024 }
  | some _ => l

/-- One character of output: it is stored, and the buffer doubled if it is full but for one
byte. -/
def append (c : Char) : Option LineBuf :=
  (l.buf.bind fun b => put b l.datalen c).map fun b =>
    if l.datalen + 1 + 1 = l.buflen then
      { buf := some (realloc junk b (l.buflen * 2))
        datalen := l.datalen + 1
        buflen := l.buflen * 2 }
    else { l with buf := some b, datalen := l.datalen + 1 }

/-- The terminator behind the data. -/
def terminate : Option LineBuf :=
  -- not counted: the next character is stored over it
  (l.buf.bind fun b => put b l.datalen '\x00').map fun b => { l with buf := some b }

/-- The loop of `read_all_available_into_buffer` over what `fgetc` returns, with the newlines
counted so far. A zero byte ends it as well. -/
def readLoop (linecount : ℕ) (l : LineBuf) : List Char → Option (ℕ × LineBuf)
  | [] => l.terminate.map fun l => (linecount, l)
  | c :: available =>
    if c = '\x00' then l.terminate.map fun l => (linecount, l)
    else (l.append junk c).bind fun l =>
      readLoop (if c = '\n' then linecount + 1 else linecount) l available

/-- `read_all_available_into_buffer`. -/
def readAllAvailableIntoBuffer (available : List Char) : Option (ℕ × LineBuf) :=
  readLoop junk 0 (l.allocate junk) available

/-- `cutout_line_from_buf`: the length of the first line, its terminator included. -/
def cutoutLineFromBuf : Option (ℕ × LineBuf) :=
  l.buf.bind fun b => (strchr '\n' b).bind fun
    | none => some (0, l)
    | some linefeed => (put b linefeed '\x00').map fun b =>
      (linefeed + 1, { l with buf := some b })

/-- `move_next_line_to_front`: the data are moved, and not the terminator behind them. -/
def moveNextLineToFront (linelength : ℕ) : Option LineBuf :=
  l.buf.bind fun b =>
    if linelength ≤ l.datalen ∧ l.datalen ≤ b.length then
      -- `memmove`
      some { l with
        buf := some (memcpy b 0 (slice b linelength (l.datalen - linelength)))
        datalen := l.datalen - linelength }
    else none

end Code

/-! ### What the buffer holds -/

variable {junk : ℕ → Char} {l l' : LineBuf} {text rest line available : List Char} {c : Char}
  {n : ℕ}

/-- There is room for one more character and a terminator. -/
def Roomy (l : LineBuf) : Prop := l.datalen + 1 < l.buflen

/-- **The buffer holds a text**, with room behind it that contains anything. -/
structure Holding (l : LineBuf) (text : List Char) : Prop where
  buf : ∃ stale, l.buf = some (text ++ stale) ∧ (text ++ stale).length = l.buflen
  datalen : l.datalen = text.length
  roomy : l.Roomy

theorem holding_allocate_empty (junk : ℕ → Char) : (empty.allocate junk).Holding [] := by
  have hfresh : empty.allocate junk = ⟨some (malloc junk 1024), 0, 1024⟩ := rfl
  rw [hfresh]
  refine ⟨⟨malloc junk 1024, ?_, ?_⟩, rfl, ?_⟩
  · rw [List.nil_append]
  · rw [List.nil_append, length_malloc]
  · change 0 + 1 < 1024
    omega

/-- A buffer that holds a text is not allocated again. -/
theorem Holding.allocate (h : l.Holding text) : l.allocate junk = l := by
  obtain ⟨stale, hbuf, -⟩ := h.buf
  rw [LineBuf.allocate, hbuf]

/-- Behind the text there is a byte. -/
theorem Holding.behind (h : l.Holding text) :
    ∃ x stale, l.buf = some (text ++ x :: stale) ∧ (text ++ x :: stale).length = l.buflen := by
  obtain ⟨stale, hbuf, hlen⟩ := h.buf
  have hroomy : l.datalen + 1 < l.buflen := h.roomy
  rw [h.datalen, ← hlen, List.length_append] at hroomy
  cases stale with
  | nil =>
    rw [List.length_nil] at hroomy
    omega
  | cons x stale => exact ⟨x, stale, hbuf, hlen⟩

/-- **A character is appended**, and there is room again. -/
theorem Holding.append (h : l.Holding text) (junk : ℕ → Char) (c : Char) :
    ∃ l', l.append junk c = some l' ∧ l'.Holding (text ++ [c]) := by
  obtain ⟨x, stale, hbuf, hlen⟩ := h.behind
  have hroomy : l.datalen + 1 < l.buflen := h.roomy
  have hput : put (text ++ x :: stale) l.datalen c = some (text ++ [c] ++ stale) := by
    rw [h.datalen, put_append, List.append_assoc, List.singleton_append]
  have hsame : (text ++ [c] ++ stale).length = l.buflen := by
    rw [← hlen]
    simp only [List.length_append, List.length_cons, List.length_nil]
    omega
  have hdatalen : l.datalen + 1 = (text ++ [c]).length := by
    rw [h.datalen, List.length_append, List.length_singleton]
  rw [LineBuf.append, hbuf, Option.bind_some, hput, Option.map_some]
  by_cases hfull : l.datalen + 1 + 1 = l.buflen
  · -- the buffer is doubled, and what was behind the text stays in front of the fresh memory
    obtain ⟨fresh, hfresh⟩ : ∃ fresh, realloc junk (text ++ [c] ++ stale) (l.buflen * 2) =
        text ++ [c] ++ (stale ++ fresh) := ⟨_, List.append_assoc _ _ _⟩
    have hdouble : (text ++ [c] ++ (stale ++ fresh)).length = l.buflen * 2 := by
      rw [← hfresh, length_realloc junk (by rw [hsame]; omega)]
    rw [if_pos hfull, hfresh]
    refine ⟨_, rfl, ⟨_, rfl, hdouble⟩, hdatalen, ?_⟩
    · change l.datalen + 1 + 1 < l.buflen * 2
      omega
  · rw [if_neg hfull]
    refine ⟨_, rfl, ⟨stale, rfl, hsame⟩, hdatalen, ?_⟩
    change l.datalen + 1 + 1 < l.buflen
    omega

theorem Holding.terminate (h : l.Holding text) :
    ∃ l', l.terminate = some l' ∧ l'.Holding text := by
  obtain ⟨x, stale, hbuf, hlen⟩ := h.behind
  have hput : put (text ++ x :: stale) l.datalen '\x00' = some (text ++ '\x00' :: stale) := by
    rw [h.datalen, put_append]
  have hsame : (text ++ '\x00' :: stale).length = l.buflen := by
    rw [← hlen, List.length_append, List.length_append, List.length_cons, List.length_cons]
  rw [LineBuf.terminate, hbuf, Option.bind_some, hput]
  exact ⟨_, rfl, ⟨_, rfl, hsame⟩, h.datalen, h.roomy⟩

/-- There is room after every character of a reading. -/
theorem Holding.always_roomy (h : l.Holding text) (available : List Char) :
    Machine.Always (LineBuf.append junk) Roomy l available := by
  induction available generalizing l text with
  | nil => exact h.roomy
  | cons c available ih =>
    refine ⟨h.roomy, ?_⟩
    intro l' hl'
    obtain ⟨l'', happend, hholding⟩ := h.append junk c
    obtain rfl : l'' = l' := Option.some.inj (happend.symm.trans hl')
    exact ih hholding

/-- The loop appends what is in front of the first zero byte, and counts its newlines. -/
theorem Holding.readLoop (h : l.Holding text) (junk : ℕ → Char) (linecount : ℕ)
    (available : List Char) :
    ∃ l', LineBuf.readLoop junk linecount l available =
        some (linecount + (available.takeWhile (· ≠ '\x00')).count '\n', l') ∧
      l'.Holding (text ++ available.takeWhile (· ≠ '\x00')) := by
  -- on what is left to read, the text in the buffer growing
  induction available generalizing l text linecount with
  | nil =>
    obtain ⟨l', hl', hholding⟩ := h.terminate
    rw [LineBuf.readLoop, hl', List.takeWhile_nil, List.append_nil]
    exact ⟨l', rfl, hholding⟩
  | cons c available ih =>
    rw [LineBuf.readLoop]
    by_cases hc : c = '\x00'
    · obtain ⟨l', hl', hholding⟩ := h.terminate
      have hnil : (c :: available).takeWhile (· ≠ '\x00') = [] :=
        List.takeWhile_cons_of_neg (by simpa using hc)
      rw [if_pos hc, hl', hnil, List.append_nil]
      exact ⟨l', rfl, hholding⟩
    · obtain ⟨l₁, happend, hholding₁⟩ := h.append junk c
      obtain ⟨l', hl', hholding⟩ := ih hholding₁ (if c = '\n' then linecount + 1 else linecount)
      have hcons : (c :: available).takeWhile (· ≠ '\x00') =
          c :: available.takeWhile (· ≠ '\x00') :=
        List.takeWhile_cons_of_pos (by simpa using hc)
      rw [if_neg hc, happend, Option.bind_some, hl', hcons]
      refine ⟨l', ?_, by rwa [List.append_assoc, List.singleton_append] at hholding⟩
      rw [List.count_cons]
      by_cases hnl : c = '\n'
      · rw [if_pos hnl, if_pos (beq_iff_eq.mpr hnl)]
        congr 2
        omega
      · rw [if_neg hnl, if_neg (by simpa using hnl), Nat.add_zero]

/-- **The first line is cut out.** -/
theorem Holding.cutout (h : l.Holding (line ++ '\n' :: rest)) (hline : '\n' ∉ line)
    (hnul : '\x00' ∉ line) :
    ∃ stale, l.cutoutLineFromBuf = some (line.length + 1,
        { l with buf := some (line ++ '\x00' :: (rest ++ stale)) }) ∧
      (line ++ '\x00' :: (rest ++ stale)).length = l.buflen := by
  obtain ⟨stale, hbuf, hlen⟩ := h.buf
  rw [List.append_assoc, List.cons_append] at hbuf hlen
  refine ⟨stale, ?_, ?_⟩
  · rw [cutoutLineFromBuf, hbuf, Option.bind_some, strchr_append hline hnul, Option.bind_some]
    change Option.map _ (put (line ++ '\n' :: (rest ++ stale)) line.length '\x00') = _
    rw [put_append, Option.map_some]
  · rw [← hlen, List.length_append, List.length_append, List.length_cons, List.length_cons]

/-- **What is behind the first line moves to the front.** -/
theorem Holding.move {stale : List Char} (h : l.Holding (line ++ '\n' :: rest))
    (hlen : (line ++ '\x00' :: (rest ++ stale)).length = l.buflen) :
    ∃ l', LineBuf.moveNextLineToFront
        { l with buf := some (line ++ '\x00' :: (rest ++ stale)) } (line.length + 1) = some l' ∧
      l'.Holding rest := by
  have hdatalen : l.datalen = line.length + 1 + rest.length := by
    rw [h.datalen, List.length_append, List.length_cons]
    omega
  have hroomy : l.datalen + 1 < l.buflen := h.roomy
  have hle : line.length + 1 ≤ l.datalen ∧
      l.datalen ≤ (line ++ '\x00' :: (rest ++ stale)).length := by
    rw [hlen]
    omega
  -- the text without its first line, and not the terminator
  have hrest : l.datalen - (line.length + 1) = rest.length := by omega
  have hslice : slice (line ++ '\x00' :: (rest ++ stale)) (line.length + 1) rest.length = rest := by
    rw [slice, List.drop_length_add_append, List.drop_succ_cons, List.drop_zero, List.take_left]
  have hfits : 0 + rest.length ≤ (line ++ '\x00' :: (rest ++ stale)).length := by
    rw [hlen]
    omega
  rw [moveNextLineToFront, Option.bind_some, if_pos hle, hrest, hslice]
  refine ⟨_, rfl, ⟨(line ++ '\x00' :: (rest ++ stale)).drop (0 + rest.length), ?_, ?_⟩, rfl, ?_⟩
  · rw [memcpy, List.take_zero, List.nil_append]
  · rw [← hlen, List.length_append, List.length_drop]
    omega
  · change rest.length + 1 < l.buflen
    omega

end LineBuf

/-! ### The handler -/

/-- The state function that a handler returns: `S_POLL`, or NULL for the end of the solve. -/
inductive SState where
  | poll
  | null
deriving DecidableEq

/-- `S_data`. -/
structure SData extends LineBuf where
  s : QuapiSolver
  retcode : ℤ
  /-- The lines that the callback has been given, for the statements only. -/
  heard : List (List Char)

/-- `match_regex`; without a compiled pattern nothing matches. -/
def matchRegex (re : Option (List Char → Bool)) (subject : List Char) : Bool :=
  re.any fun re => re subject

namespace SData

/-- The `S_data` of `solve_internal`. -/
def start (s : QuapiSolver) : SData where
  toLineBuf := .empty
  s := s
  retcode := 0
  heard := []

section Code

variable (junk : ℕ → Char)

/-- The line in the buffer has decided nothing, and what is behind it moves to the front. -/
def moveNextLineToFront (d : SData) (linelength : ℕ) : Option SData :=
  (d.toLineBuf.moveNextLineToFront linelength).map fun l => { d with toLineBuf := l }

/-- The loop of `S_HANDLE_SOLVERCHILD` over the lines that have been counted: `none` where an
assertion fails, or an access is outside of the buffer. -/
def handleLines : ℕ → SData → Option (SState × SData)
  | 0, d => some (.poll, d)
  | lines + 1, d => d.cutoutLineFromBuf.bind fun (linelength, l) => l.buf.bind fun b =>
    let d := { d with toLineBuf := l }
    -- `assert`
    if linelength = 0 then none
    -- the subject has the length of the line with its terminator
    else if matchRegex (d.s.regexes.map Prod.fst) (slice b 0 linelength) then
      some (.null, { d with retcode := 10 })
    else if matchRegex (d.s.regexes.map Prod.snd) (slice b 0 linelength) then
      some (.null, { d with retcode := 20 })
    else match d.s.stdoutCb with
      | none => (d.moveNextLineToFront linelength).bind (handleLines lines)
      | some cb => (cString b).bind fun line =>
        let d := { d with heard := d.heard ++ [line] }
        if cb line ≠ 0 then some (.null, { d with retcode := cb line })
        else (d.moveNextLineToFront linelength).bind (handleLines lines)

/-- `S_HANDLE_SOLVERCHILD`, for the output that is there. -/
def handleSolverchild (d : SData) (available : List Char) : Option (SState × SData) :=
  (d.readAllAvailableIntoBuffer junk available).bind fun (lines, l) =>
    handleLines lines { d with toLineBuf := l }

/-- One chunk of output arrives. Behind the end of the solve nobody reads it. -/
def step : SState × SData → List Char → Option (SState × SData)
  | (.poll, d), available => d.handleSolverchild junk available
  | (.null, d), _ => some (.null, d)

end Code

variable {junk : ℕ → Char} {d : SData} {s : QuapiSolver} {text line rest available : List Char}

/-- What the callback hears of a text that decides nothing. -/
def told (s : QuapiSolver) (text : List Char) : List (List Char) :=
  if s.stdoutCb.isSome then completeLines [] text else []

/-- **What comes of a text in the buffer**: a return code, or the text that `serveLines` has
left, and each of its lines for the callback. -/
def Served (d : SData) (text : List Char) (x : SState × SData) : Prop :=
  x.2.s = d.s ∧
    match d.s.serveLines (text.count '\n') text with
    | (some v, _) => x.1 = .null ∧ x.2.retcode = v
    | (none, rest) =>
      x.1 = .poll ∧ x.2.Holding rest ∧ x.2.retcode = d.retcode ∧
        x.2.heard = d.heard ++ told d.s text

/-- The regular expressions and the callback, as the code asks them. -/
theorem rule_eq (s : QuapiSolver) (line : List Char) : s.rule line =
    if matchRegex (s.regexes.map Prod.fst) (line ++ ['\x00']) then some 10
    else if matchRegex (s.regexes.map Prod.snd) (line ++ ['\x00']) then some 20
    else s.stdoutCb.bind fun cb => if cb line ≠ 0 then some (cb line) else none := by
  rw [QuapiSolver.rule]
  rcases s.regexes with _ | ⟨sat, unsat⟩
  · rfl
  · rfl

theorem told_of_notMem (h : '\n' ∉ text) : told s text = [] := by
  rw [told, completeLines_of_notMem h, ite_self]

/-- **One line**: it decides, or it is told to the callback and gone. -/
theorem handleLines_succ (h : d.Holding (line ++ '\n' :: rest)) (hline : '\n' ∉ line)
    (hnul : '\x00' ∉ line) (n : ℕ) :
    (∃ v d', d.s.rule line = some v ∧ handleLines (n + 1) d = some (.null, d') ∧
      d'.s = d.s ∧ d'.retcode = v) ∨
    (∃ l, d.s.rule line = none ∧ l.Holding rest ∧ handleLines (n + 1) d = handleLines n
      { d with
        toLineBuf := l
        heard := d.heard ++ if d.s.stdoutCb.isSome then [line] else [] }) := by
  obtain ⟨stale, hcut, hlen⟩ := h.cutout hline hnul
  obtain ⟨l, hmove, hholding⟩ := h.move hlen
  -- the linefeed is a zero byte now, and the subject ends with it
  have hsubject : slice (line ++ '\x00' :: (rest ++ stale)) 0 (line.length + 1) =
      line ++ ['\x00'] := by
    rw [slice, List.drop_zero, List.take_length_add_append, List.take_succ_cons, List.take_zero]
  rw [handleLines, hcut]
  simp only [Option.bind_some, if_neg (Nat.succ_ne_zero _), hsubject, rule_eq]
  by_cases hsat : matchRegex (d.s.regexes.map Prod.fst) (line ++ ['\x00']) = true
  · rw [if_pos hsat, if_pos hsat]
    exact Or.inl ⟨10, _, rfl, rfl, rfl, rfl⟩
  · rw [if_neg hsat, if_neg hsat]
    by_cases hunsat : matchRegex (d.s.regexes.map Prod.snd) (line ++ ['\x00']) = true
    · rw [if_pos hunsat, if_pos hunsat]
      exact Or.inl ⟨20, _, rfl, rfl, rfl, rfl⟩
    · rw [if_neg hunsat, if_neg hunsat]
      cases hcb : d.s.stdoutCb with
      | none =>
        refine Or.inr ⟨l, rfl, hholding, ?_⟩
        simp only [moveNextLineToFront, hmove, Option.map_some, Option.bind_some,
          Option.isSome_none, Bool.false_eq_true, if_false, List.append_nil]
      | some cb =>
        simp only [cString_append hnul, Option.bind_some]
        by_cases hret : cb line ≠ 0
        · rw [if_pos hret, if_pos hret]
          exact Or.inl ⟨cb line, _, rfl, rfl, rfl, rfl⟩
        · rw [if_neg hret, if_neg hret]
          refine Or.inr ⟨l, rfl, hholding, ?_⟩
          simp only [moveNextLineToFront, hmove, Option.map_some, Option.bind_some,
            Option.isSome_some, if_true]

/-- **The handler's loop serves the text** that is in its buffer. -/
theorem handleLines_spec (h : d.Holding text) (hnul : '\x00' ∉ text) :
    ∃ x, handleLines (text.count '\n') d = some x ∧ Served d text x := by
  unfold Served
  generalize hn : text.count '\n' = n
  -- on the lines that have been counted: each of them is found again
  induction n generalizing d text with
  | zero =>
    have hmem : '\n' ∉ text := List.count_eq_zero.mp hn
    refine ⟨(.poll, d), rfl, rfl, rfl, h, rfl, ?_⟩
    rw [told_of_notMem hmem, List.append_nil]
  | succ n ih =>
    obtain ⟨line, rest, rfl, hline, hcount⟩ := QuapiSolver.exists_line hn
    have hnuls : '\x00' ∉ line ∧ '\x00' ∉ '\n' :: rest := by rwa [List.mem_append, not_or] at hnul
    have hrest : '\x00' ∉ rest := List.not_mem_of_not_mem_cons hnuls.2
    rw [QuapiSolver.serveLines_line d.s hline]
    rcases handleLines_succ h hline hnuls.1 n with
      ⟨v, d', hrule, hloop, hs, hret⟩ | ⟨l, hrule, hholding, hloop⟩
    · rw [hloop, hrule]
      exact ⟨_, rfl, hs, rfl, hret⟩
    · rw [hloop, hrule]
      -- what is behind the line is served from the front of the buffer
      let d' : SData := { d with
        toLineBuf := l
        heard := d.heard ++ if d.s.stdoutCb.isSome then [line] else [] }
      have hd : d'.Holding rest := hholding
      obtain ⟨x, hx, hs, hserved⟩ := ih hd hrest hcount
      refine ⟨x, hx, hs, ?_⟩
      have htold : told d.s (line ++ '\n' :: rest) =
          (if d.s.stdoutCb.isSome then [line] else []) ++ told d.s rest := by
        rw [told, told, completeLines_line hline]
        split <;> rfl
      rw [htold, ← List.append_assoc]
      exact hserved

/-- **The handler serves what it has kept and what has come**, up to a zero byte. -/
theorem handleSolverchild_spec {heard : List Char} (h : (d.allocate junk).Holding text)
    (htext : text.count '\n' = 0) (hnul : '\x00' ∉ text)
    (hheard : available.takeWhile (· ≠ '\x00') = heard) :
    ∃ x, d.handleSolverchild junk available = some x ∧ Served d (text ++ heard) x := by
  obtain ⟨l, hread, hholding⟩ := h.readLoop junk 0 available
  rw [hheard] at hread hholding
  have hcount : 0 + heard.count '\n' = (text ++ heard).count '\n' := by
    rw [List.count_append, htext]
  have hnone : '\x00' ∉ text ++ heard := by
    rw [List.mem_append, not_or]
    refine ⟨hnul, ?_⟩
    intro hmem
    rw [← hheard] at hmem
    have hne := List.mem_takeWhile_imp hmem
    exact of_decide_eq_true hne rfl
  rw [handleSolverchild, LineBuf.readAllAvailableIntoBuffer, hread, Option.bind_some, hcount]
  have hd : LineBuf.Holding { d with toLineBuf := l }.toLineBuf (text ++ heard) := hholding
  exact handleLines_spec hd hnone

/-- **The handler does what a step of the system says**, for the output that the system has. -/
theorem handleSolverchild_afterOutput {x : System} {p : PollData} {n : ℕ} (hs : d.s = x.solver)
    (h : (d.allocate junk).Holding p.buf) (hline : '\n' ∉ p.buf) (hnul : '\x00' ∉ p.buf) :
    ∃ S d', d.handleSolverchild junk ((x.stdout.take n).map Prod.fst) = some (S, d') ∧
      match x.afterOutput p n with
      | .finishing v => S = .null ∧ d'.retcode = v
      | .polling p' => S = .poll ∧ d'.Holding p'.buf
      | _ => False := by
  have hcount : p.buf.count '\n' = 0 := List.count_eq_zero.mpr hline
  have hheard : ((x.stdout.take n).map Prod.fst).takeWhile (· ≠ '\x00') = x.heard n := rfl
  obtain ⟨⟨S, d'⟩, hserve, -, hserved⟩ := handleSolverchild_spec h hcount hnul hheard
  refine ⟨S, d', hserve, ?_⟩
  rw [List.count_append, hcount, Nat.zero_add, hs] at hserved
  rw [System.afterOutput]
  rcases hlines : x.solver.serveLines ((x.heard n).count '\n') (p.buf ++ x.heard n) with
    ⟨_ | v, rest⟩
  · rw [hlines] at hserved
    exact ⟨hserved.1, hserved.2.1⟩
  · rw [hlines] at hserved
    exact hserved

/-! ### A solve -/

/-- **What the solve has come to** when a text has been heard: it has ended with the verdict,
or it goes on, with the unfinished line in the buffer and the others told. -/
def Polls (junk : ℕ → Char) (s : QuapiSolver) (text : List Char) (x : SState × SData) : Prop :=
  (∃ v, s.verdict text = some v ∧ x.1 = .null ∧ x.2.retcode = v) ∨
    (s.verdict text = none ∧ x.1 = .poll ∧ x.2.s = s ∧
      (x.2.allocate junk).Holding (unfinishedLine [] text) ∧ x.2.heard = told s text)

theorem polls_start (junk : ℕ → Char) (s : QuapiSolver) : Polls junk s [] (.poll, start s) := by
  refine Or.inr ⟨rfl, rfl, rfl, LineBuf.holding_allocate_empty junk, ?_⟩
  exact (told_of_notMem List.not_mem_nil).symm

theorem told_append (s : QuapiSolver) (text more : List Char) :
    told s (text ++ more) = told s text ++ told s (unfinishedLine [] text ++ more) := by
  -- the unfinished line is told when its end has come
  have hline : '\n' ∉ unfinishedLine [] text := notMem_unfinishedLine List.not_mem_nil
  rw [told, told, told]
  split
  · rw [completeLines_append, completeLines_append, completeLines_of_notMem hline,
      unfinishedLine_of_notMem hline, List.nil_append, List.nil_append]
  · rfl

theorem unfinishedLine_idem (text more : List Char) :
    unfinishedLine [] (unfinishedLine [] text ++ more) = unfinishedLine [] (text ++ more) := by
  have hline : '\n' ∉ unfinishedLine [] text := notMem_unfinishedLine List.not_mem_nil
  rw [unfinishedLine_append, unfinishedLine_append, unfinishedLine_of_notMem hline, List.nil_append]

/-- **One chunk of output.** -/
theorem Polls.step {x : SState × SData} {chunk : List Char} (h : Polls junk s text x)
    (htext : '\x00' ∉ text) (hchunk : '\x00' ∉ chunk) :
    ∃ y, step junk x chunk = some y ∧ Polls junk s (text ++ chunk) y := by
  obtain ⟨S, d⟩ := x
  rcases h with ⟨v, hv, hS, hret⟩ | ⟨hnone, hS, rfl, hholding, hheard⟩
  · obtain rfl : S = .null := hS
    exact ⟨(.null, d), rfl, Or.inl ⟨v, QuapiSolver.verdict_append_of_some hv, rfl, hret⟩⟩
  · obtain rfl : S = .poll := hS
    have hline : '\n' ∉ unfinishedLine [] text := notMem_unfinishedLine List.not_mem_nil
    have hnul : '\x00' ∉ unfinishedLine [] text := by
      intro hmem
      rcases mem_of_mem_unfinishedLine hmem with hnil | hmem
      · exact absurd hnil List.not_mem_nil
      · exact htext hmem
    -- without a zero byte, all of the chunk is read
    have hall : chunk.takeWhile (· ≠ '\x00') = chunk :=
      List.takeWhile_eq_self_iff.mpr fun c hc =>
        decide_eq_true fun heq => hchunk (heq ▸ hc)
    obtain ⟨y, hy, hs, hserved⟩ :=
      handleSolverchild_spec hholding (List.count_eq_zero.mpr hline) hnul hall
    refine ⟨y, hy, ?_⟩
    have hverdict : d.s.verdict (text ++ chunk) = d.s.verdict (unfinishedLine [] text ++ chunk) :=
      QuapiSolver.verdict_append_of_none hnone
    rcases d.s.serveLines_spec (unfinishedLine [] text ++ chunk) with
      ⟨v, buf, hserve, hv⟩ | ⟨hserve, hv⟩
    · rw [hserve] at hserved
      exact Or.inl ⟨v, hverdict.trans hv, hserved⟩
    · rw [hserve] at hserved
      obtain ⟨hpoll, hrest, -, htold⟩ := hserved
      rw [unfinishedLine_idem] at hrest
      refine Or.inr ⟨hverdict.trans hv, hpoll, hs, ?_, ?_⟩
      · rw [hrest.allocate]
        exact hrest
      · rw [htold, hheard, ← told_append]

theorem notMem_front {c : Char} {text chunk rest : List Char} (h : c ∉ text ++ chunk ++ rest) :
    c ∉ text ∧ c ∉ chunk := by
  have hfront : c ∉ text ++ chunk := fun hmem => h (List.mem_append_left _ hmem)
  rwa [List.mem_append, not_or] at hfront

/-- **A solve goes by what is heard**, in whatever chunks it comes. -/
theorem Polls.run {x : SState × SData} {chunks : List (List Char)} (h : Polls junk s text x)
    (hnul : '\x00' ∉ text ++ chunks.flatten) :
    ∃ y, Machine.run (SData.step junk) x chunks = some y ∧
      Polls junk s (text ++ chunks.flatten) y := by
  induction chunks generalizing x text with
  | nil =>
    rw [List.flatten_nil, List.append_nil]
    exact ⟨x, rfl, h⟩
  | cons chunk chunks ih =>
    rw [List.flatten_cons, ← List.append_assoc] at hnul ⊢
    obtain ⟨htext, hchunk⟩ := notMem_front hnul
    obtain ⟨y, hy, hpolls⟩ := h.step htext hchunk
    obtain ⟨z, hz, hrest⟩ := ih hpolls hnul
    exact ⟨z, Machine.run_cons.mpr ⟨y, hy, hz⟩, hrest⟩

/-- There is room after every character that is appended. -/
theorem Polls.meets_roomy {x : SState × SData} {chunks : List (List Char)}
    (h : Polls junk s text x) (hnul : '\x00' ∉ text ++ chunks.flatten) :
    Machine.Meets (SData.step junk) (fun x chunk => x.1 = .poll →
      Machine.Always (LineBuf.append junk) LineBuf.Roomy (x.2.allocate junk) chunk) x chunks := by
  induction chunks generalizing x text with
  | nil => trivial
  | cons chunk chunks ih =>
    rw [List.flatten_cons, ← List.append_assoc] at hnul
    obtain ⟨htext, hchunk⟩ := notMem_front hnul
    constructor
    · intro hpoll
      rcases h with ⟨-, -, hnull, -⟩ | ⟨-, -, -, hholding, -⟩
      · exact absurd (hpoll.symm.trans hnull) (by decide)
      · exact hholding.always_roomy chunk
    · intro y hy
      obtain ⟨z, hz, hpolls⟩ := h.step htext hchunk
      obtain rfl : z = y := Option.some.inj (hz.symm.trans hy)
      exact ih hpolls hnul

/-- **Lines are put together again.** For every output without a zero byte, in whatever chunks
it comes, with a callback that returns `0` and no match of a regular expression: the solve
goes on, no assertion fails and no access is outside of the buffer; the callback has heard the
complete lines, in order and each once; the unfinished one is kept, whatever the fresh memory
contains; and after every character that is appended, and in front of the first one,
`datalen + 1 < buflen`. -/
theorem lines_reassembled (junk : ℕ → Char) {s : QuapiSolver} {cb : List Char → ℤ}
    {chunks : List (List Char)} (hcb : s.stdoutCb = some cb) (hnul : '\x00' ∉ chunks.flatten)
    (hzero : ∀ line ∈ completeLines [] chunks.flatten, cb line = 0)
    (hmatch : ∀ line ∈ completeLines [] chunks.flatten,
      matchRegex (s.regexes.map Prod.fst) (line ++ ['\x00']) = false ∧
        matchRegex (s.regexes.map Prod.snd) (line ++ ['\x00']) = false) :
    (∃ d, Machine.run (SData.step junk) (.poll, start s) chunks = some (.poll, d) ∧
      d.heard = completeLines [] chunks.flatten ∧
      (d.allocate junk).Holding (unfinishedLine [] chunks.flatten)) ∧
    Machine.Meets (SData.step junk) (fun x chunk => x.1 = .poll →
      Machine.Always (LineBuf.append junk) LineBuf.Roomy (x.2.allocate junk) chunk)
      (.poll, start s) chunks := by
  have hpolls := polls_start junk s
  -- no line decides, so that the solve goes on
  have hverdict : s.verdict chunks.flatten = none := by
    refine List.findSome?_eq_none_iff.mpr fun line hline => ?_
    obtain ⟨hsat, hunsat⟩ := hmatch line hline
    rw [rule_eq, hsat, hunsat, hcb, Option.bind_some, hzero line hline]
    rfl
  have hnul' : '\x00' ∉ [] ++ chunks.flatten := by rwa [List.nil_append]
  refine ⟨?_, hpolls.meets_roomy hnul'⟩
  obtain ⟨⟨S, d⟩, hrun, hend⟩ := hpolls.run hnul'
  rw [List.nil_append] at hend
  rcases hend with ⟨v, hv, -⟩ | ⟨-, hpoll, -, hholding, hheard⟩
  · exact absurd (hv.symm.trans hverdict) (Option.some_ne_none v)
  · obtain rfl : S = .poll := hpoll
    refine ⟨d, hrun, ?_, hholding⟩
    rw [hheard, told, hcb, Option.isSome_some, if_pos rfl]

/-- A callback that returns `0` on the lines `a` and the empty one, for an output in two
chunks, the first of which ends within a line. -/
theorem two_chunks_reassembled :
    let chunks := [['a', '\n', 'b'], ['\n', '\n', 'c']]
    let s := { System.small none with stdoutCb := some fun _ => 0 }
    '\x00' ∉ chunks.flatten ∧
    (∃ d, Machine.run (SData.step fun _ => '\n') (.poll, start s) chunks = some (.poll, d) ∧
      d.heard = completeLines [] chunks.flatten ∧
      (d.allocate fun _ => '\n').Holding (unfinishedLine [] chunks.flatten)) ∧
    Machine.Meets (SData.step fun _ => '\n') (fun x chunk => x.1 = .poll →
      Machine.Always (LineBuf.append fun _ => '\n') LineBuf.Roomy
        (x.2.allocate fun _ => '\n') chunk) (.poll, start s) chunks := by
  intro chunks s
  have hnul : '\x00' ∉ chunks.flatten := by decide
  exact ⟨hnul, lines_reassembled _ rfl hnul (fun _ _ => rfl) fun _ _ => ⟨rfl, rfl⟩⟩

/-! ### The text that is ruled on -/

/-- What a solve has ended with. -/
def outcome (x : SState × SData) : Option ℤ :=
  match x.1 with
  | .poll => none
  | .null => some x.2.retcode

/-- **In whatever chunks the output comes**, a solve ends with the verdict on it. -/
theorem exists_run (junk : ℕ → Char) (s : QuapiSolver) {chunks : List (List Char)}
    (hnul : '\x00' ∉ chunks.flatten) :
    ∃ x, Machine.run (SData.step junk) (.poll, start s) chunks = some x ∧
      outcome x = s.verdict chunks.flatten := by
  have hnul' : '\x00' ∉ [] ++ chunks.flatten := by rwa [List.nil_append]
  obtain ⟨x, hrun, hend⟩ := (polls_start junk s).run hnul'
  rw [List.nil_append] at hend
  refine ⟨x, hrun, ?_⟩
  rcases hend with ⟨v, hv, hnull, hret⟩ | ⟨hnone, hpoll, -⟩
  · rw [outcome, hnull, hret, hv]
  · rw [outcome, hpoll, hnone]

/-- What a line is for two predicates on its text. -/
def textRule (sat unsat : List Char → Bool) (line : List Char) : Option ℤ :=
  if sat line then some 10 else if unsat line then some 20 else none

/-- What an output is for them: its first complete line for which either holds. -/
def textVerdict (sat unsat : List Char → Bool) (text : List Char) : Option ℤ :=
  (completeLines [] text).findSome? (textRule sat unsat)

/-- **The zero byte makes no difference** for a line: to the predicate for SAT, and where that
does not hold to the one for UNSAT. -/
def SameRuling (sat unsat : List Char → Bool) (line : List Char) : Prop :=
  sat (line ++ ['\x00']) = sat line ∧
    (sat line = false → unsat (line ++ ['\x00']) = unsat line)

section

variable {sat unsat : List Char → Bool}

theorem textRule_eq_none : textRule sat unsat line = none ↔
    sat line = false ∧ unsat line = false := by
  rw [textRule]
  cases sat line <;> cases unsat line <;> decide

/-- The code rules on a line as on its text exactly if the zero byte makes no difference. -/
theorem rule_eq_textRule (hregexes : s.regexes = some (sat, unsat)) (hcb : s.stdoutCb = none)
    (line : List Char) : s.rule line = textRule sat unsat line ↔ SameRuling sat unsat line := by
  rw [QuapiSolver.rule, hregexes, hcb, textRule, SameRuling]
  change (if sat (line ++ ['\x00']) then some 10
    else if unsat (line ++ ['\x00']) then some 20 else none) = _ ↔ _
  cases sat (line ++ ['\x00']) <;> cases sat line <;>
    cases unsat (line ++ ['\x00']) <;> cases unsat line <;> decide

/-- Two rulings find the same in every beginning of a list, if and only if they agree on each
element in front of which the second one finds nothing. -/
theorem findSome?_eq_iff {α β : Type*} {f g : α → Option β} {l : List α} :
    (∀ m, m <+: l → m.findSome? f = m.findSome? g) ↔
      ∀ pre a post, l = pre ++ a :: post → (∀ b ∈ pre, g b = none) → f a = g a := by
  constructor
  · rintro h pre a post rfl hpre
    have hg : pre.findSome? g = none := List.findSome?_eq_none_iff.mpr hpre
    have hf : pre.findSome? f = none := (h pre (List.prefix_append pre _)).trans hg
    have hboth := h (pre ++ [a]) ⟨post, by rw [List.append_assoc, List.singleton_append]⟩
    rw [List.findSome?_append, List.findSome?_append, hf, hg, Option.none_or, Option.none_or,
      List.findSome?_singleton, List.findSome?_singleton] at hboth
    exact hboth
  · intro h m
    -- on the beginning, a line at its end at a time
    induction m using List.reverseRecOn with
    | nil => exact fun _ => rfl
    | append_singleton m a ih =>
      rintro ⟨post, rfl⟩
      have hm : m.findSome? f = m.findSome? g :=
        ih ⟨a :: post, by rw [List.append_assoc, List.singleton_append]⟩
      rw [List.findSome?_append, List.findSome?_append, hm, List.findSome?_singleton,
        List.findSome?_singleton]
      cases hg : m.findSome? g with
      | some v => rfl
      | none =>
        have ha := h m a post (by rw [List.append_assoc, List.singleton_append])
          (List.findSome?_eq_none_iff.mp hg)
        rw [ha]

/-- **The verdict is that on the lines where the zero byte makes no difference.** For every
pair of predicates, every output without a zero byte, no callback, and every beginning of that
output in every way of coming in chunks: the solve has ended with `10` or `20` as the first
complete line says for which either predicate holds, and has not ended if there is none, if
and only if for no line up to that first one it matters that the regular expressions see the
zero byte behind the line. -/
theorem verdict_on_text_iff (junk : ℕ → Char) {s : QuapiSolver} {text : List Char}
    (hregexes : s.regexes = some (sat, unsat)) (hcb : s.stdoutCb = none)
    (hnul : '\x00' ∉ text) :
    (∀ chunks : List (List Char), chunks.flatten <+: text →
      ∃ x, Machine.run (SData.step junk) (.poll, start s) chunks = some x ∧
        outcome x = textVerdict sat unsat chunks.flatten) ↔
    ∀ pre line post, completeLines [] text = pre ++ line :: post →
      (∀ l ∈ pre, sat l = false ∧ unsat l = false) → SameRuling sat unsat line := by
  -- what all chunkings say is what all beginnings of the lines say
  have hruns : (∀ chunks : List (List Char), chunks.flatten <+: text →
      ∃ x, Machine.run (SData.step junk) (.poll, start s) chunks = some x ∧
        outcome x = textVerdict sat unsat chunks.flatten) ↔
      ∀ lines, lines <+: completeLines [] text →
        lines.findSome? s.rule = lines.findSome? (textRule sat unsat) := by
    constructor
    · intro h lines hlines
      -- the lines are those of a beginning of the output, which may come in one chunk
      obtain ⟨u, hu, rfl⟩ := exists_prefix_lines hlines
      have hflat : [u].flatten = u := List.flatten_singleton
      obtain ⟨x, hx, hout⟩ := h [u] (hflat.symm ▸ hu)
      obtain ⟨y, hy, hverdict⟩ := exists_run junk s
        (show '\x00' ∉ [u].flatten from hflat.symm ▸ fun hmem => hnul (hu.subset hmem))
      obtain rfl : x = y := Option.some.inj (hx.symm.trans hy)
      rw [hflat] at hout hverdict
      exact hverdict.symm.trans hout
    · intro h chunks hchunks
      obtain ⟨x, hx, hverdict⟩ := exists_run junk s fun hmem => hnul (hchunks.subset hmem)
      refine ⟨x, hx, hverdict.trans (h _ ?_)⟩
      obtain ⟨more, rfl⟩ := hchunks
      rw [completeLines_append]
      exact List.prefix_append _ _
  rw [hruns, findSome?_eq_iff]
  simp only [textRule_eq_none, rule_eq_textRule hregexes hcb]

end

/-- The lines that begin with `S`, and those that begin with `U`: no end of the line matters. -/
def initials : (List Char → Bool) × (List Char → Bool) :=
  (fun line => line.head? == some 'S', fun line => line.head? == some 'U')

/-- Output with an empty line, a line for UNSAT and one for SAT. -/
theorem initials_on_text :
    let text := ['\n', 'U', '\n', 'S', '\n']
    '\x00' ∉ text ∧ textVerdict initials.1 initials.2 text = some 20 ∧
      ∀ chunks : List (List Char), chunks.flatten <+: text →
        ∃ x, Machine.run (SData.step fun _ => '\n')
            (.poll, start (System.small (some initials))) chunks = some x ∧
          outcome x = textVerdict initials.1 initials.2 chunks.flatten := by
  intro text
  have hnul : '\x00' ∉ text := by decide
  refine ⟨hnul, by decide, (verdict_on_text_iff _ rfl rfl hnul).mpr ?_⟩
  rintro - line - - -
  rcases line with _ | ⟨c, line⟩
  · exact ⟨rfl, fun _ => rfl⟩
  · exact ⟨rfl, fun _ => rfl⟩

/-- The regular expressions `^SAT$` and `^UNSAT$`. -/
def anchored : (List Char → Bool) × (List Char → Bool) :=
  (fun line => decide (line = ['S', 'A', 'T']),
    fun line => decide (line = ['U', 'N', 'S', 'A', 'T']))

/-- **The verdict is not that on the text of the line**: for `^SAT$` and the output `SAT`, the
solve goes on. -/
theorem anchored_not_matched :
    ¬∀ (junk : ℕ → Char) (s : QuapiSolver) (sat unsat : List Char → Bool)
      (chunks : List (List Char)), s.regexes = some (sat, unsat) → s.stdoutCb = none →
      '\x00' ∉ chunks.flatten →
      ∃ x, Machine.run (SData.step junk) (.poll, start s) chunks = some x ∧
        outcome x = textVerdict sat unsat chunks.flatten := by
  intro h
  have hnul : '\x00' ∉ [['S', 'A', 'T', '\n']].flatten := by decide
  obtain ⟨x, hx, hout⟩ := h (fun _ => '\n') (System.small (some anchored)) anchored.1 anchored.2
    [['S', 'A', 'T', '\n']] rfl rfl hnul
  obtain ⟨y, hy, hverdict⟩ := exists_run (fun _ => '\n') (System.small (some anchored)) hnul
  obtain rfl : x = y := Option.some.inj (hx.symm.trans hy)
  exact absurd (hout.symm.trans hverdict) (by decide)

end SData
end QuAPI
