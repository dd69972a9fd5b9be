import QuAPI.Runtime.Printing

/-!
# What the state functions encode

The runtime seen as a transducer: one message in, one fragment of text out.
`QuAPI.Encoder` keeps of a runtime only what decides the text – the header, the
state, the filler clause, the number of closed clauses and the number of quantified
variables – and `QuAPI.Encoder.emit` says what each message adds to it, for every pair
of a state and a message that the state function has a case for.

The abstract transducer and the runtime are connected by `QuAPI.Encodes`: the runtime
agrees with the encoder and is about to be given a message. One call of
`QuAPI.stateLoop` then leaves exactly the emitted fragment in the 64-byte buffer
(`QuAPI.stateLoop_emit`), whatever the buffer held before.
-/

namespace QuAPI

/-! ### The encoder -/

/-- What decides the text of a runtime. -/
structure Encoder where
  /-- The header that was installed. -/
  header : QuapiMsgHeaderData
  /-- The state function that gets the next message. -/
  state : QuapiPreloadState
  /-- The filler clause. -/
  filler : List Char
  /-- The clauses closed so far. -/
  written : ℤ
  /-- The quantified variables so far. -/
  quantifiers : ℕ
deriving DecidableEq

/-- The `p cnf` line. -/
def headerLine (d : QuapiMsgHeaderData) : List Char :=
  ['p', ' ', 'c', 'n', 'f', ' '] ++ decimal d.literals.1 ++ ' ' :: (decimal d.clauses.1 ++ ['\n'])

/-- The filler clause without a first existential variable. -/
def defaultFiller : List Char := "-1 1 0\n".toList

/-- The filler clause of a formula without variables: the empty clause. -/
def emptyFiller : List Char := "0\n".toList

/-- The filler clause of a prefix that begins with an existential variable. -/
def quantifierFiller (lit : Lit) : List Char :=
  decimal lit.val ++ " -".toList ++ decimal lit.val ++ " 0\n".toList

/-- The encoder of a runtime that waits for its header. -/
def Encoder.init : Encoder where
  header := ⟨.of 0, .of 0, .of 0⟩
  state := .waitingForHeader
  filler := defaultFiller
  written := 0
  quantifiers := 0

/-- **What a message adds to the text**: the fragment it is turned into, empty for a
FORK, and the encoder afterwards. There is no case for SOLVE, which ends the text. -/
def Encoder.emit (c : Encoder) (msg : QuapiMsg) : Option (List Char × Encoder) :=
  match c.state, msg with
  | .waitingForHeader, .header _ d =>
    some (headerLine d, { c with
      header := d
      state := .readingPrefix
      filler := if d.literals.1 = 0 then emptyFiller else c.filler })
  | .readingPrefix, .quantifier lit =>
    if 0 < lit.val then
      some ("e ".toList ++ decimal lit.val, { c with
        state := .readingExists
        filler := if c.quantifiers = 0 then quantifierFiller lit else c.filler
        quantifiers := c.quantifiers + 1 })
    else if lit.val < 0 then
      some ("a ".toList ++ decimal (-lit.val), { c with
        state := .readingForall
        quantifiers := c.quantifiers + 1 })
    else none
  | .readingPrefix, .literal lit =>
    some (decimal lit.val, { c with
      state := if lit.val = 0 then .readingMatrix else .readingClause })
  | .readingPrefix, .fork _ => some ([], c)
  | .readingExists, .quantifier lit =>
    if lit.val < 0 then
      some (" 0\na ".toList ++ decimal (-lit.val), { c with
        state := .readingForall, quantifiers := c.quantifiers + 1 })
    else if 0 < lit.val then
      some (' ' :: decimal lit.val, { c with quantifiers := c.quantifiers + 1 })
    else some (" 0\n".toList, { c with state := .readingPrefix })
  | .readingForall, .quantifier lit =>
    if 0 < lit.val then
      some (" 0\ne ".toList ++ decimal lit.val, { c with
        state := .readingExists, quantifiers := c.quantifiers + 1 })
    else if lit.val < 0 then
      some (' ' :: decimal (-lit.val), { c with quantifiers := c.quantifiers + 1 })
    else some (" 0\n".toList, { c with state := .readingPrefix })
  | .readingExists, .literal lit =>
    some (" 0\n".toList ++ decimal lit.val, { c with state := .readingClause })
  | .readingForall, .literal lit =>
    some (" 0\n".toList ++ decimal lit.val, { c with state := .readingClause })
  | .readingClause, .literal lit =>
    if lit.val = 0 then
      some (" 0\n".toList, { c with state := .readingMatrix, written := c.written + 1 })
    else some (' ' :: decimal lit.val, c)
  | .readingMatrix, .literal lit =>
    some (decimal lit.val, { c with
      state := if lit.val = 0 then .readingMatrix else .readingClause })
  | .readingMatrix, .fork _ => some ([], c)
  | _, _ => none

/-- The text of a list of messages, and the encoder after it. -/
def Encoder.encode : Encoder → List QuapiMsg → Option (List Char × Encoder)
  | c, [] => some ([], c)
  | c, msg :: msgs =>
    (c.emit msg).bind fun x => (encode x.2 msgs).map fun y => (x.1 ++ y.1, y.2)

theorem Encoder.encode_cons {c c' : Encoder} {msg : QuapiMsg} {msgs : List QuapiMsg}
    {s : List Char} :
    c.encode (msg :: msgs) = some (s, c') ↔ ∃ s₁ c₁ s₂, c.emit msg = some (s₁, c₁) ∧
      c₁.encode msgs = some (s₂, c') ∧ s₁ ++ s₂ = s := by
  simp only [encode, Option.bind_eq_some_iff, Option.map_eq_some_iff, Prod.mk.injEq,
    Prod.exists]
  constructor
  · rintro ⟨s₁, c₁, h₁, s₂, _, h₂, rfl, rfl⟩
    exact ⟨s₁, c₁, s₂, h₁, h₂, rfl⟩
  · rintro ⟨s₁, c₁, s₂, h₁, h₂, rfl⟩
    exact ⟨s₁, c₁, h₁, s₂, c', h₂, rfl, rfl⟩

theorem Encoder.encode_append {c c₁ c₂ : Encoder} {ms ms' : List QuapiMsg} {s s' : List Char}
    (h : c.encode ms = some (s, c₁)) (h' : c₁.encode ms' = some (s', c₂)) :
    c.encode (ms ++ ms') = some (s ++ s', c₂) := by
  induction ms generalizing c s with
  | nil =>
    obtain ⟨rfl, rfl⟩ := Prod.mk.inj (Option.some.inj h)
    exact h'
  | cons msg ms ih =>
    obtain ⟨t, c₀, t', he, hr, rfl⟩ := encode_cons.mp h
    exact encode_cons.mpr ⟨t, c₀, t' ++ s', he, ih hr, by rw [List.append_assoc]⟩

/-- **The runtime agrees with the encoder**: it has the encoder's header, state,
filler clause and counters, and its two buffers have their 64 bytes. -/
structure Encodes (r : QuapiRuntime) (c : Encoder) : Prop where
  header : r.headerData = c.header
  state : r.state = c.state
  written : r.writtenClauses = c.written
  quantifiers : r.quantifierCount = c.quantifiers
  filler : Holds r.fillerClause 0 c.filler
  fillerLen : r.fillerClauseLen = c.filler.length
  fillerSize : r.fillerClause.length = outbufSize
  outbufSize : r.outbufStack.length = outbufSize
  repeatState : r.repeatState = false

/-- A runtime that has not read anything agrees with an encoder that has not. -/
theorem encodes_init : Encodes quapiRuntimeInit Encoder.init where
  header := rfl
  state := rfl
  written := rfl
  quantifiers := rfl
  filler := holds_memcpy (by decide)
  fillerLen := rfl
  fillerSize := rfl
  outbufSize := rfl
  repeatState := rfl

/-- **What a message leaves in the buffer**: the fragment, or the request for another
message when there is none. -/
structure Fragment (r : QuapiRuntime) (s : List Char) : Prop where
  written : r.outbufWritten = 0
  holds : s ≠ [] → Holds r.outbufStack r.outbuf s ∧ r.outbufLen = s.length
  again : s = [] → r.outbuf = 0 ∧ r.outbufLen = -1

/-! ### Writing a fragment -/

theorem length_headerLine_lt (d : QuapiMsgHeaderData) : (headerLine d).length < outbufSize := by
  have h1 := CInt.length_decimal_le d.literals
  have h2 := CInt.length_decimal_le d.clauses
  simp [headerLine, outbufSize]
  omega

theorem length_quantifierFiller_lt (l : Lit) : (quantifierFiller l).length < outbufSize := by
  have h := l.length_decimal_le
  simp [quantifierFiller, outbufSize]
  omega

namespace QuapiRuntime

variable {r : QuapiRuntime}

/-- A format that fits is held from the start of the buffer. -/
theorem holds_printf {s : List Char} (hout : r.outbuf = 0)
    (hsize : r.outbufStack.length = outbufSize) (hs : s.length < outbufSize) :
    Holds (r.printf s).outbufStack (r.printf s).outbuf s := by
  have hfit : r.outbuf + outbufSize ≤ r.outbufStack.length := by omega
  exact holds_snprintf hs hfit

theorem length_printf {s : List Char} (hout : r.outbuf = 0)
    (hsize : r.outbufStack.length = outbufSize) (hs : s.length < outbufSize) :
    (r.printf s).outbufStack.length = outbufSize := by
  have hfit : r.outbuf + outbufSize ≤ r.outbufStack.length := by omega
  exact (length_snprintf hs hfit).trans hsize

end QuapiRuntime

/-! ### One call of a state function -/

theorem stateLoop_of_ne {n : ℕ} {r : QuapiRuntime} {msg : QuapiMsg}
    (h : (r.callState msg).outbufLen ≠ 0) : stateLoop (n + 1) r msg = some (r.callState msg) := by
  rw [stateLoop, if_neg h]

theorem stateLoop_of_eq {n : ℕ} {r : QuapiRuntime} {msg : QuapiMsg}
    (h : (r.callState msg).outbufLen = 0) :
    stateLoop (n + 1) r msg = stateLoop n (r.callState msg) msg := by
  rw [stateLoop, if_pos h]

/-- **Where a call of the state function writes a fragment, the loop ends with it.** -/
theorem stateLoop_fragment {n : ℕ} {r : QuapiRuntime} {msg : QuapiMsg} {s : List Char}
    {c : Encoder} (hs : s ≠ []) (hw : (r.callState msg).outbufWritten = 0)
    (hh : Holds (r.callState msg).outbufStack (r.callState msg).outbuf s)
    (hl : (r.callState msg).outbufLen = s.length) (hc : Encodes (r.callState msg) c) :
    ∃ r', stateLoop (n + 1) r msg = some r' ∧ Encodes r' c ∧ Fragment r' s := by
  have hpos : 0 < s.length := List.length_pos_iff.mpr hs
  exact ⟨_, stateLoop_of_ne (by omega), hc, hw, fun _ => ⟨hh, hl⟩, fun h => absurd h hs⟩

theorem Encodes.printf {r : QuapiRuntime} {c : Encoder} {s : List Char} (h : Encodes r c)
    (hout : r.outbuf = 0) (hs : s.length < QuAPI.outbufSize) : Encodes (r.printf s) c :=
  ⟨h.header, h.state, h.written, h.quantifiers, h.filler, h.fillerLen, h.fillerSize,
    QuapiRuntime.length_printf hout h.outbufSize hs, h.repeatState⟩

section States

variable {r q : QuapiRuntime} {c c' : Encoder} {msg : QuapiMsg} {s : List Char} {n : ℕ}

/-- A state function that formats its fragment and moves on. -/
theorem stateLoop_printf (h : Encodes q c) (hout : q.outbuf = 0) (hw : q.outbufWritten = 0)
    (hs : s ≠ []) (hlen : s.length < outbufSize) {st : QuapiPreloadState} {k : ℕ}
    (hcall : r.callState msg = { q.printf s with quantifierCount := k, state := st }) :
    ∃ r', stateLoop (n + 1) r msg = some r' ∧
      Encodes r' { c with state := st, quantifiers := k } ∧ Fragment r' s := by
  have hp := h.printf hout hlen
  refine stateLoop_fragment hs ?_ ?_ ?_ ?_ <;> rw [hcall]
  · exact hw
  · exact QuapiRuntime.holds_printf hout h.outbufSize hlen
  · rfl
  · exact ⟨hp.header, rfl, hp.written, rfl, hp.filler, hp.fillerLen, hp.fillerSize,
      hp.outbufSize, hp.repeatState⟩

/-- A state function that writes a number and moves on. -/
theorem stateLoop_printed (h : Encodes r c) (hw : r.outbufWritten = 0) (hs : s ≠ []) {stop : ℕ}
    (hcall : r.callState msg = q) (hp : Printed r q s stop) {st : QuapiPreloadState} {k : ℕ}
    {v : ℤ} (hq : q = { r with
      outbuf := q.outbuf
      outbufStack := q.outbufStack
      outbufLen := q.outbufLen
      quantifierCount := k
      writtenClauses := v
      state := st }) :
    ∃ r', stateLoop (n + 1) r msg = some r' ∧
      Encodes r' { c with state := st, written := v, quantifiers := k } ∧ Fragment r' s := by
  have hbl := hp.length h.outbufSize
  refine stateLoop_fragment hs ?_ ?_ ?_ ?_ <;> rw [hcall]
  · rw [hq]
    exact hw
  · exact hp.holds h.outbufSize
  · exact hp.len
  · rw [hq]
    exact ⟨h.header, rfl, rfl, rfl, h.filler, h.fillerLen, h.fillerSize, hbl, h.repeatState⟩

theorem emit_waitingForHeader {v : ℤ} {d : QuapiMsgHeaderData} (h : Encodes q c)
    (hout : q.outbuf = 0) (hw : q.outbufWritten = 0) (hst : c.state = .waitingForHeader)
    (he : c.emit (.header v d) = some (s, c')) :
    ∃ r', stateLoop (n + 1) { q with headerData := d } (.header v d) = some r' ∧
      Encodes r' c' ∧ Fragment r' s := by
  simp only [Encoder.emit, hst, Option.some.injEq, Prod.mk.injEq] at he
  obtain ⟨rfl, rfl⟩ := he
  have hr : q.state = .waitingForHeader := h.state.trans hst
  have hlen := length_headerLine_lt d
  have hp : Encodes ({ q with headerData := d }.printf (headerLine d)) { c with header := d } :=
    Encodes.printf ⟨rfl, h.state, h.written, h.quantifiers, h.filler, h.fillerLen,
      h.fillerSize, h.outbufSize, h.repeatState⟩ hout hlen
  have hhold := QuapiRuntime.holds_printf (r := { q with headerData := d }) hout h.outbufSize hlen
  have hne : headerLine d ≠ [] := by simp [headerLine]
  -- without variables the filler clause is replaced as well
  by_cases h0 : d.literals.1 = 0
  · have hcall : ({ q with headerData := d }).callState (.header v d) =
        { { q with headerData := d }.printf (headerLine d) with
          fillerClause := memcpy q.fillerClause 0 emptyFiller
          fillerClauseLen := 2
          messagesToParent := q.messagesToParent ++ [.started quapiApiVersion]
          state := .readingPrefix } := by
      rw [QuapiRuntime.callState]
      simp only [hr, QuapiRuntime.waitingForHeader, headerLine, QuapiRuntime.printf, h0, if_true,
        emptyFiller]
    have hfill : 0 + emptyFiller.length ≤ q.fillerClause.length := by rw [h.fillerSize]; decide
    refine stateLoop_fragment hne ?_ ?_ ?_ ?_ <;> rw [hcall]
    · exact hw
    · exact hhold
    · rfl
    · simp only [h0, if_true]
      exact ⟨rfl, rfl, h.written, h.quantifiers, holds_memcpy hfill, rfl,
        (length_memcpy hfill).trans h.fillerSize, hp.outbufSize, h.repeatState⟩
  · have hcall : ({ q with headerData := d }).callState (.header v d) =
        { { q with headerData := d }.printf (headerLine d) with
          messagesToParent := q.messagesToParent ++ [.started quapiApiVersion]
          state := .readingPrefix } := by
      rw [QuapiRuntime.callState]
      simp only [hr, QuapiRuntime.waitingForHeader, headerLine, QuapiRuntime.printf, h0, if_false]
    refine stateLoop_fragment hne ?_ ?_ ?_ ?_ <;> rw [hcall]
    · exact hw
    · exact hhold
    · rfl
    · simp only [h0, if_false]
      exact ⟨rfl, rfl, h.written, h.quantifiers, h.filler, h.fillerLen, h.fillerSize,
        hp.outbufSize, h.repeatState⟩

theorem emit_readingMatrix (h : Encodes r c) (hout : r.outbuf = 0) (hw : r.outbufWritten = 0)
    (hst : c.state = .readingMatrix) (he : c.emit msg = some (s, c')) :
    ∃ r', stateLoop (n + 1) r msg = some r' ∧ Encodes r' c' ∧ Fragment r' s := by
  have hr : r.state = .readingMatrix := h.state.trans hst
  cases msg with
  | literal l =>
    simp only [Encoder.emit, hst, Option.some.injEq, Prod.mk.injEq] at he
    obtain ⟨rfl, rfl⟩ := he
    have hcall : r.callState (.literal l) = r.readingMatrix (.literal l) := by
      rw [QuapiRuntime.callState, hr]
    refine stateLoop_printed h hw (decimal_ne_nil _) hcall (printed_readingMatrix l h.outbufSize) ?_
    rw [← h.quantifiers, ← h.written, QuapiRuntime.readingMatrix]
    split <;> rfl
  | fork wait =>
    simp only [Encoder.emit, hst, Option.some.injEq, Prod.mk.injEq] at he
    obtain ⟨rfl, rfl⟩ := he
    have hcall : r.callState (.fork wait) =
        { r.forkSolvingChild wait with outbufLen := -1, state := .readingMatrix } := by
      rw [QuapiRuntime.callState, hr]
      rfl
    refine ⟨_, stateLoop_of_ne (by rw [hcall]; exact (by decide : (-1 : ℤ) ≠ 0)), ?_, ?_⟩ <;>
      rw [hcall]
    · cases wait <;> exact ⟨h.header, hst.symm, h.written, h.quantifiers, h.filler, h.fillerLen,
        h.fillerSize, h.outbufSize, h.repeatState⟩
    · cases wait <;> exact ⟨hw, fun hn => absurd rfl hn, fun _ => ⟨hout, rfl⟩⟩
  | _ => simp [Encoder.emit, hst] at he

theorem emit_readingClause (h : Encodes r c) (hw : r.outbufWritten = 0)
    (hst : c.state = .readingClause) (he : c.emit msg = some (s, c')) :
    ∃ r', stateLoop (n + 1) r msg = some r' ∧ Encodes r' c' ∧ Fragment r' s := by
  have hr : r.state = .readingClause := h.state.trans hst
  cases msg with
  | literal l =>
    have hcall : r.callState (.literal l) = r.readingClause (.literal l) := by
      rw [QuapiRuntime.callState, hr]
    -- a closing zero ends the clause
    by_cases h0 : l.val = 0
    · simp only [Encoder.emit, hst, h0, if_true, Option.some.injEq, Prod.mk.injEq] at he
      obtain ⟨rfl, rfl⟩ := he
      refine stateLoop_printed h hw (by simp) hcall (printed_readingClause_zero h.outbufSize h0) ?_
      rw [← h.quantifiers, ← h.written, QuapiRuntime.readingClause]
      simp only [h0, if_true]
    · simp only [Encoder.emit, hst, h0, if_false, Option.some.injEq, Prod.mk.injEq] at he
      obtain ⟨rfl, rfl⟩ := he
      refine stateLoop_printed h hw (by simp) hcall (printed_readingClause h.outbufSize h0) ?_
      rw [← h.quantifiers, ← h.written, hst, QuapiRuntime.readingClause]
      simp only [h0, if_false]
  | _ => simp [Encoder.emit, hst] at he

theorem emit_readingExists (h : Encodes r c) (hw : r.outbufWritten = 0)
    (hst : c.state = .readingExists) (he : c.emit msg = some (s, c')) :
    ∃ r', stateLoop (n + 1) r msg = some r' ∧ Encodes r' c' ∧ Fragment r' s := by
  have hr : r.state = .readingExists := h.state.trans hst
  have hq : Encodes { r with outbuf := 0 } c := ⟨h.header, h.state, h.written, h.quantifiers,
    h.filler, h.fillerLen, h.fillerSize, h.outbufSize, h.repeatState⟩
  cases msg with
  | quantifier l =>
    have hlen := l.length_decimal_neg_le
    rcases lt_trichotomy l.val 0 with hl | hl | hl
    · simp only [Encoder.emit, hst, hl, if_true, Option.some.injEq, Prod.mk.injEq] at he
      obtain ⟨rfl, rfl⟩ := he
      refine stateLoop_printf hq rfl hw (by simp) (by simp [outbufSize]; omega) ?_
      rw [QuapiRuntime.callState, hr, ← h.quantifiers]
      simp only [QuapiRuntime.readingExists, hl, if_true]
      rfl
    · simp only [Encoder.emit, hst, hl, lt_irrefl, if_false, Option.some.injEq,
        Prod.mk.injEq] at he
      obtain ⟨rfl, rfl⟩ := he
      refine stateLoop_printf hq rfl hw (by simp) (by decide) ?_
      rw [QuapiRuntime.callState, hr, ← h.quantifiers]
      simp only [QuapiRuntime.readingExists, hl, lt_irrefl, if_false]
      rfl
    · simp only [Encoder.emit, hst, not_lt.mpr hl.le, hl, if_true, if_false, Option.some.injEq,
        Prod.mk.injEq] at he
      obtain ⟨rfl, rfl⟩ := he
      have hcall : r.callState (.quantifier l) = r.readingExists (.quantifier l) := by
        rw [QuapiRuntime.callState, hr]
      refine stateLoop_printed h hw (by simp) hcall (printed_readingExists h.outbufSize hl) ?_
      rw [← h.quantifiers, ← h.written, QuapiRuntime.readingExists]
      simp only [not_lt.mpr hl.le, hl, if_true, if_false]
      rfl
  | literal l =>
    have hlen := l.length_decimal_le
    simp only [Encoder.emit, hst, Option.some.injEq, Prod.mk.injEq] at he
    obtain ⟨rfl, rfl⟩ := he
    refine stateLoop_printf hq rfl hw (by simp) (by simp [outbufSize]; omega) ?_
    rw [QuapiRuntime.callState, hr, ← h.quantifiers]
    rfl
  | _ => simp [Encoder.emit, hst] at he

theorem emit_readingForall (h : Encodes r c) (hw : r.outbufWritten = 0)
    (hst : c.state = .readingForall) (he : c.emit msg = some (s, c')) :
    ∃ r', stateLoop (n + 1) r msg = some r' ∧ Encodes r' c' ∧ Fragment r' s := by
  have hr : r.state = .readingForall := h.state.trans hst
  have hq : Encodes { r with outbuf := 0 } c := ⟨h.header, h.state, h.written, h.quantifiers,
    h.filler, h.fillerLen, h.fillerSize, h.outbufSize, h.repeatState⟩
  cases msg with
  | quantifier l =>
    have hlen := l.length_decimal_le
    rcases lt_trichotomy l.val 0 with hl | hl | hl
    · simp only [Encoder.emit, hst, not_lt.mpr hl.le, hl, if_true, if_false, Option.some.injEq,
        Prod.mk.injEq] at he
      obtain ⟨rfl, rfl⟩ := he
      have hcall : r.callState (.quantifier l) = r.readingForall (.quantifier l) := by
        rw [QuapiRuntime.callState, hr]
      refine stateLoop_printed h hw (by simp) hcall (printed_readingForall h.outbufSize hl) ?_
      rw [← h.quantifiers, ← h.written, QuapiRuntime.readingForall]
      simp only [not_lt.mpr hl.le, hl, if_true, if_false]
      rfl
    · simp only [Encoder.emit, hst, hl, lt_irrefl, if_false, Option.some.injEq,
        Prod.mk.injEq] at he
      obtain ⟨rfl, rfl⟩ := he
      refine stateLoop_printf hq rfl hw (by simp) (by decide) ?_
      rw [QuapiRuntime.callState, hr, ← h.quantifiers]
      simp only [QuapiRuntime.readingForall, hl, lt_irrefl, if_false]
      rfl
    · simp only [Encoder.emit, hst, hl, if_true, Option.some.injEq, Prod.mk.injEq] at he
      obtain ⟨rfl, rfl⟩ := he
      refine stateLoop_printf hq rfl hw (by simp) (by simp [outbufSize]; omega) ?_
      rw [QuapiRuntime.callState, hr, ← h.quantifiers]
      simp only [QuapiRuntime.readingForall, hl, if_true]
      rfl
  | literal l =>
    have hlen := l.length_decimal_le
    simp only [Encoder.emit, hst, Option.some.injEq, Prod.mk.injEq] at he
    obtain ⟨rfl, rfl⟩ := he
    refine stateLoop_printf hq rfl hw (by simp) (by simp [outbufSize]; omega) ?_
    rw [QuapiRuntime.callState, hr, ← h.quantifiers]
    rfl
  | _ => simp [Encoder.emit, hst] at he

theorem emit_readingPrefix (h : Encodes r c) (hout : r.outbuf = 0) (hw : r.outbufWritten = 0)
    (hlen0 : r.outbufLen = 0) (hst : c.state = .readingPrefix)
    (he : c.emit msg = some (s, c')) :
    ∃ r', stateLoop (n + 2) r msg = some r' ∧ Encodes r' c' ∧ Fragment r' s := by
  have hr : r.state = .readingPrefix := h.state.trans hst
  cases msg with
  | quantifier l =>
    rcases lt_trichotomy l.val 0 with hl | hl | hl
    · have hlen := l.length_decimal_neg_le
      simp only [Encoder.emit, hst, not_lt.mpr hl.le, hl, if_true, if_false, Option.some.injEq,
        Prod.mk.injEq] at he
      obtain ⟨rfl, rfl⟩ := he
      refine stateLoop_printf h hout hw (by simp) (by simp [outbufSize]; omega) ?_
      rw [QuapiRuntime.callState, hr, ← h.quantifiers]
      simp only [QuapiRuntime.readingPrefix, not_lt.mpr hl.le, hl, if_true, if_false]
      rfl
    · simp [Encoder.emit, hst, hl] at he
    · have hlen := l.length_decimal_le
      simp only [Encoder.emit, hst, hl, if_true, Option.some.injEq, Prod.mk.injEq] at he
      obtain ⟨rfl, rfl⟩ := he
      by_cases hk : r.quantifierCount = 0
      · -- the first variable of the prefix also rewrites the filler clause
        have hfl := length_quantifierFiller_lt l
        have hq : Encodes { r with
            fillerClause := (snprintf r.fillerClause 0 outbufSize (quantifierFiller l)).2
            fillerClauseLen := (quantifierFiller l).length }
            { c with filler := quantifierFiller l } :=
          ⟨h.header, h.state, h.written, h.quantifiers,
            holds_snprintf hfl (by rw [h.fillerSize, Nat.zero_add]), rfl,
            (length_snprintf hfl (by rw [h.fillerSize, Nat.zero_add])).trans h.fillerSize,
            h.outbufSize, h.repeatState⟩
        simp only [← h.quantifiers, hk, if_true]
        refine stateLoop_printf hq hout hw (by simp) (by simp [outbufSize]; omega) ?_
        rw [QuapiRuntime.callState, hr]
        simp only [QuapiRuntime.readingPrefix, hl, if_true, QuapiRuntime.printf, hk]
        rfl
      · simp only [← h.quantifiers, hk, if_false]
        refine stateLoop_printf h hout hw (by simp) (by simp [outbufSize]; omega) ?_
        rw [QuapiRuntime.callState, hr]
        simp only [QuapiRuntime.readingPrefix, hl, if_true, QuapiRuntime.printf, hk, if_false]
  | literal l =>
    -- the literal is passed on to READING_MATRIX, which gets the same message
    have hcall : r.callState (.literal l) = { r with state := .readingMatrix } := by
      rw [QuapiRuntime.callState, hr]
      rfl
    have hq : Encodes { r with state := .readingMatrix } { c with state := .readingMatrix } :=
      ⟨h.header, rfl, h.written, h.quantifiers, h.filler, h.fillerLen, h.fillerSize,
        h.outbufSize, h.repeatState⟩
    rw [stateLoop_of_eq (by rw [hcall]; exact hlen0), hcall]
    refine emit_readingMatrix hq hout hw rfl ?_
    simpa only [Encoder.emit, hst] using he
  | fork wait =>
    simp only [Encoder.emit, hst, Option.some.injEq, Prod.mk.injEq] at he
    obtain ⟨rfl, rfl⟩ := he
    have hcall : r.callState (.fork wait) =
        { { r with outbufLen := -1 }.forkSolvingChild wait with state := .readingPrefix } := by
      rw [QuapiRuntime.callState]
      simp only [hr, QuapiRuntime.readingPrefix]
    refine ⟨_, stateLoop_of_ne ?_, ?_, ?_⟩ <;> rw [hcall]
    · cases wait <;> exact (by decide : (-1 : ℤ) ≠ 0)
    · cases wait <;> exact ⟨h.header, hst.symm, h.written, h.quantifiers, h.filler, h.fillerLen,
        h.fillerSize, h.outbufSize, h.repeatState⟩
    · cases wait <;> exact ⟨hw, fun hn => absurd rfl hn, fun _ => ⟨hout, rfl⟩⟩
  | _ => simp [Encoder.emit, hst] at he

end States

/-! ### The runtime refines the encoder -/

theorem Encodes.install {r : QuapiRuntime} {c : Encoder} {msg : QuapiMsg} (h : Encodes r c)
    (hmsg : ∀ v d, msg ≠ .header v d) :
    Encodes { r.install msg with outbufLen := 0 } c := by
  cases msg with
  | header v d => exact absurd rfl (hmsg v d)
  | _ => exact ⟨h.header, h.state, h.written, h.quantifiers, h.filler, h.fillerLen,
      h.fillerSize, h.outbufSize, h.repeatState⟩

/-- **The runtime refines the encoder**: a message the encoder has a case for ends the
inner loop of `advance_state` with the emitted fragment in the buffer. -/
theorem stateLoop_emit {r : QuapiRuntime} {c c' : Encoder} {msg : QuapiMsg} {s : List Char}
    (h : Encodes r c) (hout : r.outbuf = 0) (hw : r.outbufWritten = 0)
    (he : c.emit msg = some (s, c')) :
    ∃ r', stateLoop loopFuel { r.install msg with outbufLen := 0 } msg = some r' ∧
      Encodes r' c' ∧ Fragment r' s := by
  -- a header is installed before the state function sees it
  by_cases hm : ∃ v d, msg = .header v d
  · obtain ⟨v, d, rfl⟩ := hm
    cases hst : c.state with
    | waitingForHeader =>
      exact emit_waitingForHeader (q := { r with lastReadMsg := .header v d, outbufLen := 0 })
        ⟨h.header, h.state, h.written, h.quantifiers, h.filler, h.fillerLen, h.fillerSize,
          h.outbufSize, h.repeatState⟩ hout hw hst he
    | _ => simp [Encoder.emit, hst] at he
  · have hi : Encodes { r.install msg with outbufLen := 0 } c :=
      h.install fun v d hc => hm ⟨v, d, hc⟩
    have hout' : (r.install msg).outbuf = 0 := by cases msg <;> exact hout
    have hw' : (r.install msg).outbufWritten = 0 := by cases msg <;> exact hw
    cases hst : c.state with
    | waitingForHeader =>
      cases msg with
      | header v d => exact absurd ⟨v, d, rfl⟩ hm
      | _ => simp [Encoder.emit, hst] at he
    | readingPrefix => exact emit_readingPrefix hi hout' hw' rfl hst he
    | readingExists => exact emit_readingExists hi hw' hst he
    | readingForall => exact emit_readingForall hi hw' hst he
    | readingClause => exact emit_readingClause hi hw' hst he
    | readingMatrix => exact emit_readingMatrix hi hout' hw' hst he
    | working => simp [Encoder.emit, hst] at he

end QuAPI
