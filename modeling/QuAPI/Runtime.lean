import QuAPI.IntToStr
import QuAPI.Message

/-!
# The preloaded runtime

The runtime that `LD_PRELOAD` puts into a solver: it turns the messages of the
library into the DIMACS text the solver reads, one fragment at a time, out of a
64-byte buffer.

* the seven state functions of `runtime.c`, each taking the runtime and a message to
  the runtime with its next fragment and its next state
  (`QuAPI.QuapiRuntime.callState`);
* `QuAPI.updateBuf` hands out the fragment, `QuAPI.stateLoop` is the inner loop of
  `advance_state`, which calls the state function again with the same message for as
  long as `outbuf_len` is zero, and `QuAPI.quapiRead` is one read of the solver.

A read may have to wait for a message, so `advance_state` is cut there:
`QuAPI.quapiRead` answers either with what the read returns or with
`QuAPI.ReadResult.readMsg`, and `QuAPI.advanceMsg` goes on once `read_msg` has
delivered a message. The counters of the runtime are unbounded integers: no session
reaches `2 ^ 31` clauses.
-/

namespace QuAPI

/-! ### The runtime -/

/-- `quapi_runtime`. The output buffer is an offset into `outbufStack`; the two
numbers `outbufLen` and `outbufWritten` are signed, with `-1` asking for another
message and `-2` closing the stream. -/
structure QuapiRuntime where
  /-- The counts of the header, once it has arrived. -/
  headerData : QuapiMsgHeaderData
  /-- The message `repeat_state` hands to the state function again. -/
  lastReadMsg : QuapiMsg
  /-- The state function to call. -/
  state : QuapiPreloadState
  /-- Where the fragment starts in `outbufStack`. -/
  outbuf : ℕ
  /-- The 64-byte buffer. -/
  outbufStack : List Char
  /-- The 64 bytes of the filler clause. -/
  fillerClause : List Char
  /-- How many of them are the clause. -/
  fillerClauseLen : ℕ
  /-- The length of the fragment, or one of the two sentinels. -/
  outbufLen : ℤ
  /-- How much of the fragment has been handed out. -/
  outbufWritten : ℤ
  /-- The clauses closed so far. -/
  writtenClauses : ℤ
  /-- Call the state function again, with the same message, on the next read. -/
  repeatState : Bool
  /-- The quantified variables so far. -/
  quantifierCount : ℕ
  /-- `quapi_runtime_send_destructed_msg`. -/
  sendDestructedMsg : Bool
  /-- What the runtime itself has written to the library. -/
  messagesToParent : List QuapiMsg

/-- `sizeof(outbuf_stack)`. -/
def outbufSize : ℕ := 64

/-- The runtime after `quapi_runtime_init`. -/
def quapiRuntimeInit : QuapiRuntime where
  headerData := ⟨.of 0, .of 0, .of 0⟩
  lastReadMsg := .undefined
  state := .waitingForHeader
  outbuf := 0
  outbufStack := List.replicate outbufSize '\x00'
  fillerClause := memcpy (List.replicate outbufSize '\x00') 0 "-1 1 0\n".toList
  fillerClauseLen := 7
  outbufLen := 0
  outbufWritten := 0
  writtenClauses := 0
  repeatState := false
  quantifierCount := 0
  sendDestructedMsg := true
  messagesToParent := []

namespace QuapiRuntime

/-- `r->outbuf_len = snprintf(r->outbuf, sizeof(r->outbuf_stack), …)`, for a format
that expands to `s`. -/
def printf (r : QuapiRuntime) (s : List Char) : QuapiRuntime :=
  let p := snprintf r.outbufStack r.outbuf outbufSize s
  { r with outbufStack := p.2, outbufLen := p.1 }

/-- The fragment is ` lit`, written right-aligned into the whole buffer. -/
def printLit (r : QuapiRuntime) (i : ℤ) : QuapiRuntime :=
  let p := intToStr i r.outbufStack outbufSize
  { r with
    outbuf := p.1 - 1
    outbufStack := memcpy p.2 (p.1 - 1) [' ']
    outbufLen := (outbufSize : ℤ) - (p.1 - 1 : ℕ) }

/-- The fork of a solving child returns in both processes with the same runtime. The
flag of the FORK message says whether the seeding process will wait for the child, in
which case neither sends a DESTRUCTED message. -/
def forkSolvingChild (r : QuapiRuntime) (wait : Bool) : QuapiRuntime :=
  if wait then { r with sendDestructedMsg := false } else r

/-! ### The state functions -/

/-- `WAITING_FOR_HEADER`. -/
def waitingForHeader (r : QuapiRuntime) (msg : QuapiMsg) : QuapiRuntime :=
  let r := r.printf (['p', ' ', 'c', 'n', 'f', ' '] ++ decimal r.headerData.literals.1 ++ ' ' ::
    (decimal r.headerData.clauses.1 ++ ['\n']))
  -- without variables, the only filler clause is the empty one
  let r := if r.headerData.literals.1 = 0 then
      { r with fillerClause := memcpy r.fillerClause 0 "0\n".toList, fillerClauseLen := 2 }
    else r
  match msg with
  | .header _ _ =>
    { r with
      messagesToParent := r.messagesToParent ++ [.started quapiApiVersion]
      state := .readingPrefix }
  -- an error is printed, and the prefix is expected all the same
  | _ => { r with state := .readingPrefix }

/-- `READING_PREFIX`. -/
def readingPrefix (r : QuapiRuntime) (msg : QuapiMsg) : QuapiRuntime :=
  match msg with
  | .quantifier lit =>
    if 0 < lit.val then
      let r := r.printf ("e ".toList ++ decimal lit.val)
      -- only the first quantifier of the formula makes the filler clause
      let r := if r.quantifierCount = 0 then
          let p := snprintf r.fillerClause 0 outbufSize
            (decimal lit.val ++ " -".toList ++ decimal lit.val ++ " 0\n".toList)
          { r with fillerClause := p.2, fillerClauseLen := p.1 }
        else r
      { r with quantifierCount := r.quantifierCount + 1, state := .readingExists }
    else if lit.val < 0 then
      let r := r.printf ("a ".toList ++ decimal (-lit.val))
      { r with quantifierCount := r.quantifierCount + 1, state := .readingForall }
    else { r with state := .readingPrefix }
  -- no fragment: the inner loop hands the same literal to READING_MATRIX
  | .literal _ => { r with state := .readingMatrix }
  | .fork wait =>
    -- the fragment asks for the next message
    { { r with outbufLen := -1 }.forkSolvingChild wait with state := .readingPrefix }
  | .solve => { r with repeatState := true, state := .readingMatrix }
  | _ => { r with state := .readingPrefix }

/-- `READING_EXISTS`. -/
def readingExists (r : QuapiRuntime) (msg : QuapiMsg) : QuapiRuntime :=
  match msg with
  | .quantifier lit =>
    if lit.val < 0 then
      -- the other kind of quantifier closes the line of the block
      let r := { r with outbuf := 0 }.printf (" 0\na ".toList ++ decimal (-lit.val))
      { r with quantifierCount := r.quantifierCount + 1, state := .readingForall }
    else if 0 < lit.val then
      let r := r.printLit lit.val
      { r with quantifierCount := r.quantifierCount + 1, state := .readingExists }
    else { { r with outbuf := 0 }.printf " 0\n".toList with state := .readingPrefix }
  | .literal lit =>
    { { r with outbuf := 0 }.printf (" 0\n".toList ++ decimal lit.val) with
      state := .readingClause }
  | _ => { r with state := .readingExists }

/-- `READING_FORALL`. -/
def readingForall (r : QuapiRuntime) (msg : QuapiMsg) : QuapiRuntime :=
  match msg with
  | .quantifier lit =>
    if 0 < lit.val then
      -- the same with the kinds exchanged
      let r := { r with outbuf := 0 }.printf (" 0\ne ".toList ++ decimal lit.val)
      { r with quantifierCount := r.quantifierCount + 1, state := .readingExists }
    else if lit.val < 0 then
      let r := r.printLit (-lit.val)
      { r with quantifierCount := r.quantifierCount + 1, state := .readingForall }
    else { { r with outbuf := 0 }.printf " 0\n".toList with state := .readingPrefix }
  | .literal lit =>
    { { r with outbuf := 0 }.printf (" 0\n".toList ++ decimal lit.val) with
      state := .readingClause }
  -- whatever the kind of the open block was
  | _ => { r with state := .readingExists }

/-- `READING_CLAUSE`. The number stops one character short of the end of the buffer,
where a closing zero puts its newline. -/
def readingClause (r : QuapiRuntime) (msg : QuapiMsg) : QuapiRuntime :=
  match msg with
  | .literal lit =>
    let p := intToStr lit.val r.outbufStack (outbufSize - 1)
    let r := { r with
      outbuf := p.1 - 1
      outbufStack := memcpy p.2 (p.1 - 1) [' ']
      outbufLen := (outbufSize - 1 : ℕ) - (p.1 - 1 : ℕ) }
    if lit.val = 0 then
      { r with
        outbufStack := memcpy r.outbufStack (outbufSize - 1) ['\n']
        outbufLen := r.outbufLen + 1
        writtenClauses := r.writtenClauses + 1
        state := .readingMatrix }
    else { r with state := .readingClause }
  | _ => { r with state := .readingMatrix }

/-- `READING_MATRIX`. -/
def readingMatrix (r : QuapiRuntime) (msg : QuapiMsg) : QuapiRuntime :=
  match msg with
  | .literal lit =>
    let p := intToStr lit.val r.outbufStack outbufSize
    let r := { r with
      outbuf := p.1
      outbufStack := p.2
      outbufLen := (outbufSize : ℤ) - (p.1 : ℕ) }
    -- an empty clause, which is not counted
    if lit.val = 0 then { r with state := .readingMatrix }
    else { r with state := .readingClause }
  | .fork wait =>
    { r.forkSolvingChild wait with outbufLen := -1, state := .readingMatrix }
  | .solve =>
    -- one filler clause for each read, until the count is reached
    if r.writtenClauses < r.headerData.clauses.1 then
      { r with
        outbufStack := memcpy r.outbufStack r.outbuf (r.fillerClause.take r.fillerClauseLen)
        outbufLen := r.fillerClauseLen
        writtenClauses := r.writtenClauses + 1
        repeatState := true
        state := .readingMatrix }
    else { r with repeatState := false, state := .working }
  | _ => { r with state := .readingMatrix }

/-- `WORKING`: the stream is closed. -/
def working (r : QuapiRuntime) (_msg : QuapiMsg) : QuapiRuntime :=
  { r with outbufLen := -2, state := .working }

/-- `r->state(r, msg)`. -/
def callState (r : QuapiRuntime) (msg : QuapiMsg) : QuapiRuntime :=
  match r.state with
  | .waitingForHeader => r.waitingForHeader msg
  | .readingPrefix => r.readingPrefix msg
  | .readingExists => r.readingExists msg
  | .readingForall => r.readingForall msg
  | .readingClause => r.readingClause msg
  | .readingMatrix => r.readingMatrix msg
  | .working => r.working msg

end QuapiRuntime

/-! ### Reading -/

/-- `update_buf`: hand out at most `buflen` characters of the fragment. The result is
the number returned, the characters, and the runtime afterwards. -/
def updateBuf (r : QuapiRuntime) (buflen : ℕ) : ℤ × List Char × QuapiRuntime :=
  if r.outbufLen = -2 then (0, [], r)
  else
    let len := min (r.outbufLen - r.outbufWritten) buflen
    -- the sentinel -1 is less than what has been written, so that nothing is copied
    if 0 < len then
      (len, slice r.outbufStack (r.outbuf + r.outbufWritten.toNat) len.toNat,
        { r with outbufWritten := r.outbufWritten + len })
    else (len, [], r)

/-- The inner loop of `advance_state`: the state function is called with the same
message while the fragment stays empty. `none` when `fuel` calls are not enough. -/
def stateLoop : ℕ → QuapiRuntime → QuapiMsg → Option QuapiRuntime
  | 0, _, _ => none
  | fuel + 1, r, msg =>
    let r := r.callState msg
    if r.outbufLen = 0 then stateLoop fuel r msg else some r

/-- Three calls are enough for every message that a state function has a case for
(`QuAPI.stateLoop_emit`, `QuAPI.Reader.reaches_solve`). Where there is none, the fragment
stays empty forever. -/
def loopFuel : ℕ := 3

/-- What a read comes to: it returns a number of characters, or it waits in
`read_msg`. -/
inductive ReadResult where
  /-- The read returns `bytes`, having stored `data`. -/
  | returned (bytes : ℤ) (data : List Char) (r : QuapiRuntime)
  /-- The read is inside `read_msg`. -/
  | readMsg (r : QuapiRuntime)

/-- The end of `quapi_read`, after `advance_state`. -/
def finishRead (r : QuapiRuntime) (buflen : ℕ) : ReadResult :=
  let u := updateBuf r buflen
  .returned u.1 u.2.1 u.2.2

/-- `quapi_read`, up to its return or to the first `read_msg` of `advance_state`. -/
def quapiRead (r : QuapiRuntime) (buflen : ℕ) : ReadResult :=
  let u := updateBuf r buflen
  -- the fragment is used up, or nothing was asked for
  if u.1 = 0 then
    let r : QuapiRuntime := { u.2.2 with outbuf := 0, outbufWritten := 0 }
    if r.outbufLen = -2 then finishRead r buflen
    else if r.repeatState then
      finishRead ({ r with outbufLen := 0 }.callState r.lastReadMsg) buflen
    else .readMsg { r with outbufLen := -1 }
  else .returned u.1 u.2.1 u.2.2

/-- `read_msg` delivers a message: a header installs its counts. -/
def QuapiRuntime.install (r : QuapiRuntime) (msg : QuapiMsg) : QuapiRuntime :=
  match msg with
  | .header _ data => { r with lastReadMsg := msg, headerData := data }
  | _ => { r with lastReadMsg := msg }

/-- The rest of `quapi_read` once `read_msg` has delivered a message: `none` when the
inner loop never ends. -/
def advanceMsg (r : QuapiRuntime) (buflen : ℕ) (msg : QuapiMsg) : Option ReadResult :=
  (stateLoop loopFuel { r.install msg with outbufLen := 0 } msg).map fun r =>
    if r.outbufLen = -1 then .readMsg r else finishRead r buflen

end QuAPI
