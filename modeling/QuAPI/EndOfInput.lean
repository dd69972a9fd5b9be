import QuAPI.Session
import QuAPI.Runtime.Reader

/-!
# The end of the input

`quapi_read` tells a solver the end of its input by a 0. A solver may ask again, and must be
told the same: behind any other answer stands what has been written for the next child.

`QuAPI.end_final_iff` says when it is: if and only if no filler clause has been written. The
end is reached on two routes. Without filler clauses, `WORKING` closes the stream within the
same read, with the sentinel `-2`. Behind the last filler clause, the SOLVE is repeated once
more, and the read is over before `WORKING` has been called.
-/

namespace QuAPI

/-! ### What a state function leaves -/

/-- **What a call of a state function leaves.** -/
structure Called (r : QuapiRuntime) (msg : QuapiMsg) (q : QuapiRuntime) : Prop where
  written : q.outbufWritten = r.outbufWritten
  last : q.lastReadMsg = r.lastReadMsg
  filler : 0 < r.fillerClauseLen → 0 < q.fillerClauseLen
  state : q.state ≠ .waitingForHeader
  repeats : msg ≠ .solve → q.repeatState = r.repeatState
  /-- The input is closed, or there are enough clauses. -/
  working : q.state = .working → q.outbufLen = -2 ∨ q.headerData.clauses.1 ≤ q.writtenClauses
  /-- No other message is asked for behind a SOLVE. -/
  solve : msg = .solve → r.outbufLen = 0 → q.outbufLen ≠ -1

namespace QuapiRuntime

variable {r q : QuapiRuntime} {msg : QuapiMsg}

/-- Most branches change the fragment and move on. -/
theorem called_of_eq (hw : q.outbufWritten = r.outbufWritten)
    (hlast : q.lastReadMsg = r.lastReadMsg) (hfill : q.fillerClauseLen = r.fillerClauseLen)
    (hrep : q.repeatState = r.repeatState) (hwait : q.state ≠ .waitingForHeader)
    (hwork : q.state ≠ .working)
    (hlen : msg ≠ .solve ∨ q.outbufLen = r.outbufLen) : Called r msg q where
  written := hw
  last := hlast
  filler := fun h => hfill ▸ h
  state := hwait
  repeats := fun _ => hrep
  working := fun h => absurd h hwork
  solve := fun h h0 => by
    rcases hlen with hne | hlen
    · exact absurd h hne
    · omega

theorem natCast_ne_neg_one (n : ℕ) : (n : ℤ) ≠ -1 := by omega

theorem called_waitingForHeader (r : QuapiRuntime) (msg : QuapiMsg) :
    Called r msg (r.waitingForHeader msg) := by
  simp only [waitingForHeader]
  split <;> split <;> refine ⟨rfl, rfl, ?_, QuapiPreloadState.noConfusion, fun _ => rfl,
    QuapiPreloadState.noConfusion, fun _ _ => natCast_ne_neg_one _⟩
  -- the empty clause takes two characters
  · exact fun _ => Nat.two_pos
  · exact id
  · exact fun _ => Nat.two_pos
  · exact id

theorem called_readingPrefix (r : QuapiRuntime) (msg : QuapiMsg) :
    Called r msg (r.readingPrefix msg) := by
  simp only [readingPrefix]
  split
  case h_1 lit =>
    split
    case isTrue =>
      split
      case isTrue =>
        -- the first variable makes the filler clause
        refine ⟨rfl, rfl, ?_, QuapiPreloadState.noConfusion, fun _ => rfl,
          QuapiPreloadState.noConfusion, fun h => QuapiMsg.noConfusion h⟩
        intro _
        change 0 < (decimal lit.val ++ " -".toList ++ decimal lit.val ++ " 0\n".toList).length
        simp
      case isFalse =>
        exact called_of_eq rfl rfl rfl rfl QuapiPreloadState.noConfusion
          QuapiPreloadState.noConfusion (Or.inl QuapiMsg.noConfusion)
    case isFalse =>
      split <;> exact called_of_eq rfl rfl rfl rfl QuapiPreloadState.noConfusion
        QuapiPreloadState.noConfusion (Or.inl QuapiMsg.noConfusion)
  case h_2 =>
    exact called_of_eq rfl rfl rfl rfl QuapiPreloadState.noConfusion
      QuapiPreloadState.noConfusion (Or.inr rfl)
  case h_3 =>
    simp only [forkSolvingChild]
    split <;> exact called_of_eq rfl rfl rfl rfl QuapiPreloadState.noConfusion
      QuapiPreloadState.noConfusion (Or.inl QuapiMsg.noConfusion)
  case h_4 =>
    exact ⟨rfl, rfl, id, QuapiPreloadState.noConfusion, fun h => absurd rfl h,
      QuapiPreloadState.noConfusion, fun _ h hc => absurd (h.symm.trans hc) (by decide)⟩
  case h_5 =>
    exact called_of_eq rfl rfl rfl rfl QuapiPreloadState.noConfusion
      QuapiPreloadState.noConfusion (Or.inr rfl)

theorem called_readingExists (r : QuapiRuntime) (msg : QuapiMsg) :
    Called r msg (r.readingExists msg) := by
  simp only [readingExists]
  split
  case h_1 =>
    split_ifs <;> exact called_of_eq rfl rfl rfl rfl QuapiPreloadState.noConfusion
      QuapiPreloadState.noConfusion (Or.inl QuapiMsg.noConfusion)
  case h_2 =>
    exact called_of_eq rfl rfl rfl rfl QuapiPreloadState.noConfusion
      QuapiPreloadState.noConfusion (Or.inl QuapiMsg.noConfusion)
  case h_3 =>
    exact called_of_eq rfl rfl rfl rfl QuapiPreloadState.noConfusion
      QuapiPreloadState.noConfusion (Or.inr rfl)

theorem called_readingForall (r : QuapiRuntime) (msg : QuapiMsg) :
    Called r msg (r.readingForall msg) := by
  simp only [readingForall]
  split
  case h_1 =>
    split_ifs <;> exact called_of_eq rfl rfl rfl rfl QuapiPreloadState.noConfusion
      QuapiPreloadState.noConfusion (Or.inl QuapiMsg.noConfusion)
  case h_2 =>
    exact called_of_eq rfl rfl rfl rfl QuapiPreloadState.noConfusion
      QuapiPreloadState.noConfusion (Or.inl QuapiMsg.noConfusion)
  case h_3 =>
    exact called_of_eq rfl rfl rfl rfl QuapiPreloadState.noConfusion
      QuapiPreloadState.noConfusion (Or.inr rfl)

theorem called_readingClause (r : QuapiRuntime) (msg : QuapiMsg) :
    Called r msg (r.readingClause msg) := by
  simp only [readingClause]
  split
  case h_1 =>
    split_ifs <;> exact called_of_eq rfl rfl rfl rfl QuapiPreloadState.noConfusion
      QuapiPreloadState.noConfusion (Or.inl QuapiMsg.noConfusion)
  case h_2 =>
    exact called_of_eq rfl rfl rfl rfl QuapiPreloadState.noConfusion
      QuapiPreloadState.noConfusion (Or.inr rfl)

theorem called_readingMatrix (r : QuapiRuntime) (msg : QuapiMsg) :
    Called r msg (r.readingMatrix msg) := by
  simp only [readingMatrix]
  split
  case h_1 =>
    split <;> exact called_of_eq rfl rfl rfl rfl QuapiPreloadState.noConfusion
      QuapiPreloadState.noConfusion (Or.inl QuapiMsg.noConfusion)
  case h_2 =>
    simp only [forkSolvingChild]
    split <;> exact called_of_eq rfl rfl rfl rfl QuapiPreloadState.noConfusion
      QuapiPreloadState.noConfusion (Or.inl QuapiMsg.noConfusion)
  case h_3 =>
    split
    case isTrue =>
      -- one more filler clause
      exact ⟨rfl, rfl, id, QuapiPreloadState.noConfusion, fun h => absurd rfl h,
        QuapiPreloadState.noConfusion, fun _ _ => natCast_ne_neg_one _⟩
    case isFalse hge =>
      exact ⟨rfl, rfl, id, QuapiPreloadState.noConfusion, fun h => absurd rfl h,
        fun _ => Or.inr (not_lt.mp hge), fun _ h hc => absurd (h.symm.trans hc) (by decide)⟩
  case h_4 =>
    exact called_of_eq rfl rfl rfl rfl QuapiPreloadState.noConfusion
      QuapiPreloadState.noConfusion (Or.inr rfl)

/-- The input is closed. -/
theorem called_working (r : QuapiRuntime) (msg : QuapiMsg) : Called r msg (r.working msg) :=
  ⟨rfl, rfl, id, QuapiPreloadState.noConfusion, fun _ => rfl, fun _ => Or.inl rfl,
    fun _ _ => show (-2 : ℤ) ≠ -1 by decide⟩

/-- **Every call of a state function** leaves such a runtime. -/
theorem called (r : QuapiRuntime) (msg : QuapiMsg) : Called r msg (r.callState msg) := by
  rw [callState]
  split
  case h_1 => exact called_waitingForHeader r msg
  case h_2 => exact called_readingPrefix r msg
  case h_3 => exact called_readingExists r msg
  case h_4 => exact called_readingForall r msg
  case h_5 => exact called_readingClause r msg
  case h_6 => exact called_readingMatrix r msg
  case h_7 => exact called_working r msg

end QuapiRuntime

theorem Called.trans {r t q : QuapiRuntime} {msg : QuapiMsg} (h : Called r msg t)
    (h0 : t.outbufLen = 0) (h' : Called t msg q) : Called r msg q where
  written := h'.written.trans h.written
  last := h'.last.trans h.last
  filler := h'.filler ∘ h.filler
  state := h'.state
  repeats := fun hm => (h'.repeats hm).trans (h.repeats hm)
  working := h'.working
  solve := fun hm _ => h'.solve hm h0

/-- The inner loop of `advance_state` leaves such a runtime, too. -/
theorem called_of_stateLoop {n : ℕ} {r q : QuapiRuntime} {msg : QuapiMsg}
    (h : stateLoop n r msg = some q) : Called r msg q := by
  -- on the calls of the inner loop
  induction n generalizing r with
  | zero => exact absurd h (by simp [stateLoop])
  | succ n ih =>
    rw [stateLoop] at h
    split at h
    case isTrue h0 => exact (r.called msg).trans h0 (ih h)
    case isFalse => exact Option.some.inj h ▸ r.called msg

/-! ### What a read can do -/

/-- **Handing out**: some of the fragment, or nothing. -/
theorem updateBuf_cases (r : QuapiRuntime) (n : ℕ) :
    (∃ w ≤ r.outbufLen, 0 < (updateBuf r n).1 ∧
      (updateBuf r n).2.2 = { r with outbufWritten := w }) ∨
    ((updateBuf r n).1 ≤ 0 ∧ (r.outbufWritten ≤ r.outbufLen → (updateBuf r n).1 = 0) ∧
      (updateBuf r n).2 = ([], r)) := by
  rw [updateBuf]
  split
  case isTrue => exact Or.inr ⟨le_rfl, fun _ => rfl, rfl⟩
  case isFalse =>
    simp only []
    split
    case isTrue hpos => exact Or.inl ⟨_, by omega, hpos, rfl⟩
    case isFalse hle => exact Or.inr ⟨not_lt.mp hle, fun h => by simp only []; omega, rfl⟩

/-- Handing out moves the mark in the fragment at most. -/
theorem exists_updateBuf (r : QuapiRuntime) (n : ℕ) : ∃ w,
    (r.outbufWritten ≤ r.outbufLen → w ≤ r.outbufLen) ∧
      (updateBuf r n).2.2 = { r with outbufWritten := w } := by
  rcases updateBuf_cases r n with ⟨w, hw, -, h⟩ | ⟨-, -, h⟩
  · exact ⟨w, fun _ => hw, h⟩
  · exact ⟨r.outbufWritten, id, by rw [h]⟩

/-- **What a read can do**: hand out some of the fragment, find the stream closed, repeat the
last message, or ask for the next one. -/
theorem quapiRead_cases (r : QuapiRuntime) (n : ℕ) :
    (∃ bytes data w, (r.outbufWritten ≤ r.outbufLen → 0 < bytes ∧ w ≤ r.outbufLen) ∧
      quapiRead r n = .returned bytes data { r with outbufWritten := w }) ∨
    (r.outbufLen = -2 ∧ quapiRead r n = .returned 0 [] { r with outbuf := 0, outbufWritten := 0 }) ∨
    (r.outbufLen ≠ -2 ∧ r.repeatState = true ∧ quapiRead r n = finishRead
      (QuapiRuntime.callState { r with outbuf := 0, outbufWritten := 0, outbufLen := 0 }
        r.lastReadMsg) n) ∨
    (r.outbufLen ≠ -2 ∧ r.repeatState = false ∧ quapiRead r n =
      .readMsg { r with outbuf := 0, outbufWritten := 0, outbufLen := -1 }) := by
  rw [quapiRead]
  rcases eq_or_ne (updateBuf r n).1 0 with h0 | h0
  · have hsame : (updateBuf r n).2.2 = r := by
      rcases updateBuf_cases r n with ⟨w, -, hpos, -⟩ | ⟨-, -, h⟩
      · omega
      · rw [h]
    simp only [if_pos h0, hsame]
    -- the fragment is used up
    by_cases hl : r.outbufLen = -2
    · refine Or.inr (Or.inl ⟨hl, ?_⟩)
      rw [if_pos hl, finishRead, updateBuf, if_pos hl]
    · rw [if_neg hl]
      refine Or.inr (Or.inr ?_)
      cases hrep : r.repeatState with
      | true => exact Or.inl ⟨hl, rfl, rfl⟩
      | false => exact Or.inr ⟨hl, rfl, rfl⟩
  · rcases updateBuf_cases r n with ⟨w, hw, hpos, hr⟩ | ⟨-, hzero, hr⟩ <;>
      simp only [if_neg h0, hr]
    · exact Or.inl ⟨_, _, w, fun _ => ⟨hpos, hw⟩, rfl⟩
    · exact Or.inl ⟨_, _, r.outbufWritten, fun h => absurd (hzero h) h0, rfl⟩

/-- **The end is final**: every later read, whatever its size, returns 0 and takes no
message. -/
def EndFinal : QuapiRuntime → List ℕ → Prop
  | _, [] => True
  | r, n :: sizes => ∃ q, quapiRead r n = .returned 0 [] q ∧ EndFinal q sizes

/-- The sentinel closes the stream for good. -/
theorem endFinal_of_closed {r : QuapiRuntime} (h : r.outbufLen = -2) (sizes : List ℕ) :
    EndFinal r sizes := by
  -- the sentinel is not touched by a read
  induction sizes generalizing r with
  | nil => exact trivial
  | cons n sizes ih =>
    refine ⟨{ r with outbuf := 0, outbufWritten := 0 }, ?_, ih h⟩
    rw [quapiRead, updateBuf, if_pos h]
    simp only [if_true, if_pos h, finishRead, updateBuf]

namespace Reader

variable {sizes : ℕ → ℕ} {p q : Reader}

/-! ### A process along its reads -/

/-- A number of steps. -/
def ticks (sizes : ℕ → ℕ) : ℕ → Reader → Option Reader
  | 0, p => some p
  | n + 1, p => (p.tick sizes).bind (ticks sizes n)

theorem reaches_ticks {n : ℕ} (h : p.ticks sizes n = some q) : Reaches sizes p q := by
  induction n generalizing p with
  | zero => exact Option.some.inj h ▸ Reaches.refl p
  | succ n ih =>
    obtain ⟨t, ht, hq⟩ := Option.bind_eq_some_iff.mp h
    exact Reaches.head ht (ih hq)

/-- **A process that may read its input**: what is true of it between any two steps. -/
structure Sane (p : Reader) : Prop where
  filler : 0 < p.runtime.fillerClauseLen
  header : p.runtime.state = .waitingForHeader → ∃ v d rest, p.input = .header v d :: rest
  working : p.runtime.outbufLen ≠ -2 → p.runtime.state = .working →
    p.runtime.headerData.clauses.1 ≤ p.runtime.writtenClauses
  /-- While it waits for a message, it has nothing to hand out or to repeat. -/
  blocked : p.blocked.isSome → p.closed = none ∧ p.runtime.outbufLen = -1 ∧
    p.runtime.outbufWritten = 0 ∧ p.runtime.repeatState = false

theorem sane_start {v : ℤ} {d : QuapiMsgHeaderData} {msgs : List QuapiMsg} :
    (start (.header v d :: msgs)).Sane where
  filler := Nat.succ_pos 6
  header := fun _ => ⟨v, d, msgs, rfl⟩
  working := fun _ h => QuapiPreloadState.noConfusion h
  blocked := fun h => absurd h Bool.false_ne_true

theorem settle_finishRead (p : Reader) (n : ℕ) (r : QuapiRuntime) :
    ∃ w out closed reads, p.settle n (finishRead r n) =
      ⟨{ r with outbufWritten := w }, none, reads, out, closed, p.input⟩ := by
  obtain ⟨w, -, hw⟩ := exists_updateBuf r n
  rw [finishRead]
  simp only [settle, hw]
  exact ⟨w, _, _, _, rfl⟩

/-- A process that has just called a state function, and hands out what it left. -/
theorem sane_finishRead (p : Reader) (n : ℕ) {r t : QuapiRuntime} {msg : QuapiMsg}
    (ht : Called r msg t) (hr : 0 < r.fillerClauseLen) : (p.settle n (finishRead t n)).Sane := by
  obtain ⟨w, out, closed, reads, heq⟩ := settle_finishRead p n t
  rw [heq]
  exact ⟨ht.filler hr, fun hs => absurd hs ht.state,
    fun hl hs => (ht.working hs).resolve_left hl, fun hb => absurd hb Bool.false_ne_true⟩

theorem Sane.tick (h : p.Sane) (hq : p.tick sizes = some q) : q.Sane := by
  rw [Reader.tick] at hq
  split at hq
  case isTrue => exact absurd hq (by simp)
  case isFalse hc =>
    have hclosed : p.closed = none := Option.not_isSome_iff_eq_none.mp hc
    cases hb : p.blocked with
    | none =>
      rw [hb] at hq
      obtain rfl := Option.some.inj hq
      rcases quapiRead_cases p.runtime (sizes p.reads) with ⟨bytes, data, w, -, hread⟩ |
        ⟨hl, hread⟩ | ⟨-, -, hread⟩ | ⟨hl, hrep, hread⟩ <;> rw [hread]
      · exact ⟨h.filler, h.header, h.working, fun hb' => absurd hb' Bool.false_ne_true⟩
      · exact ⟨h.filler, h.header, fun hl' => absurd hl hl',
          fun hb' => absurd hb' Bool.false_ne_true⟩
      · exact sane_finishRead p _ (QuapiRuntime.called _ _) h.filler
      · exact ⟨h.filler, h.header, fun _ => h.working hl, fun _ => ⟨hclosed, rfl, rfl, hrep⟩⟩
    | some n =>
      obtain ⟨-, -, hw, hrep⟩ := h.blocked (hb ▸ rfl)
      rw [hb] at hq
      simp only [] at hq
      split at hq
      case h_1 => exact absurd hq (by simp)
      case h_2 msg rest hi =>
        obtain ⟨x, hx, rfl⟩ := Option.map_eq_some_iff.mp hq
        obtain ⟨t, ht, rfl⟩ := Option.map_eq_some_iff.mp hx
        have hcalled := called_of_stateLoop ht
        have hfill : 0 < (p.runtime.install msg).fillerClauseLen := by
          cases msg <;> exact h.filler
        split
        case isFalse => exact sane_finishRead _ n hcalled hfill
        case isTrue hl =>
          have hinst : (p.runtime.install msg).outbufWritten = 0 ∧
              (p.runtime.install msg).repeatState = false := by
            cases msg <;> exact ⟨hw, hrep⟩
          have hmsg : msg ≠ .solve := fun hc => hcalled.solve hc rfl hl
          refine ⟨hcalled.filler hfill, fun hs => absurd hs hcalled.state,
            fun _ hs => (hcalled.working hs).resolve_left ?_,
            fun _ => ⟨hclosed, hl, hcalled.written.trans hinst.1,
              (hcalled.repeats hmsg).trans hinst.2⟩⟩
          rw [hl]
          decide

theorem Sane.reaches (h : p.Sane) (hq : Reaches sizes p q) : q.Sane := by
  induction hq with
  | refl => exact h
  | tail _ hstep ih => exact ih.tick hstep

/-! ### Behind the SOLVE -/

/-- **The SOLVE is being repeated**: a filler clause is there, perhaps handed out. -/
structure Padding (p : Reader) : Prop where
  blocked : p.blocked = none
  closed : p.closed = none
  state : p.runtime.state = .readingMatrix
  repeatState : p.runtime.repeatState = true
  last : p.runtime.lastReadMsg = .solve
  filler : 0 < p.runtime.fillerClauseLen
  len : 0 < p.runtime.outbufLen
  written : p.runtime.outbufWritten ≤ p.runtime.outbufLen

/-- **The repeated SOLVE has found enough clauses**, and the read is over. -/
structure Exhausted (p : Reader) : Prop where
  closed : p.closed.isSome
  len : p.runtime.outbufLen = 0
  written : p.runtime.outbufWritten = 0
  repeatState : p.runtime.repeatState = false

/-- The SOLVE in the state function of the matrix. -/
theorem callState_solve {r : QuapiRuntime} {msg : QuapiMsg} (hst : r.state = .readingMatrix)
    (hmsg : msg = .solve) :
    (r.writtenClauses < r.headerData.clauses.1 ∧ r.callState msg = { r with
      outbufStack := memcpy r.outbufStack r.outbuf (r.fillerClause.take r.fillerClauseLen)
      outbufLen := r.fillerClauseLen
      writtenClauses := r.writtenClauses + 1
      repeatState := true
      state := .readingMatrix }) ∨
    (r.headerData.clauses.1 ≤ r.writtenClauses ∧
      r.callState msg = { r with repeatState := false, state := .working }) := by
  rw [QuapiRuntime.callState, hst, hmsg]
  simp only [QuapiRuntime.readingMatrix]
  rcases lt_or_ge r.writtenClauses r.headerData.clauses.1 with hlt | hge
  · exact Or.inl ⟨hlt, if_pos hlt⟩
  · exact Or.inr ⟨hge, if_neg (not_lt.mpr hge)⟩

/-- Handing out some of a filler clause. -/
theorem padding_finishRead {n : ℕ} {r : QuapiRuntime}
    (hst : r.state = .readingMatrix) (hrep : r.repeatState = true) (hlast : r.lastReadMsg = .solve)
    (hfill : 0 < r.fillerClauseLen) (hlen : 0 < r.outbufLen) (hw : r.outbufWritten = 0) :
    (p.settle n (finishRead r n)).Padding := by
  obtain ⟨w, hle, hruntime⟩ := exists_updateBuf r n
  have hnone : (p.settle n (finishRead r n)).closed = none := by
    change (if (updateBuf r n).1 ≤ 0 ∧ 0 < n then _ else none) = none
    refine if_neg ?_
    rintro ⟨hzero, hn⟩
    have hmin : 0 < min (r.outbufLen - r.outbufWritten) (n : ℤ) := by omega
    rw [updateBuf, if_neg (by omega)] at hzero
    simp only [if_pos hmin] at hzero
    omega
  have hsettle : (p.settle n (finishRead r n)).runtime = { r with outbufWritten := w } := hruntime
  refine ⟨rfl, hnone, ?_, ?_, ?_, ?_, ?_, ?_⟩ <;> rw [hsettle]
  · exact hst
  · exact hrep
  · exact hlast
  · exact hfill
  · exact hlen
  · exact hle (hw.le.trans hlen.le)

theorem Padding.tick (h : p.Padding) (hs : ∀ i, 0 < sizes i) (hq : p.tick sizes = some q) :
    q.Padding ∨ q.Exhausted := by
  rw [tick_read h.blocked h.closed] at hq
  obtain rfl := Option.some.inj hq
  have hl := h.len
  rcases quapiRead_cases p.runtime (sizes p.reads) with ⟨bytes, data, w, hw, hread⟩ |
    ⟨hl', -⟩ | ⟨-, -, hread⟩ | ⟨-, hrep, -⟩
  · obtain ⟨hpos, hle⟩ := hw h.written
    rw [hread]
    refine Or.inl ⟨rfl, if_neg ?_, h.state, h.repeatState, h.last, h.filler, h.len, hle⟩
    rintro ⟨hzero, -⟩
    omega
  · omega
  · rw [hread]
    rcases callState_solve (r := { p.runtime with outbuf := 0, outbufWritten := 0, outbufLen := 0 })
      h.state h.last with ⟨-, hcall⟩ | ⟨-, hcall⟩ <;> rw [hcall]
    · have hfill : (0 : ℤ) < p.runtime.fillerClauseLen := by
        have := h.filler
        omega
      exact Or.inl (padding_finishRead rfl rfl h.last h.filler hfill rfl)
    · rw [finishRead_zero _ rfl rfl]
      refine Or.inr ⟨?_, rfl, rfl, rfl⟩
      change (if _ then _ else _ : Option ℤ).isSome
      rw [if_pos ⟨le_rfl, hs _⟩]
      rfl
  · rw [h.repeatState] at hrep
    exact absurd hrep.symm Bool.false_ne_true

/-- **The SOLVE in the matrix** ends the inner loop with a filler clause or with the sentinel. -/
theorem stateLoop_matrix {k : ℕ} {r t : QuapiRuntime} (ht : stateLoop k r .solve = some t)
    (hst : r.state = .readingMatrix) (hlen : r.outbufLen = 0) (hfill : 0 < r.fillerClauseLen) :
    (r.headerData.clauses.1 ≤ r.writtenClauses ∧ t.outbufLen = -2) ∨
    (r.writtenClauses < r.headerData.clauses.1 ∧ t.state = .readingMatrix ∧
      t.repeatState = true ∧ 0 < t.outbufLen) := by
  cases k with
  | zero => exact absurd ht (by simp [stateLoop])
  | succ k =>
    rw [stateLoop] at ht
    rcases callState_solve hst rfl with ⟨hlt, hcall⟩ | ⟨hge, hcall⟩ <;> rw [hcall] at ht
    · have hpos : (0 : ℤ) < r.fillerClauseLen := by omega
      simp only [if_neg hpos.ne'] at ht
      obtain rfl := Option.some.inj ht
      exact Or.inr ⟨hlt, rfl, rfl, hpos⟩
    · simp only [if_pos hlen] at ht
      refine Or.inl ⟨hge, ?_⟩
      cases k with
      | zero => exact absurd ht (by simp [stateLoop])
      | succ k =>
        have hne : (QuapiRuntime.callState { r with repeatState := false, state := .working }
            .solve).outbufLen ≠ 0 := show (-2 : ℤ) ≠ 0 by decide
        rw [stateLoop_of_ne hne] at ht
        exact congrArg QuapiRuntime.outbufLen (Option.some.inj ht).symm

/-- An open quantifier line has no case for a message without a literal: the inner loop never
ends. -/
theorem stateLoop_line {k : ℕ} {r : QuapiRuntime} {msg : QuapiMsg}
    (hst : r.state = .readingExists ∨ r.state = .readingForall) (hlen : r.outbufLen = 0)
    (hmsg : ∀ lit, msg ≠ .quantifier lit ∧ msg ≠ .literal lit) : stateLoop k r msg = none := by
  induction k generalizing r with
  | zero => rfl
  | succ k ih =>
    have hcall : r.callState msg = { r with state := .readingExists } := by
      rw [QuapiRuntime.callState]
      cases msg with
      | quantifier lit => exact absurd rfl (hmsg lit).1
      | literal lit => exact absurd rfl (hmsg lit).2
      | _ => rcases hst with hst | hst <;> rw [hst] <;> rfl
    rw [stateLoop_of_eq (by rw [hcall]; exact hlen), hcall]
    exact ih (Or.inl rfl) hlen

/-- **The SOLVE in any state** in which the inner loop ends. -/
theorem stateLoop_of_solve {r t : QuapiRuntime} (ht : stateLoop loopFuel r .solve = some t)
    (hst : r.state ≠ .waitingForHeader) (hlen : r.outbufLen = 0) (hfill : 0 < r.fillerClauseLen)
    (hwork : r.state = .working → r.headerData.clauses.1 ≤ r.writtenClauses) :
    (r.headerData.clauses.1 ≤ r.writtenClauses ∧ t.outbufLen = -2) ∨
    (r.writtenClauses < r.headerData.clauses.1 ∧ t.state = .readingMatrix ∧
      t.repeatState = true ∧ 0 < t.outbufLen) := by
  cases hs : r.state with
  | waitingForHeader => exact absurd hs hst
  | readingPrefix =>
    have hcall : r.callState .solve = { r with repeatState := true, state := .readingMatrix } := by
      rw [QuapiRuntime.callState, hs]
      rfl
    rw [loopFuel, stateLoop_of_eq (by rw [hcall]; exact hlen), hcall] at ht
    exact stateLoop_matrix (r := { r with repeatState := true, state := .readingMatrix }) ht rfl
      hlen hfill
  | readingExists =>
    exact absurd (ht.symm.trans (stateLoop_line (Or.inl hs) hlen (by simp))) (by simp)
  | readingForall =>
    exact absurd (ht.symm.trans (stateLoop_line (Or.inr hs) hlen (by simp))) (by simp)
  | readingClause =>
    have hcall : r.callState .solve = { r with state := .readingMatrix } := by
      rw [QuapiRuntime.callState, hs]
      rfl
    rw [loopFuel, stateLoop_of_eq (by rw [hcall]; exact hlen), hcall] at ht
    exact stateLoop_matrix (r := { r with state := .readingMatrix }) ht rfl hlen hfill
  | readingMatrix => exact stateLoop_matrix ht hs hlen hfill
  | working =>
    have hcall : r.callState .solve = { r with outbufLen := -2, state := .working } := by
      rw [QuapiRuntime.callState, hs]
      rfl
    have hne : (r.callState .solve).outbufLen ≠ 0 := by
      rw [hcall]
      exact show (-2 : ℤ) ≠ 0 by decide
    rw [loopFuel, stateLoop_of_ne hne, hcall] at ht
    exact Or.inl ⟨hwork hs, congrArg QuapiRuntime.outbufLen (Option.some.inj ht).symm⟩

/-- **A SOLVE arrives**: the stream is closed if there are enough clauses, and padded
otherwise. -/
theorem Sane.solve (h : p.Sane) {n : ℕ} {rest : List QuapiMsg} (hb : p.blocked = some n)
    (hst : p.runtime.state ≠ .waitingForHeader) (hi : p.input = .solve :: rest)
    (hq : p.tick sizes = some q) :
    (p.runtime.headerData.clauses.1 ≤ p.runtime.writtenClauses ∧ q.runtime.outbufLen = -2) ∨
    (p.runtime.writtenClauses < p.runtime.headerData.clauses.1 ∧ q.Padding) := by
  obtain ⟨hclosed, hlen, hw, -⟩ := h.blocked (hb ▸ rfl)
  rw [Reader.tick, hclosed, hb, hi] at hq
  obtain ⟨x, hx, rfl⟩ := Option.map_eq_some_iff.mp hq
  obtain ⟨t, ht, rfl⟩ := Option.map_eq_some_iff.mp hx
  have hcalled := called_of_stateLoop ht
  have hfill : 0 < t.fillerClauseLen := hcalled.filler h.filler
  have hopen : p.runtime.outbufLen ≠ -2 := by
    rw [hlen]
    decide
  -- the SOLVE finds the clauses complete, or a filler clause is written
  rcases stateLoop_of_solve ht hst rfl h.filler (h.working hopen) with
    ⟨hge, hl⟩ | ⟨hlt, hstate, hrep, hpos⟩
  · refine Or.inl ⟨hge, ?_⟩
    rw [if_neg (by rw [hl]; decide)]
    obtain ⟨w, out, closed, reads, heq⟩ := settle_finishRead ⟨p.runtime, some n, p.reads, p.out,
      none, rest⟩ n t
    rw [heq]
    exact hl
  · refine Or.inr ⟨hlt, ?_⟩
    rw [if_neg (by omega)]
    exact padding_finishRead hstate hrep hcalled.last hfill hpos (hcalled.written.trans hw)

/-- Behind the SOLVE of a padded stream, the end is not a final one. -/
theorem reaches_of_padding (hs : ∀ i, 0 < sizes i) (h : p.Padding ∨ p.Exhausted)
    (hq : Reaches sizes p q) : q.Padding ∨ q.Exhausted := by
  induction hq with
  | refl => exact h
  | tail _ hstep ih =>
    rcases ih with ih | ih
    · exact ih.tick hs hstep
    · rw [Reader.tick, if_pos ih.closed] at hstep
      exact absurd hstep (by simp)

/-- A closed stream stays closed. -/
theorem Sane.closed_reaches (h : p.Sane) (hl : p.runtime.outbufLen = -2)
    (hq : Reaches sizes p q) : q.runtime.outbufLen = -2 := by
  have hstay : q.Sane ∧ q.runtime.outbufLen = -2 := by
    induction hq with
    | refl => exact ⟨h, hl⟩
    | @tail t u _ hstep ih =>
      refine ⟨ih.1.tick hstep, ?_⟩
      have hb : t.blocked = none := by
        by_contra hb
        obtain ⟨-, hlen, -⟩ := ih.1.blocked (Option.isSome_iff_ne_none.mpr hb)
        rw [ih.2] at hlen
        exact absurd hlen (by decide)
      rw [Reader.tick, hb] at hstep
      split at hstep
      case isTrue => exact absurd hstep (by simp)
      case isFalse =>
        obtain rfl := Option.some.inj hstep
        have hread : quapiRead t.runtime (sizes t.reads) =
            .returned 0 [] { t.runtime with outbuf := 0, outbufWritten := 0 } := by
          rw [quapiRead, updateBuf, if_pos ih.2]
          simp only [if_true, if_pos ih.2, finishRead, updateBuf]
        rw [hread]
        exact ih.2
  exact hstay.2

theorem Exhausted.not_endFinal (h : q.Exhausted) (n : ℕ) : ¬EndFinal q.runtime [n] := by
  rintro ⟨t, hread, -⟩
  rw [quapiRead, updateBuf_of_eq n (h.len.trans h.written.symm) (by rw [h.len]; decide)] at hread
  simp only [if_true, h.repeatState] at hread
  rw [if_neg (by rw [h.len]; decide)] at hread
  exact absurd hread (by simp)

/-- **The end of a process that takes a SOLVE** is final if there are enough clauses by then,
and otherwise not. -/
theorem Sane.endFinal_iff {t : Reader} {left : List QuapiMsg} (h : t.Sane)
    (hst : t.runtime.state ≠ .waitingForHeader) (hi : t.input = .solve :: left)
    (hb : t.blocked.isSome) (hend : Reaches sizes t q) (hclosed : q.closed = some 0) :
    (t.runtime.headerData.clauses.1 ≤ t.runtime.writtenClauses → ∀ ns, EndFinal q.runtime ns) ∧
    ((∀ i, 0 < sizes i) → (∀ ns, EndFinal q.runtime ns) →
      t.runtime.headerData.clauses.1 ≤ t.runtime.writtenClauses) := by
  obtain ⟨n, hn⟩ := Option.isSome_iff_exists.mp hb
  obtain ⟨htclosed, -⟩ := h.blocked hb
  -- the first step takes the SOLVE
  rcases Relation.ReflTransGen.cases_head hend with rfl | ⟨u, hu, hrest⟩
  · rw [htclosed] at hclosed
    exact absurd hclosed (by simp)
  rcases h.solve hn hst hi hu with ⟨hge, hl⟩ | ⟨hlt, hpad⟩
  · refine ⟨?_, fun _ _ => hge⟩
    intro _ ns
    exact endFinal_of_closed ((h.tick hu).closed_reaches hl hrest) ns
  · refine ⟨fun hge => absurd hlt (not_lt.mpr hge), ?_⟩
    intro hs hfinal
    rcases reaches_of_padding hs (Or.inl hpad) hrest with hq | hq
    · rw [hq.closed] at hclosed
      exact absurd hclosed (by simp)
    · exact absurd (hfinal [1]) (hq.not_endFinal 1)

end Reader

/-! ### The children of a session -/

section

variable {env : Env} {a : Api} {s : QuapiSolver} {cs : List ApiCall}

/-- The header is the first message of every session. -/
theorem Api.header_of_calls (hcalls : (Api.start s).calls env cs = some a) :
    ∃ msgs, a.toSeed = .header quapiApiVersion s.header :: msgs := by
  -- calls write behind what is there
  refine Machine.invariant (I := fun a : Api => ∃ msgs,
    a.toSeed = .header quapiApiVersion s.header :: msgs) ?_ hcalls ⟨[], rfl⟩
  rintro b c t ht ⟨msgs, hmsgs⟩
  obtain ⟨⟨y, u⟩, hu, rfl⟩ := Option.map_eq_some_iff.mp ht
  obtain ⟨e, -, he⟩ := Option.map_eq_some_iff.mp hu
  obtain ⟨-, rfl⟩ := Prod.mk.inj he
  exact ⟨msgs ++ e.toSeed, congrArg (· ++ e.toSeed) hmsgs⟩

/-- **The end of input is final if and only if nothing has been filled in.** Let a child of a
session have read up to a SOLVE – whatever is on its stream –, and let a read of positive size
have returned 0 behind it. If the header announces no more clauses than the child has
written by then, every later read returns 0 and takes no message; and, reads of size 0 apart,
otherwise not. -/
theorem end_final_iff {msgs rest after left : List QuapiMsg} {wait : Bool}
    {seedSizes sizes : ℕ → ℕ} {p t q : Reader}
    (hcalls : (Api.start s).calls env cs = some a)
    (hfork : a.toSeed = msgs ++ .fork wait :: rest)
    (hseed : Reader.Reaches seedSizes (Reader.start (msgs ++ [.fork wait])) p)
    (hforked : p.input = [] ∧ p.blocked.isSome)
    (hchild : Reader.Reaches sizes { p with input := after } t)
    (hsolve : t.input = .solve :: left ∧ t.blocked.isSome)
    (hend : Reader.Reaches sizes t q) (hclosed : q.closed = some 0) :
    (t.runtime.headerData.clauses.1 ≤ t.runtime.writtenClauses → ∀ ns, EndFinal q.runtime ns) ∧
    ((∀ i, 0 < sizes i) → (∀ ns, EndFinal q.runtime ns) →
      t.runtime.headerData.clauses.1 ≤ t.runtime.writtenClauses) := by
  obtain ⟨tail, htail⟩ := Api.header_of_calls hcalls
  obtain ⟨ms, rfl⟩ : ∃ ms, msgs = .header quapiApiVersion s.header :: ms := by
    cases msgs with
    | nil => exact absurd (htail.symm.trans hfork) (by simp)
    | cons m ms =>
      obtain ⟨rfl, -⟩ := List.cons.inj (htail.symm.trans hfork)
      exact ⟨ms, rfl⟩
  have hp : p.Sane := Reader.sane_start.reaches hseed
  have hpst : p.runtime.state ≠ .waitingForHeader := by
    intro hst
    obtain ⟨v, d, more, hmore⟩ := hp.header hst
    exact absurd (hforked.1.symm.trans hmore) (by simp)
  have hp' : Reader.Sane { p with input := after } :=
    ⟨hp.filler, fun hst => absurd hst hpst, hp.working, hp.blocked⟩
  have ht : t.Sane := hp'.reaches hchild
  have htst : t.runtime.state ≠ .waitingForHeader := by
    intro hst
    obtain ⟨v, d, more, hmore⟩ := ht.header hst
    exact absurd (hsolve.1.symm.trans hmore) (by simp)
  exact ht.endFinal_iff htst hsolve.1 hsolve.2 hend hclosed

end

/-- The library for one variable, one clause and one assumption. -/
def paddedStart : QuapiSolver where
  header := ⟨.of 1, .of 2, .of 1⟩
  regexes := none
  stdoutCb := none
  state := .input
  universalPrefixDepth := -1
  writtenClauses := 0
  writtenAssumptions := 0
  writtenQuantifierLiterals := 0
  solverchildPid := none

/-- The messages up to the first FORK, for the clause `x₁`. -/
def paddedMsgs : List QuapiMsg :=
  [.header quapiApiVersion paddedStart.header, .literal (lit 1), .literal 0]

/-- **An end that is final**: with the clause `x₁` and the assumption `x₁`, nothing is filled
in. -/
theorem assumed_end : ∃ a p t q,
    (Api.start paddedStart).calls plainEnv [.add (lit 1), .add 0, .assume (lit 1), .solve] =
        some a ∧
      Reader.Reaches (fun _ => 16) (Reader.start (paddedMsgs ++ [.fork true])) p ∧
      Reader.Reaches (fun _ => 16) { p with input := a.toChild } t ∧
      Reader.Reaches (fun _ => 16) t q ∧ q.closed = some 0 ∧ ∀ ns, EndFinal q.runtime ns := by
  have hrun : (((Reader.start (paddedMsgs ++ [.fork true])).ticks (fun _ => 16) 8).bind fun p =>
      (Reader.ticks (fun _ => 16) 4 { p with input := [.literal (lit 1), .literal 0, .solve] }).bind
        fun t => (t.ticks (fun _ => 16) 1).map fun q =>
          (p.input, p.blocked, t.input, t.blocked, q.closed,
            decide (t.runtime.headerData.clauses.1 ≤ t.runtime.writtenClauses))) =
        some ([], some 16, [.solve], some 16, some 0, true) := rfl
  obtain ⟨p, hp, hrest⟩ := Option.bind_eq_some_iff.mp hrun
  obtain ⟨t, ht, hrest⟩ := Option.bind_eq_some_iff.mp hrest
  obtain ⟨q, hq, hread⟩ := Option.map_eq_some_iff.mp hrest
  simp only [Prod.mk.injEq, decide_eq_true_eq] at hread
  obtain ⟨hpi, hpb, hti, htb, hqc, hge⟩ := hread
  obtain ⟨a, hcalls, hfork, hchild⟩ : ∃ a, (Api.start paddedStart).calls plainEnv
      [.add (lit 1), .add 0, .assume (lit 1), .solve] = some a ∧
      a.toSeed = paddedMsgs ++ .fork true :: [] ∧
      a.toChild = [.literal (lit 1), .literal 0, .solve] := ⟨_, rfl, rfl, rfl⟩
  rw [← hchild] at ht
  refine ⟨a, p, t, q, hcalls, Reader.reaches_ticks hp, Reader.reaches_ticks ht,
    Reader.reaches_ticks hq, hqc, ?_⟩
  exact (end_final_iff hcalls hfork (Reader.reaches_ticks hp) ⟨hpi, by rw [hpb]; rfl⟩
    (Reader.reaches_ticks ht) ⟨hti, by rw [htb]; rfl⟩ (Reader.reaches_ticks hq) hqc).1 hge

/-- **An end that is not**: without the assumption, the child reads a filler clause and then the
end; and when it reads again, it takes the assumption of the next round. -/
theorem padded_end : ∃ a p t q u,
    (Api.start paddedStart).calls plainEnv [.add (lit 1), .add 0, .solve, .assume (lit 1)] =
        some a ∧ a.toSeed = paddedMsgs ++ .fork true :: [.fork true] ∧
      Reader.Reaches (fun _ => 16) (Reader.start (paddedMsgs ++ [.fork true])) p ∧
      p.input = [] ∧ p.blocked = some 16 ∧
      Reader.Reaches (fun _ => 16) { p with input := a.toChild } t ∧
      t.input = [.solve, .literal (lit 1), .literal 0] ∧ t.blocked = some 16 ∧
      Reader.Reaches (fun _ => 16) t q ∧ q.closed = some 0 ∧
      q.input = [.literal (lit 1), .literal 0] ∧ ¬EndFinal q.runtime [16] ∧
      Reader.Reaches (fun _ => 16) { q with closed := none } u ∧ u.input = [.literal 0] := by
  have hrun : (((Reader.start (paddedMsgs ++ [.fork true])).ticks (fun _ => 16) 8).bind fun p =>
      (Reader.ticks (fun _ => 16) 2
        { p with input := [.solve, .literal (lit 1), .literal 0] }).bind fun q =>
          (Reader.ticks (fun _ => 16) 2 { q with closed := none }).map fun u =>
            (p.input, p.blocked, q.closed, q.input, u.input, q.runtime.outbufLen,
              q.runtime.outbufWritten, q.runtime.repeatState)) =
        some ([], some 16, some 0, [.literal (lit 1), .literal 0], [.literal 0], 0, 0, false) := rfl
  obtain ⟨p, hp, hrest⟩ := Option.bind_eq_some_iff.mp hrun
  obtain ⟨q, hq, hrest⟩ := Option.bind_eq_some_iff.mp hrest
  obtain ⟨u, hu, hread⟩ := Option.map_eq_some_iff.mp hrest
  simp only [Prod.mk.injEq] at hread
  obtain ⟨hpi, hpb, hqc, hqi, hui, hlen, hwritten, hrepeat⟩ := hread
  refine ⟨_, p, { p with input := [.solve, .literal (lit 1), .literal 0] }, q, u, rfl, rfl,
    Reader.reaches_ticks hp, hpi, hpb, Reader.Reaches.refl _, rfl, hpb, Reader.reaches_ticks hq,
    hqc, hqi, ?_, Reader.reaches_ticks hu, hui⟩
  exact Reader.Exhausted.not_endFinal ⟨by rw [hqc]; rfl, hlen, hwritten, hrepeat⟩ 16

end QuAPI
