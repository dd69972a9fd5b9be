import QuAPI.Runtime.Encoder
import Mathlib.Logic.Relation

/-!
# A process that reads its input

The seeding process and every solving child run the same loop: they read, with
whatever sizes the solver's own parser asks for, until a read returns nothing.
`QuAPI.Reader` is such a process – the runtime, the read that waits in `read_msg` if
there is one, what the reads have stored so far, and the messages that have not been
taken – and `QuAPI.Reader.tick` is one step of it, either the start of a read or the
arrival of a message at a waiting one.

The sizes are a function of the number of reads so far, so that a fragment may be cut
anywhere. The results say that this does not show:

* `QuAPI.Reader.reaches_encode`: a process that waits takes a list of messages the
  encoder accepts, stores exactly their text, and waits again;
* `QuAPI.Reader.reaches_solve`: at a SOLVE it stores one filler clause for each clause
  the header announces and nobody wrote, and the next read returns 0.
-/

namespace QuAPI

/-! ### The process -/

/-- A process whose reads are answered by the runtime. -/
structure Reader where
  /-- The runtime of the process. -/
  runtime : QuapiRuntime
  /-- The size of the read that waits in `read_msg`. -/
  blocked : Option ℕ
  /-- How many reads have returned. -/
  reads : ℕ
  /-- Everything they have stored. -/
  out : List Char
  /-- What the last read returned, once one has asked for something and got nothing. -/
  closed : Option ℤ
  /-- The messages not taken yet. -/
  input : List QuapiMsg

namespace Reader

/-- A process that has not read anything. -/
def start (input : List QuapiMsg) : Reader where
  runtime := quapiRuntimeInit
  blocked := none
  reads := 0
  out := []
  closed := none
  input := input

/-- The process after a read of size `n` has come to `x`. -/
def settle (p : Reader) (n : ℕ) : ReadResult → Reader
  | .returned bytes data r => { p with
      runtime := r
      blocked := none
      reads := p.reads + 1
      out := p.out ++ data
      closed := if bytes ≤ 0 ∧ 0 < n then some bytes else none }
  | .readMsg r => { p with runtime := r, blocked := some n }

/-- **One step**: a waiting read takes a message, and otherwise the next read starts.
There is no step after the end of the input, and none while there is no message. -/
def tick (sizes : ℕ → ℕ) (p : Reader) : Option Reader :=
  if p.closed.isSome then none
  else match p.blocked with
    | none => some (p.settle (sizes p.reads) (quapiRead p.runtime (sizes p.reads)))
    | some n =>
      match p.input with
      | [] => none
      | msg :: rest =>
        (advanceMsg p.runtime n msg).map fun x => { p with input := rest }.settle n x

/-- Some number of steps. -/
def Reaches (sizes : ℕ → ℕ) : Reader → Reader → Prop :=
  Relation.ReflTransGen fun p q => p.tick sizes = some q

section Reaches

variable {sizes : ℕ → ℕ} {p q t : Reader}

theorem Reaches.refl (p : Reader) : Reaches sizes p p := Relation.ReflTransGen.refl

theorem Reaches.trans (h : Reaches sizes p q) (h' : Reaches sizes q t) : Reaches sizes p t :=
  Relation.ReflTransGen.trans h h'

theorem Reaches.head (h : p.tick sizes = some q) (h' : Reaches sizes q t) : Reaches sizes p t :=
  Relation.ReflTransGen.head h h'

theorem reaches_tick (h : p.tick sizes = some q) : Reaches sizes p q :=
  Relation.ReflTransGen.single h

/-- **There is one run**: two of its states that have no next one are the same. -/
theorem Reaches.eq_of_stuck (h : Reaches sizes p q) (h' : Reaches sizes p t)
    (hq : q.tick sizes = none) (ht : t.tick sizes = none) : q = t := by
  have hunique : Relator.RightUnique fun p q : Reader => p.tick sizes = some q :=
    fun _ _ _ h₁ h₂ => Option.some.inj (h₁.symm.trans h₂)
  rcases Relation.ReflTransGen.total_of_right_unique hunique h h' with hqt | htq
  · rcases Relation.ReflTransGen.cases_head hqt with heq | ⟨r, hr, -⟩
    · exact heq
    · exact absurd (hq.symm.trans hr) (by simp)
  · rcases Relation.ReflTransGen.cases_head htq with heq | ⟨r, hr, -⟩
    · exact heq.symm
    · exact absurd (ht.symm.trans hr) (by simp)

theorem tick_read (hb : p.blocked = none) (hc : p.closed = none) :
    p.tick sizes = some (p.settle (sizes p.reads) (quapiRead p.runtime (sizes p.reads))) := by
  rw [tick, hc, hb]
  rfl

theorem tick_msg {n : ℕ} {msg : QuapiMsg} {rest : List QuapiMsg} {x : ReadResult}
    (hb : p.blocked = some n) (hc : p.closed = none) (hi : p.input = msg :: rest)
    (hx : advanceMsg p.runtime n msg = some x) :
    p.tick sizes = some ({ p with input := rest }.settle n x) := by
  simp only [tick, hc, hb, hi, hx, Option.isSome_none, Bool.false_eq_true, if_false,
    Option.map_some]

end Reaches

/-! ### Handing out a fragment -/

/-- The runtime has a fragment of which `k` characters have been handed out. -/
structure Holding (r : QuapiRuntime) (s : List Char) (k : ℕ) : Prop where
  holds : Holds r.outbufStack r.outbuf s
  len : r.outbufLen = s.length
  written : r.outbufWritten = k

/-- At first there is an empty fragment. -/
theorem holding_init : Holding quapiRuntimeInit [] 0 :=
  ⟨⟨[], List.replicate outbufSize '\x00', rfl, rfl⟩, rfl, rfl⟩

/-- A read of a fragment that is not exhausted. -/
theorem updateBuf_of_lt {r : QuapiRuntime} {s : List Char} {k n : ℕ} (h : Holding r s k)
    (hk : k < s.length) (hn : 0 < n) :
    updateBuf r n = (((min (s.length - k) n : ℕ) : ℤ), (s.drop k).take n,
      { r with outbufWritten := ((k + min (s.length - k) n : ℕ) : ℤ) }) := by
  have hlen := h.len
  have hw := h.written
  have hmin : min (r.outbufLen - (k : ℤ)) (n : ℤ) = ((min (s.length - k) n : ℕ) : ℤ) := by
    omega
  have hpos : (0 : ℤ) < ((min (s.length - k) n : ℕ) : ℤ) := by omega
  simp only [updateBuf, if_neg (show r.outbufLen ≠ -2 by omega), hw, hmin, if_pos hpos,
    Int.toNat_natCast, h.holds.slice_drop hk.le, Nat.cast_add]

/-- A read of an exhausted fragment. -/
theorem updateBuf_of_eq {r : QuapiRuntime} (n : ℕ) (h : r.outbufLen = r.outbufWritten)
    (hr : r.outbufLen ≠ -2) : updateBuf r n = (0, [], r) := by
  have hmin : min (r.outbufLen - r.outbufWritten) (n : ℤ) = 0 := by omega
  simp only [updateBuf, if_neg hr, hmin, lt_irrefl, if_false]

/-- A read returns a part of a fragment. -/
theorem settle_returned {p : Reader} {n m : ℕ} {data : List Char} {r : QuapiRuntime}
    (hm : 0 < m) : p.settle n (.returned m data r) = { p with
      runtime := r, blocked := none, reads := p.reads + 1, out := p.out ++ data,
      closed := none } := by
  rw [settle, if_neg fun h => by have := h.1; omega]

/-- The process after reads that have stored `s`, with nothing else taken. -/
structure Stored (p : Reader) (s : List Char) (q : Reader) : Prop where
  blocked : q.blocked = none
  closed : q.closed = none
  out : q.out = p.out ++ s
  input : q.input = p.input

variable {sizes : ℕ → ℕ}

/-- A read of a fragment that is not exhausted, as a step of the process. -/
theorem tick_deliver {s : List Char} {k : ℕ} {p : Reader} (hb : p.blocked = none)
    (hc : p.closed = none) (h : Holding p.runtime s k) (hk : k < s.length)
    (hn : 0 < sizes p.reads) : p.tick sizes = some { p with
      runtime := { p.runtime with
        outbufWritten := ((k + min (s.length - k) (sizes p.reads) : ℕ) : ℤ) }
      blocked := none
      reads := p.reads + 1
      out := p.out ++ (s.drop k).take (sizes p.reads)
      closed := none } := by
  have hm : 0 < min (s.length - k) (sizes p.reads) := by omega
  have hread : quapiRead p.runtime (sizes p.reads) =
      .returned ((min (s.length - k) (sizes p.reads) : ℕ) : ℤ)
        ((s.drop k).take (sizes p.reads)) { p.runtime with
          outbufWritten := ((k + min (s.length - k) (sizes p.reads) : ℕ) : ℤ) } := by
    simp only [quapiRead, updateBuf_of_lt h hk hn]
    exact if_neg (by omega)
  rw [tick_read hb hc, hread, settle_returned hm]

/-- **A fragment is handed out whole**, however the reads cut it. -/
theorem reaches_deliver (hs : ∀ i, 0 < sizes i) {s : List Char} {d k : ℕ} {p : Reader}
    (hb : p.blocked = none) (hc : p.closed = none) (h : Holding p.runtime s k)
    (hd : s.length = k + d) :
    ∃ q, Reaches sizes p q ∧ Stored p (s.drop k) q ∧
      q.runtime = { p.runtime with outbufWritten := s.length } := by
  -- on the number of characters that are left
  induction d using Nat.strong_induction_on generalizing k p with
  | _ d ih =>
    rcases Nat.eq_zero_or_pos d with rfl | hpos
    · have hw : ((s.length : ℕ) : ℤ) = p.runtime.outbufWritten := by rw [h.written, hd]; rfl
      have hk : s.drop k = [] := List.drop_eq_nil_iff.mpr hd.le
      refine ⟨p, Reaches.refl p, ⟨hb, hc, ?_, rfl⟩, ?_⟩
      · rw [hk, List.append_nil]
      · rw [hw]
    -- the next read hands out as much as it asks for, and the rest is handed out behind it
    · have hn := hs p.reads
      have ht := tick_deliver hb hc h (show k < s.length by omega) hn
      obtain ⟨m, hm⟩ : ∃ m, m = min (s.length - k) (sizes p.reads) := ⟨_, rfl⟩
      have htake : (s.drop k).take (sizes p.reads) = (s.drop k).take m := by
        rw [List.take_eq_take_min, List.length_drop, min_comm, hm]
      rw [← hm, htake] at ht
      obtain ⟨q, hr, hq, hrt⟩ := ih (d - m) (by omega) (k := k + m)
        (p := { p with
          runtime := { p.runtime with outbufWritten := ((k + m : ℕ) : ℤ) }
          blocked := none, reads := p.reads + 1, out := p.out ++ (s.drop k).take m
          closed := none }) rfl rfl ⟨h.holds, h.len, rfl⟩ (by omega)
      refine ⟨q, Reaches.head ht hr, ⟨hq.blocked, hq.closed, ?_, hq.input⟩, hrt⟩
      rw [hq.out, List.append_assoc, ← List.drop_drop, List.take_append_drop]

/-- What follows a read that has just filled the buffer: it hands out the first part of
the fragment, and the next reads the rest. -/
theorem reaches_finishRead (hs : ∀ i, 0 < sizes i) {p : Reader} {r : QuapiRuntime} {n : ℕ}
    {s : List Char} (hn : 0 < n) (h : Holding r s 0) (hne : s ≠ []) :
    ∃ q, Reaches sizes (p.settle n (finishRead r n)) q ∧ Stored p s q ∧
      q.runtime = { r with outbufWritten := s.length } := by
  have hpos : 0 < s.length := List.length_pos_iff.mpr hne
  have hm : 0 < min (s.length - 0) n := by omega
  have hset : p.settle n (finishRead r n) = { p with
      runtime := { r with outbufWritten := ((0 + min (s.length - 0) n : ℕ) : ℤ) }
      blocked := none, reads := p.reads + 1, out := p.out ++ (s.drop 0).take n
      closed := none } := by
    simp only [finishRead, updateBuf_of_lt h hpos hn]
    exact settle_returned hm
  obtain ⟨q, hr, hq, hrt⟩ := reaches_deliver hs (k := 0 + min (s.length - 0) n)
    (d := s.length - min (s.length - 0) n) (s := s) (p := p.settle n (finishRead r n))
    (by rw [hset]) (by rw [hset]) (by rw [hset]; exact ⟨h.holds, h.len, rfl⟩) (by omega)
  refine ⟨q, hr, ⟨hq.blocked, hq.closed, ?_, ?_⟩, ?_⟩
  · have htake : (s.drop 0).take n = s.take (0 + min (s.length - 0) n) := by
      rw [List.drop_zero, List.take_eq_take_min, Nat.zero_add, Nat.sub_zero, min_comm]
    rw [hq.out, hset]
    simp only [htake, List.append_assoc, List.take_append_drop]
  · rw [hq.input, hset]
  · rw [hrt, hset]

/-! ### Taking messages -/

/-- **A process that waits for a message**: its runtime agrees with the encoder and
has nothing left to hand out. -/
structure Waits (p : Reader) (c : Encoder) : Prop where
  blocked : ∃ n, 0 < n ∧ p.blocked = some n
  closed : p.closed = none
  encodes : Encodes p.runtime c
  outbuf : p.runtime.outbuf = 0
  written : p.runtime.outbufWritten = 0

/-- A process waits for its header after the start of its first read. -/
theorem reaches_start (hs : ∀ i, 0 < sizes i) (input : List QuapiMsg) :
    ∃ q, Reaches sizes (start input) q ∧ Waits q Encoder.init ∧ q.out = [] ∧
      q.input = input := by
  have hread : quapiRead quapiRuntimeInit (sizes 0) =
      .readMsg { quapiRuntimeInit with outbufLen := -1 } := by
    simp only [quapiRead, updateBuf_of_eq (r := quapiRuntimeInit) (sizes 0) rfl (by decide)]
    rfl
  have ht : (start input).tick sizes =
      some ((start input).settle (sizes 0) (quapiRead quapiRuntimeInit (sizes 0))) :=
    tick_read rfl rfl
  rw [hread] at ht
  exact ⟨_, reaches_tick ht, ⟨⟨sizes 0, hs 0, rfl⟩, rfl,
    ⟨rfl, rfl, rfl, rfl, encodes_init.filler, rfl, rfl, rfl, rfl⟩, rfl, rfl⟩, rfl, rfl⟩

/-- A process with an exhausted fragment waits after the start of its next read. -/
theorem reaches_wait (hs : ∀ i, 0 < sizes i) {p : Reader} {c : Encoder}
    (hb : p.blocked = none) (hc : p.closed = none) (he : Encodes p.runtime c)
    (hl : p.runtime.outbufLen = p.runtime.outbufWritten) (hw : 0 ≤ p.runtime.outbufWritten) :
    ∃ q, Reaches sizes p q ∧ Waits q c ∧ q.out = p.out ∧ q.input = p.input := by
  have hread : quapiRead p.runtime (sizes p.reads) = .readMsg { p.runtime with
      outbuf := 0, outbufWritten := 0, outbufLen := -1 } := by
    simp only [quapiRead, updateBuf_of_eq (sizes p.reads) hl (by omega), if_true,
      if_neg (show p.runtime.outbufLen ≠ -2 by omega), he.repeatState]
    rfl
  have ht : p.tick sizes = _ := tick_read hb hc
  rw [hread] at ht
  refine ⟨_, reaches_tick ht, ⟨⟨_, hs p.reads, rfl⟩, hc, ?_, rfl, rfl⟩, rfl, rfl⟩
  exact ⟨he.header, he.state, he.written, he.quantifiers, he.filler, he.fillerLen,
    he.fillerSize, he.outbufSize, he.repeatState⟩

/-- **A message is taken and its text is read**, and the process waits again. -/
theorem reaches_emit (hs : ∀ i, 0 < sizes i) {p : Reader} {c c' : Encoder} {msg : QuapiMsg}
    {rest : List QuapiMsg} {s : List Char} (h : Waits p c) (hi : p.input = msg :: rest)
    (he : c.emit msg = some (s, c')) :
    ∃ q, Reaches sizes p q ∧ Waits q c' ∧ q.out = p.out ++ s ∧ q.input = rest := by
  obtain ⟨n, hn, hb⟩ := h.blocked
  obtain ⟨r, hr, hc', hf⟩ := stateLoop_emit h.encodes h.outbuf h.written he
  rcases eq_or_ne s [] with rfl | hne
  · -- no text, so that the same read goes on waiting
    obtain ⟨hout, hlen⟩ := hf.again rfl
    have hx : advanceMsg p.runtime n msg = some (.readMsg r) := by
      rw [advanceMsg, hr, Option.map_some, if_pos hlen]
    refine ⟨_, reaches_tick (tick_msg hb h.closed hi hx), ⟨⟨n, hn, rfl⟩, h.closed, hc', hout,
      hf.written⟩, ?_, rfl⟩
    exact (List.append_nil _).symm
  · obtain ⟨hhold, hlen⟩ := hf.holds hne
    have hx : advanceMsg p.runtime n msg = some (finishRead r n) := by
      rw [advanceMsg, hr, Option.map_some, if_neg (by omega)]
    obtain ⟨q, hq, hst, hrt⟩ := reaches_finishRead hs (p := { p with input := rest })
      hn ⟨hhold, hlen, hf.written⟩ hne
    have hcq : Encodes q.runtime c' := by
      rw [hrt]
      exact ⟨hc'.header, hc'.state, hc'.written, hc'.quantifiers, hc'.filler, hc'.fillerLen,
        hc'.fillerSize, hc'.outbufSize, hc'.repeatState⟩
    obtain ⟨t, ht, hwt, hot, hit⟩ := reaches_wait hs hst.blocked hst.closed hcq
      (by rw [hrt]; exact hlen) (by rw [hrt]; exact Int.natCast_nonneg _)
    refine ⟨t, (reaches_tick (tick_msg hb h.closed hi hx)).trans (hq.trans ht), hwt, ?_, ?_⟩
    · rw [hot, hst.out]
    · rw [hit, hst.input]

/-- **A list of messages is taken and its text is read.** -/
theorem reaches_encode (hs : ∀ i, 0 < sizes i) {msgs : List QuapiMsg} :
    ∀ {p : Reader} {c c' : Encoder} {rest : List QuapiMsg} {s : List Char}, Waits p c →
      p.input = msgs ++ rest → c.encode msgs = some (s, c') →
      ∃ q, Reaches sizes p q ∧ Waits q c' ∧ q.out = p.out ++ s ∧ q.input = rest := by
  induction msgs with
  | nil =>
    intro p c c' rest s h hi he
    obtain ⟨rfl, rfl⟩ := Prod.mk.inj (Option.some.inj he)
    exact ⟨p, Reaches.refl p, h, (List.append_nil _).symm, hi⟩
  | cons msg msgs ih =>
    intro p c c' rest s h hi he
    obtain ⟨s₁, c₁, s₂, he₁, he₂, rfl⟩ := Encoder.encode_cons.mp he
    obtain ⟨q, hq, hw, ho, hin⟩ := reaches_emit hs h hi he₁
    obtain ⟨t, ht, hwt, hot, hit⟩ := ih hw hin he₂
    refine ⟨t, hq.trans ht, hwt, ?_, hit⟩
    rw [hot, ho, List.append_assoc]

/-! ### The end of the input -/

/-- **A runtime that pads**: it calls the state function of the matrix with the SOLVE
again and again, until `clauses` clauses are written. -/
structure Pads (r : QuapiRuntime) (clauses : ℤ) (fill : List Char) : Prop where
  state : r.state = .readingMatrix
  clauses : r.headerData.clauses.1 = clauses
  filler : Holds r.fillerClause 0 fill
  fillerLen : r.fillerClauseLen = fill.length
  outbufSize : fill.length ≤ r.outbufStack.length

/-- A missing clause is replaced by the filler clause. -/
theorem Pads.callState_of_lt {r : QuapiRuntime} {clauses : ℤ} {fill : List Char}
    (h : Pads r clauses fill) (hout : r.outbuf = 0) (hw : r.outbufWritten = 0)
    (hlt : r.writtenClauses < clauses) :
    Pads (r.callState .solve) clauses fill ∧ Holding (r.callState .solve) fill 0 ∧
      (r.callState .solve).writtenClauses = r.writtenClauses + 1 ∧
      (r.callState .solve).repeatState = true ∧
      (r.callState .solve).lastReadMsg = r.lastReadMsg := by
  have hfill : r.fillerClause.take fill.length = fill := by
    have hh := h.filler.slice
    rwa [slice, List.drop_zero] at hh
  have hcall : r.callState .solve = { r with
      outbufStack := memcpy r.outbufStack 0 fill
      outbufLen := fill.length
      writtenClauses := r.writtenClauses + 1
      repeatState := true
      state := .readingMatrix } := by
    rw [QuapiRuntime.callState, h.state]
    simp only [QuapiRuntime.readingMatrix, h.clauses, if_pos hlt, hout, h.fillerLen, hfill]
  have hfit : 0 + fill.length ≤ r.outbufStack.length := (Nat.zero_add _).le.trans h.outbufSize
  rw [hcall]
  refine ⟨⟨rfl, h.clauses, h.filler, h.fillerLen, ?_⟩, ⟨?_, rfl, hw⟩, rfl, rfl, rfl⟩
  · exact h.outbufSize.trans (length_memcpy hfit).ge
  · change Holds _ r.outbuf _
    rw [hout]
    exact holds_memcpy hfit

/-- Once enough clauses are written, the state function ends the input. -/
theorem Pads.callState_of_le {r : QuapiRuntime} {clauses : ℤ} {fill : List Char}
    (h : Pads r clauses fill) (hle : clauses ≤ r.writtenClauses) :
    r.callState .solve = { r with repeatState := false, state := .working } := by
  rw [QuapiRuntime.callState, h.state]
  simp only [QuapiRuntime.readingMatrix, h.clauses, if_neg (not_lt.mpr hle)]

/-- A read that is left with an empty fragment returns 0. -/
theorem finishRead_zero {r : QuapiRuntime} (n : ℕ) (hl : r.outbufLen = 0)
    (hw : r.outbufWritten = 0) : finishRead r n = .returned 0 [] r := by
  rw [finishRead, updateBuf_of_eq n (hl.trans hw.symm) (by omega)]

/-- The process is at the end of its input, having read `s` since `p`. -/
structure Ends (p : Reader) (s : List Char) (clauses : ℤ) (q : Reader) : Prop where
  closed : q.closed = some 0
  out : q.out = p.out ++ s
  input : q.input = p.input
  written : q.runtime.writtenClauses = max p.runtime.writtenClauses clauses

/-- A read in repeat mode calls the state function with the SOLVE once more. -/
theorem tick_repeat {p : Reader} (hb : p.blocked = none) (hc : p.closed = none)
    (hrep : p.runtime.repeatState = true) (hmsg : p.runtime.lastReadMsg = .solve)
    (hl : p.runtime.outbufLen = p.runtime.outbufWritten) (hw : 0 ≤ p.runtime.outbufWritten) :
    p.tick sizes = some (p.settle (sizes p.reads) (finishRead (QuapiRuntime.callState
      { p.runtime with outbuf := 0, outbufWritten := 0, outbufLen := 0 } .solve)
      (sizes p.reads))) := by
  rw [tick_read hb hc]
  simp only [quapiRead, updateBuf_of_eq (sizes p.reads) hl (by omega), if_true,
    if_neg (show p.runtime.outbufLen ≠ -2 by omega), hrep, hmsg]

/-- **The repeated SOLVE writes the missing clauses**, one a read, and then returns 0. -/
theorem reaches_pads (hs : ∀ i, 0 < sizes i) {clauses : ℤ} {fill : List Char}
    (hne : fill ≠ []) {d : ℕ} {p : Reader} (hb : p.blocked = none) (hc : p.closed = none)
    (h : Pads p.runtime clauses fill) (hrep : p.runtime.repeatState = true)
    (hmsg : p.runtime.lastReadMsg = .solve)
    (hl : p.runtime.outbufLen = p.runtime.outbufWritten) (hw : 0 ≤ p.runtime.outbufWritten)
    (hd : (clauses - p.runtime.writtenClauses).toNat = d) :
    ∃ q, Reaches sizes p q ∧ Ends p (List.replicate d fill).flatten clauses q := by
  -- on the number of clauses that are missing
  induction d generalizing p with
  | zero =>
    have hle : clauses ≤ p.runtime.writtenClauses := by omega
    have ht : p.tick sizes = _ := tick_repeat hb hc hrep hmsg hl hw
    have h₀ : Pads { p.runtime with outbuf := 0, outbufWritten := 0, outbufLen := 0 }
      clauses fill := ⟨h.state, h.clauses, h.filler, h.fillerLen, h.outbufSize⟩
    rw [h₀.callState_of_le hle, finishRead_zero (sizes p.reads) rfl rfl] at ht
    refine ⟨_, reaches_tick ht, ?_, ?_, rfl, ?_⟩
    · exact if_pos ⟨le_rfl, hs _⟩
    · exact rfl
    · exact (max_eq_left hle).symm
  | succ d ih =>
    -- one filler clause, and then those that are still missing
    have hlt : p.runtime.writtenClauses < clauses := by omega
    have ht : p.tick sizes = _ := tick_repeat hb hc hrep hmsg hl hw
    have h₀ : Pads { p.runtime with outbuf := 0, outbufWritten := 0, outbufLen := 0 }
      clauses fill := ⟨h.state, h.clauses, h.filler, h.fillerLen, h.outbufSize⟩
    obtain ⟨hp, hhold, hwr, hre, hlast⟩ := h₀.callState_of_lt rfl rfl hlt
    obtain ⟨q, hq, hst, hrt⟩ := reaches_finishRead hs (p := p) (hs p.reads) hhold hne
    have hpq : Pads q.runtime clauses fill := by
      rw [hrt]
      exact ⟨hp.state, hp.clauses, hp.filler, hp.fillerLen, hp.outbufSize⟩
    have hwq : q.runtime.writtenClauses = p.runtime.writtenClauses + 1 := by rw [hrt, hwr]
    obtain ⟨t, hr, he⟩ := ih hst.blocked hst.closed hpq (by rw [hrt]; exact hre)
      (by rw [hrt]; exact hlast.trans hmsg) (by rw [hrt]; exact hhold.len)
      (by rw [hrt]; exact Int.natCast_nonneg _) (by omega)
    refine ⟨t, Reaches.head ht (hq.trans hr), he.closed, ?_, he.input.trans hst.input, ?_⟩
    · rw [he.out, hst.out, List.replicate_succ, List.flatten_cons, List.append_assoc]
    · rw [he.written, hwq]
      omega

/-- A runtime that agrees with an encoder in the matrix pads its clauses. -/
theorem pads_of_encodes {r q : QuapiRuntime} {c : Encoder} (h : Encodes r c)
    (hst : q.state = .readingMatrix) (hh : q.headerData = r.headerData)
    (hf : q.fillerClause = r.fillerClause) (hl : q.fillerClauseLen = r.fillerClauseLen)
    (ho : q.outbufStack = r.outbufStack) : Pads q c.header.clauses.1 c.filler := by
  refine ⟨hst, ?_, ?_, hl.trans h.fillerLen, ?_⟩
  · rw [hh, h.header]
  · rw [hf]
    exact h.filler
  · have hle := h.filler.length_le
    rw [ho, h.outbufSize, ← h.fillerSize]
    exact (Nat.zero_add _).ge.trans hle

/-- The SOLVE in the state function of the matrix: a filler clause, or the end. -/
theorem stateLoop_solve {n : ℕ} {r : QuapiRuntime} {clauses : ℤ} {fill : List Char}
    (hne : fill ≠ []) (h : Pads r clauses fill) (hout : r.outbuf = 0)
    (hw : r.outbufWritten = 0) (hl : r.outbufLen = 0) :
    stateLoop (n + 2) r .solve = some (if r.writtenClauses < clauses then r.callState .solve
      else { r with repeatState := false, state := .working, outbufLen := -2 }) := by
  split
  case isTrue hlt =>
    obtain ⟨-, hhold, -⟩ := h.callState_of_lt hout hw hlt
    have hpos : 0 < fill.length := List.length_pos_iff.mpr hne
    refine stateLoop_of_ne ?_
    rw [hhold.len]
    omega
  case isFalse hge =>
    have hcall := h.callState_of_le (not_lt.mp hge)
    rw [stateLoop_of_eq (by rw [hcall]; exact hl), hcall]
    exact stateLoop_of_ne (show (-2 : ℤ) ≠ 0 by decide)

/-- **The inner loop takes a SOLVE** between two clauses: what it leaves is what the state
function of the matrix makes of a runtime that pads. -/
theorem exists_solveLoop {r₀ : QuapiRuntime} {c : Encoder} (he : Encodes r₀ c)
    (hout : r₀.outbuf = 0) (hw : r₀.outbufWritten = 0) (hfill : c.filler ≠ [])
    (hst : c.state = .readingPrefix ∨ c.state = .readingMatrix) : ∃ r, stateLoop loopFuel
      { r₀.install .solve with outbufLen := 0 } .solve = some (if r.writtenClauses <
        c.header.clauses.1 then r.callState .solve
        else { r with repeatState := false, state := .working, outbufLen := -2 }) ∧
      Pads r c.header.clauses.1 c.filler ∧ r.outbuf = 0 ∧ r.outbufWritten = 0 ∧
      r.writtenClauses = c.written ∧ r.lastReadMsg = .solve := by
  rcases hst with hst | hst
  · have hpads : Pads { r₀ with
        lastReadMsg := .solve
        outbufLen := 0
        repeatState := true
        state := .readingMatrix } c.header.clauses.1 c.filler :=
      pads_of_encodes he rfl rfl rfl rfl rfl
    refine ⟨_, ?_, hpads, hout, hw, he.written, rfl⟩
    have hcall : QuapiRuntime.callState
        { r₀.install .solve with outbufLen := 0 } .solve = { r₀ with
          lastReadMsg := .solve, outbufLen := 0, repeatState := true,
          state := .readingMatrix } := by
      have hr : r₀.state = .readingPrefix := he.state.trans hst
      simp only [QuapiRuntime.callState, QuapiRuntime.install, hr, QuapiRuntime.readingPrefix]
    rw [loopFuel, stateLoop_of_eq (by rw [hcall]), hcall]
    exact stateLoop_solve hfill hpads hout hw rfl
  · have hr : r₀.state = .readingMatrix := he.state.trans hst
    have hpads : Pads { r₀ with lastReadMsg := .solve, outbufLen := 0 }
        c.header.clauses.1 c.filler :=
      pads_of_encodes he hr rfl rfl rfl rfl
    exact ⟨_, stateLoop_solve hfill hpads hout hw rfl, hpads, hout, hw, he.written, rfl⟩

/-- **A SOLVE ends the input**: a filler clause is read for each clause that the header
announces and that nobody wrote, and the next read returns 0. -/
theorem reaches_solve (hs : ∀ i, 0 < sizes i) {p : Reader} {c : Encoder}
    {rest : List QuapiMsg} (h : Waits p c) (hfill : c.filler ≠ [])
    (hst : c.state = .readingPrefix ∨ c.state = .readingMatrix)
    (hi : p.input = .solve :: rest) :
    ∃ q, Reaches sizes p q ∧ Ends { p with input := rest }
      (List.replicate (c.header.clauses.1 - c.written).toNat c.filler).flatten
      c.header.clauses.1 q := by
  obtain ⟨n, hn, hb⟩ := h.blocked
  obtain ⟨r, hloop, hpads, hrt⟩ := exists_solveLoop h.encodes h.outbuf h.written hfill hst
  obtain ⟨hout, hwr, hwc, hlast⟩ := hrt
  rcases lt_or_ge r.writtenClauses c.header.clauses.1 with hlt | hge
  · obtain ⟨hp, hhold, hinc, hrep, hmsg⟩ := hpads.callState_of_lt hout hwr hlt
    have hpos : 0 < c.filler.length := List.length_pos_iff.mpr hfill
    rw [if_pos hlt] at hloop
    have hx : advanceMsg p.runtime n .solve = some (finishRead (r.callState .solve) n) := by
      rw [advanceMsg, hloop, Option.map_some, if_neg (by rw [hhold.len]; omega)]
    obtain ⟨q, hq, hstd, hqr⟩ := reaches_finishRead hs (p := { p with input := rest }) hn hhold
      hfill
    have hwq : q.runtime.writtenClauses = c.written + 1 := by rw [hqr, hinc, hwc]
    obtain ⟨t, ht, he⟩ := reaches_pads hs hfill hstd.blocked hstd.closed
      (by rw [hqr]; exact ⟨hp.state, hp.clauses, hp.filler, hp.fillerLen, hp.outbufSize⟩)
      (by rw [hqr]; exact hrep) (by rw [hqr]; exact hmsg.trans hlast)
      (by rw [hqr]; exact hhold.len) (by rw [hqr]; exact Int.natCast_nonneg _)
      (d := (c.header.clauses.1 - (c.written + 1)).toNat) (by rw [hwq])
    refine ⟨t, Reaches.head (tick_msg hb h.closed hi hx) (hq.trans ht), he.closed, ?_,
      he.input.trans hstd.input, ?_⟩
    · have hcount : (c.header.clauses.1 - c.written).toNat =
          (c.header.clauses.1 - (c.written + 1)).toNat + 1 := by omega
      rw [he.out, hstd.out, hcount, List.replicate_succ, List.flatten_cons, List.append_assoc]
    · have hwp : p.runtime.writtenClauses = c.written := h.encodes.written
      rw [he.written, hwq]
      change _ = max p.runtime.writtenClauses _
      omega
  · rw [if_neg (not_lt.mpr hge)] at hloop
    have hx : advanceMsg p.runtime n .solve = some (.returned 0 []
        { r with repeatState := false, state := .working, outbufLen := -2 }) := by
      rw [advanceMsg, hloop, Option.map_some, if_neg (show (-2 : ℤ) ≠ -1 by decide)]
      rfl
    have hcount : (c.header.clauses.1 - c.written).toNat = 0 := by omega
    refine ⟨_, reaches_tick (tick_msg hb h.closed hi hx), ?_, ?_, rfl, ?_⟩
    · exact if_pos ⟨le_rfl, hn⟩
    · rw [hcount]
      rfl
    · change r.writtenClauses = max p.runtime.writtenClauses _
      rw [h.encodes.written, ← hwc]
      exact (max_eq_left hge).symm

end Reader

end QuAPI
