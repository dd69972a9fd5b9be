import QuAPI.ReadSizes

/-!
# The fragments of the stream

What a runtime returns, one read at a time: a read never goes past the end of the fragment
it is in. The fragments of a list of messages are what the encoder emits
(`QuAPI.Encoder.fragments`), and `QuAPI.ahead` is what is left of them behind a place in
the stream.

`QuAPI.quapiReadMsgs` is a read up to its return, with the messages it takes on the way, and
`QuAPI.Gives.read` says what it returns: the rest of the fragment, as far as the size goes,
and nothing once no fragment is left.
-/

namespace QuAPI

/-! ### The pieces of a stream -/

section Ahead

variable {α : Type*}

/-- The pieces that are left behind the first `k` elements of a stream. A piece that has
been begun goes on. -/
def ahead : List (List α) → ℕ → List (List α)
  | [], _ => []
  | f :: fs, k => if f.length ≤ k then ahead fs (k - f.length) else f.drop k :: fs

variable {f : List α} {fs : List (List α)} {k n : ℕ}

theorem ahead_of_le (h : f.length ≤ k) : ahead (f :: fs) k = ahead fs (k - f.length) := by
  rw [ahead, if_pos h]

theorem ahead_of_lt (h : k < f.length) : ahead (f :: fs) k = f.drop k :: fs := by
  rw [ahead, if_neg (not_le.mpr h)]

theorem flatten_ahead (fs : List (List α)) (k : ℕ) : (ahead fs k).flatten = fs.flatten.drop k := by
  -- on the pieces: the place is behind the first one, or inside of it
  induction fs generalizing k with
  | nil => rw [ahead, List.flatten_nil, List.drop_nil]
  | cons f fs ih =>
    rcases le_or_gt f.length k with h | h
    · rw [ahead_of_le h, ih, List.flatten_cons, List.drop_append, List.drop_eq_nil_of_le h,
        List.nil_append]
    · rw [ahead_of_lt h, List.flatten_cons, List.flatten_cons, List.drop_append_of_le_length h.le]

/-- Going on from a place. -/
theorem ahead_ahead (fs : List (List α)) (k n : ℕ) : ahead (ahead fs k) n = ahead fs (k + n) := by
  induction fs generalizing k with
  | nil => rfl
  | cons f fs ih =>
    rcases le_or_gt f.length k with h | h
    · rw [ahead_of_le h, ih, ahead_of_le (h.trans (Nat.le_add_right k n)), Nat.sub_add_comm h]
    · rw [ahead_of_lt h]
      rcases le_or_gt f.length (k + n) with hn | hn
      · rw [ahead_of_le (by rw [List.length_drop]; omega), ahead_of_le hn, List.length_drop]
        congr 1
        omega
      · rw [ahead_of_lt (by rw [List.length_drop]; omega), ahead_of_lt hn, List.drop_drop]

theorem ahead_zero (h : ∀ f ∈ fs, f ≠ []) : ahead fs 0 = fs := by
  cases fs with
  | nil => rfl
  | cons f fs =>
    rw [ahead_of_lt (List.length_pos_iff.mpr (h f List.mem_cons_self)), List.drop_zero]

/-- No piece that is left is empty. -/
theorem ne_nil_of_mem_ahead (h : ∀ f ∈ fs, f ≠ []) : ∀ g ∈ ahead fs k, g ≠ [] := by
  induction fs generalizing k with
  | nil => exact fun g hg => absurd hg List.not_mem_nil
  | cons f fs ih =>
    have htail : ∀ g ∈ fs, g ≠ [] := fun g hg => h g (List.mem_cons_of_mem f hg)
    rcases le_or_gt f.length k with hle | hlt
    · rw [ahead_of_le hle]
      exact ih htail
    · rw [ahead_of_lt hlt]
      intro g hg
      rcases List.mem_cons.mp hg with rfl | hg
      · exact List.drop_eq_nil_iff.not.mpr (not_le.mpr hlt)
      · exact htail g hg

end Ahead

/-! ### The fragments of messages -/

/-- The fragments that a list of messages is turned into, and the encoder after it. -/
def Encoder.fragments : Encoder → List QuapiMsg → Option (List (List Char) × Encoder)
  | c, [] => some ([], c)
  | c, msg :: msgs => (c.emit msg).bind fun x =>
    (fragments x.2 msgs).map fun y => (if x.1 = [] then y.1 else x.1 :: y.1, y.2)

theorem Encoder.fragments_cons {c c' : Encoder} {msg : QuapiMsg} {msgs : List QuapiMsg}
    {fs : List (List Char)} : c.fragments (msg :: msgs) = some (fs, c') ↔ ∃ s c₁ gs,
      c.emit msg = some (s, c₁) ∧ c₁.fragments msgs = some (gs, c') ∧
        fs = if s = [] then gs else s :: gs := by
  simp only [fragments, Option.bind_eq_some_iff, Option.map_eq_some_iff, Prod.mk.injEq,
    Prod.exists]
  constructor
  · rintro ⟨s, c₁, h₁, gs, _, h₂, rfl, rfl⟩
    exact ⟨s, c₁, gs, h₁, h₂, rfl⟩
  · rintro ⟨s, c₁, gs, h₁, h₂, rfl⟩
    exact ⟨s, c₁, h₁, gs, c', h₂, rfl, rfl⟩

theorem Encoder.ne_nil_of_fragments {c c' : Encoder} {msgs : List QuapiMsg}
    {fs : List (List Char)} (h : c.fragments msgs = some (fs, c')) : ∀ f ∈ fs, f ≠ [] := by
  -- on the messages; those without a text add no fragment
  induction msgs generalizing c fs with
  | nil =>
    obtain ⟨rfl, -⟩ := Prod.mk.inj (Option.some.inj h)
    exact fun f hf => absurd hf List.not_mem_nil
  | cons msg msgs ih =>
    obtain ⟨s, c₁, gs, -, hgs, rfl⟩ := fragments_cons.mp h
    intro f hf
    split at hf
    case isTrue => exact ih hgs f hf
    case isFalse hs =>
      rcases List.mem_cons.mp hf with rfl | hf
      · exact hs
      · exact ih hgs f hf

/-- The fragments, one behind the other, are the text of the messages. -/
theorem Encoder.encode_of_fragments {c c' : Encoder} {msgs : List QuapiMsg}
    {fs : List (List Char)} (h : c.fragments msgs = some (fs, c')) :
    c.encode msgs = some (fs.flatten, c') := by
  induction msgs generalizing c fs with
  | nil =>
    obtain ⟨rfl, rfl⟩ := Prod.mk.inj (Option.some.inj h)
    rfl
  | cons msg msgs ih =>
    obtain ⟨s, c₁, gs, he, hgs, rfl⟩ := fragments_cons.mp h
    refine encode_cons.mpr ⟨s, c₁, gs.flatten, he, ih hgs, ?_⟩
    split
    case isTrue hs => rw [hs, List.nil_append]
    case isFalse => rw [List.flatten_cons]

/-! ### One read, up to its return -/

/-- A read that waits in `read_msg`, with the messages that arrive. There is no result while
it waits for another one, and where the inner loop never ends. -/
def readMsgs : QuapiRuntime → ℕ → List QuapiMsg →
    Option (ℤ × List Char × QuapiRuntime × List QuapiMsg)
  | _, _, [] => none
  | r, n, msg :: rest => (advanceMsg r n msg).bind fun
    | .returned bytes data r => some (bytes, data, r, rest)
    | .readMsg r => readMsgs r n rest

/-- `quapi_read`, with the messages it takes. -/
def quapiReadMsgs (r : QuapiRuntime) (n : ℕ) (input : List QuapiMsg) :
    Option (ℤ × List Char × QuapiRuntime × List QuapiMsg) :=
  match quapiRead r n with
  | .returned bytes data r => some (bytes, data, r, input)
  | .readMsg r => readMsgs r n input

/-- The messages up to SOLVE, and the fragments they come to with the filler clauses. -/
structure Supplies (c : Encoder) (input : List QuapiMsg) (fs : List (List Char)) : Prop where
  exists_fragments : ∃ msgs rest gs c', input = msgs ++ .solve :: rest ∧
    c.fragments msgs = some (gs, c') ∧ c'.filler ≠ [] ∧
    (c'.state = .readingPrefix ∨ c'.state = .readingMatrix) ∧
    fs = gs ++ List.replicate (c'.header.clauses.1 - c'.written).toNat c'.filler

/-- **What a runtime gives**: the rest of its fragment, and the fragments behind it. -/
inductive Gives (r : QuapiRuntime) (input : List QuapiMsg) : List (List Char) → Prop
  | fragment {c : Encoder} {t : List Char} {k : ℕ} {fs : List (List Char)}
      (holding : Reader.Holding r t k) (le : k ≤ t.length) (encodes : Encodes r c)
      (supplies : Supplies c input fs) : Gives r input (ahead (t :: fs) k)
  | filler {clauses : ℤ} {t : List Char} {k : ℕ} (pads : Reader.Pads r clauses t)
      (repeats : r.repeatState = true) (solve : r.lastReadMsg = .solve)
      (holding : Reader.Holding r t k) (le : k ≤ t.length) (ne : t ≠ []) : Gives r input
        (ahead (t :: List.replicate (clauses - r.writtenClauses).toNat t) k)
  | done (state : r.state = .working) (written : r.outbufWritten = 0)
      (len : r.outbufLen = -2 ∨ r.outbufLen = 0 ∧ r.repeatState = false) : Gives r input []

/-- **What a read returns** of the pieces that are left. -/
structure Yields (n : ℕ) (fs : List (List Char)) (bytes : ℤ) (data : List Char)
    (r : QuapiRuntime) (input : List QuapiMsg) : Prop where
  count : bytes = data.length
  taken : data = (fs.headD []).take n
  gives : Gives r input (ahead fs data.length)

section Read

variable {r : QuapiRuntime} {n : ℕ} {input : List QuapiMsg} {fs : List (List Char)}
  {t : List Char}

/-- A read that has just filled the buffer. -/
theorem yields_finishRead (hn : 0 < n) (h : Reader.Holding r t 0) (ht : t ≠ [])
    (hg : ∀ k ≤ t.length, Gives { r with outbufWritten := (k : ℤ) } input (ahead (t :: fs) k)) :
    ∃ bytes data r', finishRead r n = .returned bytes data r' ∧
      Yields n (t :: fs) bytes data r' input := by
  have hpos : 0 < t.length := List.length_pos_iff.mpr ht
  have hlen : ((t.drop 0).take n).length = min (t.length - 0) n := by
    rw [List.length_take, List.length_drop, min_comm]
  refine ⟨_, (t.drop 0).take n, { r with outbufWritten := ((t.drop 0).take n).length }, ?_,
    rfl, rfl, hg _ ?_⟩
  · simp only [finishRead, Reader.updateBuf_of_lt h hpos hn, hlen, Nat.zero_add]
  · rw [hlen]
    omega

theorem gives_fragment {c : Encoder} (hh : Holds r.outbufStack r.outbuf t)
    (hl : r.outbufLen = t.length) (he : Encodes r c) (hs : Supplies c input fs) {k : ℕ}
    (hk : k ≤ t.length) : Gives { r with outbufWritten := (k : ℤ) } input (ahead (t :: fs) k) :=
  .fragment (c := c) ⟨hh, hl, rfl⟩ hk ⟨he.header, he.state, he.written, he.quantifiers,
    he.filler, he.fillerLen, he.fillerSize, he.outbufSize, he.repeatState⟩ hs

theorem gives_filler {clauses : ℤ} (hp : Reader.Pads r clauses t) (hrep : r.repeatState = true)
    (hsolve : r.lastReadMsg = .solve) (hh : Holds r.outbufStack r.outbuf t)
    (hl : r.outbufLen = t.length) (ht : t ≠ []) {k : ℕ} (hk : k ≤ t.length) :
    Gives { r with outbufWritten := (k : ℤ) } input
      (ahead (t :: List.replicate (clauses - r.writtenClauses).toNat t) k) :=
  .filler (r := { r with outbufWritten := (k : ℤ) })
    ⟨hp.state, hp.clauses, hp.filler, hp.fillerLen, hp.outbufSize⟩ hrep hsolve ⟨hh, hl, rfl⟩ hk ht

/-- The filler clauses that are missing, one at least. -/
theorem replicate_missing {clauses written : ℤ} (h : written < clauses) :
    List.replicate (clauses - written).toNat t =
      t :: List.replicate (clauses - (written + 1)).toNat t := by
  have hcount : (clauses - written).toNat = (clauses - (written + 1)).toNat + 1 := by omega
  rw [hcount, List.replicate_succ]

/-- A read that has called the state function with the SOLVE once more. -/
theorem yields_solve (input : List QuapiMsg) {clauses : ℤ} (hn : 0 < n)
    (hp : Reader.Pads r clauses t) (hsolve : r.lastReadMsg = .solve) (hout : r.outbuf = 0)
    (hw : r.outbufWritten = 0) (ht : t ≠ []) (hlt : r.writtenClauses < clauses) : ∃ bytes data r',
      finishRead (r.callState .solve) n = .returned bytes data r' ∧ Yields n
        (List.replicate (clauses - r.writtenClauses).toNat t) bytes data r' input := by
  obtain ⟨hp', hhold, hinc, hrep, hlast⟩ := hp.callState_of_lt hout hw hlt
  rw [replicate_missing hlt, ← hinc]
  exact yields_finishRead hn hhold ht fun k hk =>
    gives_filler hp' hrep (hlast.trans hsolve) hhold.holds hhold.len ht hk

/-- **A read that waits** goes on to the first message with a text. -/
theorem yields_readMsgs {c : Encoder} {bytes : ℤ} {data : List Char} {r' : QuapiRuntime}
    {input' : List QuapiMsg} (hn : 0 < n) (he : Encodes r c) (hout : r.outbuf = 0)
    (hw : r.outbufWritten = 0) (hs : Supplies c input fs)
    (h : readMsgs r n input = some (bytes, data, r', input')) :
    Yields n fs bytes data r' input' := by
  obtain ⟨msgs, rest, gs, c', rfl, hgs, hfill, hst, rfl⟩ := hs.exists_fragments
  -- on the messages in front of the SOLVE
  induction msgs generalizing r c gs with
  | nil =>
    obtain ⟨rfl, rfl⟩ := Prod.mk.inj (Option.some.inj hgs)
    obtain ⟨q, hloop, hpads, hq, hqw, hqc, hlast⟩ := Reader.exists_solveLoop he hout hw hfill hst
    have hpos : 0 < c.filler.length := List.length_pos_iff.mpr hfill
    rw [List.nil_append, ← hqc]
    rcases lt_or_ge q.writtenClauses c.header.clauses.1 with hlt | hge
    -- the SOLVE comes: a filler clause is missing
    · obtain ⟨-, hhold, -⟩ := hpads.callState_of_lt hq hqw hlt
      obtain ⟨b, d, q', hread, hy⟩ := yields_solve rest hn hpads hlast hq hqw hfill hlt
      have hx : advanceMsg r n .solve = some (.returned b d q') := by
        rw [advanceMsg, hloop, if_pos hlt, Option.map_some, if_neg (by rw [hhold.len]; omega),
          hread]
      rw [List.nil_append, readMsgs, hx] at h
      obtain ⟨rfl, rfl, rfl, rfl⟩ := by simpa only [Option.bind_some, Option.some.injEq,
        Prod.mk.injEq] using h
      exact hy
    -- none is missing, and the stream is closed
    · have hx : advanceMsg r n .solve = some (.returned 0 []
          { q with repeatState := false, state := .working, outbufLen := -2 }) := by
        rw [advanceMsg, hloop, if_neg (not_lt.mpr hge), Option.map_some,
          if_neg (show (-2 : ℤ) ≠ -1 by decide)]
        rfl
      rw [List.nil_append, readMsgs, hx] at h
      obtain ⟨rfl, rfl, rfl, rfl⟩ := by simpa only [Option.bind_some, Option.some.injEq,
        Prod.mk.injEq] using h
      have hcount : (c.header.clauses.1 - q.writtenClauses).toNat = 0 := by omega
      rw [hcount]
      exact ⟨rfl, List.take_nil.symm, .done rfl hqw (Or.inl rfl)⟩
  | cons msg msgs ih =>
    obtain ⟨s, c₁, gs', hemit, hgs', rfl⟩ := Encoder.fragments_cons.mp hgs
    obtain ⟨q, hq, hc₁, hf⟩ := stateLoop_emit he hout hw hemit
    have hsupplies : Supplies c₁ (msgs ++ .solve :: rest) (gs' ++ List.replicate
        (c'.header.clauses.1 - c'.written).toNat c'.filler) :=
      ⟨msgs, rest, gs', c', rfl, hgs', hfill, hst, rfl⟩
    rcases eq_or_ne s [] with rfl | hne
    · -- no text, so that the same read goes on waiting
      obtain ⟨hout', hlen⟩ := hf.again rfl
      have hx : advanceMsg r n msg = some (.readMsg q) := by
        rw [advanceMsg, hq, Option.map_some, if_pos hlen]
      rw [List.cons_append, readMsgs, hx] at h
      rw [if_pos rfl]
      exact ih hc₁ hout' hf.written _ h hgs' hsupplies
    · obtain ⟨hhold, hlen⟩ := hf.holds hne
      obtain ⟨b, d, q', hread, hy⟩ := yields_finishRead hn ⟨hhold, hlen, hf.written⟩ hne
        fun k hk => gives_fragment hhold hlen hc₁ hsupplies hk
      have hx : advanceMsg r n msg = some (.returned b d q') := by
        rw [advanceMsg, hq, Option.map_some, if_neg (by omega), hread]
      rw [List.cons_append, readMsgs, hx] at h
      obtain ⟨rfl, rfl, rfl, rfl⟩ := by simpa only [Option.bind_some, Option.some.injEq,
        Prod.mk.injEq] using h
      rw [if_neg hne, List.cons_append]
      exact hy

/-- The pieces of a supply are not empty. -/
theorem Supplies.ne_nil {c : Encoder} (h : Supplies c input fs) : ∀ f ∈ fs, f ≠ [] := by
  obtain ⟨msgs, rest, gs, c', -, hgs, hfill, -, rfl⟩ := h.exists_fragments
  intro f hf
  rcases List.mem_append.mp hf with hf | hf
  · exact Encoder.ne_nil_of_fragments hgs f hf
  · rwa [List.eq_of_mem_replicate hf]

/-- A read in the middle of a piece. -/
theorem yields_deliver {k : ℕ} (hn : 0 < n) (h : Reader.Holding r t k) (hk : k < t.length)
    (hg : ∀ m ≤ t.length, Gives { r with outbufWritten := (m : ℤ) } input (ahead (t :: fs) m)) :
    ∃ bytes data r', quapiReadMsgs r n input = some (bytes, data, r', input) ∧
      Yields n (ahead (t :: fs) k) bytes data r' input := by
  have hlen : ((t.drop k).take n).length = min (t.length - k) n := by
    rw [List.length_take, List.length_drop, min_comm]
  have hpos : 0 < min (t.length - k) n := by omega
  refine ⟨_, (t.drop k).take n,
    { r with outbufWritten := ((k + ((t.drop k).take n).length : ℕ) : ℤ) }, ?_, rfl, ?_, ?_⟩
  · simp only [quapiReadMsgs, quapiRead, Reader.updateBuf_of_lt h hk hn, hlen]
    rw [if_neg (by omega)]
  · rw [ahead_of_lt hk]
    rfl
  · rw [ahead_ahead]
    refine hg _ ?_
    rw [hlen]
    omega

/-- **A read returns the rest of the piece it is in**, as far as its size goes, and nothing
once no piece is left. -/
theorem Gives.read {bytes : ℤ} {data : List Char} {r' : QuapiRuntime} {input' : List QuapiMsg}
    (hg : Gives r input fs) (hn : 0 < n)
    (h : quapiReadMsgs r n input = some (bytes, data, r', input')) :
    Yields n fs bytes data r' input' := by
  cases hg with
  | @fragment c t k gs hh hle he hs =>
    rcases hle.lt_or_eq with hlt | rfl
    · obtain ⟨b, d, q, hread, hy⟩ := yields_deliver hn hh hlt fun m hm =>
        gives_fragment hh.holds hh.len he hs hm
      rw [hread] at h
      obtain ⟨rfl, rfl, rfl, rfl⟩ := by simpa only [Option.some.injEq, Prod.mk.injEq] using h
      exact hy
    · -- the piece is exhausted, and the next message is asked for
      have hread : quapiRead r n = .readMsg { r with
          outbuf := 0, outbufWritten := 0, outbufLen := -1 } := by
        have hlen := hh.len
        simp only [quapiRead, Reader.updateBuf_stays hh le_rfl (Or.inl rfl), if_true,
          if_neg (show r.outbufLen ≠ -2 by omega), he.repeatState]
        rfl
      rw [quapiReadMsgs, hread] at h
      change readMsgs _ n input = _ at h
      have henc : Encodes { r with outbuf := 0, outbufWritten := 0, outbufLen := -1 } c :=
        ⟨he.header, he.state, he.written, he.quantifiers, he.filler, he.fillerLen,
          he.fillerSize, he.outbufSize, he.repeatState⟩
      rw [ahead_of_le le_rfl, Nat.sub_self, ahead_zero hs.ne_nil]
      exact yields_readMsgs hn henc rfl rfl hs h
  | @filler clauses t k hp hrep hsolve hh hle hne =>
    rcases hle.lt_or_eq with hlt | rfl
    · obtain ⟨b, d, q, hread, hy⟩ := yields_deliver hn hh hlt fun m hm =>
        gives_filler hp hrep hsolve hh.holds hh.len hne hm
      rw [hread] at h
      obtain ⟨rfl, rfl, rfl, rfl⟩ := by simpa only [Option.some.injEq, Prod.mk.injEq] using h
      exact hy
    · -- the state function is called with the SOLVE once more
      have hread : quapiRead r n = finishRead (QuapiRuntime.callState
          { r with outbuf := 0, outbufWritten := 0, outbufLen := 0 } .solve) n := by
        have hlen := hh.len
        simp only [quapiRead, Reader.updateBuf_stays hh le_rfl (Or.inl rfl), if_true,
          if_neg (show r.outbufLen ≠ -2 by omega), hrep, hsolve]
      have hp₀ : Reader.Pads { r with outbuf := 0, outbufWritten := 0, outbufLen := 0 }
        clauses t := ⟨hp.state, hp.clauses, hp.filler, hp.fillerLen, hp.outbufSize⟩
      rw [ahead_of_le le_rfl, Nat.sub_self,
        ahead_zero fun f hf => by rwa [List.eq_of_mem_replicate hf]]
      rcases lt_or_ge r.writtenClauses clauses with hlt | hge
      · obtain ⟨b, d, q, hfin, hy⟩ := yields_solve input hn hp₀ hsolve rfl rfl hne hlt
        rw [quapiReadMsgs, hread, hfin] at h
        obtain ⟨rfl, rfl, rfl, rfl⟩ := by simpa only [Option.some.injEq, Prod.mk.injEq] using h
        exact hy
      · rw [quapiReadMsgs, hread, hp₀.callState_of_le hge, Reader.finishRead_zero _ rfl rfl] at h
        obtain ⟨rfl, rfl, rfl, rfl⟩ := by simpa only [Option.some.injEq, Prod.mk.injEq] using h
        have hcount : (clauses - r.writtenClauses).toNat = 0 := by omega
        rw [hcount]
        exact ⟨rfl, List.take_nil.symm, .done rfl rfl (Or.inr ⟨rfl, rfl⟩)⟩
  | done hst hw hlen =>
    rcases hlen with hl | ⟨hl, hrep⟩
    · have hread : quapiRead r n =
          .returned 0 [] { r with outbuf := 0, outbufWritten := 0 } := by
        simp only [quapiRead, updateBuf, hl, if_true, finishRead]
      rw [quapiReadMsgs, hread] at h
      obtain ⟨rfl, rfl, rfl, rfl⟩ := by simpa only [Option.some.injEq, Prod.mk.injEq] using h
      exact ⟨rfl, List.take_nil.symm, .done hst rfl (Or.inl hl)⟩
    · have hread : quapiRead r n = .readMsg { r with
          outbuf := 0, outbufWritten := 0, outbufLen := -1 } := by
        simp only [quapiRead, Reader.updateBuf_of_eq n (hl.trans hw.symm)
          (show r.outbufLen ≠ -2 by omega), if_true,
          if_neg (show r.outbufLen ≠ -2 by omega), hrep]
        rfl
      rw [quapiReadMsgs, hread] at h
      change readMsgs _ n input = _ at h
      cases input with
      | nil => exact absurd h (by simp [readMsgs])
      | cons msg rest =>
        have hx : advanceMsg { r with outbuf := 0, outbufWritten := 0, outbufLen := -1 } n msg =
            some (.returned 0 [] { QuapiRuntime.install { r with
              outbuf := 0, outbufWritten := 0, outbufLen := -1 } msg with
              outbufLen := -2, state := .working }) :=
          Reader.advanceMsg_working hst
        rw [readMsgs, hx] at h
        obtain ⟨rfl, rfl, rfl, rfl⟩ := by simpa only [Option.bind_some, Option.some.injEq,
          Prod.mk.injEq] using h
        refine ⟨rfl, List.take_nil.symm, .done rfl ?_ (Or.inl rfl)⟩
        cases msg <;> rfl

end Read

end QuAPI
