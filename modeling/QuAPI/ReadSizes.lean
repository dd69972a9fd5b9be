import QuAPI.EndOfInput

/-!
# Reads of every size

The sizes of the reads may cut a fragment anywhere, and `read` also allows the size 0. What
a process still has to give (`QuAPI.Reader.Owes`) is the rest of its fragment, the text of
the messages up to SOLVE and the filler clauses behind it; every step moves some of it to
what has been read (`QuAPI.Reader.Owes.tick`), except one: a read of size 0 in the middle of
a fragment is taken for the end of it, and the rest of the fragment is lost
(`QuAPI.Reader.Drops`).

`QuAPI.reads_agree_iff` compares two runs on the same messages.
-/

namespace QuAPI

namespace Reader

/-! ### A read of size 0 -/

/-- **A read that drops what it does not ask for**: its size is 0, and some of the fragment
has not been handed out. -/
def Drops (sizes : ℕ → ℕ) (p : Reader) : Prop :=
  p.closed = none ∧ p.blocked = none ∧ sizes p.reads = 0 ∧
    p.runtime.outbufWritten < p.runtime.outbufLen

/-- None of the first `n` steps is such a read. -/
def Whole (sizes : ℕ → ℕ) (p : Reader) (n : ℕ) : Prop :=
  ∀ m < n, ∀ t, p.ticks sizes m = some t → ¬t.Drops sizes

variable {sizes : ℕ → ℕ} {p q : Reader}

theorem whole_succ {n : ℕ} (h : p.tick sizes = some q) :
    p.Whole sizes (n + 1) ↔ ¬p.Drops sizes ∧ q.Whole sizes n := by
  have hticks : ∀ m, p.ticks sizes (m + 1) = q.ticks sizes m := by
    intro m
    rw [ticks, h]
    rfl
  constructor
  · intro hw
    refine ⟨hw 0 n.succ_pos p rfl, fun m hm t ht => hw (m + 1) (Nat.succ_lt_succ hm) t ?_⟩
    rwa [hticks]
  · rintro ⟨hp, hw⟩ m hm t ht
    cases m with
    | zero => rwa [← Option.some.inj ht]
    | succ m =>
      rw [hticks] at ht
      exact hw m (Nat.lt_of_succ_lt_succ hm) t ht

/-! ### What a process owes -/

/-- The filler clauses that an encoder leaves to SOLVE. -/
def fillers (c : Encoder) : List Char :=
  (List.replicate (c.header.clauses.1 - c.written).toNat c.filler).flatten

/-- The messages up to SOLVE, and the text they come to with the filler clauses. -/
structure Supply (c : Encoder) (input : List QuapiMsg) (u : List Char) : Prop where
  exists_encode : ∃ msgs rest s c', input = msgs ++ .solve :: rest ∧
    c.encode msgs = some (s, c') ∧ c'.filler ≠ [] ∧
    (c'.state = .readingPrefix ∨ c'.state = .readingMatrix) ∧ u = s ++ fillers c'

/-- **A process that has nothing more to give.** The end may still have to be told, and
after a read of size 0 that was told it, told again. -/
structure Done (p : Reader) : Prop where
  state : p.runtime.state = .working
  written : p.runtime.outbufWritten = 0
  len : p.blocked = none → p.runtime.outbufLen = -2 ∨
    p.runtime.outbufLen = 0 ∧ p.runtime.repeatState = false

/-- **What a process owes** to its reads. -/
inductive Owes (p : Reader) : List Char → Prop
  /-- The rest of a fragment, and what the messages come to. -/
  | fragment {c : Encoder} {t u : List Char} {k : ℕ} (blocked : p.blocked = none)
      (closed : p.closed = none) (holding : Holding p.runtime t k) (le : k ≤ t.length)
      (encodes : Encodes p.runtime c) (supply : Supply c p.input u) : Owes p (t.drop k ++ u)
  /-- What the messages come to. -/
  | message {c : Encoder} {u : List Char} {n : ℕ} (blocked : p.blocked = some n)
      (closed : p.closed = none) (encodes : Encodes p.runtime c)
      (outbuf : p.runtime.outbuf = 0) (written : p.runtime.outbufWritten = 0)
      (supply : Supply c p.input u) : Owes p u
  /-- The rest of a filler clause, and the filler clauses behind it. -/
  | filler {clauses : ℤ} {t : List Char} {k : ℕ} (blocked : p.blocked = none)
      (closed : p.closed = none) (pads : Pads p.runtime clauses t)
      (repeats : p.runtime.repeatState = true) (solve : p.runtime.lastReadMsg = .solve)
      (holding : Holding p.runtime t k) (le : k ≤ t.length) (ne : t ≠ []) :
      Owes p (t.drop k ++ (List.replicate (clauses - p.runtime.writtenClauses).toNat t).flatten)
  /-- Nothing. -/
  | done (done : p.Done) : Owes p []

/-! ### One step -/

/-- **What a step does to the account**: it drops something, or it moves what it takes from
what is owed to what has been read. -/
structure Accounts (sizes : ℕ → ℕ) (p q : Reader) (u u' : List Char) : Prop where
  drops : p.Drops sizes → q.out.length + u'.length < p.out.length + u.length
  keeps : ¬p.Drops sizes → q.out ++ u' = p.out ++ u

/-- A step that no read of size 0 has started. -/
theorem Accounts.of_not {u u' : List Char} (h : ¬p.Drops sizes) (he : q.out ++ u' = p.out ++ u) :
    Accounts sizes p q u u' := ⟨fun hd => absurd hd h, fun _ => he⟩

theorem not_drops_of_blocked {n : ℕ} (h : p.blocked = some n) : ¬p.Drops sizes := by
  rintro ⟨-, hb, -⟩
  exact absurd (h.symm.trans hb) (by simp)

theorem not_drops_of_le (h : p.runtime.outbufLen ≤ p.runtime.outbufWritten) : ¬p.Drops sizes := by
  rintro ⟨-, -, -, hlt⟩
  exact absurd h (not_le.mpr hlt)

/-- A read that leaves a fragment where it is: the fragment is exhausted, or the size is 0. -/
theorem updateBuf_stays {r : QuapiRuntime} {t : List Char} {k n : ℕ} (h : Holding r t k)
    (hk : k ≤ t.length) (h0 : k = t.length ∨ n = 0) : updateBuf r n = (0, [], r) := by
  have hlen := h.len
  have hw := h.written
  have hmin : min (r.outbufLen - r.outbufWritten) (n : ℤ) = 0 := by omega
  simp only [updateBuf, if_neg (show r.outbufLen ≠ -2 by omega), hmin, lt_irrefl, if_false]

/-- The process after a read that has just filled the buffer, whatever its size. -/
theorem settle_fragment {n : ℕ} {r : QuapiRuntime} {t : List Char} (h : Holding r t 0)
    (ht : t ≠ []) : p.settle n (finishRead r n) = { p with
      runtime := { r with outbufWritten := ((min t.length n : ℕ) : ℤ) }
      blocked := none
      reads := p.reads + 1
      out := p.out ++ t.take n
      closed := none } := by
  have hpos : 0 < t.length := List.length_pos_iff.mpr ht
  rcases Nat.eq_zero_or_pos n with rfl | hn
  · rw [finishRead, updateBuf_stays h hpos.le (Or.inr rfl), settle,
      if_neg fun hc => lt_irrefl 0 hc.2, Nat.min_zero, List.take_zero, ← h.written]
  · have hm : 0 < min (t.length - 0) n := by omega
    simp only [finishRead, updateBuf_of_lt h hpos hn]
    rw [settle_returned hm, Nat.sub_zero, Nat.zero_add, List.drop_zero]

theorem take_append_drop_min {t : List Char} {k n : ℕ} :
    (t.drop k).take n ++ t.drop (k + min (t.length - k) n) = t.drop k := by
  rw [← List.drop_drop, List.take_eq_take_min, List.length_drop, min_comm, List.take_append_drop]

/-- A read in the middle of a fragment, or behind it, with the read of size 0 among the
latter. -/
theorem deliver_or {t : List Char} {k : ℕ} (h : k ≤ t.length) (n : ℕ) :
    k < t.length ∧ 0 < n ∨ k = t.length ∨ n = 0 := by omega

/-- What a read behind a fragment leaves behind is what it has dropped. -/
theorem drops_or {t : List Char} {k : ℕ} (hb : p.blocked = none) (hc : p.closed = none)
    (h : Holding p.runtime t k) (hle : k ≤ t.length) (h0 : k = t.length ∨ sizes p.reads = 0) :
    t.drop k ≠ [] ∧ p.Drops sizes ∨ t.drop k = [] ∧ ¬p.Drops sizes := by
  have hlen := h.len
  have hw := h.written
  rcases hle.lt_or_eq with hlt | heq
  · have hne : t.drop k ≠ [] := List.drop_eq_nil_iff.not.mpr (not_le.mpr hlt)
    exact Or.inl ⟨hne, hc, hb, h0.resolve_left hlt.ne, by omega⟩
  · exact Or.inr ⟨List.drop_eq_nil_iff.mpr heq.ge, not_drops_of_le (by omega)⟩

/-- A step behind a fragment. -/
theorem Accounts.behind {t u u' : List Char} {k : ℕ} (hb : p.blocked = none)
    (hc : p.closed = none) (h : Holding p.runtime t k) (hle : k ≤ t.length)
    (h0 : k = t.length ∨ sizes p.reads = 0) (he : q.out ++ u' = p.out ++ u) :
    Accounts sizes p q (t.drop k ++ u) u' := by
  rcases drops_or hb hc h hle h0 with ⟨hne, hd⟩ | ⟨hnil, hd⟩
  · refine ⟨?_, fun hn => absurd hd hn⟩
    intro _
    have hpos : 0 < (t.drop k).length := List.length_pos_iff.mpr hne
    have hlen := congrArg List.length he
    rw [List.length_append, List.length_append] at hlen
    rw [List.length_append]
    omega
  · rw [hnil, List.nil_append]
    exact Accounts.of_not hd he

/-- **A read of a fragment**, before and behind its end. -/
theorem tick_fragment {c : Encoder} {t u : List Char} {k : ℕ} (hb : p.blocked = none)
    (hc : p.closed = none) (h : Holding p.runtime t k) (hle : k ≤ t.length)
    (he : Encodes p.runtime c) (hi : Supply c p.input u) (hq : p.tick sizes = some q) :
    ∃ u', q.Owes u' ∧ Accounts sizes p q (t.drop k ++ u) u' := by
  rcases deliver_or hle (sizes p.reads) with ⟨hlt, hn⟩ | h0
  · rw [tick_deliver hb hc h hlt hn] at hq
    obtain rfl := Option.some.inj hq
    refine ⟨_, Owes.fragment rfl rfl ⟨h.holds, h.len, rfl⟩ (by omega) (c := c) ⟨he.header,
      he.state, he.written, he.quantifiers, he.filler, he.fillerLen, he.fillerSize,
      he.outbufSize, he.repeatState⟩ hi, Accounts.of_not (fun hd => hn.ne' hd.2.2.1) ?_⟩
    rw [List.append_assoc, ← List.append_assoc (List.take _ _), take_append_drop_min]
  · -- the next message is asked for
    have hread : quapiRead p.runtime (sizes p.reads) = .readMsg { p.runtime with
        outbuf := 0, outbufWritten := 0, outbufLen := -1 } := by
      have hlen := h.len
      simp only [quapiRead, updateBuf_stays h hle h0, if_true,
        if_neg (show p.runtime.outbufLen ≠ -2 by omega), he.repeatState]
      rfl
    rw [tick_read hb hc, hread] at hq
    obtain rfl := Option.some.inj hq
    refine ⟨u, Owes.message rfl hc (c := c) ⟨he.header, he.state, he.written, he.quantifiers,
      he.filler, he.fillerLen, he.fillerSize, he.outbufSize, he.repeatState⟩ rfl rfl hi,
      Accounts.behind hb hc h hle h0 rfl⟩

/-- **A read of a filler clause**, before and behind its end. -/
theorem tick_filler {clauses : ℤ} {t : List Char} {k : ℕ} (hb : p.blocked = none)
    (hc : p.closed = none) (hp : Pads p.runtime clauses t) (hrep : p.runtime.repeatState = true)
    (hsolve : p.runtime.lastReadMsg = .solve) (h : Holding p.runtime t k) (hle : k ≤ t.length)
    (hne : t ≠ []) (hq : p.tick sizes = some q) : ∃ u', q.Owes u' ∧ Accounts sizes p q
      (t.drop k ++ (List.replicate (clauses - p.runtime.writtenClauses).toNat t).flatten) u' := by
  rcases deliver_or hle (sizes p.reads) with ⟨hlt, hn⟩ | h0
  · rw [tick_deliver hb hc h hlt hn] at hq
    obtain rfl := Option.some.inj hq
    refine ⟨_, Owes.filler rfl rfl ⟨hp.state, hp.clauses, hp.filler, hp.fillerLen,
      hp.outbufSize⟩ hrep hsolve ⟨h.holds, h.len, rfl⟩ (by omega) hne,
      Accounts.of_not (fun hd => hn.ne' hd.2.2.1) ?_⟩
    rw [List.append_assoc, ← List.append_assoc (List.take _ _), take_append_drop_min]
  · -- the state function is called with the SOLVE once more
    have hread : quapiRead p.runtime (sizes p.reads) = finishRead (QuapiRuntime.callState
        { p.runtime with outbuf := 0, outbufWritten := 0, outbufLen := 0 } .solve)
        (sizes p.reads) := by
      have hlen := h.len
      simp only [quapiRead, updateBuf_stays h hle h0, if_true,
        if_neg (show p.runtime.outbufLen ≠ -2 by omega), hrep, hsolve]
    rw [tick_read hb hc, hread] at hq
    obtain rfl := Option.some.inj hq
    have h₀ : Pads { p.runtime with outbuf := 0, outbufWritten := 0, outbufLen := 0 }
      clauses t := ⟨hp.state, hp.clauses, hp.filler, hp.fillerLen, hp.outbufSize⟩
    rcases lt_or_ge p.runtime.writtenClauses clauses with hlt | hge
    · obtain ⟨hp', hhold, hwr, hre, hlast⟩ := h₀.callState_of_lt rfl rfl hlt
      rw [settle_fragment hhold hne]
      refine ⟨_, Owes.filler rfl rfl ⟨hp'.state, hp'.clauses, hp'.filler, hp'.fillerLen,
        hp'.outbufSize⟩ hre (hlast.trans hsolve) ⟨hhold.holds, hhold.len, rfl⟩ (min_le_left _ _)
        hne, Accounts.behind hb hc h hle h0 ?_⟩
      have hcount : (clauses - p.runtime.writtenClauses).toNat =
          (clauses - (p.runtime.writtenClauses + 1)).toNat + 1 := by omega
      have htake := take_append_drop_min (t := t) (k := 0) (n := sizes p.reads)
      rw [List.drop_zero, Nat.zero_add, Nat.sub_zero] at htake
      change p.out ++ _ ++ (_ ++ (List.replicate (clauses - (QuapiRuntime.callState _
        .solve).writtenClauses).toNat t).flatten) = _
      rw [hwr, hcount, List.replicate_succ, List.flatten_cons, List.append_assoc,
        ← List.append_assoc (List.take _ _), htake]
    · rw [h₀.callState_of_le hge, finishRead_zero _ rfl rfl]
      have hcount : (clauses - p.runtime.writtenClauses).toNat = 0 := by omega
      refine ⟨[], Owes.done ⟨rfl, rfl, fun _ => Or.inr ⟨rfl, rfl⟩⟩,
        Accounts.behind hb hc h hle h0 ?_⟩
      rw [hcount]
      exact List.append_nil _

/-- **A message arrives** at a waiting read, SOLVE being the last. -/
theorem tick_message (sizes : ℕ → ℕ) {c : Encoder} {u : List Char} {n : ℕ} (hb : p.blocked = some n)
    (hc : p.closed = none) (he : Encodes p.runtime c) (hout : p.runtime.outbuf = 0)
    (hw : p.runtime.outbufWritten = 0) (hi : Supply c p.input u) :
    ∃ q, p.tick sizes = some q ∧ ∃ u', q.Owes u' ∧ Accounts sizes p q u u' := by
  obtain ⟨msgs, rest, s, c', hin, henc, hfill, hst, rfl⟩ := hi.exists_encode
  have hnot : ¬p.Drops sizes := not_drops_of_blocked hb
  cases msgs with
  | cons msg msgs =>
    obtain ⟨s₁, c₁, s₂, hemit, htail, rfl⟩ := Encoder.encode_cons.mp henc
    obtain ⟨r, hr, hc₁, hf⟩ := stateLoop_emit he hout hw hemit
    have hsupply : Supply c₁ (msgs ++ .solve :: rest) (s₂ ++ fillers c') :=
      ⟨msgs, rest, s₂, c', rfl, htail, hfill, hst, rfl⟩
    rcases eq_or_ne s₁ [] with rfl | hne
    · -- no text, so that the same read goes on waiting
      obtain ⟨hout', hlen⟩ := hf.again rfl
      have hx : advanceMsg p.runtime n msg = some (.readMsg r) := by
        rw [advanceMsg, hr, Option.map_some, if_pos hlen]
      exact ⟨_, tick_msg hb hc hin hx, s₂ ++ fillers c', Owes.message rfl hc hc₁ hout' hf.written
        hsupply, Accounts.of_not hnot rfl⟩
    · obtain ⟨hhold, hlen⟩ := hf.holds hne
      have hx : advanceMsg p.runtime n msg = some (finishRead r n) := by
        rw [advanceMsg, hr, Option.map_some, if_neg (by omega)]
      have htick : p.tick sizes = _ := tick_msg hb hc hin hx
      rw [settle_fragment ⟨hhold, hlen, hf.written⟩ hne] at htick
      refine ⟨_, htick, _, Owes.fragment (t := s₁) (k := min s₁.length n) rfl rfl
        ⟨hhold, hlen, rfl⟩ (min_le_left _ _) ⟨hc₁.header, hc₁.state, hc₁.written,
          hc₁.quantifiers, hc₁.filler, hc₁.fillerLen, hc₁.fillerSize, hc₁.outbufSize,
          hc₁.repeatState⟩ hsupply, Accounts.of_not hnot ?_⟩
      have htake := take_append_drop_min (t := s₁) (k := 0) (n := n)
      rw [List.drop_zero, Nat.zero_add, Nat.sub_zero] at htake
      rw [List.append_assoc, ← List.append_assoc (List.take _ _), htake, List.append_assoc]
  | nil =>
    obtain ⟨rfl, rfl⟩ := Prod.mk.inj (Option.some.inj henc)
    obtain ⟨r, hloop, hpads, hr, hwr, hwc, hlast⟩ := exists_solveLoop he hout hw hfill hst
    have hpos : 0 < c.filler.length := List.length_pos_iff.mpr hfill
    rw [List.nil_append]
    rcases lt_or_ge r.writtenClauses c.header.clauses.1 with hlt | hge
    · obtain ⟨hp, hhold, hinc, hrep, hmsg⟩ := hpads.callState_of_lt hr hwr hlt
      rw [if_pos hlt] at hloop
      have hx : advanceMsg p.runtime n .solve = some (finishRead (r.callState .solve) n) := by
        rw [advanceMsg, hloop, Option.map_some, if_neg (by rw [hhold.len]; omega)]
      have htick : p.tick sizes = _ := tick_msg hb hc hin hx
      rw [settle_fragment hhold hfill] at htick
      refine ⟨_, htick, _, Owes.filler rfl rfl ⟨hp.state, hp.clauses, hp.filler, hp.fillerLen,
        hp.outbufSize⟩ hrep (hmsg.trans hlast) ⟨hhold.holds, hhold.len, rfl⟩ (min_le_left _ n)
        hfill, Accounts.of_not hnot ?_⟩
      have hcount : (c.header.clauses.1 - c.written).toNat =
          (c.header.clauses.1 - (c.written + 1)).toNat + 1 := by omega
      have htake := take_append_drop_min (t := c.filler) (k := 0) (n := n)
      rw [List.drop_zero, Nat.zero_add, Nat.sub_zero] at htake
      change p.out ++ _ ++ (_ ++ (List.replicate (c.header.clauses.1 - (QuapiRuntime.callState r
        .solve).writtenClauses).toNat c.filler).flatten) = _
      rw [hinc, hwc, fillers, hcount, List.replicate_succ, List.flatten_cons, List.append_assoc,
        ← List.append_assoc (List.take _ _), htake]
    · rw [if_neg (not_lt.mpr hge)] at hloop
      have hx : advanceMsg p.runtime n .solve = some (.returned 0 []
          { r with repeatState := false, state := .working, outbufLen := -2 }) := by
        rw [advanceMsg, hloop, Option.map_some, if_neg (show (-2 : ℤ) ≠ -1 by decide)]
        rfl
      have hcount : (c.header.clauses.1 - c.written).toNat = 0 := by omega
      refine ⟨_, tick_msg hb hc hin hx, [], Owes.done ⟨rfl, hwr, fun _ => Or.inl rfl⟩,
        Accounts.of_not hnot ?_⟩
      rw [fillers, hcount]
      change p.out ++ [] ++ [] = p.out ++ []
      rw [List.append_nil]

/-- Behind the end, a message closes the stream. -/
theorem advanceMsg_working {r : QuapiRuntime} {msg : QuapiMsg} {n : ℕ} (h : r.state = .working) :
    advanceMsg r n msg =
      some (.returned 0 [] { r.install msg with outbufLen := -2, state := .working }) := by
  have hcall : QuapiRuntime.callState { r.install msg with outbufLen := 0 } msg =
      { r.install msg with outbufLen := -2, state := .working } := by
    have hst : (r.install msg).state = .working := by cases msg <;> exact h
    simp only [QuapiRuntime.callState, hst, QuapiRuntime.working]
  have hne : (QuapiRuntime.callState { r.install msg with outbufLen := 0 } msg).outbufLen ≠ 0 := by
    rw [hcall]
    exact (by decide : (-2 : ℤ) ≠ 0)
  rw [advanceMsg, loopFuel, stateLoop_of_ne hne, hcall, Option.map_some,
    if_neg (show (-2 : ℤ) ≠ -1 by decide)]
  rfl

/-- **Nothing is given once nothing is owed.** -/
theorem tick_done (h : p.Done) (hq : p.tick sizes = some q) :
    q.Done ∧ Accounts sizes p q [] [] := by
  have hclosed : p.closed = none := by
    cases hc : p.closed with
    | none => rfl
    | some x =>
      rw [tick, hc] at hq
      exact absurd hq (by simp)
  cases hb : p.blocked with
  | none =>
    have hle : p.runtime.outbufLen ≤ p.runtime.outbufWritten := by
      have hw := h.written
      rcases h.len hb with hl | ⟨hl, -⟩ <;> omega
    rw [tick_read hb hclosed] at hq
    rcases h.len hb with hl | ⟨hl, hrep⟩
    · have hread : quapiRead p.runtime (sizes p.reads) =
          .returned 0 [] { p.runtime with outbuf := 0, outbufWritten := 0 } := by
        simp only [quapiRead, updateBuf, hl, if_true, finishRead]
      rw [hread] at hq
      obtain rfl := Option.some.inj hq
      refine ⟨⟨h.state, rfl, fun _ => Or.inl hl⟩, Accounts.of_not (not_drops_of_le hle) ?_⟩
      change p.out ++ [] ++ [] = p.out ++ []
      rw [List.append_nil]
    · have hread : quapiRead p.runtime (sizes p.reads) = .readMsg { p.runtime with
          outbuf := 0, outbufWritten := 0, outbufLen := -1 } := by
        simp only [quapiRead, updateBuf_of_eq (sizes p.reads) (hl.trans h.written.symm)
          (show p.runtime.outbufLen ≠ -2 by omega), if_true,
          if_neg (show p.runtime.outbufLen ≠ -2 by omega), hrep]
        rfl
      rw [hread] at hq
      obtain rfl := Option.some.inj hq
      exact ⟨⟨h.state, rfl, fun hb => absurd hb (by simp [settle])⟩,
        Accounts.of_not (not_drops_of_le hle) rfl⟩
  | some n =>
    cases hi : p.input with
    | nil =>
      simp only [tick, hclosed, hb, hi] at hq
      exact absurd hq (by simp)
    | cons msg rest =>
      have hx : advanceMsg p.runtime n msg = some (.returned 0 []
          { p.runtime.install msg with outbufLen := -2, state := .working }) :=
        advanceMsg_working h.state
      rw [tick_msg hb hclosed hi hx] at hq
      obtain rfl := Option.some.inj hq
      refine ⟨⟨rfl, ?_, fun _ => Or.inl rfl⟩, Accounts.of_not (not_drops_of_blocked hb) ?_⟩
      · cases msg <;> exact h.written
      · change p.out ++ [] ++ [] = p.out ++ []
        rw [List.append_nil]

/-- **Every step keeps the account.** -/
theorem Owes.tick {u : List Char} (h : p.Owes u) (hq : p.tick sizes = some q) :
    ∃ u', q.Owes u' ∧ Accounts sizes p q u u' := by
  cases h with
  | fragment hb hc hh hle he hi => exact tick_fragment hb hc hh hle he hi hq
  | message hb hc he hout hw hi =>
    obtain ⟨q', hq', hu⟩ := tick_message sizes hb hc he hout hw hi
    obtain rfl := Option.some.inj (hq'.symm.trans hq)
    exact hu
  | filler hb hc hp hrep hs hh hle hne => exact tick_filler hb hc hp hrep hs hh hle hne hq
  | done h =>
    obtain ⟨hq', ha⟩ := tick_done h hq
    exact ⟨[], Owes.done hq', ha⟩

/-- A process that can go no further owes nothing. -/
theorem Owes.eq_nil {u : List Char} (h : p.Owes u) (hend : p.tick sizes = none) : u = [] := by
  cases h with
  | fragment hb hc => exact absurd ((tick_read hb hc).symm.trans hend) (by simp)
  | message hb hc he hout hw hi =>
    obtain ⟨q', hq', -⟩ := tick_message sizes hb hc he hout hw hi
    exact absurd (hq'.symm.trans hend) (by simp)
  | filler hb hc => exact absurd ((tick_read hb hc).symm.trans hend) (by simp)
  | done => rfl

/-! ### Runs -/

/-- **The account of a run**: it is kept exactly in a run without a dropping read. -/
theorem Owes.ticks {u : List Char} {n : ℕ} (h : p.Owes u) (hq : p.ticks sizes n = some q) :
    ∃ u', q.Owes u' ∧ (p.Whole sizes n ∧ q.out ++ u' = p.out ++ u ∨
      ¬p.Whole sizes n ∧ q.out.length + u'.length < p.out.length + u.length) := by
  -- on the ticks; the account is settled once for each of them
  induction n generalizing p u with
  | zero =>
    obtain rfl := Option.some.inj hq
    exact ⟨u, h, Or.inl ⟨fun m hm => absurd hm (Nat.not_lt_zero m), rfl⟩⟩
  | succ n ih =>
    obtain ⟨t, ht, hr⟩ := Option.bind_eq_some_iff.mp hq
    obtain ⟨u₁, h₁, ha⟩ := h.tick ht
    obtain ⟨u', hu', hcases⟩ := ih h₁ hr
    refine ⟨u', hu', ?_⟩
    rw [whole_succ ht]
    have hrest : q.out.length + u'.length ≤ t.out.length + u₁.length := by
      rcases hcases with ⟨-, heq⟩ | ⟨-, hlt⟩
      · have hlen := congrArg List.length heq
        rw [List.length_append, List.length_append] at hlen
        exact hlen.le
      · exact hlt.le
    -- what has been dropped once does not come again
    by_cases hd : p.Drops sizes
    · exact Or.inr ⟨fun hw => hw.1 hd, hrest.trans_lt (ha.drops hd)⟩
    · have hkeep := ha.keeps hd
      rcases hcases with ⟨hw, heq⟩ | ⟨hw, hlt⟩
      · exact Or.inl ⟨⟨hd, hw⟩, heq.trans hkeep⟩
      · refine Or.inr ⟨fun h => hw h.2, ?_⟩
        have hlen := congrArg List.length hkeep
        rw [List.length_append, List.length_append] at hlen
        rwa [← hlen]

/-- No message empties the filler clause. -/
theorem filler_ne_nil_of_emit {c c' : Encoder} {msg : QuapiMsg} {s : List Char}
    (he : c.emit msg = some (s, c')) (hc : c.filler ≠ []) : c'.filler ≠ [] := by
  have hq : ∀ l : Lit, quantifierFiller l ≠ [] := by
    intro l
    rw [quantifierFiller]
    simp
  rw [Encoder.emit.eq_def] at he
  split at he
  case h_1 =>
    obtain ⟨-, rfl⟩ := Prod.mk.inj (Option.some.inj he)
    change (if _ then _ else _) ≠ _
    split
    · exact List.cons_ne_nil _ _
    · exact hc
  case h_2 =>
    split at he
    · obtain ⟨-, rfl⟩ := Prod.mk.inj (Option.some.inj he)
      change (if _ then _ else _) ≠ _
      split
      · exact hq _
      · exact hc
    · split at he
      · obtain ⟨-, rfl⟩ := Prod.mk.inj (Option.some.inj he)
        exact hc
      · exact absurd he (by simp)
  all_goals
    repeat' split at he
    all_goals first
      | obtain ⟨-, rfl⟩ := Prod.mk.inj (Option.some.inj he)
        exact hc
      | exact absurd he (by simp)

theorem filler_ne_nil_of_encode {c c' : Encoder} {msgs : List QuapiMsg} {s : List Char}
    (he : c.encode msgs = some (s, c')) (hc : c.filler ≠ []) : c'.filler ≠ [] := by
  induction msgs generalizing c s with
  | nil =>
    obtain ⟨-, rfl⟩ := Prod.mk.inj (Option.some.inj he)
    exact hc
  | cons msg msgs ih =>
    obtain ⟨s₁, c₁, s₂, h₁, h₂, -⟩ := Encoder.encode_cons.mp he
    exact ih h₂ (filler_ne_nil_of_emit h₁ hc)

/-- What a process owes before its first read. -/
theorem owes_start {msgs rest : List QuapiMsg} {s : List Char} {c : Encoder}
    (he : Encoder.init.encode msgs = some (s, c))
    (hst : c.state = .readingPrefix ∨ c.state = .readingMatrix) :
    (start (msgs ++ .solve :: rest)).Owes (s ++ fillers c) := by
  have hsupply : Supply Encoder.init (msgs ++ .solve :: rest) (s ++ fillers c) :=
    ⟨msgs, rest, s, c, rfl, he, filler_ne_nil_of_encode he (List.cons_ne_nil _ _), hst, rfl⟩
  exact Owes.fragment (p := start (msgs ++ .solve :: rest)) rfl rfl holding_init le_rfl
    encodes_init hsupply

/-- A run to the end reads the text and the filler clauses, unless one of its reads drops
some of them. -/
theorem out_eq_iff {msgs rest : List QuapiMsg} {s : List Char} {c : Encoder} {n : ℕ}
    (he : Encoder.init.encode msgs = some (s, c))
    (hst : c.state = .readingPrefix ∨ c.state = .readingMatrix)
    (hq : (start (msgs ++ .solve :: rest)).ticks sizes n = some q) (hend : q.tick sizes = none) :
    q.out = s ++ fillers c ↔ (start (msgs ++ .solve :: rest)).Whole sizes n := by
  obtain ⟨u, hu, hcases⟩ := (owes_start he hst).ticks hq
  obtain rfl := hu.eq_nil hend
  rcases hcases with ⟨hw, heq⟩ | ⟨hw, hlt⟩
  · rw [List.append_nil] at heq
    exact iff_of_true heq hw
  · refine iff_of_false ?_ hw
    intro heq
    rw [heq, List.length_nil, Nat.add_zero] at hlt
    exact absurd hlt (by simp [start])

end Reader

/-- **Two runs read the same and all of it exactly when neither drops anything.** For every
list of messages that the state functions have cases for, up to SOLVE and whatever follows
it, and for every two sequences of sizes, zero included: the bytes that two runs to the end
return are equal, and are the text of the messages with the filler clauses, if and only if
neither run has a read of size 0 that starts while some of a fragment is not handed out. -/
theorem reads_agree_iff {msgs rest : List QuapiMsg} {s : List Char} {c : Encoder}
    {sizes sizes' : ℕ → ℕ} {n n' : ℕ} {q q' : Reader}
    (he : Encoder.init.encode msgs = some (s, c))
    (hst : c.state = .readingPrefix ∨ c.state = .readingMatrix)
    (hq : (Reader.start (msgs ++ .solve :: rest)).ticks sizes n = some q)
    (hend : q.tick sizes = none)
    (hq' : (Reader.start (msgs ++ .solve :: rest)).ticks sizes' n' = some q')
    (hend' : q'.tick sizes' = none) :
    q.out = q'.out ∧ q.out = s ++ Reader.fillers c ↔
      (Reader.start (msgs ++ .solve :: rest)).Whole sizes n ∧
      (Reader.start (msgs ++ .solve :: rest)).Whole sizes' n' := by
  rw [← Reader.out_eq_iff he hst hq hend, ← Reader.out_eq_iff he hst hq' hend']
  constructor
  · rintro ⟨heq, hout⟩
    exact ⟨hout, heq.symm.trans hout⟩
  · rintro ⟨hout, hout'⟩
    exact ⟨hout.trans hout'.symm, hout⟩

theorem Reader.tick_of_closed {sizes : ℕ → ℕ} {p : Reader} {x : ℤ} (h : p.closed = some x) :
    p.tick sizes = none := by
  rw [Reader.tick, h]
  rfl

/-- One of two announced clauses: `x₁`, and no second one. -/
def halfMsgs : List QuapiMsg :=
  [.header quapiApiVersion ⟨.of 1, .of 2, .of 0⟩, .literal ⟨1, by decide, by decide⟩, .literal 0]

/-- Reads of one character and of 64 read the same header, clause and filler clause. -/
theorem half_reads_agree : ∃ q q',
    (Reader.start (halfMsgs ++ .solve :: [])).ticks (fun _ => 1) 26 = some q ∧
      (Reader.start (halfMsgs ++ .solve :: [])).ticks (fun _ => 64) 9 = some q' ∧
      q.out = q'.out ∧ q.out = "p cnf 1 2\n1 0\n-1 1 0\n".toList := by
  have hsome : ((Reader.start (halfMsgs ++ .solve :: [])).ticks (fun _ => 1) 26).map
      (fun q => q.closed) = some (some 0) := rfl
  have hsome' : ((Reader.start (halfMsgs ++ .solve :: [])).ticks (fun _ => 64) 9).map
      (fun q => q.closed) = some (some 0) := rfl
  obtain ⟨q, hq, hc⟩ := Option.map_eq_some_iff.mp hsome
  obtain ⟨q', hq', hc'⟩ := Option.map_eq_some_iff.mp hsome'
  have he : Encoder.init.encode halfMsgs = some ("p cnf 1 2\n1 0\n".toList, ⟨⟨⟨1, by decide⟩,
    ⟨2, by decide⟩, ⟨0, by decide⟩⟩, .readingMatrix, defaultFiller, 1, 0⟩) := rfl
  obtain ⟨hsame, hout⟩ := (reads_agree_iff he (Or.inr rfl) hq (Reader.tick_of_closed hc) hq'
    (Reader.tick_of_closed hc')).mpr ⟨fun _ _ _ _ hd => absurd hd.2.2.1 one_ne_zero,
      fun _ _ _ _ hd => absurd hd.2.2.1 (show (64 : ℕ) ≠ 0 by decide)⟩
  exact ⟨q, q', hq, hq', hsame, hout⟩

/-- A formula with neither variables nor clauses: the header, and SOLVE. -/
def bareMsgs : List QuapiMsg :=
  [.header quapiApiVersion ⟨.of 0, .of 0, .of 0⟩]

/-- **A read of one character and a read of size 0**: the first gets `p`, and the rest of the
header is lost to the second. -/
theorem zero_read_drops : ∃ q q',
    (Reader.start (bareMsgs ++ .solve :: [])).ticks (fun i => if i = 1 then 0 else 1) 5 = some q ∧
      q.closed = some 0 ∧ q.out = ['p'] ∧
      (Reader.start (bareMsgs ++ .solve :: [])).ticks (fun _ => 64) 4 = some q' ∧
      q'.closed = some 0 ∧ q'.out = "p cnf 0 0\n".toList ∧ q.out ≠ q'.out := by
  have hsome : ((Reader.start (bareMsgs ++ .solve :: [])).ticks
      (fun i => if i = 1 then 0 else 1) 5).map (fun q => (q.closed, q.out)) =
    some (some 0, ['p']) := rfl
  have hsome' : ((Reader.start (bareMsgs ++ .solve :: [])).ticks (fun _ => 64) 4).map
      (fun q => (q.closed, q.out)) = some (some 0, "p cnf 0 0\n".toList) := rfl
  obtain ⟨q, hq, h⟩ := Option.map_eq_some_iff.mp hsome
  obtain ⟨q', hq', h'⟩ := Option.map_eq_some_iff.mp hsome'
  obtain ⟨hc, ho⟩ := Prod.mk.inj h
  obtain ⟨hc', ho'⟩ := Prod.mk.inj h'
  refine ⟨q, q', hq, hc, ho, hq', hc', ho', ?_⟩
  rw [ho, ho']
  decide

end QuAPI
