import QuAPI.EndOfInput
import QuAPI.Stream

/-!
# The two state machines fit together

The library checks its own state in every call, the runtime has a case for some messages in
each of its states, and the two sets of states do not match. A message without a case is not
refused: the default branch reports it, and crashes there in all states but `READING_MATRIX`, since
its format string takes the type of the message for a text; and where it does not crash, the inner
loop of `advance_state` calls the state function with the message again, forever or until another
state takes it.

`QuAPI.machines_fit_iff` says which sessions the runtime follows. A session is proper
(`QuAPI.Api.Proper`) if a zero passed to `quapi_quantify` closes a block that is open, and if
no child is asked for while a block or a clause is open. Then every message is handled, by the
seeding process and by every child, whatever they have left of the stream; and otherwise some
message is not.
-/

namespace QuAPI

/-! ### Messages and cases -/

/-- The state function has a case for the message. `WORKING` does not look at it. -/
def QuapiPreloadState.HasCase : QuapiPreloadState → QuapiMsg → Bool
  | .waitingForHeader, .header _ _ => true
  | .readingPrefix, .quantifier _ => true
  | .readingPrefix, .literal _ => true
  | .readingPrefix, .fork _ => true
  | .readingPrefix, .solve => true
  | .readingExists, .quantifier _ => true
  | .readingExists, .literal _ => true
  | .readingForall, .quantifier _ => true
  | .readingForall, .literal _ => true
  | .readingClause, .literal _ => true
  | .readingMatrix, .literal _ => true
  | .readingMatrix, .fork _ => true
  | .readingMatrix, .solve => true
  | .working, _ => true
  | _, _ => false

/-- **A message is handled**: the inner loop of `advance_state` ends, and every state function
that it calls has a case for the message. -/
inductive Handles : QuapiRuntime → QuapiMsg → Prop
  | ends {r : QuapiRuntime} {msg : QuapiMsg} (hcase : r.state.HasCase msg = true)
      (hlen : (r.callState msg).outbufLen ≠ 0) : Handles r msg
  | again {r : QuapiRuntime} {msg : QuapiMsg} (hcase : r.state.HasCase msg = true)
      (hlen : (r.callState msg).outbufLen = 0) (hrest : Handles (r.callState msg) msg) :
      Handles r msg

/-- The message that a waiting process gets is handled. -/
def Reader.Fits (p : Reader) : Prop :=
  ∀ msg rest, p.blocked.isSome → p.input = msg :: rest →
    Handles { p.runtime.install msg with outbufLen := 0 } msg

section

variable {r q : QuapiRuntime} {msg : QuapiMsg} {c c' : Encoder} {s : List Char} {n : ℕ}

/-- `WORKING` closes the stream. -/
theorem callState_working (hst : r.state = .working) :
    r.callState msg = { r with outbufLen := -2, state := .working } := by
  rw [QuapiRuntime.callState, hst]
  rfl

theorem Handles.hasCase (h : Handles r msg) : r.state.HasCase msg = true := by
  cases h with
  | ends hcase hlen => exact hcase
  | again hcase hlen hrest => exact hcase

/-- Where the loop goes on, the next state function has a case, too. -/
theorem hasCase_callState (hcase : r.state.HasCase msg = true)
    (hlen : (r.callState msg).outbufLen = 0) : (r.callState msg).state.HasCase msg = true := by
  rw [QuapiRuntime.callState] at hlen ⊢
  cases hst : r.state with
  | waitingForHeader =>
    rw [hst] at hcase hlen
    cases msg with
    | header v d =>
      -- the `p cnf` line is not empty
      simp only [QuapiRuntime.waitingForHeader] at hlen
      exfalso
      split at hlen
      · change (((['p', ' ', 'c', 'n', 'f', ' '] ++ _ : List Char).length : ℕ) : ℤ) = 0 at hlen
        simp at hlen
        omega
      · change (((['p', ' ', 'c', 'n', 'f', ' '] ++ _ : List Char).length : ℕ) : ℤ) = 0 at hlen
        simp at hlen
        omega
    | _ => exact absurd hcase Bool.false_ne_true
  | readingPrefix =>
    rw [hst] at hcase
    cases msg with
    | quantifier lit =>
      simp only [QuapiRuntime.readingPrefix]
      split
      · rfl
      · split <;> rfl
    | literal lit => rfl
    | fork wait => rfl
    | solve => rfl
    | _ => exact absurd hcase Bool.false_ne_true
  | readingExists =>
    rw [hst] at hcase
    cases msg with
    | quantifier lit =>
      simp only [QuapiRuntime.readingExists]
      split
      · rfl
      · split <;> rfl
    | literal lit => rfl
    | _ => exact absurd hcase Bool.false_ne_true
  | readingForall =>
    rw [hst] at hcase
    cases msg with
    | quantifier lit =>
      simp only [QuapiRuntime.readingForall]
      split
      · rfl
      · split <;> rfl
    | literal lit => rfl
    | _ => exact absurd hcase Bool.false_ne_true
  | readingClause =>
    rw [hst] at hcase
    cases msg with
    | literal lit =>
      simp only [QuapiRuntime.readingClause]
      split <;> rfl
    | _ => exact absurd hcase Bool.false_ne_true
  | readingMatrix =>
    rw [hst] at hcase
    cases msg with
    | literal lit =>
      simp only [QuapiRuntime.readingMatrix]
      split <;> rfl
    | fork wait => rfl
    | solve =>
      simp only [QuapiRuntime.readingMatrix]
      split <;> rfl
    | _ => exact absurd hcase Bool.false_ne_true
  | working => rfl

/-- A loop that ends handles its message, if the first state function has a case for it. -/
theorem handles_of_stateLoop (hcase : r.state.HasCase msg = true)
    (h : stateLoop n r msg = some q) : Handles r msg := by
  induction n generalizing r with
  | zero => exact absurd h (by simp [stateLoop])
  | succ n ih =>
    rw [stateLoop] at h
    split at h
    -- no fragment: the next state function gets the same message
    case isTrue hlen => exact .again hcase hlen (ih (hasCase_callState hcase hlen) h)
    case isFalse hlen => exact .ends hcase hlen

/-- The encoder has no text for a message without a case. -/
theorem hasCase_of_emit (he : c.emit msg = some (s, c')) : c.state.HasCase msg = true := by
  rw [Encoder.emit.eq_def] at he
  split at he
  case h_12 => exact absurd he (by simp)
  all_goals simp only [QuapiPreloadState.HasCase, *]

/-- A quantifier zero outside of a block is not handled: the state function of the prefix
stays where it is. -/
theorem not_handles_zero {lit : Lit} (hst : r.state = .readingPrefix) (hlit : lit.val = 0)
    (hlen : r.outbufLen = 0) : ¬Handles r (.quantifier lit) := by
  have hcall : ∀ t : QuapiRuntime, t.state = .readingPrefix →
      t.callState (.quantifier lit) = { t with state := .readingPrefix } := by
    intro t ht
    rw [QuapiRuntime.callState, ht]
    simp only [QuapiRuntime.readingPrefix, hlit, lt_irrefl, if_false]
  intro h
  generalize hmsg : QuapiMsg.quantifier lit = msg at h
  induction h with
  | @ends r msg hcase hne =>
    subst hmsg
    rw [hcall r hst] at hne
    exact hne hlen
  | @again r msg hcase hlen' hrest ih =>
    subst hmsg
    refine ih ?_ hlen' rfl
    rw [hcall r hst]

/-- **A message that is handled has a text**, SOLVE apart. -/
theorem exists_emit_of_handles (hst : r.state = c.state) (hlen : r.outbufLen = 0)
    (hwork : c.state ≠ .working) (hmsg : msg ≠ .solve) (h : Handles r msg) :
    ∃ s c', c.emit msg = some (s, c') := by
  have hcase := h.hasCase
  rw [hst] at hcase
  cases hs : c.state with
  | waitingForHeader =>
    rw [hs] at hcase
    cases msg with
    | header v d =>
      simp only [Encoder.emit, hs]
      exact ⟨_, _, rfl⟩
    | _ => exact absurd hcase Bool.false_ne_true
  | readingPrefix =>
    rw [hs] at hcase
    cases msg with
    | quantifier lit =>
      by_cases hpos : 0 < lit.val
      · simp only [Encoder.emit, hs, if_pos hpos]
        exact ⟨_, _, rfl⟩
      · by_cases hneg : lit.val < 0
        · simp only [Encoder.emit, hs, if_neg hpos, if_pos hneg]
          exact ⟨_, _, rfl⟩
        · exact absurd h (not_handles_zero (hst.trans hs) (by omega) hlen)
    | literal lit =>
      simp only [Encoder.emit, hs]
      exact ⟨_, _, rfl⟩
    | fork wait =>
      simp only [Encoder.emit, hs]
      exact ⟨_, _, rfl⟩
    | solve => exact absurd rfl hmsg
    | _ => exact absurd hcase Bool.false_ne_true
  | readingExists =>
    rw [hs] at hcase
    cases msg with
    | quantifier lit =>
      simp only [Encoder.emit, hs]
      split_ifs <;> exact ⟨_, _, rfl⟩
    | literal lit =>
      simp only [Encoder.emit, hs]
      exact ⟨_, _, rfl⟩
    | _ => exact absurd hcase Bool.false_ne_true
  | readingForall =>
    rw [hs] at hcase
    cases msg with
    | quantifier lit =>
      simp only [Encoder.emit, hs]
      split_ifs <;> exact ⟨_, _, rfl⟩
    | literal lit =>
      simp only [Encoder.emit, hs]
      exact ⟨_, _, rfl⟩
    | _ => exact absurd hcase Bool.false_ne_true
  | readingClause =>
    rw [hs] at hcase
    cases msg with
    | literal lit =>
      simp only [Encoder.emit, hs]
      split_ifs <;> exact ⟨_, _, rfl⟩
    | _ => exact absurd hcase Bool.false_ne_true
  | readingMatrix =>
    rw [hs] at hcase
    cases msg with
    | literal lit =>
      simp only [Encoder.emit, hs]
      exact ⟨_, _, rfl⟩
    | fork wait =>
      simp only [Encoder.emit, hs]
      exact ⟨_, _, rfl⟩
    | solve => exact absurd rfl hmsg
    | _ => exact absurd hcase Bool.false_ne_true
  | working => exact absurd hs hwork

/-- SOLVE is handled in the prefix and in the matrix. -/
theorem handles_solve (hst : r.state = .readingPrefix ∨ r.state = .readingMatrix)
    (hlen : r.outbufLen = 0) (hfill : 0 < r.fillerClauseLen) : Handles r .solve := by
  -- the matrix: a filler clause, or the end
  have hmatrix : ∀ t : QuapiRuntime, t.state = .readingMatrix → t.outbufLen = 0 →
      0 < t.fillerClauseLen → Handles t .solve := by
    intro t ht hl hf
    have hcase : t.state.HasCase .solve = true := by
      rw [ht]
      rfl
    rcases Reader.callState_solve ht rfl with ⟨-, hcall⟩ | ⟨-, hcall⟩
    · refine .ends hcase ?_
      rw [hcall]
      change ((t.fillerClauseLen : ℕ) : ℤ) ≠ 0
      omega
    · refine .again hcase ?_ ?_ <;> rw [hcall]
      · exact hl
      · exact .ends rfl (show (-2 : ℤ) ≠ 0 by decide)
  rcases hst with hst | hst
  · have hcall : r.callState .solve = { r with repeatState := true, state := .readingMatrix } := by
      rw [QuapiRuntime.callState, hst]
      rfl
    refine .again ?_ ?_ ?_
    · rw [hst]
      rfl
    · rw [hcall]
      exact hlen
    · rw [hcall]
      exact hmatrix _ rfl hlen hfill
  · exact hmatrix r hst hlen hfill

end

/-! ### A stream with a text -/

/-- **The messages lead the encoder to another one**, or to a SOLVE in the prefix or in the
matrix. -/
inductive Encoder.Leads : Option Encoder → Encoder → List QuapiMsg → Prop
  | done (c : Encoder) : Leads (some c) c []
  | solve {c : Encoder} {rest : List QuapiMsg}
      (hst : c.state = .readingPrefix ∨ c.state = .readingMatrix) : Leads none c (.solve :: rest)
  | emit {d : Option Encoder} {c c' : Encoder} {msg : QuapiMsg} {s : List Char}
      {rest : List QuapiMsg} (he : c.emit msg = some (s, c')) (h : Leads d c' rest) :
      Leads d c (msg :: rest)

theorem Encoder.leads_of_encode {c d : Encoder} {msgs : List QuapiMsg} {s : List Char}
    (h : c.encode msgs = some (s, d)) : Encoder.Leads (some d) c msgs := by
  induction msgs generalizing c s with
  | nil =>
    obtain ⟨-, rfl⟩ := Prod.mk.inj (Option.some.inj h)
    exact .done c
  | cons msg msgs ih =>
    obtain ⟨s₁, c₁, s₂, he, hr, -⟩ := encode_cons.mp h
    exact .emit he (ih hr)

namespace Reader

/-- **A process follows the encoder**: it waits for a message or hands out the text of the
last one, or it is behind a SOLVE. -/
inductive Follows (d : Option Encoder) (p : Reader) : Prop
  | waits (c : Encoder) (hblocked : p.blocked.isSome) (hc : Encodes p.runtime c)
      (hout : p.runtime.outbuf = 0) (hw : p.runtime.outbufWritten = 0)
      (hfill : 0 < p.runtime.fillerClauseLen) (hleads : Encoder.Leads d c p.input)
  | reads (c : Encoder) (hblocked : p.blocked = none) (hc : Encodes p.runtime c)
      (hlen : 0 ≤ p.runtime.outbufLen)
      (hfill : 0 < p.runtime.fillerClauseLen) (hleads : Encoder.Leads d c p.input)
  | pads (hd : d = none) (hblocked : p.blocked = none) (hst : p.runtime.state = .readingMatrix)
      (hrep : p.runtime.repeatState = true) (hlast : p.runtime.lastReadMsg = .solve)
  | closed (hd : d = none) (hblocked : p.blocked = none) (hlen : p.runtime.outbufLen = -2)
  | works (hd : d = none) (hst : p.runtime.state = .working)

/-- The reads of a solver that reads on behind the end of its input. -/
def Rereads (sizes : ℕ → ℕ) : Reader → Reader → Prop :=
  Relation.ReflTransGen fun p q => p.tick sizes = some q ∨ q = { p with closed := none }

section

variable {sizes : ℕ → ℕ} {p q : Reader} {d : Option Encoder}

theorem Reaches.rereads (h : Reaches sizes p q) : Rereads sizes p q := by
  induction h with
  | refl => exact Relation.ReflTransGen.refl
  | tail _ hstep ih => exact ih.tail (Or.inl hstep)

/-- The message of a process that follows the encoder is handled. -/
theorem Follows.fits (h : p.Follows d) : p.Fits := by
  intro msg rest hblocked hi
  cases h with
  | waits c hb hc hout hw hfill hleads =>
    rw [hi] at hleads
    cases hleads with
    | solve hst =>
      refine handles_solve (r := { p.runtime.install .solve with outbufLen := 0 }) ?_ rfl hfill
      change p.runtime.state = _ ∨ p.runtime.state = _
      rwa [hc.state]
    | emit he hrest =>
      obtain ⟨t, ht, -, -⟩ := stateLoop_emit hc hout hw he
      refine handles_of_stateLoop ?_ ht
      have hinst : (p.runtime.install msg).state = c.state := by
        rw [← hc.state]
        cases msg <;> rfl
      exact hinst ▸ hasCase_of_emit he
  | reads c hb => exact absurd hblocked (by rw [hb]; exact Bool.false_ne_true)
  | pads hd hb => exact absurd hblocked (by rw [hb]; exact Bool.false_ne_true)
  | closed hd hb => exact absurd hblocked (by rw [hb]; exact Bool.false_ne_true)
  | works hd hst =>
    have hinst : (p.runtime.install msg).state = .working := by
      rw [← hst]
      cases msg <;> rfl
    refine .ends ?_ ?_
    · change (p.runtime.install msg).state.HasCase msg = true
      rw [hinst]
      rfl
    · rw [callState_working (r := { p.runtime.install msg with outbufLen := 0 }) hinst]
      exact show (-2 : ℤ) ≠ 0 by decide

/-- Handing out what a state function has left, in a process that follows. -/
theorem follows_finishRead {r : QuapiRuntime} {n : ℕ}
    (h : (d = none ∧ r.outbufLen = -2) ∨ (d = none ∧ r.state = .working) ∨
      (d = none ∧ r.state = .readingMatrix ∧ r.repeatState = true ∧ r.lastReadMsg = .solve) ∨
      ∃ c, Encodes r c ∧ 0 ≤ r.outbufLen ∧ 0 < r.fillerClauseLen ∧ Encoder.Leads d c p.input) :
    (p.settle n (finishRead r n)).Follows d := by
  obtain ⟨w, out, closed, reads, heq⟩ := settle_finishRead p n r
  rw [heq]
  rcases h with ⟨hd, hlen⟩ | ⟨hd, hst⟩ | ⟨hd, hst, hrep, hlast⟩ | ⟨c, hc, hlen, hfill, hleads⟩
  · exact .closed hd rfl hlen
  · exact .works hd hst
  · exact .pads hd rfl hst hrep hlast
  · exact .reads c rfl ⟨hc.header, hc.state, hc.written, hc.quantifiers, hc.filler, hc.fillerLen,
      hc.fillerSize, hc.outbufSize, hc.repeatState⟩ hlen hfill hleads

/-- A read starts. -/
theorem Follows.read (h : p.Follows d) (hb : p.blocked = none) (n : ℕ) :
    (p.settle n (quapiRead p.runtime n)).Follows d := by
  rcases quapiRead_cases p.runtime n with ⟨bytes, data, w, -, hread⟩ | ⟨hl, hread⟩ |
    ⟨hl, hrep, hread⟩ | ⟨hl, hrep, hread⟩ <;> rw [hread]
  · -- some of the fragment is handed out
    cases h with
    | waits c hblocked => exact absurd hblocked (by rw [hb]; exact Bool.false_ne_true)
    | reads c _ hc hlen hfill hleads =>
      exact .reads c rfl ⟨hc.header, hc.state, hc.written, hc.quantifiers, hc.filler,
        hc.fillerLen, hc.fillerSize, hc.outbufSize, hc.repeatState⟩ hlen hfill hleads
    | pads hd _ hst hrep hlast => exact .pads hd rfl hst hrep hlast
    | closed hd _ hlen => exact .closed hd rfl hlen
    | works hd hst => exact .works hd hst
  · -- the sentinel is found
    cases h with
    | waits c hblocked => exact absurd hblocked (by rw [hb]; exact Bool.false_ne_true)
    | reads c _ hc hlen => omega
    | pads hd => exact .closed hd rfl hl
    | closed hd => exact .closed hd rfl hl
    | works hd hst => exact .works hd hst
  · -- the SOLVE is repeated
    cases h with
    | waits c hblocked => exact absurd hblocked (by rw [hb]; exact Bool.false_ne_true)
    | reads c _ hc => exact absurd (hrep.symm.trans hc.repeatState) (by decide)
    | pads hd _ hst _ hlast =>
      refine follows_finishRead ?_
      rcases callState_solve
        (r := { p.runtime with outbuf := 0, outbufWritten := 0, outbufLen := 0 }) hst hlast with
        ⟨-, hcall⟩ | ⟨-, hcall⟩ <;> rw [hcall]
      · exact Or.inr (Or.inr (Or.inl ⟨hd, rfl, rfl, hlast⟩))
      · exact Or.inr (Or.inl ⟨hd, rfl⟩)
    | closed _ _ hlen => exact absurd hlen hl
    | works hd hst =>
      rw [callState_working
        (r := { p.runtime with outbuf := 0, outbufWritten := 0, outbufLen := 0 }) hst]
      exact follows_finishRead (Or.inl ⟨hd, rfl⟩)
  · -- a message is asked for
    cases h with
    | waits c hblocked => exact absurd hblocked (by rw [hb]; exact Bool.false_ne_true)
    | reads c _ hc _ hfill hleads =>
      exact .waits c rfl ⟨hc.header, hc.state, hc.written, hc.quantifiers, hc.filler,
        hc.fillerLen, hc.fillerSize, hc.outbufSize, hc.repeatState⟩ rfl rfl hfill hleads
    | pads _ _ _ hrep' => exact absurd (hrep.symm.trans hrep') (by decide)
    | closed _ _ hlen => exact absurd hlen hl
    | works hd hst => exact .works hd hst

/-- A message arrives. -/
theorem Follows.message {n : ℕ} {msg : QuapiMsg} {rest : List QuapiMsg} {x : ReadResult}
    (h : p.Follows d) (hb : p.blocked = some n) (hi : p.input = msg :: rest)
    (hx : advanceMsg p.runtime n msg = some x) :
    ({ p with input := rest }.settle n x).Follows d := by
  obtain ⟨t, ht, rfl⟩ := Option.map_eq_some_iff.mp hx
  have hcalled := called_of_stateLoop ht
  cases h with
  | waits c _ hc hout hw hfill hleads =>
    have hfill' : 0 < t.fillerClauseLen := by
      refine hcalled.filler ?_
      cases msg <;> exact hfill
    rw [hi] at hleads
    cases hleads with
    | solve hst =>
      -- the SOLVE ends the input, or is repeated
      have hwait : p.runtime.state ≠ .waitingForHeader := by
        rw [hc.state]
        rcases hst with hst | hst <;> rw [hst] <;> exact QuapiPreloadState.noConfusion
      have hwork : p.runtime.state ≠ .working := by
        rw [hc.state]
        rcases hst with hst | hst <;> rw [hst] <;> exact QuapiPreloadState.noConfusion
      have hsolve : t.outbufLen = -2 ∨
          (t.state = .readingMatrix ∧ t.repeatState = true ∧ 0 < t.outbufLen) := by
        rcases stateLoop_of_solve ht hwait rfl hfill (fun hs => absurd hs hwork) with
          ⟨-, hl⟩ | ⟨-, hl⟩
        · exact Or.inl hl
        · exact Or.inr hl
      have hne : t.outbufLen ≠ -1 := by omega
      rw [if_neg hne]
      refine follows_finishRead ?_
      rcases hsolve with hl | ⟨hst', hrep, -⟩
      · exact Or.inl ⟨rfl, hl⟩
      · exact Or.inr (Or.inr (Or.inl ⟨rfl, hst', hrep, hcalled.last⟩))
    | @emit _ _ c' _ s _ he hrest =>
      obtain ⟨t', ht', hc', hf⟩ := stateLoop_emit hc hout hw he
      obtain rfl := Option.some.inj (ht.symm.trans ht')
      rcases eq_or_ne s [] with rfl | hne
      · obtain ⟨hout', hl⟩ := hf.again rfl
        rw [if_pos hl]
        exact .waits c' rfl hc' hout' hf.written hfill' hrest
      · obtain ⟨-, hl⟩ := hf.holds hne
        rw [if_neg (by omega)]
        exact follows_finishRead (Or.inr (Or.inr (Or.inr ⟨c', hc', by omega, hfill', hrest⟩)))
  | reads c hb' => exact absurd (hb.symm.trans hb') (by simp)
  | pads hd hb' => exact absurd (hb.symm.trans hb') (by simp)
  | closed hd hb' => exact absurd (hb.symm.trans hb') (by simp)
  | works hd hst =>
    have hinst : ({ p.runtime.install msg with outbufLen := 0 } : QuapiRuntime).state =
        .working := by
      rw [← hst]
      cases msg <;> rfl
    have hcall : QuapiRuntime.callState { p.runtime.install msg with outbufLen := 0 } msg = _ :=
      callState_working hinst
    rw [loopFuel, stateLoop_of_ne (by rw [hcall]; exact show (-2 : ℤ) ≠ 0 by decide), hcall] at ht
    obtain rfl := Option.some.inj ht
    rw [if_neg (show (-2 : ℤ) ≠ -1 by decide)]
    exact follows_finishRead (Or.inl ⟨hd, rfl⟩)

/-- **Every step of a process that follows** leaves one that does. -/
theorem Follows.tick (h : p.Follows d) (hq : p.tick sizes = some q) : q.Follows d := by
  rw [Reader.tick] at hq
  split at hq
  case isTrue => exact absurd hq (by simp)
  case isFalse hc =>
    cases hb : p.blocked with
    | none =>
      rw [hb] at hq
      obtain rfl := Option.some.inj hq
      exact h.read hb _
    | some n =>
      rw [hb] at hq
      simp only [] at hq
      split at hq
      case h_1 => exact absurd hq (by simp)
      case h_2 msg rest hi =>
        obtain ⟨x, hx, rfl⟩ := Option.map_eq_some_iff.mp hq
        exact h.message hb hi hx

theorem Follows.reopen (h : p.Follows d) : Reader.Follows d { p with closed := none } := by
  cases h with
  | waits c hb hc hout hw hfill hleads => exact .waits c hb hc hout hw hfill hleads
  | reads c hb hc hlen hfill hleads => exact .reads c hb hc hlen hfill hleads
  | pads hd hb hst hrep hlast => exact .pads hd hb hst hrep hlast
  | closed hd hb hlen => exact .closed hd hb hlen
  | works hd hst => exact .works hd hst

/-- **A process that follows goes on following**, also when it reads on behind the end. -/
theorem Follows.rereads (h : p.Follows d) (hq : Rereads sizes p q) : q.Follows d := by
  induction hq with
  | refl => exact h
  | tail _ hstep ih =>
    rcases hstep with hstep | rfl
    · exact ih.tick hstep
    · exact ih.reopen

/-- A process that has not read anything follows the encoder. -/
theorem follows_start {input : List QuapiMsg} (h : Encoder.Leads d Encoder.init input) :
    (start input).Follows d :=
  .reads Encoder.init rfl encodes_init le_rfl (Nat.succ_pos 6) h

end

end Reader

/-! ### The converse -/

/-- The state of the encoder alone. -/
def QuapiPreloadState.next : QuapiPreloadState → QuapiMsg → Option QuapiPreloadState
  | .waitingForHeader, .header _ _ => some .readingPrefix
  | .readingPrefix, .quantifier lit =>
    if 0 < lit.val then some .readingExists
    else if lit.val < 0 then some .readingForall
    else none
  | .readingPrefix, .literal lit => some (if lit.val = 0 then .readingMatrix else .readingClause)
  | .readingPrefix, .fork _ => some .readingPrefix
  | .readingExists, .quantifier lit =>
    some (if lit.val < 0 then .readingForall
      else if 0 < lit.val then .readingExists else .readingPrefix)
  | .readingForall, .quantifier lit =>
    some (if 0 < lit.val then .readingExists
      else if lit.val < 0 then .readingForall else .readingPrefix)
  | .readingExists, .literal _ => some .readingClause
  | .readingForall, .literal _ => some .readingClause
  | .readingClause, .literal lit => some (if lit.val = 0 then .readingMatrix else .readingClause)
  | .readingMatrix, .literal lit => some (if lit.val = 0 then .readingMatrix else .readingClause)
  | .readingMatrix, .fork _ => some .readingMatrix
  | _, _ => none

/-- **The text of a message goes with a step of the states.** -/
theorem Encoder.emit_state (c : Encoder) (msg : QuapiMsg) :
    (c.emit msg).map (fun x => x.2.state) = c.state.next msg := by
  cases hs : c.state <;> cases msg <;>
    simp only [Encoder.emit, QuapiPreloadState.next, hs, Option.map_some, Option.map_none] <;>
    split_ifs <;> simp only [Option.map_some, Option.map_none, hs]

/-- **What a message does to the state**: the header, a variable, the end of a block, a literal
that opens or goes on with a clause, the end of a clause, and a FORK. -/
theorem QuapiPreloadState.next_cases {x y : QuapiPreloadState} {msg : QuapiMsg}
    (h : x.next msg = some y) :
    (∃ v d, msg = .header v d ∧ y = .readingPrefix) ∨
    (∃ lit, msg = .quantifier lit ∧ lit ≠ 0 ∧ (y = .readingExists ∨ y = .readingForall)) ∨
    (msg = .quantifier 0 ∧ y = .readingPrefix) ∨
    (∃ lit, msg = .literal lit ∧ (lit ≠ 0 ∨ x = .readingExists ∨ x = .readingForall) ∧
      y = .readingClause) ∨
    (msg = .literal 0 ∧ ¬(x = .readingExists ∨ x = .readingForall) ∧ y = .readingMatrix) ∨
    (∃ wait, msg = .fork wait ∧ (y = .readingPrefix ∨ y = .readingMatrix)) := by
  have hliteral : ∀ lit : Lit, x ≠ .readingExists → x ≠ .readingForall →
      (if lit.val = 0 then readingMatrix else readingClause) = y →
      (lit ≠ 0 ∧ y = .readingClause) ∨
        (lit = 0 ∧ ¬(x = .readingExists ∨ x = .readingForall) ∧ y = .readingMatrix) := by
    intro lit he ha hy
    by_cases h0 : lit.val = 0
    · rw [if_pos h0] at hy
      exact Or.inr ⟨Lit.val_eq_zero.mp h0, by simp [he, ha], hy.symm⟩
    · rw [if_neg h0] at hy
      exact Or.inl ⟨fun hc => h0 (Lit.val_eq_zero.mpr hc), hy.symm⟩
  have hvariable : ∀ lit : Lit, (0 < lit.val ∨ lit.val < 0) → lit ≠ 0 := by
    rintro lit hval rfl
    rcases hval with hval | hval <;> exact absurd hval (by decide)
  have hzero : ∀ lit : Lit, ¬0 < lit.val → ¬lit.val < 0 → lit = 0 := fun lit h1 h2 =>
    Lit.val_eq_zero.mp (by omega)
  rw [next.eq_def] at h
  split at h
  case h_1 => exact Or.inl ⟨_, _, rfl, (Option.some.inj h).symm⟩
  case h_2 lit =>
    split_ifs at h with h1 h2
    · exact Or.inr (Or.inl ⟨lit, rfl, hvariable lit (Or.inl h1), Or.inl (Option.some.inj h).symm⟩)
    · exact Or.inr (Or.inl ⟨lit, rfl, hvariable lit (Or.inr h2), Or.inr (Option.some.inj h).symm⟩)
  case h_4 => exact Or.inr (Or.inr (Or.inr (Or.inr (Or.inr
      ⟨_, rfl, Or.inl (Option.some.inj h).symm⟩))))
  case h_5 lit =>
    split_ifs at h with h1 h2
    · exact Or.inr (Or.inl ⟨lit, rfl, hvariable lit (Or.inr h1), Or.inr (Option.some.inj h).symm⟩)
    · exact Or.inr (Or.inl ⟨lit, rfl, hvariable lit (Or.inl h2), Or.inl (Option.some.inj h).symm⟩)
    · exact Or.inr (Or.inr (Or.inl ⟨congrArg _ (hzero lit h2 h1), (Option.some.inj h).symm⟩))
  case h_6 lit =>
    split_ifs at h with h1 h2
    · exact Or.inr (Or.inl ⟨lit, rfl, hvariable lit (Or.inl h1), Or.inl (Option.some.inj h).symm⟩)
    · exact Or.inr (Or.inl ⟨lit, rfl, hvariable lit (Or.inr h2), Or.inr (Option.some.inj h).symm⟩)
    · exact Or.inr (Or.inr (Or.inl ⟨congrArg _ (hzero lit h1 h2), (Option.some.inj h).symm⟩))
  case h_7 lit => exact Or.inr (Or.inr (Or.inr (Or.inl
      ⟨lit, rfl, Or.inr (Or.inl rfl), (Option.some.inj h).symm⟩)))
  case h_8 lit => exact Or.inr (Or.inr (Or.inr (Or.inl
      ⟨lit, rfl, Or.inr (Or.inr rfl), (Option.some.inj h).symm⟩)))
  case h_11 => exact Or.inr (Or.inr (Or.inr (Or.inr (Or.inr
      ⟨_, rfl, Or.inr (Option.some.inj h).symm⟩))))
  case h_12 => exact absurd h (by simp)
  all_goals
    rename_i lit
    rcases hliteral lit QuapiPreloadState.noConfusion QuapiPreloadState.noConfusion
      (Option.some.inj h) with ⟨h0, hy⟩ | ⟨rfl, hx, hy⟩
    · exact Or.inr (Or.inr (Or.inr (Or.inl ⟨lit, rfl, Or.inl h0, hy⟩)))
    · exact Or.inr (Or.inr (Or.inr (Or.inr (Or.inl ⟨rfl, hx, hy⟩))))

/-- No message brings the encoder back to the header or to the end. -/
theorem QuapiPreloadState.next_ne {x y : QuapiPreloadState} {msg : QuapiMsg}
    (h : x.next msg = some y) : y ≠ .waitingForHeader ∧ y ≠ .working := by
  rcases next_cases h with ⟨v, d, -, rfl⟩ | ⟨lit, -, -, rfl | rfl⟩ | ⟨-, rfl⟩ | ⟨lit, -, -, rfl⟩ |
    ⟨-, -, rfl⟩ | ⟨wait, -, rfl | rfl⟩ <;>
    exact ⟨QuapiPreloadState.noConfusion, QuapiPreloadState.noConfusion⟩

namespace Reader

/-- **A process all of whose messages are handled** has a text for them, as long as there is no
SOLVE. -/
theorem exists_encode_of_fits {msgs : List QuapiMsg} {p : Reader} {c : Encoder}
    (hw : Waits p c) (hi : p.input = msgs) (hwork : c.state ≠ .working)
    (hsolve : QuapiMsg.solve ∉ msgs)
    (hfits : ∀ q, Reaches (fun _ => 1) p q → q.Fits) : ∃ s d, c.encode msgs = some (s, d) := by
  -- on the messages: the process waits for each of them in turn
  induction msgs generalizing p c with
  | nil => exact ⟨[], c, rfl⟩
  | cons msg msgs ih =>
    have hs : ∀ i : ℕ, 0 < (fun _ => 1 : ℕ → ℕ) i := fun _ => one_pos
    obtain ⟨n, -, hb⟩ := hw.blocked
    have hhandles := hfits p (Reaches.refl p) msg msgs (hb ▸ rfl) hi
    have hst : ({ p.runtime.install msg with outbufLen := 0 } : QuapiRuntime).state = c.state := by
      rw [← hw.encodes.state]
      cases msg <;> rfl
    have hne : msg ≠ .solve := fun h => hsolve (h ▸ List.mem_cons_self)
    obtain ⟨s, c', he⟩ := exists_emit_of_handles hst rfl hwork hne hhandles
    obtain ⟨q, hq, hwq, -, hiq⟩ := reaches_emit hs hw hi he
    have hnext : c.state.next msg = some c'.state := by rw [← Encoder.emit_state, he]; rfl
    obtain ⟨s', d, hd⟩ := ih hwq hiq (QuapiPreloadState.next_ne hnext).2
      (fun h => hsolve (List.mem_cons_of_mem _ h)) fun t ht => hfits t (hq.trans ht)
    exact ⟨s ++ s', d, Encoder.encode_cons.mpr ⟨s, c', s', he, hd, rfl⟩⟩

end Reader

/-! ### Open blocks and open clauses -/

/-- **A block is open**: the last message is a quantified variable. -/
def BlockOpen (msgs : List QuapiMsg) : Prop :=
  ∃ lit : Lit, lit ≠ 0 ∧ msgs.getLast? = some (.quantifier lit)

/-- **A clause is open** for the runtime: the last message is a literal, or it is a zero behind
an open block. -/
def ClauseOpen (msgs : List QuapiMsg) : Prop :=
  ∃ lit : Lit, msgs.getLast? = some (.literal lit) ∧ (lit ≠ 0 ∨ BlockOpen msgs.dropLast)

theorem blockOpen_concat {msgs : List QuapiMsg} {msg : QuapiMsg} :
    BlockOpen (msgs ++ [msg]) ↔ ∃ lit : Lit, lit ≠ 0 ∧ msg = .quantifier lit := by
  simp only [BlockOpen, List.getLast?_append, List.getLast?_singleton, Option.some_or,
    Option.some.injEq]

theorem clauseOpen_concat {msgs : List QuapiMsg} {msg : QuapiMsg} :
    ClauseOpen (msgs ++ [msg]) ↔
      ∃ lit : Lit, msg = .literal lit ∧ (lit ≠ 0 ∨ BlockOpen msgs) := by
  simp only [ClauseOpen, List.getLast?_append, List.getLast?_singleton, Option.some_or,
    Option.some.injEq, List.dropLast_concat]

/-- The states of the encoder along a text. -/
theorem Encoder.encode_state {c : Encoder} {msgs : List QuapiMsg} :
    (c.encode msgs).map (fun x => x.2.state) =
      Machine.run QuapiPreloadState.next c.state msgs := by
  induction msgs generalizing c with
  | nil => rfl
  | cons msg msgs ih =>
    rw [Machine.run, ← c.emit_state msg, encode]
    cases he : c.emit msg with
    | none => rfl
    | some x =>
      rw [Option.map_some, Option.bind_some, Option.bind_some, ← ih, Option.map_map]
      rfl

/-- The state of the encoder says what is open. -/
structure Marks (msgs : List QuapiMsg) (st : QuapiPreloadState) : Prop where
  block : BlockOpen msgs ↔ st = .readingExists ∨ st = .readingForall
  clause : ClauseOpen msgs ↔ st = .readingClause

/-- **What is open is the state of the encoder.** -/
theorem marks_of_run {msgs : List QuapiMsg} {st : QuapiPreloadState}
    (h : Machine.run QuapiPreloadState.next .waitingForHeader msgs = some st) :
    Marks msgs st := by
  -- on the last message
  induction msgs using List.reverseRecOn generalizing st with
  | nil =>
    obtain rfl := Option.some.inj h
    constructor <;> simp [BlockOpen, ClauseOpen]
  | append_singleton msgs msg ih =>
    obtain ⟨x, hx, hnext⟩ := Machine.run_concat.mp h
    have hm := ih hx
    rcases QuapiPreloadState.next_cases hnext with ⟨v, d, rfl, rfl⟩ | ⟨lit, rfl, h0, hst⟩ |
      ⟨rfl, rfl⟩ | ⟨lit, rfl, hopen, rfl⟩ | ⟨rfl, hopen, rfl⟩ | ⟨wait, rfl, hst⟩ <;>
      refine ⟨blockOpen_concat.trans ?_, clauseOpen_concat.trans ?_⟩
    · simp
    · simp
    · simpa [h0] using hst
    · rcases hst with rfl | rfl <;> simp
    · simp
    · simp
    · simp
    · simpa [hm.block] using hopen
    · simp
    · simpa [hm.block] using hopen
    · rcases hst with rfl | rfl <;> simp
    · rcases hst with rfl | rfl <;> simp

/-- After the header, a literal always has a text. -/
theorem QuapiPreloadState.next_literal {x : QuapiPreloadState} (lit : Lit)
    (h : x ≠ .waitingForHeader ∧ x ≠ .working) : (x.next (.literal lit)).isSome := by
  cases x with
  | waitingForHeader => exact absurd rfl h.1
  | working => exact absurd rfl h.2
  | _ => rfl

/-- A FORK has a text outside of blocks and clauses. -/
theorem QuapiPreloadState.next_fork {x : QuapiPreloadState} (wait : Bool)
    (h : x ≠ .waitingForHeader ∧ x ≠ .working) : (x.next (.fork wait)).isSome ↔
      ¬(x = .readingExists ∨ x = .readingForall) ∧ x ≠ .readingClause := by
  cases x with
  | waitingForHeader => exact absurd rfl h.1
  | working => exact absurd rfl h.2
  | _ => simp [next]

/-- A quantifier has a text in the prefix, unless it is a zero outside of a block. -/
theorem QuapiPreloadState.next_quantifier {x : QuapiPreloadState} (lit : Lit)
    (h : x = .readingPrefix ∨ x = .readingExists ∨ x = .readingForall) :
    (x.next (.quantifier lit)).isSome ↔
      (lit = 0 → x = .readingExists ∨ x = .readingForall) := by
  have hval := lit.val_eq_zero
  rcases h with rfl | rfl | rfl
  · simp only [next, reduceCtorEq, or_self, imp_false, ← hval]
    split_ifs <;> simp <;> omega
  · simp [next]
  · simp [next]

/-! ### The library -/

/-- **A proper call**: a zero closes a block, and a child is asked for outside of blocks and
clauses. -/
def Api.Proper (env : Env) (a : Api) (c : ApiCall) : Prop :=
  (c = .quantify 0 → BlockOpen a.toSeed) ∧
    (a.solver.AsksFork env.allowMissing c → ¬BlockOpen a.toSeed ∧ ¬ClauseOpen a.toSeed)

/-- **The library fits the encoder** in its state. -/
structure Fitted (a : Api) (st : QuapiPreloadState) : Prop where
  run : Machine.run QuapiPreloadState.next .waitingForHeader a.toSeed = some st
  reading : st ≠ .waitingForHeader ∧ st ≠ .working
  input : a.solver.state = .input →
    st = .readingPrefix ∨ st = .readingExists ∨ st = .readingForall
  canSolve : a.solver.canSolve

/-- What a call does to the two machines: nothing, or a message to the seeding process that has
a text if and only if the call is proper. -/
inductive Moves (env : Env) (a : Api) (st : QuapiPreloadState) (c : ApiCall) (b : Api) : Prop
  | stays (hproper : a.Proper env c) (h : Fitted b st)
  | sends (msg : QuapiMsg) (hseed : b.toSeed = a.toSeed ++ [msg])
      (hproper : a.Proper env c ↔ (st.next msg).isSome)
      (h : ∀ x, st.next msg = some x → Fitted b x)

section

variable {env : Env} {a b : Api} {st : QuapiPreloadState} {c : ApiCall} {y : Bool}

/-- A call that sends a message which leaves the library outside of `INPUT`, or keeps the
encoder in its prefix. -/
theorem Fitted.sent {msg : QuapiMsg} {x : QuapiPreloadState} (h : Fitted a st)
    (hseed : b.toSeed = a.toSeed ++ [msg]) (hx : st.next msg = some x)
    (hcan : b.solver.canSolve)
    (hinput : b.solver.state = .input →
      x = .readingPrefix ∨ x = .readingExists ∨ x = .readingForall) : Fitted b x where
  run := by
    rw [hseed]
    exact Machine.run_concat.mpr ⟨st, h.run, hx⟩
  reading := QuapiPreloadState.next_ne hx
  input := hinput
  canSolve := hcan

/-- The calls that ask for a child, and those that do not. -/
theorem Fitted.forked (h : Fitted a st) (hc : c ≠ .quantify 0)
    (hask : a.solver.AsksFork env.allowMissing c ↔ a.solver.needsFork)
    (hseed : b.toSeed = (a.forked env).toSeed) (hcan : b.solver.canSolve)
    (hinput : b.solver.state ≠ .input) : Moves env a st c b := by
  have hmarks := marks_of_run h.run
  rw [Api.forked_toSeed] at hseed
  -- a FORK is written, or nothing
  by_cases hn : a.solver.needsFork
  · rw [if_pos hn] at hseed
    refine .sends a.solver.forkMsg hseed ?_ fun x hx =>
      h.sent hseed hx hcan fun hs => absurd hs hinput
    rw [QuapiSolver.forkMsg, QuapiPreloadState.next_fork _ h.reading, ← hmarks.block,
      ne_eq, ← hmarks.clause]
    exact ⟨fun hp => hp.2 (hask.mpr hn), fun hp => ⟨fun he => absurd he hc, fun _ => hp⟩⟩
  · rw [if_neg hn, List.append_nil] at hseed
    refine .stays ⟨fun he => absurd he hc, fun he => absurd (hask.mp he) hn⟩ ?_
    exact ⟨hseed ▸ h.run, h.reading, fun hs => absurd hs hinput, hcan⟩

/-- **Every call moves the two machines together.** -/
theorem Fitted.moves (h : Fitted a st) (hcall : a.call env c = some (y, b)) :
    Moves env a st c b := by
  have hmarks := marks_of_run h.run
  cases c with
  | quantify lit =>
    obtain ⟨hs, d, rfl⟩ := Api.call_quantify hcall
    refine .sends _ rfl ?_ fun x hx => h.sent rfl hx h.canSolve ?_
    · rw [QuapiPreloadState.next_quantifier _ (h.input hs), QuapiSolver.sentQuantifier_eq_zero,
        ← hmarks.block]
      constructor
      · rintro ⟨hblock, -⟩ rfl
        exact hblock rfl
      · exact fun hblock => ⟨fun he => hblock (ApiCall.quantify.inj he), fun he => he.elim⟩
    · intro _
      rcases QuapiPreloadState.next_cases hx with ⟨v, d, hm, -⟩ | ⟨l, -, -, hst⟩ | ⟨-, hst⟩ |
        ⟨l, hm, -⟩ | ⟨hm, -⟩ | ⟨w, hm, -⟩
      · exact QuapiMsg.noConfusion hm
      · exact Or.inr hst
      · exact Or.inl hst
      · exact QuapiMsg.noConfusion hm
      · exact QuapiMsg.noConfusion hm
      · exact QuapiMsg.noConfusion hm
  | add lit =>
    obtain ⟨-, rfl⟩ := Api.call_add hcall
    have hstate : (if lit = 0 then Api.countClause a.solver
        else { a.solver with state := .inputLiterals }).state = .inputLiterals := by
      split <;> rfl
    refine .sends _ rfl ?_ fun x hx =>
      h.sent rfl hx (Or.inr (Or.inl hstate)) fun hs => absurd (hstate.symm.trans hs) (by decide)
    simp only [QuapiPreloadState.next_literal lit h.reading, iff_true]
    exact ⟨fun he => ApiCall.noConfusion he, fun he => he.elim⟩
  | assume lit =>
    have hnot : ¬a.solver.AsksFork env.allowMissing (.assume lit) → a.Proper env (.assume lit) :=
      fun hn => ⟨fun he => ApiCall.noConfusion he, fun he => absurd he hn⟩
    rcases Api.call_assume hcall with ⟨h0, -, rfl⟩ | ⟨-, -, rfl, bound, hbound, hfull⟩ |
      ⟨h0, -, hroom, rfl⟩
    · exact .stays (hnot fun he => he.2.1 h0) h
    · refine .stays (hnot ?_) h
      rintro ⟨-, -, bound', hbound', hlt⟩
      obtain rfl := Option.some.inj (hbound.symm.trans hbound')
      omega
    · exact h.forked ApiCall.noConfusion ⟨fun he => he.1, fun hn => ⟨hn, h0, hroom⟩⟩ rfl
        (Or.inr (Or.inr rfl)) QuapiState.noConfusion
  | reset =>
    obtain ⟨e, he, hb⟩ := Option.map_eq_some_iff.mp hcall
    obtain ⟨-, rfl⟩ := Prod.mk.inj hb
    obtain rfl := Option.some.inj he
    refine .stays ⟨fun he => ApiCall.noConfusion he, fun he => he.elim⟩ ?_
    rw [QuapiSolver.quapiResetAssumptions]
    split
    case isTrue hs =>
      refine ⟨?_, h.reading, fun hs' => QuapiState.noConfusion hs', Or.inr (Or.inl rfl)⟩
      rw [List.append_nil]
      exact h.run
    case isFalse hs =>
      refine ⟨?_, h.reading, h.input, h.canSolve⟩
      rw [List.append_nil]
      exact h.run
  | solve =>
    rcases Api.call_solve h.canSolve hcall with ⟨-, hr, rfl⟩ | ⟨-, hr, rfl⟩
    · exact .stays ⟨fun he => ApiCall.noConfusion he, fun he => absurd hr he.2⟩ h
    · exact h.forked ApiCall.noConfusion ⟨fun he => he.1, fun hn => ⟨hn, hr⟩⟩ rfl
        (Or.inr (Or.inl rfl)) QuapiState.noConfusion

/-- **What a call writes**: one message to the seeding process at most, and a unit clause or a
SOLVE to the children. -/
theorem Api.writes_of_call (hcall : a.call env c = some (y, b)) :
    (b.toSeed = a.toSeed ∨ ∃ msg, msg ≠ .solve ∧ b.toSeed = a.toSeed ++ [msg]) ∧
    (b.toChild = a.toChild ∨
      (∃ lit, lit ≠ 0 ∧ b.toChild = a.toChild ++ [.literal lit, .literal 0]) ∨
      b.toChild = a.toChild ++ [.solve]) := by
  have hforked : (a.forked env).toSeed = a.toSeed ∨
      ∃ msg, msg ≠ .solve ∧ (a.forked env).toSeed = a.toSeed ++ [msg] := by
    rw [Api.forked_toSeed]
    split
    · exact Or.inr ⟨_, QuapiMsg.noConfusion, rfl⟩
    · exact Or.inl (List.append_nil _)
  cases c with
  | quantify lit =>
    obtain ⟨-, d, rfl⟩ := Api.call_quantify hcall
    exact ⟨Or.inr ⟨_, QuapiMsg.noConfusion, rfl⟩, Or.inl rfl⟩
  | add lit =>
    obtain ⟨-, rfl⟩ := Api.call_add hcall
    exact ⟨Or.inr ⟨_, QuapiMsg.noConfusion, rfl⟩, Or.inl rfl⟩
  | assume lit =>
    rcases Api.call_assume hcall with ⟨-, -, rfl⟩ | ⟨-, -, rfl, -⟩ | ⟨h0, -, -, rfl⟩
    · exact ⟨Or.inl rfl, Or.inl rfl⟩
    · exact ⟨Or.inl rfl, Or.inl rfl⟩
    · exact ⟨hforked, Or.inr (Or.inl ⟨lit, h0, by rw [Api.forked_toChild]⟩)⟩
  | reset =>
    obtain ⟨e, he, hb⟩ := Option.map_eq_some_iff.mp hcall
    obtain ⟨-, rfl⟩ := Prod.mk.inj hb
    obtain rfl := Option.some.inj he
    rw [QuapiSolver.quapiResetAssumptions]
    split <;> exact ⟨Or.inl (List.append_nil _), Or.inl (List.append_nil _)⟩
  | solve =>
    obtain ⟨e, he, hb⟩ := Option.map_eq_some_iff.mp hcall
    obtain ⟨-, rfl⟩ := Prod.mk.inj hb
    obtain rfl := Option.some.inj he
    rw [Api.forked_toSeed] at hforked
    have hm := Api.forked_solver env a
    rcases a.solver.quapiSolve_cases env.allowMissing (Io.ok (env.pid a.toSeed)) with
      ⟨-, he⟩ | ⟨-, -, he⟩ | ⟨-, -, -, he⟩ | ⟨-, -, -, -, he⟩ <;> rw [he]
    · exact ⟨Or.inl (List.append_nil _), Or.inl (List.append_nil _)⟩
    · simp only [Io.ok, hm]
      exact ⟨hforked, Or.inl (List.append_nil _)⟩
    · simp only [Io.ok, hm]
      exact ⟨hforked, Or.inl (List.append_nil _)⟩
    · simp only [Io.ok, hm]
      exact ⟨hforked, Or.inr (Or.inr trivial)⟩

/-- The stream of the seeding process only grows. -/
theorem Api.toSeed_of_calls {cs : List ApiCall} (hcalls : a.calls env cs = some b) :
    ∃ more, b.toSeed = a.toSeed ++ more := by
  refine Machine.invariant (I := fun b : Api => ∃ more, b.toSeed = a.toSeed ++ more) ?_ hcalls
    ⟨[], (List.append_nil _).symm⟩
  rintro u c' t ht ⟨more, hmore⟩
  obtain ⟨⟨y', v⟩, hcall, rfl⟩ := Option.map_eq_some_iff.mp ht
  rcases (Api.writes_of_call hcall).1 with hseed | ⟨msg, -, hseed⟩
  · exact ⟨more, hseed.trans hmore⟩
  · refine ⟨more ++ [msg], ?_⟩
    rw [hseed, hmore, List.append_assoc]

/-- There is no SOLVE on the stream of the seeding process. -/
theorem Api.solve_not_mem_of_calls {cs : List ApiCall} (hcalls : a.calls env cs = some b)
    (ha : QuapiMsg.solve ∉ a.toSeed) : QuapiMsg.solve ∉ b.toSeed := by
  refine Machine.invariant (I := fun b : Api => QuapiMsg.solve ∉ b.toSeed) ?_ hcalls ha
  rintro u c' t ht hu
  obtain ⟨⟨y', v⟩, hcall, rfl⟩ := Option.map_eq_some_iff.mp ht
  rcases (Api.writes_of_call hcall).1 with hseed | ⟨msg, hmsg, hseed⟩
  · change QuapiMsg.solve ∉ v.toSeed
    rwa [hseed]
  · change QuapiMsg.solve ∉ v.toSeed
    rw [hseed, List.mem_append, List.mem_singleton]
    rintro (hmem | rfl)
    · exact hu hmem
    · exact hmsg rfl

/-- **The calls are proper if and only if all messages have a text.** -/
theorem Fitted.meets_iff {cs : List ApiCall} (h : Fitted a st)
    (hcalls : a.calls env cs = some b) :
    Machine.Meets (fun a c => (a.call env c).map Prod.snd) (Api.Proper env) a cs ↔
      ∃ x, Machine.run QuapiPreloadState.next .waitingForHeader b.toSeed = some x := by
  -- on the calls: a message without a text is the first call that is not proper
  induction cs generalizing a st with
  | nil =>
    obtain rfl := Option.some.inj hcalls
    exact iff_of_true trivial ⟨st, h.run⟩
  | cons c cs ih =>
    obtain ⟨t, ht, hrest⟩ := Machine.run_cons.mp hcalls
    obtain ⟨⟨y', t'⟩, hcall, rfl⟩ := Option.map_eq_some_iff.mp ht
    have hnext : Machine.Meets (fun a c => (a.call env c).map Prod.snd) (Api.Proper env) a
        (c :: cs) ↔ a.Proper env c ∧
          Machine.Meets (fun a c => (a.call env c).map Prod.snd) (Api.Proper env) t' cs := by
      refine and_congr_right fun _ => ⟨fun hall => hall t' ht, ?_⟩
      intro hmeets u hu
      obtain rfl := Option.some.inj (ht.symm.trans hu)
      exact hmeets
    rw [hnext]
    cases h.moves hcall with
    | stays hproper ht' => exact (and_iff_right hproper).trans (ih ht' hrest)
    | sends msg hseed hproper hfit =>
      rw [hproper]
      cases hx : st.next msg with
      | some x => exact (and_iff_right rfl).trans (ih (hfit x hx) hrest)
      | none =>
        -- the message stays without a text, whatever comes behind it
        refine iff_of_false (fun hc => absurd hc.1 Bool.false_ne_true) ?_
        rintro ⟨x, hrun⟩
        obtain ⟨more, hmore⟩ := Api.toSeed_of_calls hrest
        rw [hmore] at hrun
        obtain ⟨u, hu, -⟩ := Machine.run_append_some.mp hrun
        change Machine.run QuapiPreloadState.next .waitingForHeader t'.toSeed = some u at hu
        rw [hseed] at hu
        obtain ⟨v, hv, hmsg⟩ := Machine.run_concat.mp hu
        obtain rfl := Option.some.inj (h.run.symm.trans hv)
        exact absurd (hx.symm.trans hmsg) (by simp)

end

/-! ### The stream of the children -/

/-- **What the children are sent**: unit clauses and SOLVEs. -/
inductive Paired : List QuapiMsg → Prop
  | nil : Paired []
  | unit {msgs : List QuapiMsg} (lit : Lit) (h0 : lit ≠ 0) (h : Paired msgs) :
      Paired (.literal lit :: .literal 0 :: msgs)
  | solve {msgs : List QuapiMsg} (h : Paired msgs) : Paired (.solve :: msgs)

section

variable {msgs more after : List QuapiMsg} {c : Encoder} {x : QuapiPreloadState} {msg : QuapiMsg}

theorem Paired.append (h : Paired msgs) (h' : Paired more) : Paired (msgs ++ more) := by
  induction h with
  | nil => exact h'
  | unit lit h0 _ ih => exact .unit lit h0 ih
  | solve _ ih => exact .solve ih

/-- What is left of the stream may begin in the middle of a unit clause. -/
theorem Paired.of_append (h : Paired (msgs ++ after)) :
    Paired after ∨ ∃ rest, after = .literal 0 :: rest ∧ Paired rest := by
  generalize hall : msgs ++ after = all at h
  induction h generalizing msgs with
  | nil =>
    obtain ⟨-, rfl⟩ := List.append_eq_nil_iff.mp hall
    exact Or.inl .nil
  | @unit rest lit h0 hrest ih =>
    rcases msgs with _ | ⟨m, _ | ⟨m', msgs⟩⟩
    · rw [List.nil_append] at hall
      exact Or.inl (hall ▸ .unit lit h0 hrest)
    · obtain ⟨-, rfl⟩ := List.cons.inj hall
      exact Or.inr ⟨rest, rfl, hrest⟩
    · obtain ⟨-, hall'⟩ := List.cons.inj hall
      exact ih (List.cons.inj hall').2
  | @solve rest hrest ih =>
    cases msgs with
    | nil =>
      rw [List.nil_append] at hall
      exact Or.inl (hall ▸ .solve hrest)
    | cons m msgs => exact ih (List.cons.inj hall).2

/-- A step of the states has a text. -/
theorem Encoder.exists_emit (h : c.state.next msg = some x) :
    ∃ s c', c.emit msg = some (s, c') ∧ c'.state = x := by
  rw [← Encoder.emit_state] at h
  obtain ⟨⟨s, c'⟩, he, hx⟩ := Option.map_eq_some_iff.mp h
  exact ⟨s, c', he, hx⟩

/-- **A child has a text for everything up to its SOLVE.** -/
theorem Paired.leads (h : Paired msgs)
    (hst : c.state = .readingPrefix ∨ c.state = .readingMatrix) :
    ∃ d, Encoder.Leads d c msgs := by
  induction h generalizing c with
  | nil => exact ⟨some c, .done c⟩
  | solve _ _ => exact ⟨none, .solve hst⟩
  | unit lit h0 _ ih =>
    -- the two messages of an assumption open a clause and close it
    have hopens : c.state.next (.literal lit) = some .readingClause := by
      have hval : lit.val ≠ 0 := fun hc => h0 (Lit.val_eq_zero.mp hc)
      rcases hst with hst | hst <;> rw [hst] <;> exact congrArg some (if_neg hval)
    obtain ⟨s, c', he, hc'⟩ := Encoder.exists_emit hopens
    have hcloses : c'.state.next (.literal 0) = some .readingMatrix := by
      rw [hc']
      rfl
    obtain ⟨s', c'', he', hc''⟩ := Encoder.exists_emit hcloses
    obtain ⟨d, hd⟩ := ih (Or.inr hc'')
    exact ⟨d, .emit he (.emit he' hd)⟩

/-- A child that takes over in the middle of a unit clause reads an empty one first. -/
theorem Paired.leads_suffix (h : Paired (msgs ++ after))
    (hst : c.state = .readingPrefix ∨ c.state = .readingMatrix) :
    ∃ d, Encoder.Leads d c after := by
  rcases h.of_append with hp | ⟨rest, rfl, hp⟩
  · exact hp.leads hst
  · have hcloses : c.state.next (.literal 0) = some .readingMatrix := by
      rcases hst with hst | hst <;> rw [hst] <;> rfl
    obtain ⟨s, c', he, hc'⟩ := Encoder.exists_emit hcloses
    obtain ⟨d, hd⟩ := hp.leads (Or.inr hc')
    exact ⟨d, .emit he hd⟩

end

/-- **Every message that reaches the seeding process is handled.** -/
def SeedFits (a : Api) : Prop :=
  ∀ sizes p, Reader.Rereads sizes (Reader.start a.toSeed) p → p.Fits

/-- **Every message that reaches a child is handled**: the child is forked at any FORK, by a
seeding process that has read up to it, and finds any rest of the stream. -/
def ChildrenFit (a : Api) : Prop :=
  ∀ msgs wait rest seedSizes p, a.toSeed = msgs ++ .fork wait :: rest →
    Reader.Rereads seedSizes (Reader.start (msgs ++ [.fork wait])) p → p.input = [] →
    p.blocked.isSome → ∀ taken after, a.toChild = taken ++ after →
      ∀ sizes q, Reader.Rereads sizes { p with input := after } q → q.Fits

section

variable {env : Env} {a : Api} {s : QuapiSolver} {cs : List ApiCall}

theorem paired_of_calls (hcalls : (Api.start s).calls env cs = some a) : Paired a.toChild := by
  refine Machine.invariant (I := fun b : Api => Paired b.toChild) ?_ hcalls .nil
  rintro u c t ht hu
  obtain ⟨⟨y, v⟩, hcall, rfl⟩ := Option.map_eq_some_iff.mp ht
  rcases (Api.writes_of_call hcall).2 with hchild | ⟨lit, h0, hchild⟩ | hchild
  · exact hchild ▸ hu
  · exact hchild ▸ hu.append (.unit lit h0 .nil)
  · exact hchild ▸ hu.append (.solve .nil)

/-- The encoder has a text if its states have a run. -/
theorem exists_encode_of_run {msgs : List QuapiMsg} {x : QuapiPreloadState}
    (h : Machine.run QuapiPreloadState.next .waitingForHeader msgs = some x) :
    ∃ s d, Encoder.init.encode msgs = some (s, d) ∧ d.state = x := by
  rw [show QuapiPreloadState.waitingForHeader = Encoder.init.state from rfl,
    ← Encoder.encode_state] at h
  obtain ⟨⟨s, d⟩, he, hx⟩ := Option.map_eq_some_iff.mp h
  exact ⟨s, d, he, hx⟩

/-- A seeding process all of whose messages have a text handles them. -/
theorem seedFits_of_run {x : QuapiPreloadState}
    (h : Machine.run QuapiPreloadState.next .waitingForHeader a.toSeed = some x) : SeedFits a := by
  obtain ⟨text, d, he, -⟩ := exists_encode_of_run h
  exact fun sizes p hp =>
    ((Reader.follows_start (Encoder.leads_of_encode he)).rereads hp).fits

/-- A seeding process that handles all messages has a text for them. -/
theorem run_of_seedFits (hsolve : QuapiMsg.solve ∉ a.toSeed) (h : SeedFits a) :
    ∃ x, Machine.run QuapiPreloadState.next .waitingForHeader a.toSeed = some x := by
  have hs : ∀ i : ℕ, 0 < (fun _ => 1 : ℕ → ℕ) i := fun _ => one_pos
  obtain ⟨q, hq, hw, -, hi⟩ := Reader.reaches_start hs a.toSeed
  obtain ⟨text, d, he⟩ := Reader.exists_encode_of_fits hw hi QuapiPreloadState.noConfusion hsolve
    fun t ht => h _ t (hq.trans ht).rereads
  refine ⟨d.state, ?_⟩
  rw [show QuapiPreloadState.waitingForHeader = Encoder.init.state from rfl,
    ← Encoder.encode_state, he]
  rfl

/-- **The children** of a session whose calls are proper. -/
theorem childrenFit_of_run {x : QuapiPreloadState}
    (hcalls : (Api.start s).calls env cs = some a)
    (h : Machine.run QuapiPreloadState.next .waitingForHeader a.toSeed = some x) :
    ChildrenFit a := by
  intro msgs wait rest seedSizes p hseed hp hi hb taken after hchild sizes q hq
  -- the encoder at the FORK
  rw [hseed, ← List.singleton_append, ← List.append_assoc] at h
  obtain ⟨y, hy, -⟩ := Machine.run_append_some.mp h
  obtain ⟨u, hu, hfork⟩ := Machine.run_concat.mp hy
  have hst : y = .readingPrefix ∨ y = .readingMatrix := by
    rcases QuapiPreloadState.next_cases hfork with ⟨v, d, hm, -⟩ | ⟨l, hm, -⟩ | ⟨hm, -⟩ |
      ⟨l, hm, -⟩ | ⟨hm, -⟩ | ⟨w, -, hst⟩
    · exact QuapiMsg.noConfusion hm
    · exact QuapiMsg.noConfusion hm
    · exact QuapiMsg.noConfusion hm
    · exact QuapiMsg.noConfusion hm
    · exact QuapiMsg.noConfusion hm
    · exact hst
  obtain ⟨text, d, he, hd⟩ := exists_encode_of_run hy
  have hfollows := (Reader.follows_start (Encoder.leads_of_encode he)).rereads hp
  cases hfollows with
  | waits c hblocked hc hout hw hfill hleads =>
    rw [hi] at hleads
    cases hleads with
    | done _ =>
      have hpaired : Paired (taken ++ after) := hchild ▸ paired_of_calls hcalls
      obtain ⟨d', hd'⟩ := hpaired.leads_suffix (hd.symm ▸ hst)
      have hfork : Reader.Follows d' { p with input := after } :=
        .waits d hblocked hc hout hw hfill hd'
      exact (hfork.rereads hq).fits
  | reads c hblocked => exact absurd hb (by rw [hblocked]; exact Bool.false_ne_true)
  | pads hnone => exact absurd hnone (by simp)
  | closed hnone => exact absurd hnone (by simp)
  | works hnone => exact absurd hnone (by simp)

/-- The two machines begin together. -/
theorem fitted_start {litcount clausecount maxassumptions : CInt}
    {regexes : Option ((List Char → Bool) × (List Char → Bool))}
    (hinit : quapiInit litcount clausecount maxassumptions regexes = some s) :
    Fitted (Api.start s) .readingPrefix := by
  obtain ⟨-, clauses, -, rfl⟩ := quapiInit_cases hinit
  exact ⟨rfl, ⟨QuapiPreloadState.noConfusion, QuapiPreloadState.noConfusion⟩, fun _ => Or.inl rfl,
    Or.inl rfl⟩

/-- **The two machines fit together if and only if every call is proper**: a zero that
`quapi_quantify` sends closes a block, and a child is asked for while neither a block nor a
clause is open. Then every message is handled, by the seeding process and by every child; and
otherwise some message is not. -/
theorem machines_fit_iff {litcount clausecount maxassumptions : CInt}
    {regexes : Option ((List Char → Bool) × (List Char → Bool))}
    (hinit : quapiInit litcount clausecount maxassumptions regexes = some s)
    (hcalls : (Api.start s).calls env cs = some a) :
    SeedFits a ∧ ChildrenFit a ↔
      Machine.Meets (fun a c => (a.call env c).map Prod.snd) (Api.Proper env) (Api.start s) cs := by
  rw [(fitted_start hinit).meets_iff hcalls]
  constructor
  · rintro ⟨hseed, -⟩
    refine run_of_seedFits (Api.solve_not_mem_of_calls hcalls ?_) hseed
    exact fun hmem => QuapiMsg.noConfusion (List.mem_singleton.mp hmem)
  · rintro ⟨x, hx⟩
    exact ⟨seedFits_of_run hx, childrenFit_of_run hcalls hx⟩

end

/-- **A session that fits**: a closed block, a clause, an assumption and a solve. -/
theorem closed_block_fits : ∃ a,
    quapiInit ⟨1, by decide⟩ ⟨1, by decide⟩ ⟨1, by decide⟩ none = some paddedStart ∧
      (Api.start paddedStart).calls plainEnv [.quantify (lit 1), .quantify 0, .add (lit 1),
        .add 0, .assume (lit 1), .solve] = some a ∧ SeedFits a ∧ ChildrenFit a := by
  obtain ⟨a, hcalls, hrun⟩ : ∃ a, (Api.start paddedStart).calls plainEnv [.quantify (lit 1),
      .quantify 0, .add (lit 1), .add 0, .assume (lit 1), .solve] = some a ∧
      Machine.run QuapiPreloadState.next .waitingForHeader a.toSeed = some .readingMatrix :=
    ⟨_, rfl, rfl⟩
  have hinit : quapiInit ⟨1, by decide⟩ ⟨1, by decide⟩ ⟨1, by decide⟩ none = some paddedStart := rfl
  exact ⟨a, hinit, hcalls,
    (machines_fit_iff hinit hcalls).mpr (((fitted_start hinit).meets_iff hcalls).mpr ⟨_, hrun⟩)⟩

/-- **A session that does not**: the block of `quapi_quantify(1)` is still open when
`quapi_solve` asks for a child, and `READING_EXISTS` has no case for its FORK. The default branch
formats the type of the message as a string, which is not modelled and crashes; as far as the
inner loop goes, it would never end. -/
theorem open_block_hangs : ∃ a p,
    (Api.start paddedStart).calls plainEnv [.quantify (lit 1), .solve] = some a ∧
      Reader.Rereads (fun _ => 16) (Reader.start a.toSeed) p ∧ p.blocked.isSome ∧
      p.input = [.fork true] ∧ ¬p.Fits ∧
      ∀ n, stateLoop n { p.runtime.install (.fork true) with outbufLen := 0 } (.fork true) =
        none := by
  have hrun : ((Reader.start [.header quapiApiVersion paddedStart.header, .quantifier (lit 1),
      .fork true]).ticks (fun _ => 16) 5).map (fun p => (p.blocked, p.input, p.runtime.state)) =
        some (some 16, [.fork true], .readingExists) := rfl
  obtain ⟨p, hp, hread⟩ := Option.map_eq_some_iff.mp hrun
  simp only [Prod.mk.injEq] at hread
  obtain ⟨hb, hi, hst⟩ := hread
  refine ⟨_, p, rfl, (Reader.reaches_ticks hp).rereads, by rw [hb]; rfl, hi, ?_, fun n => ?_⟩
  · intro hfits
    have hcase := (hfits (.fork true) [] (by rw [hb]; rfl) hi).hasCase
    change p.runtime.state.HasCase (.fork true) = true at hcase
    rw [hst] at hcase
    exact absurd hcase Bool.false_ne_true
  · exact Reader.stateLoop_line (Or.inl hst) rfl (by simp)

end QuAPI
