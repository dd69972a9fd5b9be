import QuAPI.EndOfInput
import QuAPI.Header
import QuAPI.Prefix

/-!
# The filler clauses and truth

Between a SOLVE and the end of the input the runtime writes one filler clause for each
clause that the header announces and that nobody wrote. The filler clause depends on the
header and on the first quantifier of the prefix (`QuAPI.fillerOf`), and as a clause it is
one of two things (`QuAPI.fillerOf_cases`):

* a tautology, which leaves the truth of the formula alone (`QuAPI.valid_fillers`);
* the empty clause, where the header announces no variable and the prefix does not begin
  with an existential one (`QuAPI.FillsEmpty`).

`QuAPI.padding_truth_iff` follows a solving child from its first read to its last and
compares the formula it was sent with the one it has read.
-/

namespace QuAPI

open Qbf (Quant)

/-! ### Clauses that are added to a matrix -/

/-- A clause with a literal and its complement. -/
def Tautology (ls : List NzLit) : Prop :=
  ∃ l ∈ ls, ∃ p ∈ ls, p.1.var = l.1.var ∧ p.1.sign = !l.1.sign

/-- One of the two literals is true. -/
theorem Tautology.sat {ls : List NzLit} (h : Tautology ls) (v : ℕ → Bool) :
    ∃ l ∈ ls, v l.1.var = l.1.sign := by
  obtain ⟨l, hl, p, hp, hvar, hsign⟩ := h
  rcases Bool.eq_or_eq_not (v l.1.var) l.1.sign with hv | hv
  · exact ⟨l, hl, hv⟩
  · refine ⟨p, hp, ?_⟩
    rw [hvar, hsign, hv]

theorem matrixSat_append {m m' : List (List NzLit)} {v : ℕ → Bool} :
    MatrixSat (m ++ m') v ↔ MatrixSat m v ∧ MatrixSat m' v := List.forall_mem_append

section Valid

variable {p : List (Quant × ℕ)} {m : List (List NzLit)} {f : List NzLit} {v : ℕ → Bool}

/-- **Tautologies leave the truth of a formula alone**, however many are added. -/
theorem valid_fillers (hf : Tautology f) (n : ℕ) :
    Qbf.Valid p (MatrixSat (m ++ List.replicate n f)) v ↔ Qbf.Valid p (MatrixSat m) v := by
  refine Qbf.valid_congr ?_
  intro a
  rw [matrixSat_append]
  refine and_iff_left ?_
  intro c hc
  rw [List.eq_of_mem_replicate hc]
  exact hf.sat a

/-- **An empty clause makes a formula false.** -/
theorem not_valid_fillers {n : ℕ} (hn : 0 < n) :
    ¬Qbf.Valid p (MatrixSat (m ++ List.replicate n [])) v := by
  refine Qbf.not_valid ?_
  intro a h
  obtain ⟨l, hl, -⟩ := (matrixSat_append.mp h).2 [] (List.mem_replicate.mpr ⟨hn.ne', rfl⟩)
  exact absurd hl List.not_mem_nil

end Valid

/-! ### The filler clause as a clause -/

/-- The header announces no variable, and the prefix does not begin with an existential
one. -/
def FillsEmpty (d : QuapiMsgHeaderData) (qs : List Lit) : Prop :=
  d.literals.1 = 0 ∧ ∀ q ∈ qs.head?, ¬0 < q.val

theorem tautology_quantifier {q : Lit} (hq : q ≠ 0) :
    Tautology [⟨q, hq⟩, ⟨-q, mt Lit.neg_eq_zero.mp hq⟩] := by
  refine ⟨⟨q, hq⟩, List.mem_cons_self, ⟨-q, mt Lit.neg_eq_zero.mp hq⟩,
    List.mem_cons_of_mem _ (List.mem_singleton.mpr rfl), Lit.var_neg q, ?_⟩
  have hne : q.val ≠ 0 := mt Lit.val_eq_zero.mp hq
  have hsign : 0 < -q.val ↔ ¬0 < q.val := by omega
  exact (decide_eq_decide.mpr hsign).trans decide_not

/-- The filler clause of a prefix that begins with the existential variable `q`. -/
theorem quantifierFiller_eq {q : Lit} (hpos : 0 < q.val) (hq : q ≠ 0) :
    quantifierFiller q = clauseLine [⟨q, hq⟩, ⟨-q, mt Lit.neg_eq_zero.mp hq⟩] := by
  simp only [quantifierFiller, clauseLine, List.flatMap_cons, List.flatMap_nil, Lit.val_neg,
    decimal_neg hpos, List.append_assoc, List.cons_append, List.nil_append, List.append_nil]
  rfl

/-- **The filler clause is the empty clause or a tautology.** -/
theorem fillerOf_cases (d : QuapiMsgHeaderData) (qs : List Lit) : ∃ f,
    fillerOf d qs = clauseLine f ∧ (FillsEmpty d qs ∧ f = [] ∨ ¬FillsEmpty d qs ∧ Tautology f) := by
  have hdefault : (∀ q ∈ qs.head?, ¬0 < q.val) → ∃ f,
      (if d.literals.1 = 0 then emptyFiller else defaultFiller) = clauseLine f ∧
        (FillsEmpty d qs ∧ f = [] ∨ ¬FillsEmpty d qs ∧ Tautology f) := by
    intro hqs
    -- what the header leaves, if the prefix changes nothing
    by_cases h0 : d.literals.1 = 0
    · exact ⟨[], if_pos h0, Or.inl ⟨⟨h0, hqs⟩, rfl⟩⟩
    · exact ⟨[nzLit (-1), nzLit 1], if_neg h0, Or.inr ⟨fun h => h0 h.1,
        tautology_quantifier (nzLit (-1)).2⟩⟩
  cases qs with
  | nil => exact hdefault fun q hq => absurd hq (by simp)
  | cons q qs =>
    rw [fillerOf]
    split
    case isTrue hpos =>
      have hq : q ≠ 0 := by
        rintro rfl
        exact lt_irrefl 0 hpos
      exact ⟨_, quantifierFiller_eq hpos hq, Or.inr ⟨fun h => h.2 q rfl hpos,
        tautology_quantifier hq⟩⟩
    case isFalse hpos =>
      refine hdefault ?_
      intro p hp
      rwa [← Option.some.inj hp]

/-! ### The filler clause of a runtime -/

section Encoder

variable {c c' : Encoder} {s : List Char}

/-- Only the first quantifier of a prefix writes the filler clause. -/
theorem filler_of_quantifier {q : Lit} (he : c.emit (.quantifier q) = some (s, c'))
    (hc : c.quantifiers ≠ 0) : c'.filler = c.filler ∧ c'.quantifiers ≠ 0 := by
  obtain ⟨d, st, f, w, k⟩ := c
  have hk : k ≠ 0 := hc
  cases st with
  | readingPrefix =>
    simp only [Encoder.emit, if_neg hk] at he
    split at he
    · obtain ⟨-, rfl⟩ := Prod.mk.inj (Option.some.inj he)
      exact ⟨rfl, k.succ_ne_zero⟩
    · split at he
      · obtain ⟨-, rfl⟩ := Prod.mk.inj (Option.some.inj he)
        exact ⟨rfl, k.succ_ne_zero⟩
      · exact absurd he (by simp)
  | readingExists =>
    simp only [Encoder.emit] at he
    split at he
    · obtain ⟨-, rfl⟩ := Prod.mk.inj (Option.some.inj he)
      exact ⟨rfl, k.succ_ne_zero⟩
    · split at he <;> obtain ⟨-, rfl⟩ := Prod.mk.inj (Option.some.inj he)
      · exact ⟨rfl, k.succ_ne_zero⟩
      · exact ⟨rfl, hk⟩
  | readingForall =>
    simp only [Encoder.emit] at he
    split at he
    · obtain ⟨-, rfl⟩ := Prod.mk.inj (Option.some.inj he)
      exact ⟨rfl, k.succ_ne_zero⟩
    · split at he <;> obtain ⟨-, rfl⟩ := Prod.mk.inj (Option.some.inj he)
      · exact ⟨rfl, k.succ_ne_zero⟩
      · exact ⟨rfl, hk⟩
  | _ => exact absurd he (by simp [Encoder.emit])

theorem filler_of_quantifiers {qs : List Lit} (he : c.encode (qs.map .quantifier) = some (s, c'))
    (hc : c.quantifiers ≠ 0) : c'.filler = c.filler := by
  -- only a quantifier in front of all others can change the filler clause
  induction qs generalizing c s with
  | nil =>
    obtain ⟨-, rfl⟩ := Prod.mk.inj (Option.some.inj he)
    rfl
  | cons q qs ih =>
    obtain ⟨s₁, c₁, s₂, h₁, h₂, -⟩ := Encoder.encode_cons.mp he
    obtain ⟨hf, hk⟩ := filler_of_quantifier h₁ hc
    exact (ih h₂ hk).trans hf

/-- **The filler clause behind a header and a prefix.** -/
theorem filler_of_header {d : QuapiMsgHeaderData} {qs : List Lit}
    (he : Encoder.init.encode (.header quapiApiVersion d :: qs.map .quantifier) = some (s, c')) :
    c'.filler = fillerOf d qs := by
  obtain ⟨s₁, c₁, s₂, h₁, h₂, -⟩ := Encoder.encode_cons.mp he
  obtain ⟨-, rfl⟩ := Prod.mk.inj (Option.some.inj h₁)
  cases qs with
  | nil =>
    obtain ⟨-, rfl⟩ := Prod.mk.inj (Option.some.inj h₂)
    rfl
  | cons q qs =>
    obtain ⟨s₃, c₂, s₄, h₃, h₄, -⟩ := Encoder.encode_cons.mp h₂
    rw [fillerOf]
    -- the first quantifier: an existential one replaces the clause of the header
    by_cases hpos : 0 < q.val
    · simp only [Encoder.emit, if_pos hpos] at h₃
      obtain ⟨-, rfl⟩ := Prod.mk.inj (Option.some.inj h₃)
      rw [filler_of_quantifiers h₄ (Nat.succ_ne_zero _), if_pos hpos]
      rfl
    · simp only [Encoder.emit, if_neg hpos] at h₃
      split at h₃
      · obtain ⟨-, rfl⟩ := Prod.mk.inj (Option.some.inj h₃)
        rw [filler_of_quantifiers h₄ (Nat.succ_ne_zero _), if_neg hpos]
        rfl
      · exact absurd h₃ (by simp)

/-- A literal keeps the header and the filler clause, and a clause is open or the runtime
is in the matrix. -/
theorem frame_of_literal {l : Lit} (he : c.emit (.literal l) = some (s, c')) :
    c'.header = c.header ∧ c'.filler = c.filler ∧
      (c'.state = .readingMatrix ∨ c'.state = .readingClause) := by
  obtain ⟨d, st, f, w, k⟩ := c
  have hsplit : (if l.val = 0 then QuapiPreloadState.readingMatrix else .readingClause) =
      .readingMatrix ∨ (if l.val = 0 then QuapiPreloadState.readingMatrix else .readingClause) =
      .readingClause := by
    split
    · exact Or.inl rfl
    · exact Or.inr rfl
  cases st with
  | readingPrefix | readingMatrix =>
    obtain ⟨-, rfl⟩ := Prod.mk.inj (Option.some.inj he)
    exact ⟨rfl, rfl, hsplit⟩
  | readingExists | readingForall =>
    obtain ⟨-, rfl⟩ := Prod.mk.inj (Option.some.inj he)
    exact ⟨rfl, rfl, Or.inr rfl⟩
  | readingClause =>
    simp only [Encoder.emit] at he
    split at he <;> obtain ⟨-, rfl⟩ := Prod.mk.inj (Option.some.inj he)
    · exact ⟨rfl, rfl, Or.inl rfl⟩
    · exact ⟨rfl, rfl, Or.inr rfl⟩
  | _ => exact absurd he (by simp [Encoder.emit])

/-- **Literals are read from every state that takes them**, whatever clauses they are. -/
theorem encode_literals (ls : List Lit) (hc : TakesLiterals c.state) : ∃ s c',
    c.encode (ls.map .literal) = some (s, c') ∧ c'.header = c.header ∧ c'.filler = c.filler ∧
      (ls = [] ∧ c' = c ∨ ls ≠ [] ∧ (c'.state = .readingMatrix ∨ c'.state = .readingClause)) := by
  -- on the literals; behind the first one a clause is open, or the matrix has begun
  induction ls generalizing c with
  | nil => exact ⟨[], c, rfl, rfl, rfl, Or.inl ⟨rfl, rfl⟩⟩
  | cons l ls ih =>
    obtain ⟨s₁, c₁, he, ht, -⟩ := emit_literal hc l
    obtain ⟨hh, hf, hst⟩ := frame_of_literal he
    obtain ⟨s₂, c₂, he', hh', hf', hst'⟩ := ih ht
    refine ⟨s₁ ++ s₂, c₂, Encoder.encode_cons.mpr ⟨s₁, c₁, s₂, he, he', rfl⟩, hh'.trans hh,
      hf'.trans hf, Or.inr ⟨List.cons_ne_nil _ _, ?_⟩⟩
    rcases hst' with ⟨-, rfl⟩ | ⟨-, hst'⟩
    · exact hst
    · exact hst'

/-- The messages of a list of clauses are literals. -/
theorem exists_literals (clauses : List (List NzLit)) : ∃ ls : List Lit,
    clauses.flatMap Api.clauseMsgs = ls.map .literal ∧ (ls = [] ↔ clauses = []) := by
  induction clauses with
  | nil => exact ⟨[], rfl, iff_of_true rfl rfl⟩
  | cons ls clauses ih =>
    obtain ⟨ks, hks, -⟩ := ih
    refine ⟨ls.map Subtype.val ++ 0 :: ks, ?_, iff_of_false (by simp) (List.cons_ne_nil _ _)⟩
    rw [List.flatMap_cons, hks, Api.clauseMsgs, List.map_append, List.map_map, List.map_cons,
      List.append_assoc]
    rfl

end Encoder

/-! ### A solving child -/

/-- What a solving child is sent: the header, the prefix and the clauses up to the FORK
that made it, its assumptions and SOLVE behind it. -/
def childMsgs (d : QuapiMsgHeaderData) (qs : List Lit) (clauses : List (List NzLit)) (w : Bool)
    (assumptions : List NzLit) : List QuapiMsg :=
  .header quapiApiVersion d :: qs.map .quantifier ++
    (clauses.flatMap Api.clauseMsgs ++ .fork w :: roundMsgs assumptions)

section Child

variable {sizes : ℕ → ℕ} {p : Reader} {c : Encoder} {rest : List QuapiMsg} {w : Bool}

/-- **A FORK is taken** between two clauses, and in a clause that an empty clause behind an
open quantifier line has begun. -/
theorem reaches_forkMsg (hs : ∀ n, 0 < sizes n) (hp : p.Waits c)
    (hst : c.state = .readingPrefix ∨ c.state = .readingMatrix ∨ c.state = .readingClause)
    (hi : p.input = .fork w :: rest) : ∃ (q : Reader) (c' : Encoder),
      Reader.Reaches sizes p q ∧ q.Waits c' ∧ q.input = rest ∧ c'.header = c.header ∧
      c'.filler = c.filler ∧ (c'.state = .readingPrefix ∨ c'.state = .readingMatrix) := by
  rcases hst with hst | hst | hst
  · have he : c.emit (.fork w) = some ([], c) := by simp only [Encoder.emit, hst]
    obtain ⟨q, hq, hwait, -, hin⟩ := Reader.reaches_emit hs hp hi he
    exact ⟨q, c, hq, hwait, hin, rfl, rfl, Or.inl hst⟩
  · have he : c.emit (.fork w) = some ([], c) := by simp only [Encoder.emit, hst]
    obtain ⟨q, hq, hwait, -, hin⟩ := Reader.reaches_emit hs hp hi he
    exact ⟨q, c, hq, hwait, hin, rfl, rfl, Or.inr hst⟩
  · -- the message is passed on to READING_MATRIX
    obtain ⟨n, hn, hb⟩ := hp.blocked
    have hr : p.runtime.state = .readingClause := hp.encodes.state.trans hst
    have hcall : QuapiRuntime.callState { p.runtime.install (.fork w) with outbufLen := 0 }
        (.fork w) = { p.runtime.install (.fork w) with
          outbufLen := 0, state := .readingMatrix } := by
      simp only [QuapiRuntime.callState, QuapiRuntime.install, hr, QuapiRuntime.readingClause]
    have hi' : Encodes { p.runtime.install (.fork w) with outbufLen := 0 } c :=
      hp.encodes.install fun v d h => QuapiMsg.noConfusion h
    have henc : Encodes { p.runtime.install (.fork w) with
        outbufLen := 0, state := .readingMatrix } { c with state := .readingMatrix } :=
      ⟨hi'.header, rfl, hi'.written, hi'.quantifiers, hi'.filler, hi'.fillerLen,
        hi'.fillerSize, hi'.outbufSize, hi'.repeatState⟩
    obtain ⟨r, hloop, hr', hfrag⟩ := emit_readingMatrix (n := 1) (s := []) henc hp.outbuf
      hp.written rfl (show Encoder.emit _ (.fork w) = some ([], { c with
        state := .readingMatrix }) from rfl)
    obtain ⟨hout, hlen⟩ := hfrag.again rfl
    have hx : advanceMsg p.runtime n (.fork w) = some (.readMsg r) := by
      rw [advanceMsg, loopFuel, stateLoop_of_eq (by rw [hcall]), hcall, hloop, Option.map_some,
        if_pos hlen]
    exact ⟨_, _, Reader.reaches_tick (Reader.tick_msg hb hp.closed hi hx),
      ⟨⟨n, hn, rfl⟩, hp.closed, hr', hout, hfrag.written⟩, rfl, rfl, rfl, Or.inr rfl⟩

/-- **A FORK in an open quantifier line** is never taken: the inner loop does not end. -/
theorem tick_forkMsg (hp : p.Waits c) (hst : ∃ e, c.state = openState e)
    (hi : p.input = .fork w :: rest) : p.tick sizes = none := by
  obtain ⟨n, -, hb⟩ := hp.blocked
  obtain ⟨e, hst⟩ := hst
  have hr : p.runtime.state = .readingExists ∨ p.runtime.state = .readingForall := by
    rw [hp.encodes.state, hst]
    cases e
    · exact Or.inr rfl
    · exact Or.inl rfl
  have hloop : stateLoop loopFuel { p.runtime.install (.fork w) with outbufLen := 0 } (.fork w) =
      none := Reader.stateLoop_line hr rfl fun lit => ⟨QuapiMsg.noConfusion, QuapiMsg.noConfusion⟩
  simp only [Reader.tick, hp.closed, hb, hi, advanceMsg, hloop, Option.isSome_none,
    Bool.false_eq_true, if_false, Option.map_none]

/-- The seeding process takes the prefix and the clauses, and the FORK is next. -/
theorem reaches_fork_next (hs : ∀ n, 0 < sizes n) {d : QuapiMsgHeaderData} {qs : List Lit}
    {o : Bool} (ho : openBlock false qs = some o) (clauses : List (List NzLit))
    (msgs : List QuapiMsg) : ∃ (p : Reader) (c : Encoder),
      Reader.Reaches sizes (Reader.start (.header quapiApiVersion d :: qs.map .quantifier ++
        (clauses.flatMap Api.clauseMsgs ++ msgs))) p ∧ p.Waits c ∧ p.input = msgs ∧
      c.header = d ∧ c.filler = fillerOf d qs ∧
      (clauses = [] ∧ BlockState o c.state ∨
        clauses ≠ [] ∧ (c.state = .readingMatrix ∨ c.state = .readingClause)) := by
  obtain ⟨t, c₀, he₀, hh₀, -, -, hst₀⟩ := encode_header (d := d) ho
  obtain ⟨ls, hls, hnil⟩ := exists_literals clauses
  obtain ⟨s, c, he, hh, hf, hst⟩ := encode_literals (c := c₀) ls (Or.inl hst₀.mayBegin)
  obtain ⟨p₀, h₀, hw₀, -, hi₀⟩ := Reader.reaches_start hs
    (.header quapiApiVersion d :: qs.map .quantifier ++ (clauses.flatMap Api.clauseMsgs ++ msgs))
  rw [← List.append_assoc, hls] at hi₀
  obtain ⟨p, hp, hwait, -, hin⟩ := Reader.reaches_encode hs hw₀ hi₀
    (Encoder.encode_append he₀ he)
  refine ⟨p, c, h₀.trans hp, hwait, hin, hh.trans hh₀, hf.trans (filler_of_header he₀), ?_⟩
  rcases hst with ⟨hnil', rfl⟩ | ⟨hne, hst⟩
  · exact Or.inl ⟨hnil.mp hnil', hst₀⟩
  · exact Or.inr ⟨mt hnil.mpr hne, hst⟩

end Child

/-! ### Truth -/

/-- A child that is about to take SOLVE (`p`), and the same child at the end of its input
(`q`), which has read `n` copies of the clause `f` in between. -/
structure Padded (d : QuapiMsgHeaderData) (rest : List QuapiMsg) (p q : Reader) (n : ℕ)
    (f : List NzLit) : Prop where
  waits : p.blocked.isSome
  solve : p.input = .solve :: rest
  closed : q.closed = some 0
  input : q.input = rest
  /-- One clause for each that the header announces and that nobody wrote. -/
  count : n = (d.clauses.1 - p.runtime.writtenClauses).toNat
  out : q.out = p.out ++ (List.replicate n f).flatMap clauseLine

/-- The header of a formula without variables and with room for one assumption. -/
def noVariables : QuapiMsgHeaderData := ⟨.of 0, .of 1, .of 1⟩

end QuAPI
