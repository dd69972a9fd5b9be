import QuAPI.Runtime.Reader
import QuAPI.Text

/-!
# The matrix, empty clauses included

The prefix may come in blocks, each closed by a zero, and the clauses may be empty. Such a
prefix is still read (`QuAPI.encode_quantifiers`), as long as every zero closes an open
block (`QuAPI.openBlock`), and so is such a list of clauses, but with a clause too few in
the counter of the runtime (`QuAPI.encode_clauses_lt`): a zero in front of the first
literal of a clause is written by state functions that do not count it.

`QuAPI.matrix_read_iff` says when the matrix that a solver reads is the matrix that the
library was given.
-/

namespace QuAPI

/-! ### A prefix in blocks -/

/-- Whether a prefix leaves its last block open, where every zero of it closes a block
(`o`: one is open already). -/
def openBlock : Bool → List Lit → Option Bool
  | o, [] => some o
  | o, q :: qs =>
    if q = 0 then if o then openBlock false qs else none else openBlock true qs

/-- The state inside a block, and between two. -/
def BlockState : Bool → QuapiPreloadState → Prop
  | true, st => ∃ e, st = openState e
  | false, st => st = .readingPrefix

theorem BlockState.mayBegin {o : Bool} {st : QuapiPreloadState} (h : BlockState o st) :
    MayBegin st := by
  cases o with
  | true => exact Or.inr (Or.inr h)
  | false => exact Or.inl h

/-- The quantifiers that are sent have the blocks of those that were given. -/
theorem openBlock_sentPrefix (k : ℤ) (o : Bool) (qs : List Lit) :
    openBlock o (Api.sentPrefix k qs) = openBlock o qs := by
  induction qs generalizing k o with
  | nil => rfl
  | cons q qs ih =>
    have hz : (if 0 < k ∧ q.val < 0 then -q else q) = 0 ↔ q = 0 := by
      split
      · exact Lit.neg_eq_zero
      · exact Iff.rfl
    simp only [Api.sentPrefix, openBlock, hz, ih]

/-- The filler clauses there are. -/
def IsFiller (f : List Char) : Prop :=
  f = emptyFiller ∨ f = defaultFiller ∨ ∃ q : Lit, f = quantifierFiller q

theorem isFiller_header (d : QuapiMsgHeaderData) :
    IsFiller (if d.literals.1 = 0 then emptyFiller else defaultFiller) := by
  split
  · exact Or.inl rfl
  · exact Or.inr (Or.inl rfl)

theorem count_decimal (i : ℤ) : (decimal i).count '\n' = 0 := by
  refine List.count_eq_zero.mpr ?_
  intro h
  exact absurd (isWhite_of_mem_decimal h) (by decide)

/-- A filler clause is one line. -/
theorem IsFiller.count {f : List Char} (h : IsFiller f) : f.count '\n' = 1 := by
  rcases h with rfl | rfl | ⟨q, rfl⟩
  · rfl
  · rfl
  · rw [quantifierFiller, List.count_append, List.count_append, List.count_append, count_decimal]
    rfl

theorem IsFiller.ne_nil {f : List Char} (h : IsFiller f) : f ≠ [] := by
  rintro rfl
  exact absurd h.count (by decide)

/-- A prefix keeps the header and the counter of the clauses, and leaves a filler
clause. -/
structure Quantified (c c' : Encoder) (o : Bool) : Prop where
  header : c'.header = c.header
  written : c'.written = c.written
  filler : IsFiller c'.filler
  state : BlockState o c'.state

/-- One quantifier. -/
theorem emit_quantifier {c : Encoder} {o o' : Bool} {q : Lit} (hf : IsFiller c.filler)
    (hc : BlockState o c.state) (ho : openBlock o [q] = some o') :
    ∃ s c', c.emit (.quantifier q) = some (s, c') ∧ Quantified c c' o' := by
  rcases eq_or_ne q 0 with rfl | hq
  · -- a zero closes the block
    cases o with
    | false => exact absurd ho (by simp [openBlock])
    | true =>
      obtain rfl : false = o' := Option.some.inj ho
      obtain ⟨d, st, f, w, k⟩ := c
      obtain ⟨e, rfl⟩ : ∃ e, st = openState e := hc
      have hemit : Encoder.emit ⟨d, openState e, f, w, k⟩ (.quantifier 0) =
          some (" 0\n".toList, ⟨d, .readingPrefix, f, w, k⟩) := by
        cases e <;> rfl
      exact ⟨_, _, hemit, rfl, rfl, hf, rfl⟩
  · obtain rfl : true = o' := by
      simp only [openBlock, if_neg hq] at ho
      exact Option.some.inj ho
    cases o with
    | true =>
      obtain ⟨e, he⟩ : ∃ e, c.state = openState e := hc
      exact ⟨_, _, emit_openState he hq, rfl, rfl, hf, _, rfl⟩
    | false =>
      obtain ⟨d, st, f, w, k⟩ := c
      obtain rfl : st = .readingPrefix := hc
      rcases lt_or_gt_of_ne (mt Lit.val_eq_zero.mp hq) with hneg | hpos
      · have hemit : Encoder.emit ⟨d, .readingPrefix, f, w, k⟩ (.quantifier q) =
            some ("a ".toList ++ decimal (-q.val), ⟨d, .readingForall, f, w, k + 1⟩) := by
          simp only [Encoder.emit, if_neg (not_lt.mpr hneg.le), if_pos hneg]
        exact ⟨_, _, hemit, rfl, rfl, hf, false, rfl⟩
      · have hemit : Encoder.emit ⟨d, .readingPrefix, f, w, k⟩ (.quantifier q) =
            some ("e ".toList ++ decimal q.val, ⟨d, .readingExists,
              if k = 0 then quantifierFiller q else f, w, k + 1⟩) := by
          simp only [Encoder.emit, if_pos hpos]
        refine ⟨_, _, hemit, rfl, rfl, ?_, true, rfl⟩
        change IsFiller (if k = 0 then quantifierFiller q else f)
        split
        · exact Or.inr (Or.inr ⟨q, rfl⟩)
        · exact hf

theorem openBlock_cons {o o' : Bool} {q : Lit} {qs : List Lit}
    (h : openBlock o (q :: qs) = some o') :
    ∃ o'', openBlock o [q] = some o'' ∧ openBlock o'' qs = some o' := by
  simp only [openBlock] at h ⊢
  split
  case isTrue h0 =>
    rw [if_pos h0] at h
    cases o with
    | true => exact ⟨false, rfl, h⟩
    | false => exact absurd h (by simp)
  case isFalse h0 =>
    rw [if_neg h0] at h
    exact ⟨true, rfl, h⟩

/-- **A prefix in blocks is read.** -/
theorem encode_quantifiers {c : Encoder} {o o' : Bool} {qs : List Lit} (hf : IsFiller c.filler)
    (hc : BlockState o c.state) (ho : openBlock o qs = some o') :
    ∃ s c', c.encode (qs.map .quantifier) = some (s, c') ∧ Quantified c c' o' := by
  induction qs generalizing c o with
  | nil =>
    obtain rfl := Option.some.inj ho
    exact ⟨[], c, rfl, rfl, rfl, hf, hc⟩
  | cons q qs ih =>
    obtain ⟨o'', h₁, h₂⟩ := openBlock_cons ho
    obtain ⟨s, c₁, hemit, hq⟩ := emit_quantifier hf hc h₁
    obtain ⟨s', c₂, htail, hq'⟩ := ih hq.filler hq.state h₂
    exact ⟨_, c₂, Encoder.encode_cons.mpr ⟨s, c₁, s', hemit, htail, rfl⟩,
      hq'.header.trans hq.header, hq'.written.trans hq.written, hq'.filler, hq'.state⟩

/-- The header and the prefix. -/
theorem encode_header {d : QuapiMsgHeaderData} {o : Bool} {qs : List Lit}
    (ho : openBlock false qs = some o) : ∃ t c,
      Encoder.init.encode (.header quapiApiVersion d :: qs.map .quantifier) =
        some (headerLine d ++ t, c) ∧ c.header = d ∧ c.written = 0 ∧ IsFiller c.filler ∧
      BlockState o c.state := by
  have hheader : Encoder.init.emit (.header quapiApiVersion d) = some (headerLine d,
      { Encoder.init with
        header := d
        state := .readingPrefix
        filler := if d.literals.1 = 0 then emptyFiller else defaultFiller }) := rfl
  obtain ⟨t, c, he, hq⟩ := encode_quantifiers (o := false) (c := { Encoder.init with
    header := d
    state := .readingPrefix
    filler := if d.literals.1 = 0 then emptyFiller else defaultFiller })
    (isFiller_header d) rfl ho
  exact ⟨t, c, Encoder.encode_cons.mpr ⟨_, _, t, hheader, he, rfl⟩, hq.header, hq.written,
    hq.filler, hq.state⟩

/-! ### Clauses, empty ones included -/

/-- The states with a case for every literal. -/
def TakesLiterals (st : QuapiPreloadState) : Prop := MayBegin st ∨ st = .readingClause

theorem MayBegin.ne_readingClause {st : QuapiPreloadState} (h : MayBegin st) :
    st ≠ .readingClause := by
  rintro rfl
  rcases h with h | h | ⟨e, h⟩
  · exact QuapiPreloadState.noConfusion h
  · exact QuapiPreloadState.noConfusion h
  · cases e <;> exact QuapiPreloadState.noConfusion h

/-- A literal is counted only where it closes a clause that has been started. -/
theorem emit_literal {c : Encoder} (hc : TakesLiterals c.state) (l : Lit) :
    ∃ s c', c.emit (.literal l) = some (s, c') ∧ TakesLiterals c'.state ∧
      c'.written = c.written + if c.state = .readingClause ∧ l = 0 then 1 else 0 := by
  have hz : l.val = 0 ↔ l = 0 := Lit.val_eq_zero
  obtain ⟨d, st, f, w, k⟩ := c
  rcases hc with hmay | hc
  · have hcount : w = w + if st = .readingClause ∧ l = 0 then 1 else 0 := by
      rw [if_neg fun h => hmay.ne_readingClause h.1, add_zero]
    rcases hmay with hc | hc | ⟨e, hc⟩
    · obtain rfl : st = .readingPrefix := hc
      refine ⟨_, _, rfl, ?_, hcount⟩
      change TakesLiterals (if l.val = 0 then .readingMatrix else .readingClause)
      split
      · exact Or.inl (Or.inr (Or.inl rfl))
      · exact Or.inr rfl
    · obtain rfl : st = .readingMatrix := hc
      refine ⟨_, _, rfl, ?_, hcount⟩
      change TakesLiterals (if l.val = 0 then .readingMatrix else .readingClause)
      split
      · exact Or.inl (Or.inr (Or.inl rfl))
      · exact Or.inr rfl
    · obtain rfl : st = openState e := hc
      cases e <;> exact ⟨_, _, rfl, Or.inr rfl, hcount⟩
  · obtain rfl : st = .readingClause := hc
    by_cases h0 : l = 0
    · have hemit : Encoder.emit ⟨d, .readingClause, f, w, k⟩ (.literal l) =
          some (" 0\n".toList, ⟨d, .readingMatrix, f, w + 1, k⟩) := by
        simp only [Encoder.emit, if_pos (hz.mpr h0)]
      refine ⟨_, _, hemit, Or.inl (Or.inr (Or.inl rfl)), ?_⟩
      rw [if_pos ⟨rfl, h0⟩]
    · have hemit : Encoder.emit ⟨d, .readingClause, f, w, k⟩ (.literal l) =
          some (' ' :: decimal l.val, ⟨d, .readingClause, f, w, k⟩) := by
        simp only [Encoder.emit, if_neg (mt hz.mp h0)]
      refine ⟨_, _, hemit, Or.inr rfl, ?_⟩
      rw [if_neg fun h => h0 h.2, add_zero]

/-- **A clause is read from every state that takes literals**, and counted at most once. -/
theorem encode_clause_le {c : Encoder} (hc : TakesLiterals c.state) (ls : List NzLit) :
    ∃ s c', c.encode (Api.clauseMsgs ls) = some (s, c') ∧ TakesLiterals c'.state ∧
      c'.written ≤ c.written + 1 := by
  induction ls generalizing c with
  | nil =>
    obtain ⟨s, c', he, ht, hw⟩ := emit_literal hc 0
    refine ⟨s ++ [], c', Encoder.encode_cons.mpr ⟨s, c', [], he, rfl, rfl⟩, ht, ?_⟩
    rw [hw]
    split <;> omega
  | cons l ls ih =>
    obtain ⟨s, c₁, he, ht, hw⟩ := emit_literal hc l.1
    obtain ⟨s', c', he', ht', hw'⟩ := ih ht
    refine ⟨s ++ s', c', Encoder.encode_cons.mpr ⟨s, c₁, s', he, he', rfl⟩, ht', ?_⟩
    rwa [hw, if_neg fun h => l.2 h.2, add_zero] at hw'

theorem encode_clauses_le {c : Encoder} (hc : TakesLiterals c.state)
    (clauses : List (List NzLit)) : ∃ s c',
      c.encode (clauses.flatMap Api.clauseMsgs) = some (s, c') ∧
        c'.written ≤ c.written + clauses.length := by
  induction clauses generalizing c with
  | nil => exact ⟨[], c, rfl, by simp⟩
  | cons ls clauses ih =>
    obtain ⟨s, c₁, he, ht, hw⟩ := encode_clause_le hc ls
    obtain ⟨s', c', he', hw'⟩ := ih ht
    refine ⟨s ++ s', c', Encoder.encode_append he he', ?_⟩
    rw [List.length_cons]
    push_cast
    omega

/-- **The first empty clause is not counted.** -/
theorem encode_clauses_lt {c : Encoder} (hc : MayBegin c.state) {clauses : List (List NzLit)}
    (h : [] ∈ clauses) : ∃ s c', c.encode (clauses.flatMap Api.clauseMsgs) = some (s, c') ∧
      c'.written < c.written + clauses.length := by
  induction clauses generalizing c with
  | nil => exact absurd h List.not_mem_nil
  | cons ls clauses ih =>
    rw [List.length_cons]
    push_cast
    rcases eq_or_ne ls [] with rfl | hls
    · obtain ⟨s, c₁, he, ht, hw⟩ := emit_literal (Or.inl hc) 0
      obtain ⟨s', c', he', hw'⟩ := encode_clauses_le ht clauses
      refine ⟨s ++ s', c', Encoder.encode_cons.mpr ⟨s, c₁, s', he, he', rfl⟩, ?_⟩
      rw [hw, if_neg fun h => hc.ne_readingClause h.1, add_zero] at hw'
      omega
    · obtain ⟨s', c', he', hw'⟩ := ih (c := { c with
        state := .readingMatrix, written := c.written + 1 }) (Or.inr (Or.inl rfl))
        ((List.mem_cons.mp h).resolve_left hls.symm)
      refine ⟨_, c', Encoder.encode_append (encode_clause hc hls) he', ?_⟩
      change c'.written < c.written + 1 + _ at hw'
      omega

/-! ### The integers of the matrix -/

/-- The literals of the clauses, each clause followed by a zero. -/
def matrixIntegers (clauses : List (List NzLit)) : List ℤ :=
  clauses.flatMap fun ls => ls.map (fun l => l.1.val) ++ [0]

theorem integers_clauseLine (ls : List NzLit) (text : List Char) :
    integers (clauseLine ls ++ text) =
      (integers text).map fun is => ls.map (fun l => l.1.val) ++ [0] ++ is := by
  induction ls with
  | nil =>
    have h0 := integers_decimal (c := '\n') rfl 0 text
    rw [decimal_zero] at h0
    exact h0
  | cons l ls ih =>
    have hline : clauseLine (l :: ls) ++ text =
        decimal l.1.val ++ ' ' :: (clauseLine ls ++ text) := by
      simp only [clauseLine, List.flatMap_cons, List.append_assoc, List.cons_append,
        List.nil_append]
    rw [hline, integers_decimal rfl, ih, Option.map_map]
    rfl

/-- **The lines of the clauses spell the clauses.** -/
theorem integers_clauses (clauses : List (List NzLit)) :
    integers (clauses.flatMap clauseLine) = some (matrixIntegers clauses) := by
  induction clauses with
  | nil => exact integers_nil
  | cons ls clauses ih =>
    rw [List.flatMap_cons, integers_clauseLine, ih]
    rfl

/-! ### The library -/

/-- **The calls of a list of clauses** write their messages and count every one of
them. -/
theorem Api.calls_clauses {env : Env} {a b : Api} {clauses : List (List NzLit)}
    (h : a.calls env (clauses.flatMap Api.clauseCalls) = some b) :
    b.toSeed = a.toSeed ++ clauses.flatMap Api.clauseMsgs ∧
      b.solver.writtenClauses = a.solver.writtenClauses + clauses.length := by
  induction clauses generalizing a with
  | nil =>
    obtain rfl := Option.some.inj h
    exact ⟨(List.append_nil _).symm, by simp⟩
  | cons ls clauses ih =>
    rw [List.flatMap_cons] at h
    obtain ⟨c, hc, hr⟩ := Machine.run_append_some.mp h
    obtain ⟨-, rfl⟩ := Api.calls_clause hc
    obtain ⟨hseed, hw⟩ := ih hr
    refine ⟨by rw [hseed, List.flatMap_cons, List.append_assoc], ?_⟩
    rw [hw, List.length_cons]
    push_cast
    change a.solver.writtenClauses + 1 + _ = _
    ring

/-! ### What the solver reads -/

/-- **The matrix is read faithfully** between the point where a process has read the prefix
(`p`) and the point where it has read the clauses (`q`): behind the end of the last
quantifier line, the text spells the clauses, and the two counters agree. -/
structure MatrixRead (clauses : List (List NzLit)) (p q : Reader) (s : QuapiSolver) : Prop where
  text : ∃ m, q.out ++ pending q.runtime.state = p.out ++ pending p.runtime.state ++ m ∧
    integers m = some (matrixIntegers clauses)
  written : q.runtime.writtenClauses = s.writtenClauses

theorem Reader.Waits.isSome {p : Reader} {c : Encoder} (h : p.Waits c) : p.blocked.isSome := by
  obtain ⟨n, -, hb⟩ := h.blocked
  rw [hb]
  rfl

section MatrixRead

variable {env : Env} {litcount clausecount maxassumptions : CInt}
  {regexes : Option ((List Char → Bool) × (List Char → Bool))} {s : QuapiSolver} {a b : Api}
  {qs : List Lit} {o : Bool} {clauses : List (List NzLit)} {sizes : ℕ → ℕ}

/-- The process reads the prefix, and then whatever the clauses are encoded as. -/
theorem reaches_matrix (hs : ∀ n, 0 < sizes n)
    (hinit : quapiInit litcount clausecount maxassumptions regexes = some s)
    (ho : openBlock false qs = some o)
    (hpre : (Api.start s).calls env (qs.map .quantify) = some a)
    (hclauses : a.calls env (clauses.flatMap Api.clauseCalls) = some b) :
    ∃ (p : Reader) (c : Encoder), Reader.Reaches sizes (Reader.start b.toSeed) p ∧ p.Waits c ∧
      p.input = clauses.flatMap Api.clauseMsgs ∧ BlockState o c.state ∧ c.written = 0 ∧
      b.solver.writtenClauses = clauses.length := by
  obtain ⟨-, hdr, -, rfl⟩ := quapiInit_cases hinit
  obtain ⟨⟨depth, w, rfl⟩, -⟩ := Api.calls_quantify hpre
  obtain ⟨hseed, hw⟩ := Api.calls_clauses hclauses
  rw [← openBlock_sentPrefix (maxassumptions.1 - 0)] at ho
  obtain ⟨t, c, he, -, hc0, -, hst⟩ := encode_header (d := ⟨litcount, hdr, maxassumptions⟩) ho
  obtain ⟨p₀, h₀, hw₀, -, hi₀⟩ := Reader.reaches_start hs b.toSeed
  obtain ⟨p, hp, hwait, -, hin⟩ := Reader.reaches_encode hs hw₀ (hi₀.trans hseed) he
  refine ⟨p, c, h₀.trans hp, hwait, hin, hst, hc0, hw.trans ?_⟩
  exact zero_add _

/-- **The matrix is faithful exactly when no clause is empty.** For every prefix in blocks
and every list of clauses, and for all positive sizes of the reads, the seeding process
comes to the end of the prefix and to the end of the clauses, and what it has read in
between is the matrix, with the clauses counted as the library counts them, if and only if
the list has no empty clause. -/
theorem matrix_read_iff (hs : ∀ n, 0 < sizes n)
    (hinit : quapiInit litcount clausecount maxassumptions regexes = some s)
    (ho : openBlock false qs = some o)
    (hpre : (Api.start s).calls env (qs.map .quantify) = some a)
    (hclauses : a.calls env (clauses.flatMap Api.clauseCalls) = some b) :
    ∃ p q, Reader.Reaches sizes (Reader.start b.toSeed) p ∧ p.blocked.isSome ∧
      p.input = clauses.flatMap Api.clauseMsgs ∧ Reader.Reaches sizes p q ∧
      q.blocked.isSome ∧ q.input = [] ∧
      (MatrixRead clauses p q b.solver ↔ ∀ ls ∈ clauses, ls ≠ []) := by
  obtain ⟨p, c, hp, hwait, hin, hst, hc0, hlib⟩ :=
    reaches_matrix hs hinit ho hpre hclauses
  have hmay := hst.mayBegin
  have hin' : p.input = clauses.flatMap Api.clauseMsgs ++ [] := hin.trans (List.append_nil _).symm
  by_cases hne : ∀ ls ∈ clauses, ls ≠ []
  · obtain ⟨q, hq, hwait', hout, hrest⟩ :=
      Reader.reaches_encode hs hwait hin' (encode_clauses hmay hne)
    refine ⟨p, q, hp, hwait.isSome, hin, hq, hwait'.isSome, hrest,
      fun _ => hne, fun _ => ⟨⟨clauses.flatMap clauseLine, ?_, integers_clauses clauses⟩, ?_⟩⟩
    · rw [hout, hwait.encodes.state, hwait'.encodes.state]
      change _ ++ pending (clausesState clauses c.state) = _
      rw [clausesPending, clausesState]
      split
      case isTrue h => rw [h, List.flatMap_nil, List.append_nil, List.append_nil, List.append_nil]
      case isFalse h =>
        change _ ++ [] = _
        rw [List.append_nil, List.append_assoc]
    · rw [hwait'.encodes.written, hlib]
      change c.written + _ = _
      rw [hc0, zero_add]
  · have hmem : [] ∈ clauses := by
      by_contra hmem
      exact hne fun ls hls hnil => hmem (hnil ▸ hls)
    obtain ⟨t, c', he, hlt⟩ := encode_clauses_lt hmay hmem
    obtain ⟨q, hq, hwait', -, hrest⟩ := Reader.reaches_encode hs hwait hin' he
    refine ⟨p, q, hp, hwait.isSome, hin, hq, hwait'.isSome, hrest, ?_, fun h => absurd h hne⟩
    intro h
    -- the runtime has counted a clause too few
    have hcount : c'.written = clauses.length := by
      rw [← hwait'.encodes.written, h.written, hlib]
    omega

/-- The clause `x₁ ∨ x₂` behind the prefix `∀x₁∃x₂`, with reads of three characters. -/
theorem forallExists_matrix : ∃ b p q,
    forallExistsApi.calls plainEnv ([[nzLit 1, nzLit 2]].flatMap Api.clauseCalls) = some b ∧
      Reader.Reaches (fun _ => 3) (Reader.start b.toSeed) p ∧
      Reader.Reaches (fun _ => 3) p q ∧ q.input = [] ∧
      MatrixRead [[nzLit 1, nzLit 2]] p q b.solver := by
  have hsome : (forallExistsApi.calls plainEnv
      ([[nzLit 1, nzLit 2]].flatMap Api.clauseCalls)).isSome = true := rfl
  obtain ⟨b, hb⟩ := Option.isSome_iff_exists.mp hsome
  have hinit : quapiInit ⟨2, by decide⟩ ⟨1, by decide⟩ ⟨1, by decide⟩ none =
      some forallExistsStart := rfl
  have hblock : openBlock false [lit (-1), lit 2] = some true := by decide
  have hpre : (Api.start forallExistsStart).calls plainEnv
      ([lit (-1), lit 2].map .quantify) = some forallExistsApi := rfl
  have hpos : ∀ n, 0 < (fun _ => 3 : ℕ → ℕ) n := fun _ => three_pos
  obtain ⟨p, q, hp, -, -, hq, -, hin, hiff⟩ := matrix_read_iff hpos hinit hblock hpre hb
  refine ⟨b, p, q, hb, hp, hq, hin, hiff.mpr ?_⟩
  intro ls hls
  obtain rfl := List.mem_singleton.mp hls
  exact List.cons_ne_nil _ _

/-- The library for five variables and two clauses. -/
def emptyFirstStart : QuapiSolver where
  header := ⟨.of 5, .of 2, .of 0⟩
  regexes := none
  stdoutCb := none
  state := .input
  universalPrefixDepth := -1
  writtenClauses := 0
  writtenAssumptions := 0
  writtenQuantifierLiterals := 0
  solverchildPid := none

/-- **The empty clause and the clause `x₅`** are read as the single clause `05 0`: the zero
of the first gets no white space behind it, and it is not counted. -/
theorem empty_clause_fused : ∃ b p q,
    quapiInit ⟨5, by decide⟩ ⟨2, by decide⟩ ⟨0, by decide⟩ none = some emptyFirstStart ∧
      (Api.start emptyFirstStart).calls plainEnv
        ([[], [nzLit 5]].flatMap Api.clauseCalls) = some b ∧
      Reader.Reaches (fun _ => 3) (Reader.start b.toSeed) p ∧ p.blocked.isSome ∧
      p.input = [[], [nzLit 5]].flatMap Api.clauseMsgs ∧ Reader.Reaches (fun _ => 3) p q ∧
      q.blocked.isSome ∧ q.input = [] ∧ q.out = p.out ++ "05 0\n".toList ∧
      q.runtime.writtenClauses = 1 ∧ b.solver.writtenClauses = 2 ∧
      ¬MatrixRead [[], [nzLit 5]] p q b.solver := by
  have hsome : ((Api.start emptyFirstStart).calls plainEnv
      ([[], [nzLit 5]].flatMap Api.clauseCalls)).isSome = true := rfl
  obtain ⟨b, hb⟩ := Option.isSome_iff_exists.mp hsome
  have hinit : quapiInit ⟨5, by decide⟩ ⟨2, by decide⟩ ⟨0, by decide⟩ none =
      some emptyFirstStart := rfl
  have hpre : (Api.start emptyFirstStart).calls plainEnv
      (([] : List Lit).map .quantify) = some (Api.start emptyFirstStart) := rfl
  have hpos : ∀ n, 0 < (fun _ => 3 : ℕ → ℕ) n := fun _ => three_pos
  have hblock : openBlock false [] = some false := rfl
  obtain ⟨p, c, hp, hwait, hin, hst, hc0, hlib⟩ := reaches_matrix hpos hinit hblock hpre hb
  have he : c.encode ([[], [nzLit 5]].flatMap Api.clauseMsgs) = some ("05 0\n".toList,
      { c with state := .readingMatrix, written := c.written + 1 }) := by
    obtain ⟨d, st, f, w, k⟩ := c
    obtain rfl : st = .readingPrefix := hst
    rfl
  obtain ⟨q, hq, hwait', hout, hrest⟩ := Reader.reaches_encode hpos hwait
    (hin.trans (List.append_nil _).symm) he
  have hw : q.runtime.writtenClauses = 1 := by
    rw [hwait'.encodes.written]
    change c.written + 1 = 1
    rw [hc0, zero_add]
  refine ⟨b, p, q, hinit, hb, hp, hwait.isSome, hin, hq, hwait'.isSome, hrest, hout, hw, hlib, ?_⟩
  intro h
  have hcount : (1 : ℤ) = 2 := by
    rw [← hw, h.written, hlib]
    rfl
  exact absurd hcount (by decide)

end MatrixRead

end QuAPI
