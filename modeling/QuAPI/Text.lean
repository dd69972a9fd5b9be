import QuAPI.Runtime.Encoder
import QuAPI.Session
import Mathlib.Data.List.SplitBy

/-!
# The text of a prefix and of a list of clauses

What the encoder makes of the messages of a session, in the words of the DIMACS format:

* `QuAPI.prefixLines`: one line for each maximal run of equal quantifiers
  (`QuAPI.encode_prefix`), the last of them left open until the first clause;
* `QuAPI.clauseLine`: one line for each clause (`QuAPI.encode_clauses`);
* `QuAPI.fillerOf`: the filler clause that header and prefix leave.

The separators are the only difficulty: a space in front of every literal but the first
of a line, and the ` 0\n` that closes a block, which is written by whatever comes next.
-/

namespace QuAPI

/-! ### Lines -/

/-- The line of a clause. -/
def clauseLine (ls : List NzLit) : List Char :=
  ls.flatMap (fun l => decimal l.1.val ++ [' ']) ++ ['0', '\n']

/-- The letter of a quantifier. -/
def quantifierLetter (q : Lit) : Char := if 0 < q.val then 'e' else 'a'

/-- A line of quantifiers, without its end. -/
def openLine : List Lit → List Char
  | [] => []
  | q :: qs => quantifierLetter q :: (q :: qs).flatMap fun p => ' ' :: decimal |p.val|

/-- The end of a line of quantifiers. -/
def closing : List Char := [' ', '0', '\n']

/-- The prefix, one line for each maximal run of equal quantifiers. -/
def prefixLines (qs : List Lit) : List Char :=
  (qs.splitBy fun p q => decide (0 < p.val) == decide (0 < q.val)).flatMap fun b =>
    openLine b ++ closing

/-- The filler clause for a header and a prefix. -/
def fillerOf (d : QuapiMsgHeaderData) (qs : List Lit) : List Char :=
  match qs with
  | q :: _ =>
    if 0 < q.val then quantifierFiller q
    else if d.literals.1 = 0 then emptyFiller else defaultFiller
  | [] => if d.literals.1 = 0 then emptyFiller else defaultFiller

/-! ### The prefix -/

/-- The text of the quantifiers after an open line of existential (`e`) or universal
quantifiers. -/
def openTail : Bool → List Lit → List Char
  | _, [] => []
  | e, q :: qs =>
    (if decide (0 < q.val) = e then ' ' :: decimal |q.val|
      else closing ++ quantifierLetter q :: ' ' :: decimal |q.val|) ++
    openTail (decide (0 < q.val)) qs

/-- The state that reads the rest of an open line. -/
def openState : Bool → QuapiPreloadState
  | true => .readingExists
  | false => .readingForall

theorem openLine_concat {b : List Lit} (hb : b ≠ []) (q : Lit) :
    openLine (b ++ [q]) = openLine b ++ ' ' :: decimal |q.val| := by
  cases b with
  | nil => exact absurd rfl hb
  | cons p b =>
    simp only [List.cons_append, openLine, List.flatMap_cons, List.flatMap_append,
      List.flatMap_nil, List.append_nil, List.append_assoc]

/-- A prefix of equal quantifiers is one line. -/
theorem prefixLines_of_forall {e : Bool} {b : List Lit} (hb : b ≠ [])
    (he : ∀ p ∈ b, decide (0 < p.val) = e) : prefixLines b = openLine b ++ closing := by
  have hchain : b.IsChain fun p q => (decide (0 < p.val) == decide (0 < q.val)) = true :=
    List.Pairwise.isChain (List.pairwise_of_forall_mem_list fun p hp q hq => by
      rw [he p hp, he q hq]
      exact beq_self_eq_true e)
  rw [prefixLines, List.splitBy_of_isChain hb hchain, List.flatMap_singleton]

/-- A change of quantifier starts a new line. -/
theorem prefixLines_append {e : Bool} {b qs : List Lit} {q : Lit}
    (he : ∀ p ∈ b, decide (0 < p.val) = e) (hq : decide (0 < q.val) ≠ e) :
    prefixLines (b ++ q :: qs) = prefixLines b ++ prefixLines (q :: qs) := by
  rw [prefixLines, List.splitBy_append_cons, List.flatMap_append]
  · rfl
  · intro p hp
    rw [he p (List.mem_of_getLast? hp)]
    exact beq_eq_false_iff_ne.mpr (Ne.symm hq)

/-- **The open line of a prefix**, with the rest and its end, is the lines of the prefix. -/
theorem openLine_openTail {e : Bool} {b qs : List Lit} (hb : b ≠ [])
    (he : ∀ p ∈ b, decide (0 < p.val) = e) :
    openLine b ++ openTail e qs ++ closing = prefixLines (b ++ qs) := by
  -- on the rest of the prefix, the open line growing
  induction qs generalizing b e with
  | nil => rw [openTail, List.append_nil, List.append_nil, prefixLines_of_forall hb he]
  | cons q qs ih =>
    by_cases hq : decide (0 < q.val) = e
    · have hgrow : openLine (b ++ [q]) ++ openTail e qs ++ closing = prefixLines (b ++ [q] ++ qs) :=
        ih (by simp) fun p hp => by
          rcases List.mem_append.mp hp with hp | hp
          · exact he p hp
          · rw [List.mem_singleton.mp hp]
            exact hq
      rw [openLine_concat hb, List.append_assoc b, List.singleton_append] at hgrow
      rw [← hgrow, openTail, if_pos hq, hq]
      simp only [List.append_assoc, List.cons_append]
    · have hnext : openLine [q] ++ openTail (decide (0 < q.val)) qs ++ closing =
          prefixLines (q :: qs) :=
        ih (List.cons_ne_nil _ _) fun p hp => by rw [List.mem_singleton.mp hp]
      have hline : openLine [q] = quantifierLetter q :: ' ' :: decimal |q.val| := by
        rw [openLine, List.flatMap_singleton]
      rw [prefixLines_append he hq, prefixLines_of_forall hb he, openTail, if_neg hq,
        ← hnext, hline]
      simp only [List.append_assoc, List.cons_append]

theorem emit_openState {c : Encoder} {e : Bool} {q : Lit} (hc : c.state = openState e)
    (hq : q ≠ 0) : c.emit (.quantifier q) = some
      (if decide (0 < q.val) = e then ' ' :: decimal |q.val|
        else closing ++ quantifierLetter q :: ' ' :: decimal |q.val|,
      { c with state := openState (decide (0 < q.val)), quantifiers := c.quantifiers + 1 }) := by
  obtain ⟨d, st, f, w, k⟩ := c
  obtain rfl : st = openState e := hc
  rcases lt_trichotomy q.val 0 with hneg | h0 | hpos
  · have hle : ¬0 < q.val := not_lt.mpr (le_of_lt hneg)
    rw [abs_of_neg hneg, decide_eq_false hle, quantifierLetter, if_neg hle]
    cases e with
    | true =>
      simp only [Encoder.emit, openState, if_pos hneg]
      rfl
    | false =>
      simp only [Encoder.emit, openState, if_pos hneg, if_neg hle]
      rfl
  · exact absurd (Lit.val_eq_zero.mp h0) hq
  · have hle : ¬q.val < 0 := not_lt.mpr (le_of_lt hpos)
    rw [abs_of_pos hpos, decide_eq_true hpos, quantifierLetter, if_pos hpos]
    cases e with
    | true =>
      simp only [Encoder.emit, openState, if_pos hpos, if_neg hle]
      rfl
    | false =>
      simp only [Encoder.emit, openState, if_pos hpos]
      rfl

/-- The rest of a prefix whose first line is open. -/
theorem encode_openTail {c : Encoder} {e : Bool} {qs : List Lit} (hc : c.state = openState e)
    (hq : ∀ q ∈ qs, q ≠ 0) : ∃ e', c.encode (qs.map .quantifier) = some (openTail e qs,
      { c with state := openState e', quantifiers := c.quantifiers + qs.length }) := by
  induction qs generalizing c e with
  | nil => exact ⟨e, by rw [← hc]; rfl⟩
  | cons q qs ih =>
    have hemit := emit_openState hc (hq q List.mem_cons_self)
    obtain ⟨e', htail⟩ := ih (c := { c with
      state := openState (decide (0 < q.val)), quantifiers := c.quantifiers + 1 }) rfl
      fun p hp => hq p (List.mem_cons_of_mem _ hp)
    refine ⟨e', Encoder.encode_cons.mpr ⟨_, _, _, hemit, htail.trans ?_, rfl⟩⟩
    rw [List.length_cons, Nat.add_assoc, Nat.add_comm 1]

/-- The state that gets the first message after a prefix. -/
def PrefixState : List Lit → QuapiPreloadState → Prop
  | [], st => st = .readingPrefix
  | _ :: _, st => ∃ e, st = openState e

/-- The end of the last line of a prefix. -/
def closingOf : List Lit → List Char
  | [] => []
  | _ :: _ => closing

/-- **The messages of a prefix** are read as its lines, but for the end of the last one,
and choose the filler clause. -/
theorem encode_prefix {d : QuapiMsgHeaderData} {qs : List Lit} (hq : ∀ q ∈ qs, q ≠ 0) :
    ∃ t c, Encoder.init.encode (.header quapiApiVersion d :: qs.map .quantifier) =
        some (headerLine d ++ t, c) ∧
      c.header = d ∧ c.written = 0 ∧ c.filler = fillerOf d qs ∧ PrefixState qs c.state ∧
      t ++ closingOf qs = prefixLines qs := by
  have hheader : Encoder.init.emit (.header quapiApiVersion d) = some (headerLine d,
      { Encoder.init with
        header := d
        state := .readingPrefix
        filler := if d.literals.1 = 0 then emptyFiller else defaultFiller }) := rfl
  cases qs with
  | nil =>
    exact ⟨[], _, Encoder.encode_cons.mpr ⟨_, _, [], hheader, rfl, rfl⟩, rfl, rfl, rfl, rfl, rfl⟩
  | cons q qs =>
    have hq0 := hq q List.mem_cons_self
    have hfirst : ∀ c : Encoder, c.state = .readingPrefix → c.quantifiers = 0 →
        c.emit (.quantifier q) = some (quantifierLetter q :: ' ' :: decimal |q.val|, { c with
          state := openState (decide (0 < q.val))
          filler := if 0 < q.val then quantifierFiller q else c.filler
          quantifiers := 1 }) := by
      intro c hc hk
      rcases lt_trichotomy q.val 0 with hneg | h0 | hpos
      · have hle : ¬0 < q.val := not_lt.mpr (le_of_lt hneg)
        simp only [Encoder.emit, hc, hk, if_neg hle, if_pos hneg, abs_of_neg hneg,
          decide_eq_false hle, quantifierLetter]
        rfl
      · exact absurd (Lit.val_eq_zero.mp h0) hq0
      · simp only [Encoder.emit, hc, hk, if_pos hpos, abs_of_pos hpos, decide_eq_true hpos,
          quantifierLetter]
        rfl
    have hqs : ∀ p ∈ qs, p ≠ 0 := fun p hp => hq p (List.mem_cons_of_mem _ hp)
    obtain ⟨e', htail⟩ := encode_openTail (e := decide (0 < q.val)) (c := { Encoder.init with
      header := d
      state := openState (decide (0 < q.val))
      filler := fillerOf d (q :: qs)
      quantifiers := 1 }) rfl hqs
    refine ⟨_, _, Encoder.encode_cons.mpr ⟨_, _, _, hheader,
      Encoder.encode_cons.mpr ⟨_, _, _, hfirst _ rfl rfl, htail, rfl⟩, rfl⟩, rfl, rfl, rfl,
      ⟨e', rfl⟩, ?_⟩
    have hl : openLine [q] ++ openTail (decide (0 < q.val)) qs ++ closing =
        prefixLines (q :: qs) :=
      openLine_openTail (List.cons_ne_nil _ _) fun p hp => by rw [List.mem_singleton.mp hp]
    rw [openLine, List.flatMap_singleton] at hl
    exact hl

/-! ### Clauses -/

/-- What a state function writes in front of the first literal of a clause. -/
def pending : QuapiPreloadState → List Char
  | .readingExists => closing
  | .readingForall => closing
  | _ => []

/-- The states in which a clause may begin. -/
def MayBegin (st : QuapiPreloadState) : Prop :=
  st = .readingPrefix ∨ st = .readingMatrix ∨ ∃ e, st = openState e

theorem PrefixState.mayBegin {qs : List Lit} {st : QuapiPreloadState} (h : PrefixState qs st) :
    MayBegin st ∧ pending st = closingOf qs := by
  cases qs with
  | nil =>
    obtain rfl := h
    exact ⟨Or.inl rfl, rfl⟩
  | cons q qs =>
    obtain ⟨e, rfl⟩ := h
    refine ⟨Or.inr (Or.inr ⟨e, rfl⟩), ?_⟩
    cases e <;> rfl

/-- The literals of an open clause and its end. -/
theorem encode_openClause {c : Encoder} {ls : List NzLit} (hc : c.state = .readingClause) :
    c.encode (Api.clauseMsgs ls) = some (ls.flatMap (fun l => ' ' :: decimal l.1.val) ++ closing,
      { c with state := .readingMatrix, written := c.written + 1 }) := by
  obtain ⟨d, st, f, w, k⟩ := c
  obtain rfl : st = .readingClause := hc
  induction ls with
  | nil => rfl
  | cons l ls ih =>
    have hemit : Encoder.emit ⟨d, .readingClause, f, w, k⟩ (.literal l.1) =
        some (' ' :: decimal l.1.val, ⟨d, .readingClause, f, w, k⟩) := by
      simp only [Encoder.emit, if_neg l.val_ne_zero]
    refine Encoder.encode_cons.mpr ⟨_, _, _, hemit, ih, ?_⟩
    rw [List.flatMap_cons, List.append_assoc]

theorem clauseLine_cons (l : NzLit) (ls : List NzLit) : clauseLine (l :: ls) =
    decimal l.1.val ++ (ls.flatMap (fun l => ' ' :: decimal l.1.val) ++ closing) := by
  induction ls generalizing l with
  | nil => simp [clauseLine, closing]
  | cons p ls ih =>
    rw [clauseLine, List.flatMap_cons, List.append_assoc, ← clauseLine, ih p, List.flatMap_cons]
    simp only [List.append_assoc, List.cons_append, List.nil_append]

/-- The first literal of a clause. -/
theorem emit_first {c : Encoder} {l : NzLit} (hc : MayBegin c.state) :
    c.emit (.literal l.1) = some (pending c.state ++ decimal l.1.val,
      { c with state := .readingClause }) := by
  obtain ⟨d, st, f, w, k⟩ := c
  rcases hc with hc | hc | ⟨e, hc⟩
  · obtain rfl : st = .readingPrefix := hc
    simp only [Encoder.emit, if_neg l.val_ne_zero]
    rfl
  · obtain rfl : st = .readingMatrix := hc
    simp only [Encoder.emit, if_neg l.val_ne_zero]
    rfl
  · obtain rfl : st = openState e := hc
    cases e <;> rfl

/-- **A clause that is not empty is read as its line.** -/
theorem encode_clause {c : Encoder} {ls : List NzLit} (hc : MayBegin c.state) (hls : ls ≠ []) :
    c.encode (Api.clauseMsgs ls) = some (pending c.state ++ clauseLine ls,
      { c with state := .readingMatrix, written := c.written + 1 }) := by
  cases ls with
  | nil => exact absurd rfl hls
  | cons l ls =>
    refine Encoder.encode_cons.mpr ⟨_, _, _, emit_first hc, encode_openClause rfl, ?_⟩
    rw [clauseLine_cons, List.append_assoc]

/-- The state after a list of clauses. -/
def clausesState (clauses : List (List NzLit)) (st : QuapiPreloadState) : QuapiPreloadState :=
  if clauses = [] then st else .readingMatrix

/-- What a list of clauses writes in front of its first literal. -/
def clausesPending (clauses : List (List NzLit)) (st : QuapiPreloadState) : List Char :=
  if clauses = [] then [] else pending st

/-- **A list of clauses that are not empty is read as their lines.** -/
theorem encode_clauses {c : Encoder} {clauses : List (List NzLit)} (hc : MayBegin c.state)
    (hne : ∀ ls ∈ clauses, ls ≠ []) : c.encode (clauses.flatMap Api.clauseMsgs) =
      some (clausesPending clauses c.state ++ clauses.flatMap clauseLine,
        { c with
          state := clausesState clauses c.state
          written := c.written + clauses.length }) := by
  induction clauses generalizing c with
  | nil => exact congrArg some (Prod.ext rfl (by simp [clausesState]))
  | cons ls clauses ih =>
    have htail := ih (c := { c with state := .readingMatrix, written := c.written + 1 })
      (Or.inr (Or.inl rfl)) fun l hl => hne l (List.mem_cons_of_mem _ hl)
    have hpend : clausesPending clauses .readingMatrix = [] := by
      rw [clausesPending]
      split <;> rfl
    have hstate : clausesState clauses .readingMatrix = .readingMatrix := by
      rw [clausesState]
      split <;> rfl
    have hpend' : clausesPending (ls :: clauses) c.state = pending c.state :=
      if_neg (List.cons_ne_nil ls clauses)
    have hstate' : clausesState (ls :: clauses) c.state = .readingMatrix :=
      if_neg (List.cons_ne_nil ls clauses)
    simp only [hpend, hstate, List.nil_append] at htail
    rw [List.flatMap_cons, Encoder.encode_append (encode_clause hc (hne ls List.mem_cons_self))
      htail, hpend', hstate', List.flatMap_cons, List.append_assoc, List.length_cons]
    refine congrArg some (Prod.ext rfl ?_)
    simp only [Encoder.mk.injEq, true_and, and_true]
    push_cast
    ring

end QuAPI
