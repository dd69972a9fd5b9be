import QuAPI.Filler
import QuAPI.Quapify.RoundTrip

/-!
# The formula in a text

What the parser reports of a text is a formula (`QuAPI.Quapify.readFormula`): the quantifiers in
their order, and the clauses that a zero closes. A solver that is right about its input is right
about this formula.

For the text that the child of a round reads, it is the formula that the session has asked about
(`QuAPI.Quapify.holds_roundText_iff`): the text is true if and only if the given formula is true
under the assumptions (`QuAPI.Quapify.Asked`). The text has another prefix, with leading
quantifiers turned, and other clauses, with a unit clause for each assumption and the filler
clauses.
-/

namespace QuAPI

open Qbf (Quant)

namespace Quapify

/-! ### Formulas -/

/-- The quantifiers that are reported. -/
def callbackPrefix (calls : List Callback) : List (Quant × ℕ) :=
  calls.filterMap fun
    | .addQuantifier i => some (if 0 < i then .ex else .all, i.natAbs)
    | .addLit _ => none

/-- The clauses that are reported, behind the literals of the clause that is open. -/
def callbackClauses : List ℤ → List Callback → List (List ℤ)
  | _, [] => []
  | ls, .addQuantifier _ :: calls => callbackClauses ls calls
  | ls, .addLit i :: calls =>
    if i = 0 then ls :: callbackClauses [] calls else callbackClauses (ls ++ [i]) calls

/-- A prenex formula in conjunctive normal form. -/
structure Formula where
  quants : List (Quant × ℕ)
  clauses : List (List ℤ)
deriving DecidableEq

/-- The formula that is read from a text. -/
def readFormula (strict : Strictness) (text : List Char) : Option Formula :=
  match kissatParseDimacs strict text with
  | (calls, none) => some ⟨callbackPrefix calls, callbackClauses [] calls⟩
  | (_, some _) => none

/-- The truth of the clauses. -/
def ClausesSat (clauses : List (List ℤ)) (v : ℕ → Bool) : Prop :=
  ∀ c ∈ clauses, ∃ i ∈ c, v i.natAbs = decide (0 < i)

/-- **The truth of a formula**, free variables being existential. -/
def Formula.Holds (f : Formula) : Prop := ∃ v, Qbf.Valid f.quants (ClausesSat f.clauses) v

section

variable {qs : List Lit} {clauses : List (List NzLit)} {v : ℕ → Bool}

theorem callbackPrefix_append (calls more : List Callback) :
    callbackPrefix (calls ++ more) = callbackPrefix calls ++ callbackPrefix more :=
  List.filterMap_append

/-- Clauses report no quantifier. -/
theorem callbackPrefix_clauses (clauses : List (List NzLit)) :
    callbackPrefix (clauses.flatMap clauseCallbacks) = [] := by
  refine List.filterMap_eq_nil_iff.mpr ?_
  intro c hc
  obtain ⟨ls, -, hls⟩ := List.mem_flatMap.mp hc
  rcases List.mem_append.mp hls with hls | hls
  · obtain ⟨l, -, rfl⟩ := List.mem_map.mp hls
    rfl
  · rw [List.mem_singleton.mp hls]

theorem callbackPrefix_quantifiers (hq : ∀ q ∈ qs, q ≠ 0) :
    callbackPrefix (prefixCallbacks qs) = qs.map Lit.quantifier := by
  have hfilter : qs.filter (· ≠ 0) = qs :=
    List.filter_eq_self.mpr fun q h => decide_eq_true (hq q h)
  rw [prefixCallbacks, hfilter, callbackPrefix, List.filterMap_map]
  exact congrFun (List.filterMap_eq_map (f := Lit.quantifier)) qs

/-- Quantifiers close no clause. -/
theorem callbackClauses_quantifiers (calls : List Callback) :
    callbackClauses [] (prefixCallbacks qs ++ calls) = callbackClauses [] calls := by
  rw [prefixCallbacks]
  induction qs.filter (· ≠ 0) with
  | nil => rfl
  | cons q qs ih => exact ih

/-- The clause that is open is closed by its zero. -/
theorem callbackClauses_clause (rest : List ℤ) (ls : List NzLit) (calls : List Callback) :
    callbackClauses rest (clauseCallbacks ls ++ calls) =
      (rest ++ ls.map fun l => l.1.val) :: callbackClauses [] calls := by
  induction ls generalizing rest with
  | nil =>
    rw [List.map_nil, List.append_nil]
    rfl
  | cons l ls ih =>
    have hl : l.1.val ≠ 0 := mt Lit.val_eq_zero.mp l.2
    rw [clauseCallbacks_cons, List.cons_append, callbackClauses, if_neg hl, ih, List.map_cons,
      List.append_assoc, List.singleton_append]

theorem callbackClauses_clauses (clauses : List (List NzLit)) :
    callbackClauses [] (clauses.flatMap clauseCallbacks) =
      clauses.map fun ls => ls.map fun l => l.1.val := by
  induction clauses with
  | nil => rfl
  | cons ls clauses ih => rw [List.flatMap_cons, callbackClauses_clause, ih, List.nil_append,
      List.map_cons]

theorem clausesSat_map :
    ClausesSat (clauses.map fun ls => ls.map fun l => l.1.val) v ↔ MatrixSat clauses v := by
  rw [ClausesSat, MatrixSat, List.forall_mem_map]
  refine forall₂_congr ?_
  intro ls _
  constructor
  · rintro ⟨i, hi, hv⟩
    obtain ⟨l, hl, rfl⟩ := List.mem_map.mp hi
    exact ⟨l, hl, hv⟩
  · rintro ⟨l, hl, hv⟩
    exact ⟨l.1.val, List.mem_map_of_mem hl, hv⟩

/-- **The formula of a prefix and clauses**, read from a text that reports them. -/
theorem holds_of_reported {strict : Strictness} {text : List Char} (hq : ∀ q ∈ qs, q ≠ 0)
    (htext : kissatParseDimacs strict text =
      (prefixCallbacks qs ++ clauses.flatMap clauseCallbacks, none)) :
    ∃ f, readFormula strict text = some f ∧
      (f.Holds ↔ ∃ v, Qbf.Valid (qs.map Lit.quantifier) (MatrixSat clauses) v) := by
  refine ⟨_, by rw [readFormula, htext], exists_congr fun v => ?_⟩
  simp only [callbackPrefix_append, callbackPrefix_clauses, List.append_nil,
    callbackPrefix_quantifiers hq, callbackClauses_quantifiers, callbackClauses_clauses]
  exact Qbf.valid_congr fun v => clausesSat_map

end

/-! ### The text of a round -/

/-- Messages of a prefix and clauses, without a FORK. -/
theorem seedRead_formula {d : QuapiMsgHeaderData} {qs : List Lit} (hq : ∀ q ∈ qs, q ≠ 0)
    {clauses : List (List NzLit)} (hne : ∀ ls ∈ clauses, ls ≠ []) :
    SeedRead d (prefixText d qs) clauses (.header quapiApiVersion d ::
      (qs.map .quantifier ++ clauses.flatMap Api.clauseMsgs)) := by
  -- on the clauses, the last one first
  induction clauses using List.reverseRecOn with
  | nil =>
    rw [List.flatMap_nil, List.append_nil]
    exact seedRead_prefix hq
  | append_singleton clauses ls ih =>
    have hread := (ih fun l hl => hne l (List.mem_append_left _ hl)).clause
      (hne ls (List.mem_append_right _ (List.mem_singleton.mpr rfl)))
    rw [List.flatMap_append, List.flatMap_singleton]
    simpa only [List.cons_append, List.append_assoc] using hread

/-- A prefix without zeros is one open block. -/
theorem openBlock_isSome {qs : List Lit} (hq : ∀ q ∈ qs, q ≠ 0) (o : Bool) :
    (openBlock o qs).isSome := by
  induction qs generalizing o with
  | nil => rfl
  | cons q qs ih =>
    rw [openBlock, if_neg (hq q List.mem_cons_self)]
    exact ih (fun p hp => hq p (List.mem_cons_of_mem _ hp)) true

/-- **What a header has room for**: all variables are announced, and there are no more clauses and
assumptions than announced. -/
structure Fits (d : QuapiMsgHeaderData) (qs : List Lit) (clauses : List (List NzLit))
    (accepted : List NzLit) : Prop where
  vars : 0 < d.literals.1
  quants : ∀ q ∈ qs, |q.val| ≤ d.literals.1
  matrix : ∀ ls ∈ clauses, ∀ l ∈ ls, |l.1.val| ≤ d.literals.1
  assumptions : ∀ l ∈ accepted, |l.1.val| ≤ d.literals.1
  one : 1 ≤ d.clauses.1
  room : (clauses.length : ℤ) + accepted.length ≤ d.clauses.1

/-- The clauses that fill a round up. -/
def fillers (d : QuapiMsgHeaderData) (qs : List Lit) (r : Round) : List (List NzLit) :=
  List.replicate (d.clauses.1 - (r.clauses.length + r.accepted.length)).toNat (fillerClause d qs)

section

variable {d : QuapiMsgHeaderData} {qs : List Lit} {r : Round}

/-- **The text of a round is accepted**, and it is the prefix, the clauses, the assumptions and
the filler clauses. -/
theorem parse_roundText (strict : Strictness) (hq : ∀ q ∈ qs, q ≠ 0)
    (hne : ∀ ls ∈ r.clauses, ls ≠ []) (hclosed : qs = [] ∨ r.clauses ≠ [])
    (hfits : Fits d qs r.clauses r.accepted) :
    kissatParseDimacs strict (roundText d (prefixText d qs) r) = (prefixCallbacks qs ++
      (r.clauses ++ (units r.accepted ++ fillers d qs r)).flatMap clauseCallbacks, none) := by
  obtain ⟨o, ho⟩ := Option.isSome_iff_exists.mp (openBlock_isSome hq false)
  obtain ⟨t, c, he, -, -, -, hmay, ht, hp⟩ := seedRead_formula (d := d) hq hne
  have hpend : pending c.state = [] := hp (hclosed.imp_left fun h => by rw [h]; rfl)
  rw [hpend, List.append_nil] at ht
  have hlines : roundText d (prefixText d qs) r =
      headerLine d ++ t ++ (units r.accepted ++ fillers d qs r).flatMap clauseLine := by
    rw [roundText, ht, fillers, List.flatMap_append, List.flatMap_replicate,
      clauseLine_fillerClause, units, List.flatMap_map]
    simp only [List.append_assoc]
    rfl
  rw [hlines]
  refine parse_formula ho hne hfits.vars.le hfits.one hfits.quants ?_ ?_ he
    (hmay.of_pending hpend)
  · intro ls hls l hl
    rcases List.mem_append.mp hls with hls | hls
    · exact hfits.matrix ls hls l hl
    rcases List.mem_append.mp hls with hls | hls
    · obtain ⟨a, ha, rfl⟩ := List.mem_map.mp hls
      exact List.mem_singleton.mp hl ▸ hfits.assumptions a ha
    · rw [List.eq_of_mem_replicate hls] at hl
      have hvars := hfits.vars
      have hfill : l.1.val.natAbs ≤ d.literals.1.toNat := by
        refine fillerClause_le (fun _ => by omega) ?_ l hl
        intro q hq
        have hle := hfits.quants q hq
        rw [Int.abs_eq_natAbs] at hle
        omega
      rw [Int.abs_eq_natAbs]
      omega
  · have hroom := hfits.room
    rw [List.length_append, length_units, fillers, List.length_replicate]
    push_cast
    omega

/-- The filler clauses of a header with variables are tautologies. -/
theorem tautology_fillerClause (hd : d.literals.1 ≠ 0) (qs : List Lit) :
    Tautology (fillerClause d qs) := by
  have hheader : Tautology (headerFiller d) := by
    rw [headerFiller, if_neg hd]
    exact tautology_quantifier (nzLit (-1)).2
  cases qs with
  | nil => exact hheader
  | cons q qs =>
    rw [fillerClause]
    split
    · exact tautology_quantifier _
    · exact hheader

end

/-! ### Solving under assumptions -/

/-- **The question of a round**: is the formula true under the assumptions? An assumed variable
has its value, and is quantified no more. -/
def Asked (qs : List NzLit) (clauses : List (List NzLit)) (accepted : List NzLit) : Prop :=
  ∃ v, Qbf.Agrees (pinsOf accepted) v ∧
    Qbf.Valid (Qbf.unpinned (pinsOf accepted) (qs.map fun q => q.1.quantifier))
      (MatrixSat clauses) v

/-- **The assumptions decide the leading universal variables**, the first `k` variables of the
prefix being the leading ones, and no other universal variable. -/
def Decides (k : ℤ) (qs : List NzLit) (accepted : List NzLit) : Prop :=
  ∀ (i : ℕ) (hi : i < qs.length), qs[i].1.val < 0 →
    (i < k ↔ qs[i].1.var ∈ accepted.map fun l => l.1.var)

instance (k : ℤ) (qs accepted : List NzLit) : Decidable (Decides k qs accepted) :=
  inferInstanceAs (Decidable (∀ (i : ℕ) (hi : i < qs.length), qs[i].1.val < 0 → (_ ↔ _)))

section

variable {k : ℤ} {qs : List NzLit} {accepted : List NzLit} {clauses : List (List NzLit)}
  {v : ℕ → Bool}

theorem val_ne_zero (qs : List NzLit) : ∀ q ∈ qs.map Subtype.val, q ≠ 0 :=
  List.forall_mem_map.mpr fun q _ => q.2

theorem fst_pinsOf (accepted : List NzLit) :
    (pinsOf accepted).map Prod.fst = accepted.map fun l => l.1.var := by
  rw [pinsOf, List.map_map]
  rfl

/-- Turning quantifiers keeps the variables. -/
theorem vars_sentPrefix (k : ℤ) (qs : List Lit) :
    ((Api.sentPrefix k qs).map Lit.quantifier).map Prod.snd = qs.map Lit.var := by
  induction qs generalizing k with
  | nil => rfl
  | cons q qs ih =>
    rw [Api.sentPrefix, List.map_cons, List.map_cons, List.map_cons, ih]
    refine congrArg (· :: _) ?_
    change Lit.var _ = _
    split
    · exact Lit.var_neg q
    · rfl

theorem Decides.tail {q : NzLit} (h : Decides k (q :: qs) accepted) :
    Decides (k - 1) qs accepted := by
  intro i hi hneg
  refine Iff.trans ?_ (h (i + 1) (Nat.succ_lt_succ hi) hneg)
  push_cast
  omega

/-- The head of the prefix: it is turned exactly where it is universal and assumed. -/
theorem Decides.head {q : NzLit} (h : Decides k (q :: qs) accepted) :
    (0 < k ∧ q.1.val < 0) ↔ q.1.val < 0 ∧ q.1.var ∈ accepted.map fun l => l.1.var := by
  constructor
  · exact fun hq => ⟨hq.2, (h 0 (Nat.zero_lt_succ _) hq.2).mp hq.1⟩
  · exact fun hq => ⟨(h 0 (Nat.zero_lt_succ _) hq.1).mpr hq.2, hq.1⟩

/-- **What is sent has the quantifiers that were given**, but for those of assumed variables, and
no assumed variable is universal. -/
theorem Decides.sent (h : Decides k qs accepted) :
    Qbf.unpinned (pinsOf accepted) ((Api.sentPrefix k (qs.map Subtype.val)).map Lit.quantifier) =
        Qbf.unpinned (pinsOf accepted) (qs.map fun q => q.1.quantifier) ∧
      ∀ x ∈ (pinsOf accepted).map Prod.fst,
        (Quant.all, x) ∉ (Api.sentPrefix k (qs.map Subtype.val)).map Lit.quantifier := by
  induction qs generalizing k with
  | nil => exact ⟨rfl, fun _ _ => List.not_mem_nil⟩
  | cons q qs ih =>
    obtain ⟨hsame, hall⟩ := ih h.tail
    have hhead := h.head
    rw [List.map_cons, Api.sentPrefix, if_neg q.2, List.map_cons, List.map_cons]
    by_cases hflip : 0 < k ∧ q.1.val < 0
    · have hmem : q.1.var ∈ (pinsOf accepted).map Prod.fst :=
        (fst_pinsOf accepted).symm ▸ (hhead.mp hflip).2
      have hquant : (-q.1).quantifier = (Quant.ex, q.1.var) := by
        rw [Lit.quantifier, Lit.var_neg, if_pos]
        rw [Lit.val_neg]
        omega
      rw [if_pos hflip, hquant]
      refine ⟨?_, ?_⟩
      · rw [Qbf.unpinned_cons_of_mem hmem, Qbf.unpinned_cons_of_mem hmem]
        exact hsame
      · intro x hx hc
        rcases List.mem_cons.mp hc with hc | hc
        · exact Quant.noConfusion (Prod.mk.inj hc).1
        · exact hall x hx hc
    · rw [if_neg hflip]
      refine ⟨?_, ?_⟩
      · rw [Qbf.unpinned, Qbf.unpinned, List.filter_cons, List.filter_cons]
        exact if_congr Iff.rfl (congrArg _ hsame) hsame
      · intro x hx hc
        rcases List.mem_cons.mp hc with hc | hc
        · -- a universal head that is assumed would have been turned
          rw [Lit.quantifier] at hc
          split at hc
          case isTrue => exact Quant.noConfusion (Prod.mk.inj hc).1
          case isFalse hneg =>
            have hval : q.1.val ≠ 0 := mt Lit.val_eq_zero.mp q.2
            obtain ⟨-, rfl⟩ := Prod.mk.inj hc
            exact hflip (hhead.mpr ⟨by omega, fst_pinsOf accepted ▸ hx⟩)
        · exact hall x hx hc

/-- **What is sent is the question.** -/
theorem Decides.asked_iff (h : Decides k qs accepted) (hn : (qs.map fun q => q.1.var).Nodup) :
    (∃ v, Qbf.Valid ((Api.sentPrefix k (qs.map Subtype.val)).map Lit.quantifier)
        (MatrixSat (clauses ++ units accepted)) v) ↔ Asked qs clauses accepted := by
  obtain ⟨hsame, hall⟩ := h.sent
  have hn' : (((Api.sentPrefix k (qs.map Subtype.val)).map Lit.quantifier).map
      Prod.snd).Nodup := by
    rw [vars_sentPrefix, List.map_map]
    exact hn
  refine (exists_congr fun v => Qbf.valid_congr fun v => matrixSat_assumptions).trans ?_
  rw [Qbf.exists_valid_pins hn' hall, hsame]
  rfl

/-- **The formula in the text of a round** is the question of the round. -/
theorem holds_roundText_iff {d : QuapiMsgHeaderData} {r : Round} (strict : Strictness)
    (hdecides : Decides k qs r.accepted) (hn : (qs.map fun q => q.1.var).Nodup)
    (hne : ∀ ls ∈ r.clauses, ls ≠ []) (hclosed : qs = [] ∨ r.clauses ≠ [])
    (hfits : Fits d (Api.sentPrefix k (qs.map Subtype.val)) r.clauses r.accepted) :
    ∃ f, readFormula strict (roundText d
        (prefixText d (Api.sentPrefix k (qs.map Subtype.val))) r) = some f ∧
      (f.Holds ↔ Asked qs r.clauses r.accepted) := by
  have hsent := Api.sentPrefix_ne_zero (k := k) (val_ne_zero qs)
  have hparse := parse_roundText strict hsent hne (hclosed.imp_left fun h => by rw [h]; rfl) hfits
  obtain ⟨f, hf, hholds⟩ := holds_of_reported hsent hparse
  refine ⟨f, hf, ?_⟩
  rw [hholds, fillers, ← List.append_assoc]
  refine (exists_congr fun v => ?_).trans (hdecides.asked_iff hn)
  exact valid_fillers (tautology_fillerClause hfits.vars.ne' _) _

end

end Quapify

end QuAPI
