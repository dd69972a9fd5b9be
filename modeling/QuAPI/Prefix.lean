import QuAPI.Qbf
import QuAPI.Session

/-!
# The prefix rewriting preserves truth

QuAPI assumes over a quantified formula by turning its leading universal quantifiers into
existential ones and sending every assumption as a unit clause. Once the assumptions
cover the flipped quantifiers, the formula that is sent is true exactly when the rest of
the original one is true under the assumed values (`QuAPI.quantify_preserves_truth`).

What is sent is read off the messages (`QuAPI.prefixOf`); the semantic content is
`Qbf.valid_ex_pins`, and what remains here is the shape of the prefix that
`quapi_quantify` sends (`QuAPI.sentPrefix_quantifiers`): existential up to the last
assumption, and as given from there on.
-/

namespace QuAPI

open Qbf (Quant)

/-! ### The formula of a list of messages -/

/-- The variable of a literal. -/
def Lit.var (l : Lit) : ℕ := l.val.natAbs

/-- The value that makes a literal true. -/
def Lit.sign (l : Lit) : Bool := 0 < l.val

@[simp] theorem Lit.var_neg (l : Lit) : (-l).var = l.var := Int.natAbs_neg l.val

/-- The quantifier of a literal: existential for a positive one. -/
def Lit.quantifier (l : Lit) : Quant × ℕ := (if 0 < l.val then .ex else .all, l.var)

/-- The prefix that a list of messages announces. -/
def prefixOf (msgs : List QuapiMsg) : List (Quant × ℕ) :=
  msgs.filterMap fun
    | .quantifier l => if l = 0 then none else some l.quantifier
    | _ => none

/-- The truth of a list of clauses. -/
def MatrixSat (clauses : List (List NzLit)) (v : ℕ → Bool) : Prop :=
  ∀ c ∈ clauses, ∃ l ∈ c, v l.1.var = l.1.sign

/-- The variables of the assumptions, with the values they are given. -/
def pinsOf (assumptions : List NzLit) : List (ℕ × Bool) :=
  assumptions.map fun l => (l.1.var, l.1.sign)

theorem prefixOf_quantifiers {qs : List Lit} (hq : ∀ q ∈ qs, q ≠ 0) :
    prefixOf (qs.map .quantifier) = qs.map Lit.quantifier := by
  rw [prefixOf, List.filterMap_map]
  induction qs with
  | nil => rfl
  | cons q qs ih =>
    rw [List.filterMap_cons_some (b := q.quantifier)
      (by simp only [Function.comp, if_neg (hq q List.mem_cons_self)]), List.map_cons,
      ih fun p hp => hq p (List.mem_cons_of_mem _ hp)]

/-- Unit clauses prescribe the values of their variables. -/
theorem matrixSat_assumptions {clauses : List (List NzLit)} {assumptions : List NzLit}
    {v : ℕ → Bool} : MatrixSat (clauses ++ assumptions.map fun l => [l]) v ↔
      Qbf.Agrees (pinsOf assumptions) v ∧ MatrixSat clauses v := by
  simp only [MatrixSat, List.forall_mem_append, Qbf.Agrees, pinsOf, List.forall_mem_map,
    List.mem_singleton, exists_eq_left]
  exact and_comm

/-! ### The shape of the sent prefix -/

/-- **The sent prefix** is existential up to a position behind the last universal
quantifier that may be assumed, and as given from there on. -/
theorem sentPrefix_quantifiers {k : ℤ} {qs : List Lit} {m : ℕ} (hq : ∀ q ∈ qs, q ≠ 0)
    (hk : ∀ i : ℕ, i < m → i < k) (hm : m ≤ qs.length)
    (hlast : ∀ (i : ℕ) (hi : i < qs.length), i < k → qs[i].val < 0 → i < m) :
    (Api.sentPrefix k qs).map Lit.quantifier =
      ((qs.take m).map fun q => (Quant.ex, q.var)) ++ (qs.drop m).map Lit.quantifier := by
  induction qs generalizing k m with
  | nil =>
    rw [List.take_nil, List.drop_nil]
    rfl
  | cons q qs ih =>
    have hq0 : q ≠ 0 := hq q List.mem_cons_self
    have hqs : ∀ p ∈ qs, p ≠ 0 := fun p hp => hq p (List.mem_cons_of_mem _ hp)
    rw [Api.sentPrefix, if_neg hq0, List.map_cons]
    cases m with
    | zero =>
      -- no universal quantifier is left to flip
      have hhead : ¬(0 < k ∧ q.val < 0) := fun hc =>
        absurd (hlast 0 (Nat.zero_lt_succ _) hc.1 hc.2) (lt_irrefl 0)
      have htail := ih hqs (k := k - 1) (m := 0) (fun i hi => absurd hi (Nat.not_lt_zero i))
        (Nat.zero_le _) fun i hi hik hneg => absurd
          (hlast (i + 1) (Nat.succ_lt_succ hi) (by push_cast; omega) hneg) (Nat.not_lt_zero _)
      rw [if_neg hhead, htail]
      rfl
    | succ m =>
      have h0k : 0 < k := hk 0 (Nat.zero_lt_succ m)
      have htail := ih hqs (k := k - 1) (m := m)
        (fun i hi => by have := hk (i + 1) (Nat.succ_lt_succ hi); push_cast at this; omega)
        (Nat.le_of_succ_le_succ hm) fun i hi hik hneg => Nat.lt_of_succ_lt_succ
          (hlast (i + 1) (Nat.succ_lt_succ hi) (by push_cast; omega) hneg)
      have hhead : Lit.quantifier (if 0 < k ∧ q.val < 0 then -q else q) = (Quant.ex, q.var) := by
        split
        case isTrue hc =>
          have hpos : 0 < (-q).val := by rw [Lit.val_neg]; omega
          rw [Lit.quantifier, if_pos hpos, Lit.var_neg]
        case isFalse hc =>
          have hne : q.val ≠ 0 := fun h => hq0 (Lit.val_eq_zero.mp h)
          have hpos : 0 < q.val := by
            by_contra hle
            exact hc ⟨h0k, by omega⟩
          rw [Lit.quantifier, if_pos hpos]
      rw [hhead, htail]
      rfl

/-! ### Truth -/

/-- **The rewriting preserves truth.** For every prefix of distinct variables, every depth
`k`, every list of clauses and assumptions that give a value to the first `m ≤ k`
variables, all flipped ones among them: the formula that is sent, with one unit clause for
each assumption, is true if and only if the rest of the prefix makes the clauses true
under the assumed values. -/
theorem quantify_preserves_truth {env : Env} {litcount clausecount k : CInt}
    {regexes : Option ((List Char → Bool) × (List Char → Bool))} {s : QuapiSolver} {a : Api}
    {qs assumptions : List NzLit} {clauses : List (List NzLit)} {m : ℕ} {v : ℕ → Bool}
    (hinit : quapiInit litcount clausecount k regexes = some s)
    (hcalls : (Api.start s).calls env (qs.map fun q => .quantify q.1) = some a)
    (hdistinct : (qs.map fun q => q.1.var).Nodup)
    (hk : m ≤ k.1) (hm : m ≤ qs.length)
    (hlast : ∀ (i : ℕ) (hi : i < qs.length), i < k.1 → qs[i].1.val < 0 → i < m)
    (hassumed : (assumptions.map fun l => l.1.var).Perm ((qs.take m).map fun q => q.1.var)) :
    Qbf.Valid (prefixOf a.toSeed) (MatrixSat (clauses ++ assumptions.map fun l => [l])) v ↔
      Qbf.Valid ((qs.drop m).map fun q => q.1.quantifier) (MatrixSat clauses)
        (Qbf.assign (pinsOf assumptions) v) := by
  have hq : ∀ q ∈ qs.map Subtype.val, q ≠ 0 := List.forall_mem_map.mpr fun q _ => q.2
  obtain ⟨-, bound, -, rfl⟩ := quapiInit_cases hinit
  have hsent : prefixOf a.toSeed =
      ((qs.take m).map fun q => (Quant.ex, q.1.var)) ++
        (qs.drop m).map fun q => q.1.quantifier := by
    have hmap : (qs.map fun q => ApiCall.quantify q.1) = (qs.map Subtype.val).map .quantify := by
      rw [List.map_map]
      rfl
    rw [hmap] at hcalls
    obtain ⟨⟨d, w, rfl⟩, -⟩ := Api.calls_quantify hcalls
    have hshape := sentPrefix_quantifiers (k := k.1) (m := m) hq
      (fun i hi => by omega) (by rwa [List.length_map]) fun i hi hik hneg => hlast i
        (by rwa [List.length_map] at hi) hik (by rwa [List.getElem_map] at hneg)
    have hsp := prefixOf_quantifiers (Api.sentPrefix_ne_zero (k := k.1) hq)
    change prefixOf ((Api.sentPrefix (k.1 - 0) _).map .quantifier) = _
    rw [sub_zero]
    rw [hsp, hshape, ← List.map_take, ← List.map_drop, List.map_map, List.map_map]
    rfl
  have hxs : ∀ x ∈ (qs.take m).map (fun q => q.1.var),
      x ∉ ((qs.drop m).map fun q => q.1.quantifier).map Prod.snd := by
    have happ : ((qs.take m).map (fun q => q.1.var) ++
        (qs.drop m).map fun q => q.1.var).Nodup := by
      rwa [← List.map_append, List.take_append_drop]
    rw [List.map_map]
    exact fun x hx hx' => (List.disjoint_of_nodup_append happ) hx hx'
  have hn : ((qs.take m).map fun q => q.1.var).Nodup :=
    hdistinct.sublist ((List.take_sublist m qs).map _)
  have hpins : ((pinsOf assumptions).map Prod.fst).Perm ((qs.take m).map fun q => q.1.var) := by
    rw [pinsOf, List.map_map]
    exact hassumed
  rw [hsent, Qbf.valid_congr fun v => matrixSat_assumptions]
  have hmain := Qbf.valid_ex_pins (φ := MatrixSat clauses) (a := v) hpins hn hxs
  rwa [List.map_map] at hmain

/-- `∀x₁∃x₂` with the clauses `x₁ ∨ x₂` and `-x₁ ∨ -x₂`, solved under the assumption `-x₁`. -/
theorem forallExists_preserved :
    Qbf.Valid (prefixOf forallExistsApi.toSeed)
        (MatrixSat ([[nzLit 1, nzLit 2], [nzLit (-1), nzLit (-2)]] ++
          [nzLit (-1)].map fun l => [l]))
        (fun _ => false) ↔
      Qbf.Valid ([nzLit 2].map fun q => q.1.quantifier)
        (MatrixSat [[nzLit 1, nzLit 2], [nzLit (-1), nzLit (-2)]])
        (Qbf.assign (pinsOf [nzLit (-1)]) fun _ => false) := by
  have hinit : quapiInit ⟨2, by decide⟩ ⟨1, by decide⟩ ⟨1, by decide⟩ none =
      some forallExistsStart := rfl
  exact quantify_preserves_truth (m := 1) hinit forallExists_calls (by decide) (by decide)
    (by decide) (fun i _ hik _ => Int.ofNat_lt.mp hik) (by decide)

end QuAPI
