import QuAPI.MixedRadix
import QuAPI.Qbf

/-!
# Splitting a formula

A quantified formula may be split into the formulas under all values of its first variables.
Here the first variables come in blocks of one quantifier, and the values of a block are the bits
of a number (`Qbf.Split`). The answers to the formulas of all tuples of moves are the
leaves of a game (`Qbf.Game`), in which the quantifier of a block says who moves.

* `Qbf.valid_of_game`: where every universal block gets all of its values, a won game means a
  true formula;
* `Qbf.game_of_valid`: where every existential block does, a true formula means a won game;
* `Qbf.conquer_iff`: the value of the game is computed from the list of its outcomes, in
  lexicographic order of the tuples.
-/

namespace Qbf

open MixedRadix (tuples bits length_bits exists_bits)

/-! ### Games -/

/-- **A game**: on each level, somebody chooses a move below a bound. -/
def Game : List (Quant × ℕ) → (List ℕ → Prop) → Prop
  | [], win => win []
  | (.ex, n) :: levels, win => ∃ v < n, Game levels fun vs => win (v :: vs)
  | (.all, n) :: levels, win => ∀ v < n, Game levels fun vs => win (v :: vs)

/-- **The value of a game** from the list of its outcomes. -/
def conquer : List (Quant × ℕ) → List Bool → Bool
  | [], outcomes => outcomes.headD false
  | (q, n) :: levels, outcomes =>
    let size := (levels.map Prod.snd).prod
    -- the outcomes behind the move
    let values := (List.range n).map fun v =>
      conquer levels ((outcomes.drop (v * size)).take size)
    match q with
    | .ex => values.any id
    | .all => values.all id

section

variable {levels : List (Quant × ℕ)} {win win' : List ℕ → Prop} {n : ℕ}

/-- Only the outcomes of tuples matter. -/
theorem game_congr (h : ∀ vs ∈ tuples (levels.map Prod.snd), win vs ↔ win' vs) :
    Game levels win ↔ Game levels win' := by
  induction levels generalizing win win' with
  | nil => exact h [] (List.mem_singleton.mpr rfl)
  | cons level levels ih =>
    obtain ⟨q, n⟩ := level
    have hrest : ∀ v < n, (Game levels (fun vs => win (v :: vs)) ↔
        Game levels fun vs => win' (v :: vs)) := by
      intro v hv
      refine ih fun vs hvs => h (v :: vs) ?_
      exact List.mem_flatMap.mpr ⟨v, List.mem_range.mpr hv, List.mem_map_of_mem hvs⟩
    cases q with
    | ex => exact exists_congr fun v => and_congr_right (hrest v)
    | all => exact forall₂_congr hrest

theorem length_tuples (rs : List ℕ) : (tuples rs).length = rs.prod := by
  induction rs with
  | nil => rfl
  | cons r rs ih =>
    rw [tuples, List.length_flatMap]
    simp only [List.length_map, ih, List.map_const', List.length_range, List.sum_replicate,
      List.prod_cons, smul_eq_mul]

/-- The tuples with a first component are one piece of the list. -/
theorem take_drop_tuples {α : Type*} (f : List ℕ → α) (rs : List ℕ) {v : ℕ} (hv : v < n) :
    (((tuples (n :: rs)).map f).drop (v * rs.prod)).take rs.prod =
      (tuples rs).map fun vs => f (v :: vs) := by
  obtain ⟨k, rfl⟩ := Nat.exists_eq_add_of_lt hv
  have hsplit : List.range (v + k + 1) =
      List.range v ++ v :: ((List.range k).map Nat.succ).map (v + ·) := by
    rw [Nat.add_assoc, List.range_add, List.range_succ_eq_map, List.map_cons, Nat.add_zero]
  have hfront : ((List.range v).flatMap fun v => (tuples rs).map (v :: ·)).length =
      v * rs.prod := by
    rw [List.length_flatMap]
    simp only [List.length_map, length_tuples, List.map_const', List.length_range,
      List.sum_replicate, smul_eq_mul]
  rw [tuples, hsplit, List.flatMap_append, List.flatMap_cons, List.map_append, List.map_append,
    List.drop_left' (by rw [List.length_map, hfront]), List.take_left' (by
      rw [List.length_map, List.length_map, length_tuples]), List.map_map]
  rfl

/-- **The value of a game** is computed from its outcomes. -/
theorem conquer_iff (win : List ℕ → Bool) :
    conquer levels ((tuples (levels.map Prod.snd)).map win) = true ↔
      Game levels fun vs => win vs = true := by
  induction levels generalizing win with
  | nil => exact Iff.rfl
  | cons level levels ih =>
    obtain ⟨q, n⟩ := level
    have hrest : ∀ v < n, (conquer levels
        ((((tuples (n :: levels.map Prod.snd)).map win).drop (v * (levels.map Prod.snd).prod)).take
          (levels.map Prod.snd).prod) = true ↔ Game levels fun vs => win (v :: vs) = true) := by
      intro v hv
      rw [take_drop_tuples win _ hv]
      exact ih fun vs => win (v :: vs)
    cases q with
    | ex =>
      simp only [conquer, List.map_cons, List.any_map, List.any_eq_true, List.mem_range,
        Function.comp, id, Game]
      exact exists_congr fun v => and_congr_right (hrest v)
    | all =>
      simp only [conquer, List.map_cons, List.all_map, List.all_eq_true, List.mem_range,
        Function.comp, id, Game]
      exact forall₂_congr hrest

end

/-! ### Blocks -/

section

variable {V : Type*} [DecidableEq V] {p : List (Quant × V)} {φ : (V → Bool) → Prop}
  {a b : V → Bool} {xs : List V} {bs : List Bool}

/-- The variables of a block get their values. -/
def play : List V → List Bool → (V → Bool) → V → Bool
  | x :: xs, b :: bs, a => play xs bs (Function.update a x b)
  | _, _, a => a

theorem valid_block_ex : Valid ((xs.map fun x => (Quant.ex, x)) ++ p) φ a ↔
    ∃ bs : List Bool, bs.length = xs.length ∧ Valid p φ (play xs bs a) := by
  induction xs generalizing a with
  | nil =>
    constructor
    · exact fun h => ⟨[], rfl, h⟩
    · rintro ⟨bs, hbs, h⟩
      rwa [List.eq_nil_of_length_eq_zero hbs] at h
  | cons x xs ih =>
    constructor
    · rintro ⟨b, hb⟩
      obtain ⟨bs, hbs, h⟩ := ih.mp hb
      exact ⟨b :: bs, congrArg Nat.succ hbs, h⟩
    · rintro ⟨bs, hbs, h⟩
      cases bs with
      | nil => exact absurd hbs (by simp)
      | cons b bs => exact ⟨b, ih.mpr ⟨bs, Nat.succ.inj hbs, h⟩⟩

theorem valid_block_all : Valid ((xs.map fun x => (Quant.all, x)) ++ p) φ a ↔
    ∀ bs : List Bool, bs.length = xs.length → Valid p φ (play xs bs a) := by
  induction xs generalizing a with
  | nil =>
    constructor
    · intro h bs hbs
      rwa [List.eq_nil_of_length_eq_zero hbs]
    · exact fun h => h [] rfl
  | cons x xs ih =>
    constructor
    · intro h bs hbs
      cases bs with
      | nil => exact absurd hbs (by simp)
      | cons b bs => exact ih.mp (h b) bs (Nat.succ.inj hbs)
    · exact fun h b => ih.mpr fun bs hbs => h (b :: bs) (congrArg Nat.succ hbs)

/-- Blocks one after the other. -/
theorem play_append (cs : List Bool) : play xs (bs ++ cs) a =
    play (xs.drop bs.length) cs (play (xs.take bs.length) bs a) := by
  induction bs generalizing xs a with
  | nil => cases xs <;> rfl
  | cons b bs ih =>
    cases xs with
    | nil => rfl
    | cons x xs => exact ih

theorem play_of_notMem {y : V} (hy : y ∉ xs) : play xs bs a y = a y := by
  induction xs generalizing bs a with
  | nil => rfl
  | cons x xs ih =>
    cases bs with
    | nil => rfl
    | cons b bs =>
      rw [play, ih (List.not_mem_of_not_mem_cons hy),
        Function.update_of_ne (List.ne_of_not_mem_cons hy)]

/-- The values that have been given. -/
theorem agrees_play (hn : xs.Nodup) : Agrees (xs.zip bs) (play xs bs a) := by
  induction xs generalizing bs a with
  | nil => exact fun x hx => absurd hx List.not_mem_nil
  | cons x xs ih =>
    cases bs with
    | nil => exact fun x hx => absurd hx List.not_mem_nil
    | cons b bs =>
      obtain ⟨hx, hn⟩ := List.nodup_cons.mp hn
      intro y hy
      rcases List.mem_cons.mp hy with rfl | hy
      · rw [play, play_of_notMem hx, Function.update_self]
      · exact ih hn y hy

/-- A formula only depends on the free variables of its matrix. -/
theorem valid_congr_on {S : V → Prop} (hφ : ∀ a b, (∀ y, S y → a y = b y) → (φ a ↔ φ b))
    (h : ∀ y, S y → y ∉ p.map Prod.snd → a y = b y) : Valid p φ a ↔ Valid p φ b := by
  induction p generalizing a b with
  | nil => exact hφ a b fun y hy => h y hy List.not_mem_nil
  | cons x p ih =>
    obtain ⟨x₁, x⟩ := x
    have hx : ∀ c, ∀ y, S y → y ∉ p.map Prod.snd →
        Function.update a x c y = Function.update b x c y := by
      intro c y hy hyp
      rcases eq_or_ne y x with rfl | hyx
      · rw [Function.update_self, Function.update_self]
      · rw [Function.update_of_ne hyx, Function.update_of_ne hyx]
        refine h y hy ?_
        rintro hc
        rcases List.mem_cons.mp hc with hc | hc
        · exact hyx hc
        · exact hyp hc
    cases x₁ with
    | ex => exact exists_congr fun c => ih (hx c)
    | all => exact forall_congr' fun c => ih (hx c)

end

/-! ### Splits -/

/-- **A split of a block**: a move is a number, and its bits are the values of the variables. -/
structure Split (V : Type*) where
  quant : Quant
  vars : List V
  /-- The number of moves. -/
  moves : ℕ

section

variable {V : Type*} [DecidableEq V] {p : List (Quant × V)} {φ : (V → Bool) → Prop}
  {a : V → Bool} {ss : List (Split V)}

/-- The values that a move gives. -/
def Split.values (s : Split V) (v : ℕ) : List Bool := bits s.vars.length v

/-- The quantifiers of a block. -/
def Split.block (s : Split V) : List (Quant × V) := s.vars.map fun x => (s.quant, x)

/-- Who moves, and how many moves there are. -/
def Split.level (s : Split V) : Quant × ℕ := (s.quant, s.moves)

/-- **A full split**: no values are left out. -/
def Split.Full (s : Split V) : Prop := 2 ^ s.vars.length ≤ s.moves

instance (s : Split V) : Decidable s.Full := inferInstanceAs (Decidable (_ ≤ _))

omit [DecidableEq V] in
theorem Split.Full.exists_move {s : Split V} (h : s.Full) {bs : List Bool}
    (hbs : bs.length = s.vars.length) : ∃ v < s.moves, s.values v = bs := by
  obtain ⟨v, hv, hvalues⟩ := exists_bits bs
  rw [hbs] at hv hvalues
  exact ⟨v, hv.trans_le h, hvalues⟩

/-- The moves of a tuple. -/
def playAll : List (Split V) → List ℕ → (V → Bool) → V → Bool
  | s :: ss, v :: vs, a => playAll ss vs (play s.vars (s.values v) a)
  | _, _, a => a

/-- **Where no universal values are left out, a won game means a true formula.** -/
theorem valid_of_game (hfull : ∀ s ∈ ss, s.quant = .all → s.Full)
    (h : Game (ss.map Split.level) fun vs => Valid p φ (playAll ss vs a)) :
    Valid (ss.flatMap Split.block ++ p) φ a := by
  induction ss generalizing a with
  | nil => exact h
  | cons s ss ih =>
    have ih' : ∀ {a}, (Game (ss.map Split.level) fun vs => Valid p φ (playAll ss vs a)) →
        Valid (ss.flatMap Split.block ++ p) φ a :=
      ih fun t ht => hfull t (List.mem_cons_of_mem s ht)
    obtain ⟨q, xs, n⟩ := s
    rw [List.flatMap_cons, List.append_assoc]
    cases q with
    | ex =>
      obtain ⟨v, -, hv⟩ := h
      exact valid_block_ex.mpr ⟨_, length_bits _ v, ih' hv⟩
    | all =>
      refine valid_block_all.mpr ?_
      intro bs hbs
      obtain ⟨v, hv, rfl⟩ := (hfull _ List.mem_cons_self rfl).exists_move hbs
      exact ih' (h v hv)

/-- **Where no existential values are left out, a true formula means a won game.** -/
theorem game_of_valid (hfull : ∀ s ∈ ss, s.quant = .ex → s.Full)
    (h : Valid (ss.flatMap Split.block ++ p) φ a) :
    Game (ss.map Split.level) fun vs => Valid p φ (playAll ss vs a) := by
  induction ss generalizing a with
  | nil => exact h
  | cons s ss ih =>
    have ih' : ∀ {a}, Valid (ss.flatMap Split.block ++ p) φ a →
        Game (ss.map Split.level) fun vs => Valid p φ (playAll ss vs a) :=
      ih fun t ht => hfull t (List.mem_cons_of_mem s ht)
    obtain ⟨q, xs, n⟩ := s
    rw [List.flatMap_cons, List.append_assoc] at h
    cases q with
    | ex =>
      obtain ⟨bs, hbs, hrest⟩ := valid_block_ex.mp h
      obtain ⟨v, hv, rfl⟩ := (hfull _ List.mem_cons_self rfl).exists_move hbs
      exact ⟨v, hv, ih' hrest⟩
    | all => exact fun v _ => ih' (valid_block_all.mp h _ (length_bits _ v))

end

end Qbf
