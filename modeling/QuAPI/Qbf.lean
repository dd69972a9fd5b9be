import Mathlib.Tactic

/-!
# Quantified Boolean formulas

Prenex formulas over an arbitrary type of variables: a prefix and a matrix, which is any
predicate of assignments. `Qbf.Valid` is the truth of the formula under an assignment of
its free variables.

* `Qbf.valid_append`: a prefix may be peeled;
* `Qbf.not_valid`: a matrix without a model makes every formula false;
* `Qbf.valid_and_of_indep`: a condition on other variables leaves the prefix;
* `Qbf.valid_ex`: a block of existential quantifiers is one choice of values;
* `Qbf.valid_ex_pins`: **existential variables with prescribed values may be
  substituted**, under whatever prefix follows;
* `Qbf.exists_valid_pins`: prescribed values take existential and free variables out of a
  formula, wherever they are quantified.
-/

namespace Qbf

/-! ### Truth -/

/-- The two quantifiers. -/
inductive Quant where
  | ex
  | all
deriving DecidableEq

variable {V : Type*} [DecidableEq V]

/-- **The truth of a prenex formula** under an assignment. -/
def Valid : List (Quant × V) → ((V → Bool) → Prop) → (V → Bool) → Prop
  | [], φ, a => φ a
  | (.ex, x) :: p, φ, a => ∃ b, Valid p φ (Function.update a x b)
  | (.all, x) :: p, φ, a => ∀ b, Valid p φ (Function.update a x b)

variable {p q : List (Quant × V)} {φ ψ χ : (V → Bool) → Prop} {a : V → Bool}

theorem valid_append : Valid (p ++ q) φ a ↔ Valid p (Valid q φ) a := by
  induction p generalizing a with
  | nil => exact Iff.rfl
  | cons x p ih =>
    obtain ⟨x₁, x⟩ := x
    cases x₁ with
    | ex => exact exists_congr fun b => ih
    | all => exact forall_congr' fun b => ih

theorem valid_congr (h : ∀ a, φ a ↔ ψ a) : Valid p φ a ↔ Valid p ψ a := by
  induction p generalizing a with
  | nil => exact h a
  | cons x p ih =>
    obtain ⟨x₁, x⟩ := x
    cases x₁ with
    | ex => exact exists_congr fun b => ih
    | all => exact forall_congr' fun b => ih

theorem valid_mono (h : ∀ a, φ a → ψ a) (hv : Valid p φ a) : Valid p ψ a := by
  induction p generalizing a with
  | nil => exact h a hv
  | cons x p ih =>
    obtain ⟨x₁, x⟩ := x
    cases x₁ with
    | ex => exact hv.imp fun b hb => ih hb
    | all => exact fun b => ih (hv b)

/-- A matrix without a model makes the formula false, whatever the prefix. -/
theorem not_valid (h : ∀ a, ¬φ a) : ¬Valid p φ a := by
  induction p generalizing a with
  | nil => exact h a
  | cons x p ih =>
    obtain ⟨x₁, x⟩ := x
    cases x₁ with
    | ex =>
      rintro ⟨b, hb⟩
      exact ih hb
    | all => exact fun hall => ih (hall true)

/-- A condition that no quantified variable of the prefix decides leaves the formula. -/
theorem valid_and_of_indep (h : ∀ x ∈ p.map Prod.snd, ∀ a b, χ (Function.update a x b) ↔ χ a) :
    Valid p (fun a => χ a ∧ φ a) a ↔ χ a ∧ Valid p φ a := by
  induction p generalizing a with
  | nil => exact Iff.rfl
  | cons x p ih =>
    obtain ⟨x₁, x⟩ := x
    have hx : ∀ a b, χ (Function.update a x b) ↔ χ a := h x List.mem_cons_self
    have ih' : ∀ {a}, Valid p (fun a => χ a ∧ φ a) a ↔ χ a ∧ Valid p φ a :=
      ih fun y hy => h y (List.mem_cons_of_mem _ hy)
    cases x₁ with
    | ex =>
      constructor
      · rintro ⟨b, hb⟩
        obtain ⟨hχ, hv⟩ := ih'.mp hb
        exact ⟨(hx a b).mp hχ, b, hv⟩
      · rintro ⟨hχ, b, hv⟩
        exact ⟨b, ih'.mpr ⟨(hx a b).mpr hχ, hv⟩⟩
    | all =>
      constructor
      · intro hall
        exact ⟨(hx a true).mp (ih'.mp (hall true)).1, fun b => (ih'.mp (hall b)).2⟩
      · rintro ⟨hχ, hall⟩ b
        exact ih'.mpr ⟨(hx a b).mpr hχ, hall b⟩

/-- **A block of existential quantifiers is one choice of values.** -/
theorem valid_ex {xs : List V} : Valid (xs.map fun x => (Quant.ex, x)) φ a ↔
    ∃ b : V → Bool, (∀ y, y ∉ xs → b y = a y) ∧ φ b := by
  -- on the block: the rest of it is chosen after the first variable has its value
  induction xs generalizing a with
  | nil =>
    constructor
    · exact fun h => ⟨a, fun y _ => rfl, h⟩
    · rintro ⟨b, hb, hφ⟩
      rwa [← funext fun y => hb y List.not_mem_nil]
  | cons x xs ih =>
    constructor
    · rintro ⟨v, hv⟩
      obtain ⟨b, hb, hφ⟩ := ih.mp hv
      refine ⟨b, ?_, hφ⟩
      intro y hy
      rw [List.mem_cons, not_or] at hy
      rw [hb y hy.2, Function.update_of_ne hy.1]
    · rintro ⟨b, hb, hφ⟩
      refine ⟨b x, ih.mpr ⟨b, ?_, hφ⟩⟩
      intro y hy
      rcases eq_or_ne y x with rfl | hyx
      · rw [Function.update_self]
      · rw [Function.update_of_ne hyx]
        refine hb y ?_
        intro hc
        rcases List.mem_cons.mp hc with hc | hc
        · exact hyx hc
        · exact hy hc

/-! ### Substitution of prescribed values -/

/-- The assignment that gives the listed variables the listed values. -/
def assign (pins : List (V × Bool)) (a : V → Bool) : V → Bool :=
  pins.foldr (fun x b => Function.update b x.1 x.2) a

/-- The listed variables have the listed values. -/
def Agrees (pins : List (V × Bool)) (a : V → Bool) : Prop := ∀ x ∈ pins, a x.1 = x.2

variable {pins : List (V × Bool)}

theorem assign_of_notMem {y : V} (hy : y ∉ pins.map Prod.fst) : assign pins a y = a y := by
  induction pins with
  | nil => rfl
  | cons x pins ih =>
    rw [List.map_cons, List.mem_cons, not_or] at hy
    exact (Function.update_of_ne hy.1 _ _).trans (ih hy.2)

theorem agrees_assign (hn : (pins.map Prod.fst).Nodup) : Agrees pins (assign pins a) := by
  induction pins with
  | nil => exact fun x hx => absurd hx List.not_mem_nil
  | cons x pins ih =>
    obtain ⟨hx, hn⟩ := List.nodup_cons.mp hn
    intro y hy
    rcases List.mem_cons.mp hy with rfl | hy
    · exact Function.update_self _ _ _
    · have hne : y.1 ≠ x.1 := fun hc => hx (hc ▸ List.mem_map_of_mem hy)
      exact (Function.update_of_ne hne _ _).trans (ih hn y hy)

/-- The assignment is the only one with those values and the old ones elsewhere. -/
theorem eq_assign {b : V → Bool} (hn : (pins.map Prod.fst).Nodup) (hb : Agrees pins b)
    (ho : ∀ y, y ∉ pins.map Prod.fst → b y = a y) : b = assign pins a := by
  funext y
  -- a listed variable has one value only, and any other its old one
  by_cases hy : y ∈ pins.map Prod.fst
  · obtain ⟨x, hx, rfl⟩ := List.mem_map.mp hy
    exact (hb x hx).trans (agrees_assign hn x hx).symm
  · rw [ho y hy, assign_of_notMem hy]

/-- **Existential variables with prescribed values may be substituted**, under whatever
prefix follows them. -/
theorem valid_ex_pins {xs : List V} (hp : (pins.map Prod.fst).Perm xs) (hn : xs.Nodup)
    (hq : ∀ x ∈ xs, x ∉ q.map Prod.snd) :
    Valid ((xs.map fun x => (Quant.ex, x)) ++ q) (fun a => Agrees pins a ∧ φ a) a ↔
      Valid q φ (assign pins a) := by
  have hpn : (pins.map Prod.fst).Nodup := hp.nodup_iff.mpr hn
  -- what is quantified behind the block is not listed
  have hind : ∀ x ∈ q.map Prod.snd, ∀ (a : V → Bool) b,
      Agrees pins (Function.update a x b) ↔ Agrees pins a := by
    intro x hx a b
    refine forall₂_congr ?_
    intro y hy
    have hne : y.1 ≠ x := by
      rintro rfl
      exact hq y.1 (hp.subset (List.mem_map_of_mem hy)) hx
    rw [Function.update_of_ne hne]
  rw [valid_append, valid_ex]
  constructor
  · rintro ⟨b, hb, hv⟩
    obtain ⟨hag, hv⟩ := (valid_and_of_indep hind).mp hv
    rwa [← eq_assign hpn hag fun y hy => hb y fun hc => hy (hp.mem_iff.mpr hc)]
  · intro hv
    refine ⟨assign pins a, ?_, (valid_and_of_indep hind).mpr ⟨agrees_assign hpn, hv⟩⟩
    intro y hy
    exact assign_of_notMem fun hc => hy (hp.mem_iff.mp hc)

/-! ### Prescribed values anywhere -/

/-- What is quantified does not matter in front. -/
theorem valid_congr_off {b : V → Bool} (h : ∀ y, y ∉ p.map Prod.snd → a y = b y) :
    Valid p φ a ↔ Valid p φ b := by
  induction p generalizing a b with
  | nil => rw [funext fun y => h y List.not_mem_nil]
  | cons x p ih =>
    obtain ⟨x₁, x⟩ := x
    have hx : ∀ c, ∀ y, y ∉ p.map Prod.snd → Function.update a x c y = Function.update b x c y := by
      intro c y hy
      rcases eq_or_ne y x with rfl | hyx
      · rw [Function.update_self, Function.update_self]
      · rw [Function.update_of_ne hyx, Function.update_of_ne hyx]
        refine h y ?_
        intro hc
        rcases List.mem_cons.mp hc with hc | hc
        · exact hyx hc
        · exact hy hc
    cases x₁ with
    | ex => exact exists_congr fun c => ih (hx c)
    | all => exact forall_congr' fun c => ih (hx c)

/-- The quantifiers of variables that have no prescribed value. -/
def unpinned (pins : List (V × Bool)) (p : List (Quant × V)) : List (Quant × V) :=
  p.filter fun x => x.2 ∉ pins.map Prod.fst

theorem unpinned_cons_of_mem {x : Quant × V} (hx : x.2 ∈ pins.map Prod.fst) :
    unpinned pins (x :: p) = unpinned pins p :=
  List.filter_cons_of_neg fun h => of_decide_eq_true h hx

theorem unpinned_cons_of_notMem {x : Quant × V} (hx : x.2 ∉ pins.map Prod.fst) :
    unpinned pins (x :: p) = x :: unpinned pins p := List.filter_cons_of_pos (decide_eq_true hx)

/-- The value of another variable. -/
theorem agrees_update {x : V} (hx : x ∉ pins.map Prod.fst) (b : Bool) :
    Agrees pins (Function.update a x b) ↔ Agrees pins a := by
  refine forall₂_congr ?_
  intro y hy
  rw [Function.update_of_ne]
  rintro rfl
  exact hx (List.mem_map_of_mem hy)

/-- **Existential variables with prescribed values may be left out**, where the values are
prescribed in front as well. -/
theorem valid_pins (hn : (p.map Prod.snd).Nodup)
    (hall : ∀ x ∈ pins.map Prod.fst, (Quant.all, x) ∉ p) (ha : Agrees pins a) :
    Valid p (fun a => Agrees pins a ∧ φ a) a ↔ Valid (unpinned pins p) φ a := by
  induction p generalizing a with
  | nil => exact and_iff_right ha
  | cons x p ih =>
    obtain ⟨x₁, x⟩ := x
    obtain ⟨hx, hn⟩ := List.nodup_cons.mp hn
    have ih' : ∀ {a}, Agrees pins a →
        (Valid p (fun a => Agrees pins a ∧ φ a) a ↔ Valid (unpinned pins p) φ a) :=
      ih hn fun y hy hc => hall y hy (List.mem_cons_of_mem _ hc)
    by_cases hpin : x ∈ pins.map Prod.fst
    · rw [unpinned_cons_of_mem hpin, ← ih' ha]
      cases x₁ with
      | all => exact absurd List.mem_cons_self (hall x hpin)
      | ex =>
        constructor
        · rintro ⟨b, hb⟩
          -- the value that is chosen is the prescribed one
          obtain ⟨y, hy, hyx⟩ := List.mem_map.mp hpin
          have hind : ∀ z ∈ p.map Prod.snd, ∀ (a : V → Bool) c,
              (Function.update a z c) x = y.2 ↔ a x = y.2 := by
            intro z hz a c
            rw [Function.update_of_ne]
            rintro rfl
            exact hx hz
          have hval : (Function.update a x b) x = y.2 := by
            refine ((valid_and_of_indep (χ := fun a => a x = y.2) (φ := fun _ => True)
              hind).mp ?_).1
            refine (valid_mono fun c hc => ⟨?_, trivial⟩) hb
            rw [← hyx]
            exact hc.1 y hy
          have hsame : b = a x := by
            rw [Function.update_self] at hval
            rw [hval, ← hyx]
            exact (ha y hy).symm
          rwa [hsame, Function.update_eq_self] at hb
        · exact fun h => ⟨a x, by rwa [Function.update_eq_self]⟩
    · rw [unpinned_cons_of_notMem hpin]
      cases x₁ with
      | ex => exact exists_congr fun b => ih' ((agrees_update hpin b).mpr ha)
      | all => exact forall_congr' fun b => ih' ((agrees_update hpin b).mpr ha)

/-- **Prescribed values take variables out of a formula**, free ones and existential ones,
wherever they are quantified. -/
theorem exists_valid_pins (hn : (p.map Prod.snd).Nodup)
    (hall : ∀ x ∈ pins.map Prod.fst, (Quant.all, x) ∉ p) :
    (∃ a, Valid p (fun a => Agrees pins a ∧ φ a) a) ↔
      ∃ a, Agrees pins a ∧ Valid (unpinned pins p) φ a := by
  constructor
  · rintro ⟨a, h⟩
    obtain ⟨c, hc⟩ : ∃ c, Agrees pins c := by
      by_contra hnone
      exact not_valid (fun b hb => hnone ⟨b, hb.1⟩) h
    -- the values are prescribed for the free variables, and may be for the others
    let b : V → Bool := fun y => if y ∈ p.map Prod.snd then c y else a y
    have hb : Valid p (fun a => Agrees pins a ∧ φ a) b :=
      (valid_congr_off fun y hy => (if_neg hy).symm).mp h
    have hfree : Agrees (pins.filter fun x => x.1 ∉ p.map Prod.snd) a := by
      have hind : ∀ z ∈ p.map Prod.snd, ∀ (a : V → Bool) d,
          Agrees (pins.filter fun x => x.1 ∉ p.map Prod.snd) (Function.update a z d) ↔
            Agrees (pins.filter fun x => x.1 ∉ p.map Prod.snd) a := by
        intro z hz a d
        refine agrees_update ?_ d
        rintro hmem
        obtain ⟨x, hx, rfl⟩ := List.mem_map.mp hmem
        exact of_decide_eq_true (List.mem_filter.mp hx).2 hz
      refine ((valid_and_of_indep (φ := fun _ => True) hind).mp ?_).1
      exact valid_mono (fun d hd => ⟨fun x hx => hd.1 x (List.mem_filter.mp hx).1, trivial⟩) h
    have hagrees : Agrees pins b := by
      intro x hx
      by_cases hmem : x.1 ∈ p.map Prod.snd
      · exact (if_pos hmem).trans (hc x hx)
      · exact (if_neg hmem).trans (hfree x (List.mem_filter.mpr ⟨hx, decide_eq_true hmem⟩))
    exact ⟨b, hagrees, (valid_pins hn hall hagrees).mp hb⟩
  · rintro ⟨a, ha, h⟩
    exact ⟨a, (valid_pins hn hall ha).mpr h⟩

end Qbf
