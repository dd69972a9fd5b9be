import Mathlib.Data.Nat.Digits.Lemmas
import Mathlib.Tactic.Ring

/-!
# Bytes in memory

Memory is read from an address on: a byte for every offset (`Bytes.Memory`). What the proofs use
are slices of it (`Bytes.bytesAt`), copies into it (`Bytes.copy`), and words in it, the least
significant byte first (`Bytes.load`, `Bytes.store`).

Two facts carry everything else. A slice only depends on the bytes inside of it
(`Bytes.bytesAt_congr`), and a copy changes only the bytes it covers (`Bytes.bytesAt_copy_of_le`,
`Bytes.bytesAt_copy_of_ge`).
-/

namespace Bytes

/-- Memory, from an address on. -/
abbrev Memory := ℕ → UInt8

/-! ### Slices -/

/-- The `len` bytes from `off` on. -/
def bytesAt (m : Memory) (off len : ℕ) : List UInt8 := (List.range len).map fun i => m (off + i)

variable {m m' src : Memory} {off len a b n k : ℕ}

@[simp] theorem length_bytesAt (m : Memory) (off len : ℕ) : (bytesAt m off len).length = len := by
  rw [bytesAt, List.length_map, List.length_range]

@[simp] theorem bytesAt_zero (m : Memory) (off : ℕ) : bytesAt m off 0 = [] := rfl

theorem bytesAt_add (m : Memory) (off a b : ℕ) :
    bytesAt m off (a + b) = bytesAt m off a ++ bytesAt m (off + a) b := by
  rw [bytesAt, bytesAt, bytesAt, List.range_add, List.map_append, List.map_map]
  refine congrArg _ (List.map_congr_left ?_)
  intro i _
  exact congrArg m (Nat.add_assoc off a i).symm

/-- **A slice depends on the bytes inside of it.** -/
theorem bytesAt_congr (h : ∀ i, off ≤ i → i < off + len → m i = m' i) :
    bytesAt m off len = bytesAt m' off len := by
  refine List.map_congr_left fun i hi => h _ (Nat.le_add_right off i) ?_
  exact Nat.add_lt_add_left (List.mem_range.mp hi) off

theorem take_bytesAt (h : a ≤ len) : (bytesAt m off len).take a = bytesAt m off a := by
  obtain ⟨b, rfl⟩ := Nat.exists_eq_add_of_le h
  rw [bytesAt_add, List.take_left' (length_bytesAt m off a)]

theorem drop_bytesAt (h : a ≤ len) :
    (bytesAt m off len).drop a = bytesAt m (off + a) (len - a) := by
  obtain ⟨b, rfl⟩ := Nat.exists_eq_add_of_le h
  rw [bytesAt_add, List.drop_left' (length_bytesAt m off a), Nat.add_sub_cancel_left]

/-! ### Bytes that are given -/

/-- Memory that holds the given bytes, and zeros behind them. -/
def ofList (l : List UInt8) : Memory := fun i => l.getD i 0

/-- What has been cut out of a memory is read as it is there. -/
theorem bytesAt_ofList (h : off + len ≤ n) :
    bytesAt (ofList (bytesAt m 0 n)) off len = bytesAt m off len := by
  refine bytesAt_congr ?_
  intro i _ hi
  have hn : i < n := hi.trans_le h
  rw [ofList, bytesAt, List.getD_eq_getElem?_getD, List.getElem?_map, List.getElem?_range hn]
  exact congrArg m (Nat.zero_add i)

/-- The bytes that are given are what is read. -/
theorem bytesAt_ofList_self (l : List UInt8) : bytesAt (ofList l) 0 l.length = l := by
  refine List.ext_getElem (length_bytesAt _ _ _) ?_
  intro i _ hi
  simp only [bytesAt, ofList, List.getElem_map, List.getElem_range, Nat.zero_add]
  rw [List.getD_eq_getElem?_getD, List.getElem?_eq_getElem hi, Option.getD_some]

/-- Equal slices have equal bytes. -/
theorem apply_eq_of_bytesAt_eq {i : ℕ} (h : bytesAt m a n = bytesAt m' b n) (hi : i < n) :
    m (a + i) = m' (b + i) := by
  have hget := congrArg (fun l => l[i]?) h
  simp only [bytesAt, List.getElem?_map, List.getElem?_range hi, Option.map_some] at hget
  exact Option.some.inj hget

/-- Where given bytes are, each of them is. -/
theorem apply_of_bytesAt {l : List UInt8} (h : bytesAt m off l.length = l) {i : ℕ}
    (hi : i < l.length) : m (off + i) = ofList l i := by
  have hlist : m (off + i) = ofList l (0 + i) :=
    apply_eq_of_bytesAt_eq (h.trans (bytesAt_ofList_self l).symm) hi
  rwa [Nat.zero_add] at hlist

/-! ### Copies -/

/-- `n` bytes of `src`, copied to `off`. -/
def copy (m : Memory) (off : ℕ) (src : Memory) (n : ℕ) : Memory :=
  fun i => if off ≤ i ∧ i < off + n then src (i - off) else m i

/-- What has been copied is there. -/
theorem bytesAt_copy (m : Memory) (off : ℕ) (src : Memory) (n : ℕ) :
    bytesAt (copy m off src n) off n = bytesAt src 0 n := by
  refine List.map_congr_left ?_
  intro i hi
  have hin : off ≤ off + i ∧ off + i < off + n :=
    ⟨Nat.le_add_right off i, Nat.add_lt_add_left (List.mem_range.mp hi) off⟩
  rw [copy, if_pos hin, Nat.add_sub_cancel_left, Nat.zero_add]

/-- What is in front of a copy is not changed. -/
theorem bytesAt_copy_of_le (h : off + len ≤ a) :
    bytesAt (copy m a src n) off len = bytesAt m off len :=
  bytesAt_congr fun i _ hi => if_neg fun hc => by omega

/-- What is behind a copy is not changed. -/
theorem bytesAt_copy_of_ge (h : a + n ≤ off) :
    bytesAt (copy m a src n) off len = bytesAt m off len :=
  bytesAt_congr fun i hi _ => if_neg fun hc => by omega

/-! ### Words -/

/-- The word of `k` bytes at `off`, the least significant byte first. -/
def load (k : ℕ) (m : Memory) (off : ℕ) : ℕ :=
  Nat.ofDigits 256 ((bytesAt m off k).map UInt8.toNat)

/-- A word of `k` bytes, written at `off`. -/
def store (k : ℕ) (m : Memory) (off n : ℕ) : Memory :=
  copy m off (fun i => UInt8.ofNat (n / 256 ^ i)) k

theorem load_congr (h : bytesAt m off k = bytesAt m' off k) : load k m off = load k m' off := by
  rw [load, h, load]

/-- The first `k` places of a number. -/
theorem ofDigits_places (k n : ℕ) :
    Nat.ofDigits 256 ((List.range k).map fun i => n / 256 ^ i % 256) = n % 256 ^ k := by
  induction k generalizing n with
  | zero => rw [pow_zero, Nat.mod_one]; rfl
  | succ k ih =>
    have hshift : ((List.range k).map Nat.succ).map (fun i => n / 256 ^ i % 256) =
        (List.range k).map fun i => n / 256 / 256 ^ i % 256 := by
      rw [List.map_map]
      refine List.map_congr_left ?_
      intro i _
      rw [Function.comp_apply, pow_succ', Nat.div_div_eq_div_mul]
    rw [List.range_succ_eq_map, List.map_cons, hshift, Nat.ofDigits_cons, ih, pow_zero,
      Nat.div_one, pow_succ', Nat.mod_mul]

/-- **A word that has been stored is loaded.** -/
theorem load_store (k : ℕ) (m : Memory) (off n : ℕ) :
    load k (store k m off n) off = n % 256 ^ k := by
  rw [load, store, bytesAt_copy, bytesAt, List.map_map, ← ofDigits_places]
  refine congrArg _ (List.map_congr_left ?_)
  intro i _
  rw [Function.comp_apply, Nat.zero_add, UInt8.toNat_ofNat']

theorem load_lt (k : ℕ) (m : Memory) (off : ℕ) : load k m off < 256 ^ k := by
  have hdigits : ∀ d ∈ (bytesAt m off k).map UInt8.toNat, d < 256 := by
    intro d hd
    obtain ⟨x, -, rfl⟩ := List.mem_map.mp hd
    exact x.toNat_lt
  have hlt := Nat.ofDigits_lt_base_pow_length (by norm_num) hdigits
  rwa [List.length_map, length_bytesAt] at hlt

/-- The bytes of a word. -/
def word (k n : ℕ) : List UInt8 := bytesAt (fun i => UInt8.ofNat (n / 256 ^ i)) 0 k

@[simp] theorem length_word (k n : ℕ) : (word k n).length = k := length_bytesAt _ _ _

/-- What is written right behind some bytes follows them. -/
theorem bytesAt_copy_append (m : Memory) (off : ℕ) (src : Memory) (n : ℕ) :
    bytesAt (copy m off src n) 0 (off + n) = bytesAt m 0 off ++ bytesAt src 0 n := by
  rw [bytesAt_add, bytesAt_copy_of_le (Nat.zero_add off).le, Nat.zero_add, bytesAt_copy]

theorem bytesAt_store_append (k : ℕ) (m : Memory) (off n : ℕ) :
    bytesAt (store k m off n) 0 (off + k) = bytesAt m 0 off ++ word k n :=
  bytesAt_copy_append _ _ _ _

/-- Where the bytes of a word are, it is loaded. -/
theorem load_of_bytesAt (h : bytesAt m off k = word k n) : load k m off = n % 256 ^ k := by
  have hstore : bytesAt m off k = bytesAt (store k m off n) off k := by
    rw [h, store, bytesAt_copy, word]
  rw [load_congr hstore, load_store]

/-- **Words, one behind the other**, are loaded one by one. -/
theorem load_of_words {l : List ℕ} (h : bytesAt m off (k * l.length) = l.flatMap (word k)) {j : ℕ}
    (hj : j < l.length) : load k m (off + k * j) = l[j] % 256 ^ k := by
  induction l generalizing off j with
  | nil => exact absurd hj (Nat.not_lt_zero j)
  | cons n l ih =>
    rw [List.length_cons, Nat.mul_succ, Nat.add_comm, bytesAt_add, List.flatMap_cons] at h
    obtain ⟨hhead, htail⟩ := List.append_inj h (by rw [length_bytesAt, length_word])
    cases j with
    | zero => exact load_of_bytesAt hhead
    | succ j =>
      have hshift : off + k * (j + 1) = off + k + k * j := by ring
      rw [hshift, List.getElem_cons_succ]
      exact ih htail (Nat.lt_of_succ_lt_succ hj)

/-! ### Pieces of one length -/

/-- Lists of one length are in order where their bytes are. -/
theorem prefix_of_flatten_prefix {α : Type*} {k : ℕ} (hk : 0 < k) {as bs : List (List α)}
    (has : ∀ l ∈ as, l.length = k) (hbs : ∀ l ∈ bs, l.length = k)
    (h : as.flatten <+: bs.flatten) : as <+: bs := by
  induction as generalizing bs with
  | nil => exact List.nil_prefix
  | cons l as ih =>
    have hl : l.length = k := has l List.mem_cons_self
    cases bs with
    | nil =>
      have hlen := h.length_le
      rw [List.flatten_cons, List.length_append, List.flatten_nil, List.length_nil] at hlen
      omega
    | cons c bs =>
      rw [List.flatten_cons, List.flatten_cons] at h
      have hlc : l.length = c.length := hl.trans (hbs c List.mem_cons_self).symm
      obtain ⟨t, ht⟩ := h
      rw [List.append_assoc] at ht
      obtain ⟨rfl, hrest⟩ := List.append_inj ht hlc
      exact List.prefix_cons_inj l |>.mpr (ih (fun x hx => has x (List.mem_cons_of_mem _ hx))
        (fun x hx => hbs x (List.mem_cons_of_mem _ hx)) ⟨t, hrest⟩)

end Bytes
