import QuAPI.Bytes

/-!
# A pipe of pages

A pipe has a fixed number of slots, and a slot is a part of one page. Pages that are spliced into
the pipe are not copied: a slot only refers to a buffer of the writer (`PagePipe.Slot`), and what
it holds is what the buffer holds when the slot is read (`PagePipe.content`).

A writer may therefore not change a buffer as long as a slot refers to it. The second half of this
file is about a writer that splices its buffers one behind the other. When a buffer that takes up
as many pages as there are slots is in the pipe as a whole, nothing that was put there before is
left (`PagePipe.Filling.done`), however the bytes have been moved.
-/

namespace PagePipe

open Bytes

variable {ι : Type*}

/-! ### Slots -/

/-- A slot: `len` bytes of a buffer, from `offset` on. -/
structure Slot (ι : Type*) where
  buf : ι
  offset : ℕ
  len : ℕ
deriving DecidableEq

/-- What a slot holds. -/
def Slot.content (mem : ι → Memory) (s : Slot ι) : List UInt8 := bytesAt (mem s.buf) s.offset s.len

/-- What a pipe holds. -/
def content (mem : ι → Memory) (q : List (Slot ι)) : List UInt8 := q.flatMap (Slot.content mem)

/-- The number of bytes in a pipe. -/
def size (q : List (Slot ι)) : ℕ := (q.map Slot.len).sum

variable {mem mem' : ι → Memory} {q old new : List (Slot ι)} {b : ι} {page off n k : ℕ}

theorem content_cons (s : Slot ι) (q : List (Slot ι)) :
    content mem (s :: q) = s.content mem ++ content mem q := List.flatMap_cons

theorem content_append (old new : List (Slot ι)) :
    content mem (old ++ new) = content mem old ++ content mem new := List.flatMap_append

theorem size_cons (s : Slot ι) (q : List (Slot ι)) : size (s :: q) = s.len + size q := by
  rw [size, List.map_cons, List.sum_cons, size]

theorem size_append (old new : List (Slot ι)) : size (old ++ new) = size old + size new := by
  rw [size, List.map_append, List.sum_append, size, size]

theorem length_content (mem : ι → Memory) (q : List (Slot ι)) :
    (content mem q).length = size q := by
  induction q with
  | nil => rfl
  | cons s q ih =>
    rw [content_cons, List.length_append, ih, size_cons, Slot.content, length_bytesAt]

/-- A change of a buffer that no slot refers to is not seen. -/
theorem content_congr (h : ∀ s ∈ q, mem s.buf = mem' s.buf) : content mem q = content mem' q := by
  induction q with
  | nil => rfl
  | cons s q ih =>
    have hs : s.content mem = s.content mem' := by
      rw [Slot.content, h s List.mem_cons_self, Slot.content]
    rw [content_cons, content_cons, hs, ih fun t ht => h t (List.mem_cons_of_mem _ ht)]

/-- A slot holds no more than a page. -/
theorem size_le (h : ∀ s ∈ q, s.len ≤ page) : size q ≤ page * q.length := by
  induction q with
  | nil => exact Nat.zero_le _
  | cons s q ih =>
    have hs : s.len ≤ page := h s List.mem_cons_self
    have hrest : size q ≤ page * q.length := ih fun t ht => h t (List.mem_cons_of_mem _ ht)
    rw [size_cons, List.length_cons, Nat.mul_succ]
    omega

/-! ### Putting bytes into a pipe -/

/-- The `n` bytes of a buffer from `off` on, with a slot for each page. -/
def pieces (page : ℕ) (b : ι) (off n : ℕ) : List (Slot ι) :=
  let k := min n (page - off % page)
  if k = 0 then [] else ⟨b, off, k⟩ :: pieces page b (off + k) (n - k)
termination_by n
decreasing_by omega

theorem pieces_zero (page : ℕ) (b : ι) (off : ℕ) : pieces page b off 0 = [] := by
  rw [pieces]
  exact if_pos (Nat.zero_min _)

theorem pieces_of_pos (hpage : 0 < page) (hn : 0 < n) (b : ι) (off : ℕ) :
    ∃ k, 0 < k ∧ k ≤ n ∧ k ≤ page ∧
      pieces page b off n = ⟨b, off, k⟩ :: pieces page b (off + k) (n - k) := by
  have hrest : 0 < page - off % page := Nat.sub_pos_of_lt (Nat.mod_lt off hpage)
  have hk : min n (page - off % page) ≠ 0 := by omega
  refine ⟨min n (page - off % page), Nat.pos_of_ne_zero hk, Nat.min_le_left _ _, by omega, ?_⟩
  rw [pieces]
  exact if_neg hk

/-- **The pieces hold the bytes.** -/
theorem content_pieces (hpage : 0 < page) (mem : ι → Memory) (b : ι) (off n : ℕ) :
    content mem (pieces page b off n) = bytesAt (mem b) off n := by
  -- on the length: the first piece ends with its page
  induction n using Nat.strong_induction_on generalizing off with
  | _ n ih =>
    rcases Nat.eq_zero_or_pos n with rfl | hn
    · rw [pieces_zero]
      rfl
    · obtain ⟨k, hk, hkn, -, heq⟩ := pieces_of_pos hpage hn b off
      rw [heq, content_cons, ih (n - k) (Nat.sub_lt hn hk), Slot.content, ← bytesAt_add,
        Nat.add_sub_cancel' hkn]

theorem size_pieces (hpage : 0 < page) (b : ι) (off n : ℕ) : size (pieces page b off n) = n := by
  rw [← length_content (fun _ _ => 0), content_pieces hpage, length_bytesAt]

theorem mem_pieces (hpage : 0 < page) {s : Slot ι} (hs : s ∈ pieces page b off n) :
    s.buf = b ∧ s.len ≤ page ∧ s.offset + s.len ≤ off + n := by
  induction n using Nat.strong_induction_on generalizing off with
  | _ n ih =>
    rcases Nat.eq_zero_or_pos n with rfl | hn
    · rw [pieces_zero] at hs
      exact absurd hs List.not_mem_nil
    · obtain ⟨k, hk, hkn, hkpage, heq⟩ := pieces_of_pos hpage hn b off
      rw [heq] at hs
      rcases List.mem_cons.mp hs with rfl | hs
      · exact ⟨rfl, hkpage, Nat.add_le_add_left hkn off⟩
      · obtain ⟨hbuf, hlen, hend⟩ := ih (n - k) (Nat.sub_lt hn hk) hs
        refine ⟨hbuf, hlen, ?_⟩
        omega

/-! ### Taking bytes out of a pipe -/

/-- The `n` bytes at the front. -/
def take : ℕ → List (Slot ι) → List (Slot ι)
  | _, [] => []
  | n, s :: q => if n < s.len then [⟨s.buf, s.offset, n⟩] else s :: take (n - s.len) q

/-- What is left when `n` bytes have been taken. -/
def drop : ℕ → List (Slot ι) → List (Slot ι)
  | _, [] => []
  | n, s :: q => if n < s.len then ⟨s.buf, s.offset + n, s.len - n⟩ :: q else drop (n - s.len) q

/-- **The bytes leave the pipe at its front.** -/
theorem content_drop (mem : ι → Memory) (n : ℕ) (q : List (Slot ι)) :
    content mem (drop n q) = (content mem q).drop n := by
  induction q generalizing n with
  | nil => exact List.drop_nil.symm
  | cons s q ih =>
    rw [drop]
    split
    case isTrue h =>
      have hpart : Slot.content mem ⟨s.buf, s.offset + n, s.len - n⟩ = (s.content mem).drop n :=
        (drop_bytesAt h.le).symm
      rw [content_cons, content_cons, hpart, List.drop_append_of_le_length]
      rw [Slot.content, length_bytesAt]
      exact h.le
    case isFalse h =>
      have hs : (s.content mem).length = s.len := length_bytesAt _ _ _
      rw [ih, content_cons, List.drop_append, hs,
        List.drop_eq_nil_of_le (hs.le.trans (not_lt.mp h)), List.nil_append]

theorem length_drop_le (n : ℕ) (q : List (Slot ι)) : (drop n q).length ≤ q.length := by
  induction q generalizing n with
  | nil => exact le_rfl
  | cons s q ih =>
    rw [drop]
    split
    · exact le_rfl
    · exact (ih _).trans (Nat.le_succ _)

theorem mem_drop {s : Slot ι} (hs : s ∈ drop n q) :
    ∃ t ∈ q, s.buf = t.buf ∧ s.len ≤ t.len ∧ s.offset + s.len = t.offset + t.len := by
  induction q generalizing n with
  | nil => exact absurd hs List.not_mem_nil
  | cons t q ih =>
    rw [drop] at hs
    split at hs
    case isTrue h =>
      rcases List.mem_cons.mp hs with rfl | hs
      · refine ⟨t, List.mem_cons_self, rfl, Nat.sub_le _ _, ?_⟩
        change t.offset + n + (t.len - n) = t.offset + t.len
        omega
      · exact ⟨s, List.mem_cons_of_mem _ hs, rfl, le_rfl, rfl⟩
    case isFalse =>
      obtain ⟨u, hu, h⟩ := ih hs
      exact ⟨u, List.mem_cons_of_mem _ hu, h⟩

theorem content_take (mem : ι → Memory) (n : ℕ) (q : List (Slot ι)) :
    content mem (take n q) = (content mem q).take n := by
  induction q generalizing n with
  | nil => exact List.take_nil.symm
  | cons s q ih =>
    rw [take]
    split
    case isTrue h =>
      have hs : n ≤ (s.content mem).length := h.le.trans (length_bytesAt _ _ _).ge
      rw [content_cons, content_cons, List.take_append_of_le_length hs]
      exact (List.append_nil _).trans (take_bytesAt h.le).symm
    case isFalse h =>
      have hs : (s.content mem).length = s.len := length_bytesAt _ _ _
      rw [content_cons, ih, content_cons, List.take_append, hs,
        List.take_of_length_le (hs.le.trans (not_lt.mp h))]

theorem mem_take {s : Slot ι} (hs : s ∈ take n q) :
    ∃ t ∈ q, s.buf = t.buf ∧ s.len ≤ t.len ∧ s.offset = t.offset := by
  induction q generalizing n with
  | nil => exact absurd hs List.not_mem_nil
  | cons t q ih =>
    rw [take] at hs
    split at hs
    case isTrue h =>
      rw [List.mem_singleton.mp hs]
      exact ⟨t, List.mem_cons_self, rfl, h.le, rfl⟩
    case isFalse =>
      rcases List.mem_cons.mp hs with rfl | hs
      · exact ⟨s, List.mem_cons_self, rfl, le_rfl, rfl⟩
      · obtain ⟨u, hu, h⟩ := ih hs
        exact ⟨u, List.mem_cons_of_mem _ hu, h⟩

/-- What is taken comes out of the old slots, as long as there are some. -/
theorem drop_append (n : ℕ) (old new : List (Slot ι)) :
    (∃ old', drop n (old ++ new) = old' ++ new ∧ old' = drop n old) ∨
      ∃ m, drop n (old ++ new) = drop m new := by
  induction old generalizing n with
  | nil => exact Or.inr ⟨n, rfl⟩
  | cons s old ih =>
    -- the first slot is enough, or it is used up
    by_cases h : n < s.len
    · refine Or.inl ⟨⟨s.buf, s.offset + n, s.len - n⟩ :: old, ?_, ?_⟩
      · rw [List.cons_append, drop, if_pos h, List.cons_append]
      · rw [drop, if_pos h]
    · rw [List.cons_append, drop, if_neg h, drop, if_neg h]
      exact ih (n - s.len)

/-! ### One buffer behind the other -/

/-- **The first `n` bytes of a buffer have been put into the pipe**, behind what was there before.
As long as something of that is left, all of the `n` bytes are. -/
def Filling (b : ι) (n : ℕ) (q : List (Slot ι)) : Prop :=
  ∃ old new, q = old ++ new ∧ (∀ s ∈ old, s.buf ≠ b) ∧ (∀ s ∈ new, s.buf = b) ∧
    (old ≠ [] → size new = n)

theorem Filling.start (h : ∀ s ∈ q, s.buf ≠ b) : Filling b 0 q :=
  ⟨q, [], (List.append_nil q).symm, h, fun _ hs => absurd hs List.not_mem_nil, fun _ => rfl⟩

/-- More bytes are put into the pipe. -/
theorem Filling.put (hpage : 0 < page) (h : Filling b n q) (off k : ℕ) :
    Filling b (n + k) (q ++ pieces page b off k) := by
  obtain ⟨old, new, rfl, hold, hnew, hsize⟩ := h
  refine ⟨old, new ++ pieces page b off k, List.append_assoc _ _ _, hold, ?_, ?_⟩
  · intro s hs
    rcases List.mem_append.mp hs with hs | hs
    · exact hnew s hs
    · exact (mem_pieces hpage hs).1
  · intro hne
    rw [size_append, size_pieces hpage, hsize hne]

/-- Bytes are taken out of the pipe. -/
theorem Filling.take (h : Filling b n q) (k : ℕ) : Filling b n (drop k q) := by
  obtain ⟨old, new, rfl, hold, hnew, hsize⟩ := h
  rcases drop_append k old new with ⟨old', heq, rfl⟩ | ⟨m, heq⟩
  -- some of the old slots are left, so that nothing of the buffer has been taken
  · refine ⟨drop k old, new, heq, ?_, hnew, fun hne => hsize ?_⟩
    · intro s hs
      obtain ⟨t, ht, hst, -⟩ := mem_drop hs
      exact hst ▸ hold t ht
    · intro hnil
      exact hne (by rw [hnil, drop])
  · refine ⟨[], drop m new, heq, fun s hs => absurd hs List.not_mem_nil, ?_,
      fun hne => absurd rfl hne⟩
    intro s hs
    obtain ⟨t, ht, hst, -⟩ := mem_drop hs
    exact hst.trans (hnew t ht)

/-- **When a buffer with a page for each slot is in the pipe, nothing else is left there.** -/
theorem Filling.done (h : Filling b n q) {slots : ℕ} (hpage : 0 < page) (hn : page * slots ≤ n)
    (hlen : ∀ s ∈ q, s.len ≤ page) (hslots : q.length ≤ slots) : ∀ s ∈ q, s.buf = b := by
  obtain ⟨old, new, rfl, -, hnew, hsize⟩ := h
  have hold : old = [] := by
    by_contra hne
    -- an old slot would leave too few of them for the pages of the buffer
    have hfull : size new ≤ page * new.length :=
      size_le fun s hs => hlen s (List.mem_append_right _ hs)
    have hroom : new.length + 1 ≤ slots := by
      have hpos : 0 < old.length := List.length_pos_iff.mpr hne
      rw [List.length_append] at hslots
      omega
    have hless : page * (new.length + 1) ≤ page * slots := Nat.mul_le_mul_left page hroom
    rw [Nat.mul_succ] at hless
    rw [hsize hne] at hfull
    omega
  subst hold
  exact hnew

end PagePipe
