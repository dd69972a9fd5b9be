import Mathlib.Tactic

/-!
# A pipe with several readers

One writer, a buffer in front of a pipe, and readers that come and go. A reader takes
items off the front of the pipe for as long as it is alive and has not taken a final item; it
may be made to read on behind that, too (`SharedPipe.Pipe.readOn`). Nothing tells the readers
apart on the writer's side, so what a reader gets depends on what the readers before it have
left.

* `SharedPipe.Owned` is the case in which that does not matter: all readers but the
  youngest have stopped reading, so that only the youngest takes what is left. Every
  operation keeps it (`SharedPipe.Owned.take`, `SharedPipe.Owned.close`), a new reader as
  long as the youngest has stopped reading, too (`SharedPipe.Owned.start`).
* `SharedPipe.Alike` compares two such pipes up to the readers that were there before: the
  same items are left, and the same names still read. Every operation of the one can be
  followed by the other (`SharedPipe.Alike.take` and its siblings).
-/

namespace SharedPipe

variable {α ι : Type*}

/-! ### The pipe and its operations -/

/-- A reader. -/
structure Reader (α ι : Type*) where
  name : ι
  alive : Bool
  /-- What it has taken off the pipe. -/
  taken : List α
deriving DecidableEq

/-- The pipe with its readers, the oldest first. -/
structure Pipe (α ι : Type*) where
  /-- What the writer has not flushed yet. -/
  buffer : List α
  /-- What has been flushed and not been taken. -/
  pipe : List α
  readers : List (Reader α ι)

/-- What no reader has taken. -/
def Pipe.queue (p : Pipe α ι) : List α := p.pipe ++ p.buffer

/-- A reader reads until it dies or has taken a final item. -/
def Reader.Reads (final : α → Bool) (r : Reader α ι) : Prop :=
  r.alive = true ∧ ∀ x ∈ r.taken, final x = false

instance (final : α → Bool) (r : Reader α ι) : Decidable (r.Reads final) :=
  inferInstanceAs (Decidable (_ ∧ _))

/-- The readers of the given name die. -/
def Reader.close [DecidableEq ι] (name : ι) (r : Reader α ι) : Reader α ι :=
  if r.name = name then { r with alive := false } else r

/-- The readers of the given name that still read take `xs`. -/
def Reader.take [DecidableEq ι] (final : α → Bool) (name : ι) (xs : List α) (r : Reader α ι) :
    Reader α ι :=
  if r.name = name ∧ r.Reads final then { r with taken := r.taken ++ xs } else r

/-- The items up to the first final one. -/
def upTo (final : α → Bool) : List α → List α
  | [] => []
  | x :: xs => if final x then [x] else x :: upTo final xs

/-- A reader with the given name reads. -/
def Reading (final : α → Bool) (readers : List (Reader α ι)) (name : ι) : Prop :=
  ∃ r ∈ readers, r.name = name ∧ r.Reads final

instance [DecidableEq ι] (final : α → Bool) (readers : List (Reader α ι)) (name : ι) :
    Decidable (Reading final readers name) :=
  inferInstanceAs (Decidable (∃ r ∈ readers, r.name = name ∧ r.Reads final))

namespace Pipe

variable (p : Pipe α ι)

/-- The writer appends items to its buffer. -/
def write (xs : List α) : Pipe α ι := { p with buffer := p.buffer ++ xs }

/-- The writer flushes the first `n` items of its buffer. -/
def flush (n : ℕ) : Pipe α ι :=
  { p with pipe := p.pipe ++ p.buffer.take n, buffer := p.buffer.drop n }

/-- A new reader. -/
def start (name : ι) : Pipe α ι := { p with readers := p.readers ++ [⟨name, true, []⟩] }

/-- A reader dies. -/
def close [DecidableEq ι] (name : ι) : Pipe α ι :=
  { p with readers := p.readers.map fun r => r.close name }

/-- A reader takes `n` items, if it reads and they are there. -/
def take [DecidableEq ι] (final : α → Bool) (name : ι) (n : ℕ) : Option (Pipe α ι) :=
  if Reading final p.readers name ∧ n ≤ p.pipe.length then
    some { p with
      pipe := p.pipe.drop n
      readers := p.readers.map fun r => r.take final name (p.pipe.take n) }
  else none

/-- The `i`-th reader, which has taken a final item, takes `n` more. -/
def readOn (final : α → Bool) (i n : ℕ) : Option (Pipe α ι) :=
  if ((p.readers[i]?).any fun r => r.alive && r.taken.any final) ∧ n ≤ p.pipe.length then
    some { p with
      pipe := p.pipe.drop n
      readers := p.readers.modify i fun r => { r with taken := r.taken ++ p.pipe.take n } }
  else none

end Pipe

section

variable {final : α → Bool} {p q : Pipe α ι} {r : Reader α ι} {xs ys : List α}

@[simp] theorem queue_write : (p.write xs).queue = p.queue ++ xs := by
  simp only [Pipe.queue, Pipe.write, List.append_assoc]

@[simp] theorem queue_flush (n : ℕ) : (p.flush n).queue = p.queue := by
  simp only [Pipe.queue, Pipe.flush, List.append_assoc, List.take_append_drop]

/-- Flushing the whole buffer. -/
theorem pipe_flush_all : (p.flush p.buffer.length).pipe = p.queue := by
  simp only [Pipe.queue, Pipe.flush, List.take_length]

/-- What a reader has read up to a final item is the front of what it has read. -/
theorem prefix_upTo (final : α → Bool) (xs : List α) : upTo final xs <+: xs := by
  induction xs with
  | nil => exact List.nil_prefix
  | cons x xs ih =>
    rw [upTo]
    split
    · exact List.prefix_append [x] xs
    · exact (List.prefix_cons_inj x).mpr ih

theorem mem_of_mem_upTo {x : α} (h : x ∈ upTo final xs) : x ∈ xs :=
  (prefix_upTo final xs).subset h

/-- Where there is a final item, they end with one. -/
theorem upTo_of_mem (h : ∃ x ∈ xs, final x = true) :
    ∃ ys x, upTo final xs = ys ++ [x] ∧ final x = true := by
  induction xs with
  | nil =>
    obtain ⟨x, hx, -⟩ := h
    exact absurd hx List.not_mem_nil
  | cons y xs ih =>
    by_cases hy : final y = true
    · exact ⟨[], y, by rw [upTo, if_pos hy]; rfl, hy⟩
    · obtain ⟨x, hx, hfinal⟩ := h
      obtain ⟨ys, z, hz, hf⟩ := ih ⟨x, (List.mem_cons.mp hx).resolve_left fun he =>
        hy (he ▸ hfinal), hfinal⟩
      exact ⟨y :: ys, z, by rw [upTo, if_neg hy, hz]; rfl, hf⟩

theorem upTo_of_forall (h : ∀ x ∈ xs, final x = false) : upTo final xs = xs := by
  induction xs with
  | nil => rfl
  | cons x xs ih =>
    have hx : ¬final x = true := by
      rw [h x List.mem_cons_self]
      exact Bool.false_ne_true
    rw [upTo, if_neg hx, ih fun y hy => h y (List.mem_cons_of_mem _ hy)]

/-- Behind a final item, nothing counts any more. -/
theorem upTo_append (h : ∃ x ∈ xs, final x = true) : upTo final (xs ++ ys) = upTo final xs := by
  induction xs with
  | nil =>
    obtain ⟨x, hx, -⟩ := h
    exact absurd hx List.not_mem_nil
  | cons x xs ih =>
    rw [List.cons_append, upTo, upTo]
    -- the first final item ends both, wherever it is in front of `ys`
    by_cases hf : final x = true
    · rw [if_pos hf, if_pos hf]
    · rw [if_neg hf, if_neg hf, ih]
      obtain ⟨y, hy, hy'⟩ := h
      rcases List.mem_cons.mp hy with rfl | hy
      · exact absurd hy' hf
      · exact ⟨y, hy, hy'⟩

/-- A prefix that has read up to a final item has read all there is up to it. -/
theorem upTo_of_prefix (h : ys <+: xs) : upTo final ys <+: upTo final xs := by
  obtain ⟨t, rfl⟩ := h
  by_cases hf : ∃ x ∈ ys, final x = true
  · rw [upTo_append hf]
  -- what has been read so far counts to its end
  · have hys : ∀ x ∈ ys, final x = false := by
      intro x hx
      rcases Bool.eq_false_or_eq_true (final x) with hc | hc
      · exact absurd ⟨x, hx, hc⟩ hf
      · exact hc
    rw [upTo_of_forall hys]
    clear hf
    induction ys with
    | nil => exact List.nil_prefix
    | cons y ys ih =>
      have hy : ¬final y = true := by
        rw [hys y List.mem_cons_self]
        exact Bool.false_ne_true
      rw [List.cons_append, upTo, if_neg hy]
      exact List.prefix_cons_inj y |>.mpr (ih fun x hx => hys x (List.mem_cons_of_mem _ hx))

/-- A reader that has just been started can take what is there. -/
theorem take_young [DecidableEq ι] (final : α → Bool) {rs : List (Reader α ι)} {name : ι} {n : ℕ}
    (hp : p.readers = rs ++ [⟨name, true, []⟩]) (hn : n ≤ p.pipe.length) : ∃ q,
      p.take final name n = some q ∧ q.readers.drop rs.length = [⟨name, true, p.pipe.take n⟩] := by
  have hreads : (⟨name, true, []⟩ : Reader α ι).Reads final := ⟨rfl, List.forall_mem_nil _⟩
  have hmem : (⟨name, true, []⟩ : Reader α ι) ∈ p.readers := by
    rw [hp]
    exact List.mem_append_right _ (List.mem_singleton.mpr rfl)
  refine ⟨_, if_pos ⟨⟨_, hmem, rfl, hreads⟩, hn⟩, ?_⟩
  change (p.readers.map _).drop _ = _
  rw [hp, ← List.map_drop, List.drop_left, List.map_singleton, Reader.take,
    if_pos ⟨rfl, hreads⟩, List.nil_append]

end

/-! ### Everything left is for the youngest reader -/

/-- **What is left is for the youngest reader** `r`: the older ones have stopped reading,
and what each of them has taken is as it should be (`P`, for the entry of `olds` that
belongs to it). -/
def Owned {β : Type*} (final : α → Bool) (P : List α → β → Prop) (p : Pipe α ι)
    (olds : List β) (r : Reader α ι) : Prop :=
  ∃ rs, p.readers = rs ++ [r] ∧ (∀ s ∈ rs, ¬s.Reads final) ∧
    List.Forall₂ (fun s b => P s.taken b) rs olds

section Owned

variable {β : Type*} {final : α → Bool} {P : List α → β → Prop} {p q : Pipe α ι}
  {olds : List β} {b : β} {r : Reader α ι}

theorem Owned.mem (h : Owned final P p olds r) : r ∈ p.readers := by
  obtain ⟨rs, hp, -⟩ := h
  rw [hp]
  exact List.mem_append_right _ (List.mem_singleton.mpr rfl)

/-- A reader that reads is the youngest. -/
theorem Owned.eq_of_reads (h : Owned final P p olds r) {s : Reader α ι} (hs : s ∈ p.readers)
    (hreads : s.Reads final) : s = r := by
  obtain ⟨rs, hp, hstop, -⟩ := h
  rw [hp] at hs
  rcases List.mem_append.mp hs with hs | hs
  · exact absurd hreads (hstop s hs)
  · exact List.mem_singleton.mp hs

/-- **What every reader has taken is as it should be.** -/
theorem Owned.forall₂ (h : Owned final P p olds r) (hr : P r.taken b) :
    List.Forall₂ (fun s b => P s.taken b) p.readers (olds ++ [b]) := by
  obtain ⟨rs, hp, -, hold⟩ := h
  rw [hp]
  exact List.rel_append hold (List.Forall₂.cons hr List.Forall₂.nil)

/-- Only the readers count. -/
theorem Owned.of_readers (h : Owned final P p olds r) (hq : q.readers = p.readers) :
    Owned final P q olds r := by
  obtain ⟨rs, hp, hrest⟩ := h
  exact ⟨rs, hq.trans hp, hrest⟩

/-- **Reading on** gives the youngest reader the front of what is left, if it is the one. -/
theorem Owned.readOn (h : Owned final P p olds r) {i n : ℕ} (hi : i + 1 = p.readers.length)
    (hq : p.readOn final i n = some q) :
    r.alive = true ∧ ∃ s, Owned final P q olds s ∧ s.taken ++ q.queue = r.taken ++ p.queue := by
  rw [Pipe.readOn] at hq
  split at hq
  case isFalse => exact absurd hq (by simp)
  case isTrue hg =>
    obtain rfl := Option.some.inj hq
    obtain ⟨rs, hp, hstop, hold⟩ := h
    obtain rfl : i = rs.length := by
      rw [hp, List.length_append, List.length_singleton] at hi
      exact Nat.succ.inj hi
    have halive : r.alive = true := by
      rw [hp, List.getElem?_concat_length, Option.any_some, Bool.and_eq_true] at hg
      exact hg.1.1
    refine ⟨halive, { r with taken := r.taken ++ p.pipe.take n }, ⟨rs, ?_, hstop, hold⟩, ?_⟩
    · change p.readers.modify _ _ = _
      rw [hp, List.modify_eq_take_drop, List.take_left, List.drop_left]
      rfl
    · change r.taken ++ p.pipe.take n ++ (p.pipe.drop n ++ p.buffer) = _
      rw [Pipe.queue, ← List.append_assoc, List.append_assoc r.taken, List.take_append_drop,
        List.append_assoc]

theorem owned_start_nil (h : p.readers = []) (name : ι) :
    Owned final P (p.start name) [] ⟨name, true, []⟩ := by
  refine ⟨[], ?_, List.forall_mem_nil _, List.Forall₂.nil⟩
  change p.readers ++ _ = _
  rw [h]

/-- **A new reader**, once the youngest one has stopped reading. -/
theorem Owned.start (h : Owned final P p olds r) (hr : P r.taken b) (hstop : ¬r.Reads final)
    (name : ι) : Owned final P (p.start name) (olds ++ [b]) ⟨name, true, []⟩ := by
  refine ⟨p.readers, rfl, ?_, h.forall₂ hr⟩
  intro s hs hreads
  rw [h.eq_of_reads hs hreads] at hreads
  exact hstop hreads

variable [DecidableEq ι] {name : ι} {n : ℕ}

theorem taken_close (name : ι) (r : Reader α ι) : (r.close name).taken = r.taken := by
  rw [Reader.close]
  split <;> rfl

theorem alive_of_close (h : (r.close name).alive = true) : r.alive = true := by
  rw [Reader.close] at h
  split at h
  · exact absurd h Bool.false_ne_true
  · exact h

theorem reads_of_close (h : (r.close name).Reads final) : r.Reads final := by
  refine ⟨alive_of_close h.1, ?_⟩
  rw [← taken_close name r]
  exact h.2

/-- Dying changes nothing but the readers' being alive. -/
theorem Owned.close (h : Owned final P p olds r) (name : ι) :
    Owned final P (p.close name) olds (r.close name) := by
  obtain ⟨rs, hp, hstop, hold⟩ := h
  refine ⟨rs.map fun r => r.close name, ?_, ?_, ?_⟩
  · change p.readers.map _ = _
    rw [hp, List.map_append, List.map_singleton]
  · intro s hs
    obtain ⟨t, ht, rfl⟩ := List.mem_map.mp hs
    exact fun hc => hstop t ht (reads_of_close hc)
  · rw [List.forall₂_map_left_iff]
    refine hold.imp ?_
    intro s w hw
    rwa [taken_close]

/-- **Taking** gives the youngest reader the front of what is left. -/
theorem Owned.take (h : Owned final P p olds r) (ht : p.take final name n = some q) :
    r.Reads final ∧ ∃ s, Owned final P q olds s ∧ s.taken ++ q.queue = r.taken ++ p.queue := by
  rw [Pipe.take] at ht
  split at ht
  case isFalse => exact absurd ht (by simp)
  case isTrue hg =>
    obtain rfl := Option.some.inj ht
    obtain ⟨⟨s, hs, hname, hreads⟩, hn⟩ := hg
    obtain rfl := h.eq_of_reads hs hreads
    obtain ⟨rs, hp, hstop, hold⟩ := h
    -- the others are left alone
    have hrs : rs.map (fun r => r.take final name (p.pipe.take n)) = rs := by
      refine (List.map_congr_left ?_).trans (List.map_id rs)
      intro t ht
      exact if_neg fun hc => hstop t ht hc.2
    refine ⟨hreads, { s with taken := s.taken ++ p.pipe.take n }, ⟨rs, ?_, hstop, hold⟩, ?_⟩
    · change p.readers.map _ = _
      rw [hp, List.map_append, hrs, List.map_singleton, Reader.take, if_pos ⟨hname, hreads⟩]
    · change s.taken ++ p.pipe.take n ++ (p.pipe.drop n ++ p.buffer) = _
      rw [Pipe.queue, ← List.append_assoc, List.append_assoc s.taken,
        List.take_append_drop, List.append_assoc]

end Owned

/-! ### Two pipes alike up to their older readers -/

/-- **Two pipes are alike**, up to the `m` oldest readers of the one and the `n` oldest of
the other, where the same is left in both, the same names still read among these, and the
younger readers are the same. -/
structure Alike (final : α → Bool) (m n : ℕ) (p q : Pipe α ι) : Prop where
  queue : p.queue = q.queue
  le : m ≤ p.readers.length ∧ n ≤ q.readers.length
  young : p.readers.drop m = q.readers.drop n
  old : ∀ name, Reading final (p.readers.take m) name ↔ Reading final (q.readers.take n) name

section Alike

variable {final : α → Bool} {m n : ℕ} {p q : Pipe α ι}

theorem Alike.symm (h : Alike final m n p q) : Alike final n m q p :=
  ⟨h.queue.symm, h.le.symm, h.young.symm, fun name => (h.old name).symm⟩

theorem reading_append {rs ss : List (Reader α ι)} {name : ι} :
    Reading final (rs ++ ss) name ↔ Reading final rs name ∨ Reading final ss name := by
  simp only [Reading, List.mem_append, or_and_right, exists_or]

theorem Alike.reading (h : Alike final m n p q) (name : ι) :
    Reading final p.readers name ↔ Reading final q.readers name := by
  rw [← List.take_append_drop m p.readers, ← List.take_append_drop n q.readers,
    reading_append, reading_append, h.old, h.young]

/-- Pipes in which the same is left and the same names read. -/
theorem alike_of_reading (hq : p.queue = q.queue)
    (hr : ∀ name, Reading final p.readers name ↔ Reading final q.readers name) :
    Alike final p.readers.length q.readers.length p q := by
  refine ⟨hq, ⟨le_rfl, le_rfl⟩, ?_, ?_⟩
  · rw [List.drop_length, List.drop_length]
  · rwa [List.take_length, List.take_length]

theorem Alike.write (h : Alike final m n p q) (xs : List α) :
    Alike final m n (p.write xs) (q.write xs) := by
  refine ⟨?_, h.le, h.young, h.old⟩
  rw [queue_write, queue_write, h.queue]

theorem Alike.flush (h : Alike final m n p q) (i j : ℕ) :
    Alike final m n (p.flush i) (q.flush j) := by
  refine ⟨?_, h.le, h.young, h.old⟩
  rw [queue_flush, queue_flush, h.queue]

theorem Alike.start (h : Alike final m n p q) (name : ι) :
    Alike final m n (p.start name) (q.start name) := by
  obtain ⟨hm, hn⟩ := h.le
  refine ⟨h.queue, ⟨?_, ?_⟩, ?_, fun k => ?_⟩
  · exact hm.trans (List.length_append.symm ▸ Nat.le_add_right _ _)
  · exact hn.trans (List.length_append.symm ▸ Nat.le_add_right _ _)
  · change (p.readers ++ _).drop m = (q.readers ++ _).drop n
    rw [List.drop_append_of_le_length hm, List.drop_append_of_le_length hn, h.young]
  · change Reading final ((p.readers ++ _).take m) k ↔ Reading final ((q.readers ++ _).take n) k
    rw [List.take_append_of_le_length hm, List.take_append_of_le_length hn]
    exact h.old k

variable [DecidableEq ι]

/-- Who still reads after a death. -/
theorem reading_close {rs : List (Reader α ι)} {name k : ι} :
    Reading final (rs.map fun r => r.close name) k ↔ k ≠ name ∧ Reading final rs k := by
  constructor
  · rintro ⟨r, hr, rfl, hreads⟩
    obtain ⟨s, hs, rfl⟩ := List.mem_map.mp hr
    rw [Reader.close] at hreads ⊢
    by_cases hname : s.name = name
    · rw [if_pos hname] at hreads
      exact absurd hreads.1 Bool.false_ne_true
    · rw [if_neg hname] at hreads ⊢
      exact ⟨hname, s, hs, rfl, hreads⟩
  · rintro ⟨hk, r, hr, rfl, hreads⟩
    exact ⟨r, List.mem_map.mpr ⟨r, hr, if_neg hk⟩, rfl, hreads⟩

/-- Who still reads after `xs` has been taken. -/
theorem reading_take {rs : List (Reader α ι)} {name k : ι} {xs : List α} :
    Reading final (rs.map fun r => r.take final name xs) k ↔
      Reading final rs k ∧ (k = name → ∀ x ∈ xs, final x = false) := by
  constructor
  · rintro ⟨r, hr, rfl, hreads⟩
    obtain ⟨s, hs, rfl⟩ := List.mem_map.mp hr
    rw [Reader.take] at hreads ⊢
    by_cases hc : s.name = name ∧ s.Reads final
    · rw [if_pos hc] at hreads ⊢
      exact ⟨⟨s, hs, rfl, hc.2⟩, fun _ x hx => hreads.2 x (List.mem_append_right _ hx)⟩
    · rw [if_neg hc] at hreads ⊢
      exact ⟨⟨s, hs, rfl, hreads⟩, fun hk => absurd ⟨hk, hreads⟩ hc⟩
  · rintro ⟨⟨r, hr, rfl, hreads⟩, hx⟩
    refine ⟨_, List.mem_map.mpr ⟨r, hr, rfl⟩, ?_⟩
    rw [Reader.take]
    split
    case isTrue hc =>
      refine ⟨rfl, hreads.1, fun x hx' => ?_⟩
      rcases List.mem_append.mp hx' with hx' | hx'
      · exact hreads.2 x hx'
      · exact hx hc.1 x hx'
    case isFalse hc => exact ⟨rfl, hreads⟩

omit [DecidableEq ι] in
/-- The same change to the readers of both. -/
theorem Alike.map {p' q' : Pipe α ι} (h : Alike final m n p q) {f : Reader α ι → Reader α ι}
    (hf : ∀ rs ss : List (Reader α ι), (∀ name, Reading final rs name ↔ Reading final ss name) →
      ∀ name, Reading final (rs.map f) name ↔ Reading final (ss.map f) name)
    (hp : p'.readers = p.readers.map f) (hq : q'.readers = q.readers.map f)
    (hqueue : p'.queue = q'.queue) : Alike final m n p' q' := by
  obtain ⟨hm, hn⟩ := h.le
  refine ⟨hqueue, ⟨?_, ?_⟩, ?_, ?_⟩
  · rwa [hp, List.length_map]
  · rwa [hq, List.length_map]
  · rw [hp, hq, ← List.map_drop, ← List.map_drop, h.young]
  · rw [hp, hq, ← List.map_take, ← List.map_take]
    exact hf _ _ h.old

theorem Alike.close (h : Alike final m n p q) (name : ι) :
    Alike final m n (p.close name) (q.close name) := by
  refine h.map (fun rs ss hr k => ?_) rfl rfl h.queue
  rw [reading_close, reading_close, hr]

/-- **What a reader of the one pipe takes, the reader of the same name takes from the
other**, once that has been flushed. -/
theorem Alike.take (h : Alike final m n p q) {name : ι} {k : ℕ} {p' : Pipe α ι}
    (ht : p.take final name k = some p') : ∃ q',
      (q.flush q.buffer.length).take final name k = some q' ∧ Alike final m n p' q' := by
  rw [Pipe.take] at ht
  split at ht
  case isFalse => exact absurd ht (by simp)
  case isTrue hg =>
    obtain rfl := Option.some.inj ht
    obtain ⟨hread, hk⟩ := hg
    have hpipe : (q.flush q.buffer.length).pipe = p.pipe ++ p.buffer :=
      pipe_flush_all.trans h.queue.symm
    have hbuffer : (q.flush q.buffer.length).buffer = [] := List.drop_length
    have htake : (q.flush q.buffer.length).pipe.take k = p.pipe.take k := by
      rw [hpipe, List.take_append_of_le_length hk]
    have hle : k ≤ (q.flush q.buffer.length).pipe.length := by
      rw [hpipe, List.length_append]
      exact hk.trans (Nat.le_add_right _ _)
    refine ⟨_, if_pos ⟨(h.reading name).mp hread, hle⟩, ?_⟩
    refine h.map (f := fun r => r.take final name (p.pipe.take k)) (fun rs ss hr j => ?_) rfl ?_ ?_
    · rw [reading_take, reading_take, hr]
    · change q.readers.map _ = _
      rw [htake]
    · change p.pipe.drop k ++ p.buffer = _ ++ _
      rw [hpipe, hbuffer, List.append_nil, List.drop_append_of_le_length hk]

end Alike

end SharedPipe
