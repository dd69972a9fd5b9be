import QuAPI.Framing
import QuAPI.PagePipe

/-!
# How the kernel moves the blocks

`flush_out` splices the pages of the current buffer into the pipe, and `flush_read` splices them
into the memory file of the reader. The pipe has 16 slots, each of which refers to a page of the
writer, and either call may move fewer bytes than it is asked to. `QuAPI.Transport` is the writer,
the pipe and the reader; its events are the uses of the writing end and what a single call of
`vmsplice` or `splice` moves, in any order.

The pages are not copied when they are put into the pipe, so that the writer may only change a
buffer that no slot refers to. It never does (`QuAPI.taken_as_sent`): it waits until all of a
buffer is in the pipe before it turns to the other one, and a buffer fills the pipe.

So the bytes arrive in order, none of them lost (`QuAPI.Transport.received_inOrder`). The blocks
do not: the loop of `flush_out` goes on until the block is in the pipe, while `flush_read` is
content with what a single call moves (`QuAPI.transfers_iff`).
-/

namespace QuAPI

open Bytes PagePipe

/-! ### The pipe and its two ends -/

/-- The number of slots of a pipe. -/
def pipeSlots : ℕ := 16

/-- The size of a page. -/
def pageSize : ℕ := 4096

/-- What a slot refers to: one of the two buffers. Which of the blocks it belongs to is kept beside
it, and is not read by anyone. -/
structure Ref where
  buf : Fin 2
  block : ℕ
deriving DecidableEq

/-- The loop of `flush_out`: what is left of the buffer, and the use of the pipe that asked for
room. -/
structure Flushing where
  base : ℕ
  len : ℕ
  op : Op

/-- The writer, the pipe, and the reader. -/
structure Transport where
  writer : ZerocopyPipe
  flushing : Option Flushing
  slots : List (Slot Ref)
  /-- What is in the memory file of the reader. -/
  file : List UInt8
  /-- The blocks, as they are when `flush_out` is called. -/
  sent : List (List UInt8)
  /-- The parts of pages that have been taken, with what has been found there. -/
  taken : List (Slot Ref × List UInt8)
  /-- What is in the memory file each time that `flush_read` returns true. -/
  received : List (List UInt8)

/-- What happens. -/
inductive TransferEvent where
  /-- A use of the writing end begins. -/
  | use (op : Op)
  /-- A call of `vmsplice` moves so many bytes, or none at all (`EAGAIN`). -/
  | vmsplice (moved : ℕ)
  /-- A call of `splice` moves so many bytes, or none at all (`EAGAIN`, or the end of input). -/
  | splice (moved : ℕ)

/-- A use calls `flush_out`. -/
def Op.Flushes (p : ZerocopyPipe) : Op → Prop
  | .flush => 0 < written p.current
  | op => bufSize ≤ sizeT (written p.current + op.size + wordSize)

instance (p : ZerocopyPipe) (op : Op) : Decidable (op.Flushes p) :=
  match op with
  | .flush => inferInstanceAs (Decidable (_ < _))
  | .write _ _ _ | .prepare _ _ | .inPlace _ _ _ => inferInstanceAs (Decidable (_ ≤ _))

/-- A use that calls no `flush_out`. -/
def ZerocopyPipe.use (p : ZerocopyPipe) (op : Op) : Option ZerocopyPipe :=
  if op.Flushes p then none else (p.perform op).map Call.pipe

namespace Transport

/-- Both ends have been opened. -/
def start (mem : Fin 2 → Memory) : Transport where
  writer := .fdopen mem
  flushing := none
  slots := []
  file := ReadPipe.fdopen.file
  sent := []
  taken := []
  received := []

variable (s : Transport)

/-- What a slot refers to is what is there now. -/
def memory : Ref → Memory := fun r => s.writer.buf r.buf

/-- One event. -/
def step : TransferEvent → Option Transport
  | .use op =>
    if s.flushing.isSome then none
    else if op.Flushes s.writer then
      if bufSize < written s.writer.current then none
      else some { s with flushing := some ⟨0, bufSize, op⟩, sent := s.sent ++ [s.writer.block] }
    else (s.writer.use op).map fun p => { s with writer := p }
  | .vmsplice n =>
    s.flushing.bind fun f =>
      let slots := s.slots ++
        pieces pageSize ⟨s.writer.currentBuf, s.sent.length - 1⟩ f.base n
      if n ≤ f.len ∧ slots.length ≤ pipeSlots then
        if f.len - n = 0 then
          (s.writer.switch.use f.op).map fun p =>
            { s with slots := slots, flushing := none, writer := p }
        else some { s with slots := slots, flushing := some ⟨f.base + n, f.len - n, f.op⟩ }
      else none
  | .splice n =>
    if n = 0 then some { s with file := [] }
    else if n ≤ size s.slots ∧ n ≤ bufSize then
      let parts := take n s.slots
      let file := content s.memory parts
      some { s with
        slots := drop n s.slots
        file := file
        taken := s.taken ++ parts.map fun t => (t, t.content s.memory)
        received := s.received ++ [file] }
    else none

/-- A run. -/
def run : Transport → List TransferEvent → Option Transport
  | s, [] => some s
  | s, e :: es => (s.step e).bind fun s => s.run es

end Transport

/-! ### A use that calls no `flush_out` -/

namespace ZerocopyPipe

variable {p p' : ZerocopyPipe} {op : Op} {c : Call Unit}

theorem flushes_iff (hop : op ≠ .flush) :
    op.Flushes p ↔ bufSize ≤ sizeT (written p.current + op.size + wordSize) := by
  cases op with
  | flush => exact absurd rfl hop
  | _ => exact Iff.rfl

theorem not_flushes_of_room (hop : op ≠ .flush)
    (h : written p.current + op.size + wordSize < bufSize) : ¬op.Flushes p := by
  rw [flushes_iff hop, sizeT_of_le h.le]
  exact not_le.mpr h

/-- A use that has no room, and does not notice since the sum wraps around, does not return. -/
theorem perform_of_wrapped (hop : op ≠ .flush) (h : ¬op.Flushes p)
    (hroom : ¬written p.current + op.size + wordSize < bufSize) (hperform : p.perform op = some c) :
    ∃ pos, c.pipe = { p with prepared := pos } := by
  have hfree : p.ensureSpaceFree op.size .done = some ⟨true, [], p⟩ := by
    rw [flushes_iff hop] at h
    rw [ensureSpaceFree, if_neg h]
  have hout : ¬wordSize + written p.current + op.size ≤ bufSize := by
    intro hle
    rw [flushes_iff hop, sizeT_of_le (by omega)] at h
    omega
  cases op with
  | flush => exact absurd rfl hop
  | write size count data =>
    -- the copy would leave the buffer
    change p.ensureSpaceFree (sizeT (size * count)) .done = _ at hfree
    change ¬wordSize + written p.current + sizeT (size * count) ≤ bufSize at hout
    have hput : p.put (.outside data) (sizeT (size * count)) = none := by
      rw [put]
      simp only [isPrepared, Bool.false_eq_true, if_false]
      rw [if_neg hout]
      rfl
    rw [perform, quapiZerocopyPipeWrite] at hperform
    simp only [hfree, Option.bind_some, Call.andThen_of_sent_nil, if_true, hput, Option.map_none,
      Option.bind_none] at hperform
    exact absurd hperform (by simp)
  | prepare size count =>
    change p.ensureSpaceFree (sizeT (size * count)) .done = _ at hfree
    rw [perform, quapiZerocopyPipePrepareWrite] at hperform
    simp only [hfree, Option.bind_some, Call.andThen_of_sent_nil, if_true] at hperform
    obtain rfl := Option.some.inj hperform
    exact ⟨_, rfl⟩
  | inPlace size count data =>
    -- and so would the bytes that the caller puts in place
    change p.ensureSpaceFree (sizeT (size * count)) .done = _ at hfree
    change ¬wordSize + written p.current + sizeT (size * count) ≤ bufSize at hout
    rw [perform, quapiZerocopyPipePrepareWrite] at hperform
    simp only [hfree, Option.bind_some, Call.andThen_of_sent_nil, if_true, fill] at hperform
    rw [if_neg hout] at hperform
    exact absurd hperform (by simp)

/-- **A use that calls no `flush_out`** leaves the other buffer as it is. -/
theorem use_local (h : p.use op = some p') : p'.currentBuf = p.currentBuf ∧ p'.other = p.other ∧
    (written p.current + wordSize < bufSize → written p'.current + wordSize < bufSize) := by
  rw [use] at h
  split at h
  case isTrue => exact absurd h (by simp)
  case isFalse hflush =>
    obtain ⟨c, hc, rfl⟩ := Option.map_eq_some_iff.mp h
    by_cases hop : op = .flush
    case pos =>
      subst hop
      change ¬0 < written p.current at hflush
      rw [perform, quapiZerocopyPipeFlush, if_neg hflush] at hc
      obtain rfl := Option.some.inj hc
      exact ⟨rfl, rfl, id⟩
    case neg =>
      -- there is room, or the sum of the sizes has wrapped around
      by_cases hroom : written p.current + op.size + wordSize < bufSize
      · obtain ⟨p', hperform, hpush⟩ := perform_of_room hop hroom
        obtain rfl := Option.some.inj (hperform.symm.trans hc)
        have hlen := op.length_writes_le
        refine ⟨hpush.currentBuf, hpush.other, ?_⟩
        intro _
        rw [hpush.counter]
        omega
      · obtain ⟨pos, heq⟩ := perform_of_wrapped hop hflush hroom hc
        rw [heq]
        exact ⟨rfl, rfl, id⟩

end ZerocopyPipe

/-! ### No buffer is changed as long as a slot refers to it -/

namespace Transport

/-- The number of a block, and the buffer it is in. -/
def current (s : Transport) (block : ℕ) : Ref := ⟨s.writer.currentBuf, block⟩

/-- **Between two calls of `flush_out`**: no slot refers to the current buffer. -/
structure Idle (s : Transport) : Prop where
  free : ∀ t ∈ s.slots, t.buf.buf ≠ s.writer.currentBuf
  flow : s.received.flatten ++ content s.memory s.slots = s.sent.flatten

/-- **Inside of `flush_out`**: the current buffer is the last block, and what has been moved of it
is behind everything else. -/
structure Moving (s : Transport) (f : Flushing) (blocks : List (List UInt8)) : Prop where
  sent : s.sent = blocks ++ [s.writer.block]
  len : f.base + f.len = bufSize
  filling : Filling (s.current blocks.length) f.base s.slots
  free : ∀ t ∈ s.slots, t.buf ≠ s.current blocks.length → t.buf.buf ≠ s.writer.currentBuf
  flow : s.received.flatten ++ content s.memory s.slots =
    blocks.flatten ++ bytesAt s.writer.current 0 f.base

/-- **What holds at any time**: a buffer that a slot refers to is the block as it has been sent,
and what has been taken is, too. -/
structure Kept (s : Transport) : Prop where
  kept : ∀ t ∈ s.slots, s.sent[t.buf.block]? = some (bytesAt (s.memory t.buf) 0 bufSize)
  range : ∀ t ∈ s.slots, t.len ≤ pageSize ∧ t.offset + t.len ≤ bufSize
  room : s.slots.length ≤ pipeSlots
  taken : ∀ x ∈ s.taken, ∃ b, s.sent[x.1.buf.block]? = some b ∧
    x.2 = bytesAt (ofList b) x.1.offset x.1.len
  order : (s.taken.map Prod.snd).flatten = s.received.flatten
  blocks : ∀ b ∈ s.sent, b.length = bufSize ∧ written (ofList b) + wordSize ≤ bufSize
  counter : written s.writer.current + wordSize < bufSize
  other : written s.writer.other + wordSize < bufSize

/-- The invariant. -/
structure Inv (s : Transport) : Prop extends Kept s where
  phase : (s.flushing = none ∧ s.Idle) ∨ ∃ f blocks, s.flushing = some f ∧ s.Moving f blocks

variable {s s' : Transport} {f : Flushing} {blocks : List (List UInt8)} {p : ZerocopyPipe}
  {n : ℕ}

theorem inv_start (mem : Fin 2 → Memory) : (start mem).Inv := by
  have hpacked := ZerocopyPipe.packed_fdopen mem
  refine ⟨⟨?_, ?_, Nat.zero_le _, ?_, rfl, ?_, hpacked.room, hpacked.other⟩,
    Or.inl ⟨rfl, ?_, rfl⟩⟩
  all_goals exact fun x hx => absurd hx List.not_mem_nil

/-- A change of the current buffer is not seen through the slots. -/
theorem memory_eq (hcur : s'.writer.currentBuf = s.writer.currentBuf)
    (hother : s'.writer.other = s.writer.other) {r : Ref} (h : r.buf ≠ s.writer.currentBuf) :
    s'.memory r = s.memory r := by
  have htwo : ∀ i j : Fin 2, i ≠ j → i = j + 1 := by decide
  have hr : r.buf = s.writer.currentBuf + 1 := htwo _ _ h
  have hr' : r.buf = s'.writer.currentBuf + 1 := hcur.symm ▸ hr
  have h1 : s.memory r = s.writer.other := by rw [memory, ZerocopyPipe.other, hr]
  have h2 : s'.memory r = s'.writer.other := by rw [memory, ZerocopyPipe.other, hr']
  rw [h1, h2, hother]

/-- **A use between two calls.** -/
theorem inv_use (h : s.Kept) (hidle : s.Idle) (hflush : s.flushing = none) {op : Op}
    (huse : s.writer.use op = some p) : ({ s with writer := p } : Transport).Inv := by
  obtain ⟨hcur, hother, hroom⟩ := ZerocopyPipe.use_local huse
  have hmem : ∀ t ∈ s.slots, ({ s with writer := p } : Transport).memory t.buf = s.memory t.buf :=
    fun t ht => memory_eq hcur hother (hidle.free t ht)
  refine ⟨⟨?_, h.range, h.room, h.taken, h.order, h.blocks, hroom h.counter, ?_⟩,
    Or.inl ⟨hflush, ?_, ?_⟩⟩
  · intro t ht
    rw [hmem t ht]
    exact h.kept t ht
  · rw [hother]
    exact h.other
  · intro t ht
    rw [hcur]
    exact hidle.free t ht
  · rw [content_congr hmem]
    exact hidle.flow

/-- **`flush_out` is called.** -/
theorem inv_flushOut (h : s.Kept) (hidle : s.Idle) (op : Op) :
    ({ s with flushing := some ⟨0, bufSize, op⟩, sent := s.sent ++ [s.writer.block] } :
      Transport).Inv := by
  have hstays : ∀ {i : ℕ} {b : List UInt8}, s.sent[i]? = some b →
      (s.sent ++ [s.writer.block])[i]? = some b := by
    intro i b hi
    rw [List.getElem?_append_left (List.getElem?_eq_some_iff.mp hi).1, hi]
  refine ⟨⟨fun t ht => hstays (h.kept t ht), h.range, h.room, ?_, h.order, ?_, h.counter, h.other⟩,
    Or.inr ⟨_, s.sent, rfl, ⟨rfl, Nat.zero_add _, ?_, ?_, ?_⟩⟩⟩
  · intro x hx
    obtain ⟨b, hb, hx⟩ := h.taken x hx
    exact ⟨b, hstays hb, hx⟩
  · intro b hb
    rcases List.mem_append.mp hb with hb | hb
    · exact h.blocks b hb
    · rw [List.mem_singleton.mp hb]
      refine ⟨ZerocopyPipe.length_block _, ?_⟩
      rw [ZerocopyPipe.written_block]
      exact h.counter.le
  · exact Filling.start fun t ht heq => hidle.free t ht (congrArg Ref.buf heq)
  · exact fun t ht _ => hidle.free t ht
  · exact hidle.flow.trans (List.append_nil _).symm

/-- The pieces of the current block are put behind what is in the pipe. -/
theorem moving_vmsplice (h : s.Kept) (hmoving : s.Moving f blocks) (hn : n ≤ f.len)
    (hroom : (s.slots ++ pieces pageSize (s.current blocks.length) f.base n).length ≤ pipeSlots) :
    ({ s with
        slots := s.slots ++ pieces pageSize (s.current blocks.length) f.base n
        flushing := some ⟨f.base + n, f.len - n, f.op⟩ } : Transport).Kept ∧
      ({ s with
        slots := s.slots ++ pieces pageSize (s.current blocks.length) f.base n
        flushing := some ⟨f.base + n, f.len - n, f.op⟩ } : Transport).Moving
          ⟨f.base + n, f.len - n, f.op⟩ blocks := by
  have hpage : 0 < pageSize := by decide
  have hlen := hmoving.len
  have hsent : s.sent[blocks.length]? = some s.writer.block := by
    rw [hmoving.sent, List.getElem?_concat_length]
  refine ⟨⟨?_, ?_, hroom, h.taken, h.order, h.blocks, h.counter, h.other⟩,
    ⟨hmoving.sent, ?_, ?_, ?_, ?_⟩⟩
  · intro t ht
    rcases List.mem_append.mp ht with ht | ht
    · exact h.kept t ht
    · obtain ⟨hbuf, -⟩ := mem_pieces hpage ht
      rw [hbuf]
      exact hsent
  · intro t ht
    rcases List.mem_append.mp ht with ht | ht
    · exact h.range t ht
    · obtain ⟨-, hle, hend⟩ := mem_pieces hpage ht
      exact ⟨hle, by omega⟩
  · change f.base + n + (f.len - n) = bufSize
    omega
  · exact hmoving.filling.put hpage f.base n
  · intro t ht hne
    rcases List.mem_append.mp ht with ht | ht
    · exact hmoving.free t ht hne
    · exact absurd (mem_pieces hpage ht).1 hne
  · change s.received.flatten ++ content s.memory (s.slots ++ _) =
      blocks.flatten ++ bytesAt s.writer.current 0 (f.base + n)
    rw [content_append, ← List.append_assoc, hmoving.flow, content_pieces hpage, bytesAt_add,
      List.append_assoc, Nat.zero_add]
    rfl

/-- **The end of `flush_out`**: the other buffer may be changed now. -/
theorem idle_switch (h : s.Kept) (hmoving : s.Moving f blocks) (hdone : f.len = 0) :
    ({ s with flushing := none, writer := s.writer.switch } : Transport).Kept ∧
      ({ s with flushing := none, writer := s.writer.switch } : Transport).Idle := by
  have hlen := hmoving.len
  have hbase : f.base = bufSize := by omega
  -- the block fills the pipe
  have hall : ∀ t ∈ s.slots, t.buf = s.current blocks.length :=
    hmoving.filling.done (by decide) (hbase.symm ▸ (by decide : pageSize * pipeSlots ≤ bufSize))
      (fun t ht => (h.range t ht).1) h.room
  have hother : s.writer.currentBuf ≠ s.writer.currentBuf + 1 := by
    generalize s.writer.currentBuf = i
    revert i
    decide
  have hmem : ∀ t ∈ s.slots, s.memory t.buf =
      ({ s with flushing := none, writer := s.writer.switch } : Transport).memory t.buf := by
    intro t ht
    rw [hall t ht]
    exact (Function.update_of_ne hother _ _).symm
  refine ⟨⟨?_, h.range, h.room, h.taken, h.order, h.blocks, ?_, ?_⟩, ⟨?_, ?_⟩⟩
  · intro t ht
    rw [← hmem t ht]
    exact h.kept t ht
  · exact ZerocopyPipe.room_of_eq_zero (ZerocopyPipe.written_switch _)
  · change written s.writer.switch.other + wordSize < bufSize
    rw [ZerocopyPipe.other_switch]
    exact h.counter
  · intro t ht
    rw [hall t ht]
    exact hother
  · rw [← content_congr hmem]
    change s.received.flatten ++ content s.memory s.slots = s.sent.flatten
    rw [hmoving.flow, hbase, hmoving.sent, List.flatten_append, List.flatten_singleton,
      ZerocopyPipe.block]

/-- **The reader takes bytes** out of the pipe. -/
theorem inv_splice (h : s.Inv) (n : ℕ) : ({ s with
    slots := drop n s.slots
    file := content s.memory (take n s.slots)
    taken := s.taken ++ (take n s.slots).map fun t => (t, t.content s.memory)
    received := s.received ++ [content s.memory (take n s.slots)] } : Transport).Inv := by
  have hflow : (s.received ++ [content s.memory (take n s.slots)]).flatten ++
      content s.memory (drop n s.slots) = s.received.flatten ++ content s.memory s.slots := by
    rw [List.flatten_append, List.flatten_singleton, List.append_assoc, content_take, content_drop,
      List.take_append_drop]
  refine ⟨⟨?_, ?_, ?_, ?_, ?_, h.blocks, h.counter, h.other⟩, ?_⟩
  · intro t ht
    obtain ⟨u, hu, hbuf, -⟩ := mem_drop ht
    rw [hbuf]
    exact h.kept u hu
  · intro t ht
    obtain ⟨u, hu, -, hle, hend⟩ := mem_drop ht
    obtain ⟨hpage, hrange⟩ := h.range u hu
    exact ⟨hle.trans hpage, hend.trans_le hrange⟩
  · exact (length_drop_le n s.slots).trans h.room
  · intro x hx
    rcases List.mem_append.mp hx with hx | hx
    · exact h.taken x hx
    · -- a part of a page that is still as it has been sent
      obtain ⟨t, ht, rfl⟩ := List.mem_map.mp hx
      obtain ⟨u, hu, hbuf, hle, hoff⟩ := mem_take ht
      obtain ⟨-, hrange⟩ := h.range u hu
      have hcontent : t.content s.memory =
          bytesAt (ofList (bytesAt (s.memory u.buf) 0 bufSize)) t.offset t.len := by
        rw [bytesAt_ofList (by omega), Slot.content, hbuf]
      exact ⟨bytesAt (s.memory u.buf) 0 bufSize, hbuf.symm ▸ h.kept u hu, hcontent⟩
  · rw [List.map_append, List.flatten_append, h.order, List.flatten_append, List.flatten_singleton,
      List.map_map]
    rfl
  · rcases h.phase with ⟨hflush, hidle⟩ | ⟨f, blocks, hflush, hmoving⟩
    · refine Or.inl ⟨hflush, ?_, hflow.trans hidle.flow⟩
      intro t ht
      obtain ⟨u, hu, hbuf, -⟩ := mem_drop ht
      exact hbuf ▸ hidle.free u hu
    · refine Or.inr ⟨f, blocks, hflush, hmoving.sent, hmoving.len, hmoving.filling.take n, ?_,
        hflow.trans hmoving.flow⟩
      intro t ht hne
      obtain ⟨u, hu, hbuf, -⟩ := mem_drop ht
      exact hbuf ▸ hmoving.free u hu (hbuf ▸ hne)

/-- **One event** keeps the invariant. -/
theorem inv_step {e : TransferEvent} (h : s.Inv) (hstep : s.step e = some s') : s'.Inv := by
  cases e with
  | use op =>
    rw [step] at hstep
    split at hstep
    case isTrue => exact absurd hstep (by simp)
    case isFalse hflush =>
      have hnone : s.flushing = none := Option.not_isSome_iff_eq_none.mp hflush
      rcases h.phase with ⟨-, hidle⟩ | ⟨f, blocks, hsome, -⟩
      · split at hstep
        · split at hstep
          · exact absurd hstep (by simp)
          · obtain rfl := Option.some.inj hstep
            exact inv_flushOut h.toKept hidle op
        · obtain ⟨p, hp, rfl⟩ := Option.map_eq_some_iff.mp hstep
          exact inv_use h.toKept hidle hnone hp
      · exact absurd (hnone.symm.trans hsome) (by simp)
  | vmsplice n =>
    rw [step] at hstep
    obtain ⟨f, hf, hstep⟩ := Option.bind_eq_some_iff.mp hstep
    rcases h.phase with ⟨hnone, -⟩ | ⟨g, blocks, hg, hmoving⟩
    · exact absurd (hnone.symm.trans hf) (by simp)
    · obtain rfl := Option.some.inj (hf.symm.trans hg)
      have hblock : (⟨s.writer.currentBuf, s.sent.length - 1⟩ : Ref) = s.current blocks.length := by
        rw [hmoving.sent, List.length_append, List.length_singleton, Nat.add_sub_cancel, current]
      simp only [hblock] at hstep
      split at hstep
      case isFalse => exact absurd hstep (by simp)
      case isTrue hmove =>
        obtain ⟨hkept, hmoving'⟩ := moving_vmsplice h.toKept hmoving hmove.1 hmove.2
        split at hstep
        case isTrue hdone =>
          obtain ⟨p, hp, rfl⟩ := Option.map_eq_some_iff.mp hstep
          obtain ⟨hkept', hidle⟩ := idle_switch hkept hmoving' hdone
          exact inv_use hkept' hidle rfl hp
        case isFalse =>
          obtain rfl := Option.some.inj hstep
          exact ⟨hkept, Or.inr ⟨_, blocks, rfl, hmoving'⟩⟩
  | splice n =>
    rw [step] at hstep
    split at hstep
    · obtain rfl := Option.some.inj hstep
      exact ⟨⟨h.kept, h.range, h.room, h.taken, h.order, h.blocks, h.counter, h.other⟩,
        h.phase.imp (fun ⟨hf, hi⟩ => ⟨hf, hi.free, hi.flow⟩) fun ⟨f, blocks, hf, hm⟩ =>
          ⟨f, blocks, hf, hm.sent, hm.len, hm.filling, hm.free, hm.flow⟩⟩
    · split at hstep
      · obtain rfl := Option.some.inj hstep
        exact inv_splice h n
      · exact absurd hstep (by simp)

theorem run_append {es es' : List TransferEvent} (hrun : s.run es = some s') :
    s.run (es ++ es') = s'.run es' := by
  induction es generalizing s with
  | nil => rw [Option.some.inj hrun, List.nil_append]
  | cons e es ih =>
    obtain ⟨t, ht, hrest⟩ := Option.bind_eq_some_iff.mp hrun
    rw [List.cons_append, run, ht, Option.bind_some, ih hrest]

/-- **A run** keeps the invariant. -/
theorem inv_run {es : List TransferEvent} (h : s.Inv) (hrun : s.run es = some s') : s'.Inv := by
  induction es generalizing s with
  | nil => exact Option.some.inj hrun ▸ h
  | cons e es ih =>
    obtain ⟨t, ht, hrest⟩ := Option.bind_eq_some_iff.mp hrun
    exact ih (inv_step h ht) hrest

/-! ### The bytes and the blocks -/

/-- **The bytes arrive in order**, and none of them is lost. -/
theorem received_inOrder (h : s.Inv) : s.received.flatten <+: s.sent.flatten := by
  rcases h.phase with ⟨-, hidle⟩ | ⟨f, blocks, -, hmoving⟩
  · exact ⟨_, hidle.flow⟩
  · have hpart : bytesAt s.writer.current 0 f.base <+: s.writer.block := by
      rw [ZerocopyPipe.block, ← hmoving.len, bytesAt_add]
      exact List.prefix_append _ _
    have hflow := hmoving.flow
    rw [hmoving.sent, List.flatten_append, List.flatten_singleton]
    have hput : s.received.flatten <+: blocks.flatten ++ bytesAt s.writer.current 0 f.base :=
      ⟨_, hflow⟩
    exact hput.trans ((List.prefix_append_right_inj _).mpr hpart)

/-- What the calls of `splice` move that move something. -/
def splices (es : List TransferEvent) : List ℕ :=
  es.filterMap fun e =>
    match e with
    | .splice n => if n = 0 then none else some n
    | _ => none

theorem mem_splices {es : List TransferEvent} : n ∈ splices es ↔ .splice n ∈ es ∧ n ≠ 0 := by
  rw [splices, List.mem_filterMap]
  constructor
  · rintro ⟨e, he, hn⟩
    cases e with
    | splice k =>
      simp only [Option.ite_none_left_eq_some, Option.some.injEq] at hn
      obtain ⟨hk, rfl⟩ := hn
      exact ⟨he, hk⟩
    | use op => exact absurd hn (by simp)
    | vmsplice k => exact absurd hn (by simp)
  · rintro ⟨he, hn⟩
    exact ⟨_, he, if_neg hn⟩

/-- A call that moves something leaves that many bytes in the memory file. -/
theorem received_step {e : TransferEvent} (hstep : s.step e = some s') :
    s'.received.map List.length = s.received.map List.length ++ splices [e] := by
  have hsame : s'.received = s.received → splices [e] = [] →
      s'.received.map List.length = s.received.map List.length ++ splices [e] := fun h1 h2 => by
    rw [h1, h2, List.append_nil]
  cases e with
  | use op =>
    refine hsame ?_ rfl
    rw [step] at hstep
    split at hstep
    · exact absurd hstep (by simp)
    split at hstep
    · split at hstep
      · exact absurd hstep (by simp)
      · rw [← Option.some.inj hstep]
    · obtain ⟨p, -, rfl⟩ := Option.map_eq_some_iff.mp hstep
      rfl
  | vmsplice n =>
    refine hsame ?_ rfl
    rw [step] at hstep
    obtain ⟨f, -, hstep⟩ := Option.bind_eq_some_iff.mp hstep
    simp only [] at hstep
    split at hstep
    · split at hstep
      · obtain ⟨p, -, rfl⟩ := Option.map_eq_some_iff.mp hstep
        rfl
      · rw [← Option.some.inj hstep]
    · exact absurd hstep (by simp)
  | splice n =>
    rw [step] at hstep
    split at hstep
    case isTrue hzero =>
      refine hsame ?_ ?_
      · rw [← Option.some.inj hstep]
      · rw [hzero]
        rfl
    case isFalse hn =>
      split at hstep
      case isFalse => exact absurd hstep (by simp)
      case isTrue hmove =>
        obtain rfl := Option.some.inj hstep
        -- as many bytes as the splice takes
        have hone : splices [.splice n] = [n] := by
          simp only [splices, List.filterMap_cons, List.filterMap_nil, if_neg hn]
        have hlen : (content s.memory (take n s.slots)).length = n := by
          rw [content_take, List.length_take, length_content, Nat.min_eq_left hmove.1]
        rw [hone, List.map_append, List.map_singleton, hlen]

theorem received_run {es : List TransferEvent} (hrun : s.run es = some s') :
    s'.received.map List.length = s.received.map List.length ++ splices es := by
  induction es generalizing s with
  | nil => rw [← Option.some.inj hrun, splices, List.filterMap_nil, List.append_nil]
  | cons e es ih =>
    obtain ⟨t, ht, hrest⟩ := Option.bind_eq_some_iff.mp hrun
    have hcons : splices ([e] ++ es) = splices [e] ++ splices es := List.filterMap_append
    rw [ih hrest, received_step ht, List.append_assoc, ← hcons, List.singleton_append]

/-- **The blocks arrive**: what `flush_read` leaves in the memory file are the blocks as they have
been sent, in order, and no more is announced than has arrived. -/
def Faithful (s : Transport) : Prop :=
  s.received <+: s.sent ∧ ∀ f ∈ s.received, wordSize + written (ofList f) ≤ f.length

end Transport

open Transport

variable {mem : Fin 2 → Memory} {es : List TransferEvent} {s : Transport}

theorem step_use {op : Op} {p : ZerocopyPipe} (h : s.flushing = none)
    (huse : s.writer.use op = some p) :
    s.step (.use op) = some { s with writer := p } := by
  have hflush : ¬op.Flushes s.writer := by
    intro hflushes
    rw [ZerocopyPipe.use, if_pos hflushes] at huse
    exact absurd huse (by simp)
  rw [Transport.step, h, if_neg (by decide), if_neg hflush, huse, Option.map_some]

theorem step_flushOut {op : Op} (h : s.flushing = none) (hflushes : op.Flushes s.writer)
    (hle : written s.writer.current ≤ bufSize) : s.step (.use op) = some { s with
      flushing := some ⟨0, bufSize, op⟩
      sent := s.sent ++ [s.writer.block] } := by
  rw [Transport.step, h, if_neg (by decide), if_pos hflushes, if_neg (not_lt.mpr hle)]

theorem step_vmsplice {f : Flushing} {n : ℕ} {slots : List (Slot Ref)} (h : s.flushing = some f)
    (hn : n < f.len)
    (hslots : slots = s.slots ++
      pieces pageSize ⟨s.writer.currentBuf, s.sent.length - 1⟩ f.base n)
    (hroom : slots.length ≤ pipeSlots) : s.step (.vmsplice n) = some { s with
      slots := slots
      flushing := some ⟨f.base + n, f.len - n, f.op⟩ } := by
  subst hslots
  rw [Transport.step, h, Option.bind_some]
  simp only []
  rw [if_pos ⟨hn.le, hroom⟩, if_neg (by omega)]

theorem step_vmsplice_done {f : Flushing} {p : ZerocopyPipe} {slots : List (Slot Ref)}
    (h : s.flushing = some f)
    (hslots : slots = s.slots ++
      pieces pageSize ⟨s.writer.currentBuf, s.sent.length - 1⟩ f.base f.len)
    (hroom : slots.length ≤ pipeSlots) (huse : s.writer.switch.use f.op = some p) :
    s.step (.vmsplice f.len) = some { s with
      slots := slots
      flushing := none
      writer := p } := by
  subst hslots
  rw [Transport.step, h, Option.bind_some]
  simp only []
  rw [if_pos ⟨le_rfl, hroom⟩, if_pos (Nat.sub_self _), huse, Option.map_some]

theorem step_splice {n : ℕ} (hn : n ≠ 0) (hsize : n ≤ size s.slots) (hle : n ≤ bufSize) :
    s.step (.splice n) = some { s with
      slots := drop n s.slots
      file := content s.memory (take n s.slots)
      taken := s.taken ++ (take n s.slots).map fun t => (t, t.content s.memory)
      received := s.received ++ [content s.memory (take n s.slots)] } := by
  rw [Transport.step, if_neg hn, if_pos ⟨hsize, hle⟩]

/-- `flush_out` has been called for the first time. -/
structure FirstFlush (s : Transport) (p : ZerocopyPipe) : Prop where
  writer : s.writer = p
  currentBuf : p.currentBuf = 0
  flushing : s.flushing = some ⟨0, bufSize, .flush⟩
  slots : s.slots = []
  sent : s.sent = [p.block]
  received : s.received = []
  taken : s.taken = []

/-- `n` bytes are written, and `flush_out` is called. -/
theorem exists_run_flush {n : ℕ} (hpos : 0 < n) (hn : n + wordSize < bufSize) :
    ∃ (p : ZerocopyPipe) (s : Transport), written p.current = n ∧ FirstFlush s p ∧
      (Transport.start fun _ _ => 0).run [.use (.write n 1 fun _ => 7), .use .flush] = some s := by
  have hsize : (Op.write n 1 fun _ => 7).size = n := by
    rw [Op.size, Nat.mul_one, sizeT_of_le (by omega)]
  have hzero : written (Transport.start fun _ _ => 0).writer.current = 0 := written_setWritten _ 0
  have hroom : written (Transport.start fun _ _ => 0).writer.current +
      (Op.write n 1 fun _ => 7).size + wordSize < bufSize := by
    rw [hzero, hsize, Nat.zero_add]
    exact hn
  obtain ⟨p, hperform, hpush⟩ := ZerocopyPipe.perform_of_room Op.noConfusion hroom
  have hwritten : written p.current = n := by
    rw [hpush.counter, hzero, Op.writes, List.flatten_singleton, length_bytesAt, Nat.zero_add]
    exact hsize
  have hflush : ¬(Op.write n 1 fun _ => 7).Flushes (Transport.start fun _ _ => 0).writer :=
    ZerocopyPipe.not_flushes_of_room Op.noConfusion hroom
  have huse : (Transport.start fun _ _ => 0).writer.use (.write n 1 fun _ => 7) = some p := by
    rw [ZerocopyPipe.use, if_neg hflush, hperform, Option.map_some]
  have hflushes : Op.flush.Flushes p := by
    change 0 < written p.current
    rw [hwritten]
    exact hpos
  have hfirst : (Transport.start fun _ _ => 0).step (.use (.write n 1 fun _ => 7)) =
      some { Transport.start fun _ _ => 0 with writer := p } := step_use rfl huse
  have hle : written p.current ≤ bufSize := by omega
  have hsecond : ({ Transport.start fun _ _ => 0 with writer := p } : Transport).step
      (.use .flush) = some { Transport.start fun _ _ => 0 with
        writer := p
        flushing := some ⟨0, bufSize, .flush⟩
        sent := [] ++ [p.block] } := step_flushOut rfl hflushes hle
  have hall : (Transport.start fun _ _ => 0).run [.use (.write n 1 fun _ => 7), .use .flush] =
      some { Transport.start fun _ _ => 0 with
        writer := p
        flushing := some ⟨0, bufSize, .flush⟩
        sent := [] ++ [p.block] } := by
    rw [Transport.run, hfirst, Option.bind_some, Transport.run, hsecond, Option.bind_some,
      Transport.run]
  refine ⟨p, _, hwritten, ?_, hall⟩
  exact ⟨rfl, hpush.currentBuf, rfl, rfl, List.nil_append _, rfl, rfl⟩

/-- A page of the block is moved, and taken. -/
theorem exists_run_page {p : ZerocopyPipe} (h : FirstFlush s p) :
    ∃ t, s.run [.vmsplice pageSize, .splice pageSize] = some t ∧ t.sent = [p.block] ∧
      t.received = [bytesAt p.current 0 pageSize] ∧
        t.taken = [(⟨⟨0, 0⟩, 0, pageSize⟩, bytesAt p.current 0 pageSize)] := by
  obtain ⟨hw, hcur, hflush, hslots, hsent, hreceived, htaken⟩ := h
  have hpage : pieces pageSize (⟨0, 0⟩ : Ref) 0 pageSize = [⟨⟨0, 0⟩, 0, pageSize⟩] := by
    decide +kernel
  have hpiece : [(⟨⟨0, 0⟩, 0, pageSize⟩ : Slot Ref)] =
      s.slots ++ pieces pageSize ⟨s.writer.currentBuf, s.sent.length - 1⟩ 0 pageSize := by
    rw [hslots, hw, hcur, hsent]
    exact hpage.symm
  have hmove := step_vmsplice hflush (by decide : pageSize < bufSize) hpiece (by decide)
  have hmemory : s.memory ⟨0, 0⟩ = p.current := by
    rw [Transport.memory, hw, ZerocopyPipe.current, hcur]
  have hrun : ∀ t, s.step (.vmsplice pageSize) = some t →
      s.run [.vmsplice pageSize, .splice pageSize] = t.step (.splice pageSize) := by
    intro t ht
    rw [Transport.run, ht, Option.bind_some, Transport.run]
    exact Option.bind_fun_some _
  have hfront : take pageSize [(⟨⟨0, 0⟩, 0, pageSize⟩ : Slot Ref)] =
      [⟨⟨0, 0⟩, 0, pageSize⟩] := by
    rw [take, if_neg (lt_irrefl _), take]
  have hsize : pageSize ≤ size [(⟨⟨0, 0⟩, 0, pageSize⟩ : Slot Ref)] := by
    rw [size_cons]
    exact Nat.le_add_right _ _
  refine ⟨_, (hrun _ hmove).trans (step_splice (by decide) hsize (by decide)), hsent, ?_, ?_⟩
  · dsimp only
    rw [hreceived, hfront, List.nil_append, content_cons]
    refine congrArg (fun l => [l]) ?_
    exact (List.append_nil _).trans (congrArg (bytesAt · 0 pageSize) hmemory)
  · dsimp only
    rw [htaken, hfront, List.nil_append, List.map_singleton]
    exact congrArg (fun l => [(_, l)]) (congrArg (bytesAt · 0 pageSize) hmemory)

/-- The block is moved, and taken, as a whole. -/
theorem exists_run_block {p : ZerocopyPipe} (h : FirstFlush s p) :
    ∃ t, s.run [.vmsplice bufSize, .splice bufSize] = some t ∧ t.received.length = 1 := by
  obtain ⟨-, -, hflush, hslots, hsent, hreceived, -⟩ := h
  have hzero : written s.writer.switch.current = 0 := ZerocopyPipe.written_switch _
  have hempty : ¬0 < written s.writer.switch.current := hzero.symm ▸ lt_irrefl 0
  have hflushes : ¬Op.flush.Flushes s.writer.switch := hempty
  have huse : s.writer.switch.use .flush = some s.writer.switch := by
    rw [ZerocopyPipe.use, if_neg hflushes, ZerocopyPipe.perform,
      ZerocopyPipe.quapiZerocopyPipeFlush, if_neg hempty, Option.map_some]
  have hlength : ∀ i : Fin 2, (pieces pageSize (⟨i, 0⟩ : Ref) 0 bufSize).length ≤ pipeSlots := by
    decide +kernel
  have hmove := step_vmsplice_done hflush rfl (by
    rw [hslots, hsent, List.nil_append]
    exact hlength _) huse
  have hrun : ∀ t, s.step (.vmsplice bufSize) = some t →
      s.run [.vmsplice bufSize, .splice bufSize] = t.step (.splice bufSize) := by
    intro t ht
    rw [Transport.run, ht, Option.bind_some, Transport.run]
    exact Option.bind_fun_some _
  have hsize : bufSize ≤ size (s.slots ++
      pieces pageSize (⟨s.writer.currentBuf, s.sent.length - 1⟩ : Ref) 0 bufSize) := by
    rw [size_append, size_pieces (by decide)]
    exact Nat.le_add_left _ _
  refine ⟨_, (hrun _ hmove).trans (step_splice (by decide) hsize le_rfl), ?_⟩
  dsimp only
  rw [hreceived, List.nil_append, List.length_singleton]

/-- **No page is changed in flight**: for every sequence of uses of the writing end, and every
order in which pages or parts of pages are put into the pipe and taken out of it, what is taken is
what was there when `flush_out` was called for that block, and all that is taken is in the order of
the blocks. -/
theorem taken_as_sent (h : (Transport.start mem).run es = some s) :
    (∀ x ∈ s.taken, ∃ b, s.sent[x.1.buf.block]? = some b ∧
      x.2 = bytesAt (ofList b) x.1.offset x.1.len) ∧
    (s.taken.map Prod.snd).flatten <+: s.sent.flatten := by
  have hinv := inv_run (inv_start mem) h
  refine ⟨hinv.taken, ?_⟩
  rw [hinv.order]
  exact received_inOrder hinv

/-- Two blocks: two pages and a half of the first one are taken, the second one is written and sent
while the rest of the first one is in the pipe, and what is taken next is of both. -/
def twoBlocks : List TransferEvent :=
  [.use (.write 5000 1 fun _ => 7), .use .flush, .vmsplice bufSize,
    .use (.write 6000 1 fun _ => 8), .use .flush, .splice 10000, .vmsplice 5000, .splice 57000]

theorem page_taken_as_sent : ∃ s : Transport,
    (Transport.start fun _ _ => 0).run twoBlocks = some s ∧
      (s.taken.map fun x => x.1.buf.block).count 0 = 17 ∧
      (s.taken.map fun x => x.1.buf.block).count 1 = 1 ∧
      ∀ x ∈ s.taken, ∃ b, s.sent[x.1.buf.block]? = some b ∧
        x.2 = bytesAt (ofList b) x.1.offset x.1.len := by
  have hrun : ((Transport.start fun _ _ => 0).run twoBlocks).map (fun s =>
      ((s.taken.map fun x => x.1.buf.block).count 0,
        (s.taken.map fun x => x.1.buf.block).count 1)) = some (17, 1) := by
    decide +kernel
  obtain ⟨s, hs, hcount⟩ := Option.map_eq_some_iff.mp hrun
  obtain ⟨hfirst, hsecond⟩ := Prod.mk.inj hcount
  exact ⟨s, hs, hfirst, hsecond, (taken_as_sent hs).1⟩

/-- **When the blocks arrive**: if and only if every call of `splice` that moves something moves a
whole block. -/
theorem transfers_iff (h : (Transport.start mem).run es = some s) :
    s.Faithful ↔ ∀ n, .splice n ∈ es → n ≠ 0 → n = bufSize := by
  have hinv := inv_run (inv_start mem) h
  have hlengths : s.received.map List.length = splices es := received_run h
  constructor
  · rintro ⟨hinitial, -⟩ n hn hne
    have hmem : n ∈ s.received.map List.length := hlengths.symm ▸ mem_splices.mpr ⟨hn, hne⟩
    obtain ⟨f, hf, rfl⟩ := List.mem_map.mp hmem
    exact (hinv.blocks f (hinitial.subset hf)).1
  · intro hall
    have hfull : ∀ f ∈ s.received, f.length = bufSize := fun f hf => by
      have hmem : f.length ∈ splices es := hlengths ▸ List.mem_map_of_mem hf
      obtain ⟨he, hne⟩ := mem_splices.mp hmem
      exact hall _ he hne
    have hinitial : s.received <+: s.sent :=
      prefix_of_flatten_prefix (by decide) hfull (fun b hb => (hinv.blocks b hb).1)
        (received_inOrder hinv)
    refine ⟨hinitial, ?_⟩
    intro f hf
    obtain ⟨hlen, hroom⟩ := hinv.blocks f (hinitial.subset hf)
    rw [hlen, Nat.add_comm]
    exact hroom

/-- A block that arrives as a whole. -/
theorem block_received : ∃ s : Transport,
    (Transport.start fun _ _ => 0).run [.use (.write 5000 1 fun _ => 7), .use .flush,
        .vmsplice bufSize, .splice bufSize] = some s ∧ s.received.length = 1 ∧ s.Faithful := by
  obtain ⟨p, s₀, -, hfirst, hrun⟩ := exists_run_flush (by decide : 0 < 5000) (by decide)
  obtain ⟨s, hblock, hreceived⟩ := exists_run_block hfirst
  have hall := (Transport.run_append hrun).trans hblock
  refine ⟨s, hall, hreceived, (transfers_iff hall).mpr ?_⟩
  intro n hn _
  simpa using hn

/-- A call of `splice` moves the first page of a block. The call of `flush_read` returns true, and
the block announces more than has arrived. -/
theorem block_received_in_part : ∃ (s : Transport) (f : List UInt8),
    (Transport.start fun _ _ => 0).run [.use (.write 5000 1 fun _ => 7), .use .flush,
        .vmsplice pageSize, .splice pageSize] = some s ∧
      s.received = [f] ∧ f.length = pageSize ∧ written (ofList f) = 5000 ∧ ¬s.Faithful := by
  obtain ⟨p, s₀, hwritten, hfirst, hrun⟩ := exists_run_flush (by decide : 0 < 5000) (by decide)
  obtain ⟨s, hpage, -, hreceived, -⟩ := exists_run_page hfirst
  have hword : written (ofList (bytesAt p.current 0 pageSize)) = 5000 := by
    rw [← hwritten]
    exact written_congr (bytesAt_ofList (by decide))
  refine ⟨s, _, (Transport.run_append hrun).trans hpage, hreceived, length_bytesAt _ _ _, hword, ?_⟩
  rintro ⟨-, hall⟩
  have hle := hall _ (hreceived ▸ List.mem_singleton_self _)
  rw [hword, length_bytesAt] at hle
  exact absurd hle (by decide)

end QuAPI
